import Dirlist.Hmap.Effect

/-! What `hmap_add`, `hmap_set` and `hmap_delete` do to the representation. The one update
that does not keep it is the reuse of an emptied root slot whose ring still holds other
tuples: appending the root to its own ring closes the ring on the root alone. -/

namespace Dirlist
open Run Ring

variable {db : HmapDb} {ts : Addr → List Addr} {ord : List Addr} {key : Bytes}

/-! ## Putting in a key -/

/-- The invariant after the tuple `p` took a new key. -/
theorem HmapInv.put (hi : HmapInv db ts ord) {db' : HmapDb} (p : Addr) (l' : List Addr)
    {t : Tuple} (hk : key ≠ []) (hno : ∀ a ∈ ord, keyAt db.cells a ≠ some key)
    (hsize : db'.bucketSize = db.bucketSize) (hbrk : db.brk ≤ db'.brk)
    (hfresh : ∀ a, db'.brk ≤ a → db'.cells a = none)
    (hcount : db'.tupleCount = db.tupleCount + 1)
    (hp : db'.cells p = some t) (htk : t.key = key) (hti : t.index = db.indexOf key)
    (hmem : ∀ a, a ∈ db.indexOf key :: l' ↔ a = p ∨ a ∈ db.indexOf key :: ts (db.indexOf key))
    (hhigh : ∀ a ∈ l', db.bucketSize ≤ a) (hl : IsBucket db'.cells (db.indexOf key) l')
    (hcore : ∀ a, a ≠ p → headAt db'.cells a = headAt db.cells a)
    (hother : ∀ j < db.bucketSize, j ≠ db.indexOf key → ∀ a ∈ j :: ts j,
      bucketView db'.cells a = bucketView db.cells a)
    (hlist : IsList listLinks db'.cells db'.listTuple (ord ++ [p])) :
    HmapInv db' (Function.update ts (db.indexOf key) l') (ord ++ [p]) := by
  have hlt := hi.index_lt key
  have hkp : keyAt db'.cells p = some key := by simp [keyAt, hp, htk]
  have hkey : ∀ a, a ≠ p → keyAt db'.cells a = keyAt db.cells a := fun a ha => by
    rw [keyAt_eq_headAt, hcore a ha, ← keyAt_eq_headAt]
  have hnoi : db.indexOf key ∉ l' := fun h => absurd hlt (Nat.not_lt.mpr (hhigh _ h))
  have hno' : ∀ a ∈ db.indexOf key :: ts (db.indexOf key), keyAt db.cells a ≠ some key :=
    fun a ha he => hno a (hi.mem_ord hk ha he) he
  have hb := (hi.bucket _ hlt).insert hl (fun a ha => (hmem a).mp ha)
    (fun a _ hne => hcore a hne) (by simp [headAt, hp, htk, hti]) hhigh hnoi hk rfl hno'
  refine hi.update hsize hbrk hfresh hb hother hlist (fun a => ?_) ?_
  · -- Membership in the buckets changes by `p` only.
    have hbuckets : (∃ j < db.bucketSize, a ∈ j :: Function.update ts (db.indexOf key) l' j) ↔
        a = p ∨ ∃ j < db.bucketSize, a ∈ j :: ts j := by
      constructor
      · rintro ⟨j, hj, ha⟩
        by_cases hji : j = db.indexOf key
        · subst hji
          rw [Function.update_self, hmem] at ha
          exact ha.imp_right fun h => ⟨_, hj, h⟩
        · rw [Function.update_of_ne hji] at ha
          exact .inr ⟨j, hj, ha⟩
      · rintro (rfl | ⟨j, hj, ha⟩)
        · exact ⟨_, hlt, by rw [Function.update_self, hmem]; exact .inl rfl⟩
        · refine ⟨j, hj, ?_⟩
          by_cases hji : j = db.indexOf key
          · subst hji
            rw [Function.update_self, hmem]
            exact .inr ha
          · rwa [Function.update_of_ne hji]
    rw [hbuckets, List.mem_append, List.mem_singleton, hi.live a]
    by_cases hap : a = p
    · subst hap
      have hlive : IsLive db'.cells a := ⟨key, hk, hkp⟩
      simp [hlive]
    · have hlive : IsLive db'.cells a ↔ IsLive db.cells a := by
        unfold IsLive
        rw [hkey a hap]
      simp [hap, hlive]
  · simp [hcount, hi.count]

theorem entries_put {cells' : Heap Tuple} {p : Addr} {t : Tuple} (hp : cells' p = some t)
    (hsame : ∀ a ∈ ord, entryAt cells' a = entryAt db.cells a) :
    entries cells' (ord ++ [p]) = entries db.cells ord ++ [(t.key, t.vals)] := by
  have hone : entries cells' [p] = [(t.key, t.vals)] := by simp [entries, entryAt, hp]
  rw [entries_append, entries_congr hsame, hone]

theorem HmapInv.lt_brk (hi : HmapInv db ts ord) {a : Addr} (ha : (db.cells a).isSome) :
    a < db.brk := by
  by_contra hle
  rw [hi.fresh a (Nat.not_lt.mp hle)] at ha
  cases ha

theorem HmapInv.root_not_mem (hi : HmapInv db ts ord) {i : Addr} {root : Tuple} (hroot : db.cells i = some root)
    (he : root.key = []) : i ∉ ord := by
  intro hm
  obtain ⟨-, k, hk', hki⟩ := (hi.live i).mp hm
  rw [keyAt, hroot, Option.map_some, he] at hki
  exact hk' (Option.some.inj hki).symm

/-- Storing into the root slot of a bucket that has no other tuple. -/
theorem hmapReuseRoot_spec (hi : HmapInv db ts ord) {arg : HmapArg} {v : HmapVals} {root : Tuple}
    (hk : key ≠ []) (hlen : key.length < maxSizeKey) (hv : arg.vals? = some v)
    (hno : ∀ a ∈ ord, keyAt db.cells a ≠ some key) (hroot : db.cells (db.indexOf key) = some root)
    (he : root.key = []) (hts : ts (db.indexOf key) = []) :
    ∃ db', hmapReuseRoot db (db.indexOf key) root key arg = .ok (.ok (db.indexOf key), db') ∧
      Rep db' (entries db.cells ord ++ [(key, v)]) := by
  have hlt := hi.index_lt key
  obtain ⟨i, hix⟩ : ∃ i, db.indexOf key = i := ⟨_, rfl⟩
  rw [hix] at hroot hts hlt ⊢
  have hiord := hi.root_not_mem hroot he
  obtain ⟨cells', first, heq, hring, hcontent, hlist, hout, -⟩ :=
    hmapReuseRoot_eq (hi.bucket i hlt).links hi.list hiord hlen hv hroot
  obtain ⟨t, ht, hc⟩ := Option.map_eq_some_iff.mp hcontent
  simp only [Prod.mk.injEq] at hc
  have hcore : ∀ a, a ≠ i → listLinks.SameRest db.cells cells' a := fun a ha =>
    hout a (by simpa [hts] using ha)
  refine ⟨_, heq, _, _, hi.put i [] hk hno rfl (Nat.le_refl _) (fun a ha => ?_) rfl
    ht hc.1 (hc.2.1.trans hix.symm) ?_ (by simp) ?_ (fun a ha => (hcore a ha).map_eq _ fun _ => rfl)
    ?_ hlist, ?_⟩
  · have hai : a ≠ i := by
      rintro rfl
      exact absurd hlt (Nat.not_lt.mpr (hi.brk.trans ha))
    have := (hcore a hai).map_eq (fun _ => ()) fun _ => rfl
    rw [hi.fresh a ha] at this
    simpa using this
  · intro a
    rw [hix, hts]
    simp
  · rw [hix]
    exact .inr hring
  · intro j hj hji a ha
    rw [hix] at hji
    refine (hcore a ?_).map_eq _ fun _ => rfl
    rintro rfl
    exact hji (hi.bucket_unique hlt hj List.mem_cons_self ha).symm
  · rw [entries_put ht fun a ha => (hcore a fun h => hiord (h ▸ ha)).map_eq _ fun _ => rfl]
    rw [hc.1, hc.2.2.1]

/-- Chaining a new tuple to an occupied root slot. -/
theorem hmapAddSecondary_spec (hi : HmapInv db ts ord) {arg : HmapArg} {v : HmapVals}
    {root : Tuple} (hk : key ≠ []) (hlen : key.length < maxSizeKey) (hv : arg.vals? = some v)
    (hno : ∀ a ∈ ord, keyAt db.cells a ≠ some key) (hroot : db.cells (db.indexOf key) = some root)
    (he : root.key ≠ []) :
    ∃ db', hmapAddSecondary db (db.indexOf key) key arg = .ok (.ok (db.indexOf key), db') ∧
      Rep db' (entries db.cells ord ++ [(key, v)]) := by
  have hlt := hi.index_lt key
  obtain ⟨i, hix⟩ : ∃ i, db.indexOf key = i := ⟨_, rfl⟩
  rw [hix] at hroot hlt ⊢
  have hring : IsRing hashLinks db.cells i (ts i) := by
    rcases (hi.bucket i hlt).links with ⟨-, t', ht', -, -, hk'⟩ | hr
    · exact absurd (Option.some.inj (hroot.symm.trans ht') ▸ hk') he
    · exact hr
  have hord : ∀ a ∈ ord, a ≠ db.brk := fun a ha => (hi.lt_brk (hi.list.isSome ha)).ne
  have hbucket : ∀ j < db.bucketSize, ∀ a ∈ j :: ts j, a ≠ db.brk := fun j hj a ha =>
    (hi.lt_brk ((hi.bucket j hj).links.isSome ha)).ne
  obtain ⟨cells', first, heq, hring', hcontent, hlist, hout, hcore⟩ :=
    hmapAddSecondary_eq hring hi.list (fun h => hord _ h rfl) (fun h => hbucket i hlt _ h rfl) hlen hv
  obtain ⟨t, ht, hc⟩ := Option.map_eq_some_iff.mp hcontent
  simp only [Prod.mk.injEq] at hc
  refine ⟨_, heq, _, _, hi.put db.brk (ts i ++ [db.brk]) hk hno rfl (Nat.le_succ _) (fun a ha => ?_) rfl ht
    hc.1 (hc.2.1.trans hix.symm) ?_ ?_ ?_ (fun a ha => (hcore a ha).map_eq _ fun _ => rfl) ?_ hlist, ?_⟩
  · have hap : db.brk < a := ha
    have hgone := (hcore a (Nat.ne_of_gt hap)).map_eq (fun _ => ()) fun _ => rfl
    rw [hi.fresh a hap.le] at hgone
    simpa using hgone
  · intro a
    rw [hix]
    simp only [List.mem_cons, List.mem_append, List.not_mem_nil, or_false]
    tauto
  · intro a ha
    rcases List.mem_append.mp ha with ha | ha
    · exact (hi.bucket i hlt).high a ha
    · rw [List.mem_singleton.mp ha]
      exact hi.brk
  · rw [hix]
    exact .inr hring'
  · intro j hj hji a ha
    rw [hix] at hji
    refine (hout a fun hm => ?_).map_eq _ fun _ => rfl
    rcases List.mem_append.mp hm with hm | hm
    · exact hji (hi.bucket_unique hj hlt ha hm)
    · exact hbucket j hj a ha (List.mem_singleton.mp hm)
  · rw [entries_put ht fun a ha => (hcore a (hord a ha)).map_eq _ fun _ => rfl]
    rw [hc.1, hc.2.2.1]

/-! ## Overwriting a value -/

/-- What is left of a tuple when its value is overwritten. -/
def Tuple.erased (t : Tuple) : Tuple := { t with dataLen := 0, vals := .int 0 }

/-- Keys, indices and links are left as they were. -/
theorem view_of_erased {cells cells' : Heap Tuple} {a : Addr}
    (h : (cells' a).map Tuple.erased = (cells a).map Tuple.erased) :
    bucketView cells' a = bucketView cells a ∧ listLinks.nextAt cells' a = listLinks.nextAt cells a ∧
      listLinks.prevAt cells' a = listLinks.prevAt cells a := by
  have hj : ∀ (o : Option Tuple) (f : Tuple → Option Addr), o.bind f = (o.map f).join :=
    fun o f => by cases o <;> rfl
  refine ⟨map_of_view h fun t => (t.hashNext, t.hashPrev, t.key, t.index), ?_, ?_⟩
  · exact (hj _ _).trans ((congrArg Option.join (map_of_view h Tuple.next)).trans (hj _ _).symm)
  · exact (hj _ _).trans ((congrArg Option.join (map_of_view h Tuple.prev)).trans (hj _ _).symm)

theorem fresh_of_erased {cells cells' : Heap Tuple} {a : Addr}
    (h : (cells' a).map Tuple.erased = (cells a).map Tuple.erased) (hnone : cells a = none) : cells' a = none := by
  rw [hnone] at h
  simpa using h

/-- The invariant only depends on keys, indices and links. -/
theorem HmapInv.revalue (hi : HmapInv db ts ord) {cells' : Heap Tuple}
    (h : ∀ a, (cells' a).map Tuple.erased = (db.cells a).map Tuple.erased) :
    HmapInv { db with cells := cells' } ts ord := by
  refine ⟨hi.pos, hi.brk, fun a ha => fresh_of_erased (h a) (hi.fresh a ha),
    fun i hib => (hi.bucket i hib).congr fun a _ => (view_of_erased (h a)).1,
    hi.list.congr fun a _ => (view_of_erased (h a)).2, fun a => ?_, hi.count⟩
  rw [hi.live a]
  simp only [IsLive, keyAt_eq_headAt, headAt_of_view (view_of_erased (h a)).1]

theorem entries_set {cells' : Heap Tuple} {p : Addr} {t : Tuple} (hp : p ∈ ord)
    (huniq : ∀ a ∈ ord, keyAt db.cells a = some key → a = p) (hkp : keyAt db.cells p = some key)
    (ht : cells' p = some t) (htk : t.key = key) (hne : ∀ a, a ≠ p → cells' a = db.cells a) :
    entries cells' ord = (entries db.cells ord).set key t.vals := by
  have hsome : ((entries db.cells ord).get? key).isSome := by
    obtain ⟨t₀, ht₀, rfl⟩ := Option.map_eq_some_iff.mp hkp
    rw [entries_get? hp ht₀ huniq]
    rfl
  rw [Dict.set, if_pos hsome, entries, entries, List.map_filterMap]
  refine List.filterMap_congr fun a ha => ?_
  by_cases hap : a = p
  · subst hap
    obtain ⟨t₀, ht₀, hk₀⟩ := Option.map_eq_some_iff.mp hkp
    simp [entryAt, ht, ht₀, htk, hk₀]
  · have hka : keyAt db.cells a ≠ some key := fun h => hap (huniq a ha h)
    cases hca : db.cells a with
    | none => simp [entryAt, hne a hap, hca]
    | some u =>
      have huk : u.key ≠ key := fun h => hka (by simp [keyAt, hca, h])
      simp [entryAt, hne a hap, hca, huk]

/-- `hmap_set` on a key that is there. -/
theorem hmapSet_present (hi : HmapInv db ts ord) {p : Addr} (data : Bytes) (hk : key ≠ [])
    (hp : p ∈ ord) (hkp : keyAt db.cells p = some key)
    (hs : Returns (fun n => hmapSearch n db key) (.success, some p)) :
    ∃ db', Returns (fun n => hmapSet n db key data) (some p, db') ∧
      Rep db' ((entries db.cells ord).set key (.chars (some data))) := by
  obtain ⟨t, ht, htk⟩ := Option.map_eq_some_iff.mp hkp
  obtain ⟨cells', hset, hcell, hne⟩ := hmapSet_found data hk ht hs
  refine ⟨_, hset, ts, ord, hi.revalue fun a => ?_, ?_⟩
  · by_cases hap : a = p
    · subst hap
      rw [hcell, ht]
      rfl
    · rw [hne a hap]
  · rw [entries_set hp (fun a ha hka => hi.key_unique ha hp hka hkp) hkp hcell htk hne]

/-! ## Deleting -/

/-- The invariant after the tuple `p` of bucket `i` lost its key. -/
theorem HmapInv.drop {db' : HmapDb} {i p : Addr} {xs ys : List Addr}
    (hi : HmapInv db ts (xs ++ p :: ys)) (l' : List Addr) (hlt : i < db.bucketSize) (hpi : p ∈ i :: ts i)
    (hsize : db'.bucketSize = db.bucketSize) (hbrk : db'.brk = db.brk)
    (hcount : db'.tupleCount = db.tupleCount - 1)
    (hsub : ∀ a, a ∈ l' ↔ a ∈ ts i ∧ (a = p → a = i)) (hl : IsBucket db'.cells i l')
    (hdead : ¬ IsLive db'.cells p) (hkept : p = i → keyAt db'.cells p = some [])
    (hcore : ∀ a, a ≠ p → headAt db'.cells a = headAt db.cells a)
    (hother : ∀ j < db.bucketSize, j ≠ i → ∀ a ∈ j :: ts j,
      bucketView db'.cells a = bucketView db.cells a)
    (hlist : IsList listLinks db'.cells db'.listTuple (xs ++ ys)) :
    HmapInv db' (Function.update ts i l') (xs ++ ys) := by
  have hkey : ∀ a, a ≠ p → keyAt db'.cells a = keyAt db.cells a := fun a ha => by
    rw [keyAt_eq_headAt, hcore a ha, ← keyAt_eq_headAt]
  have hnd := hi.list.nodup
  have hpn : p ∉ xs ++ ys := by
    have := (List.nodup_middle.mp hnd)
    exact (List.nodup_cons.mp this).1
  have hin : i ∉ ts i := fun h => absurd hlt (Nat.not_lt.mpr ((hi.bucket i hlt).high i h))
  have hlp : ∀ a ∈ l', a ≠ p := by
    rintro a ha rfl
    obtain ⟨h1, h2⟩ := (hsub a).mp ha
    exact hin (h2 rfl ▸ h1)
  have hb : BucketOk db.bucketSize db'.cells i l' := by
    refine (hi.bucket i hlt).shrink hl (fun a ha => ((hsub a).mp ha).1)
      (fun a ha => hcore a (hlp a ha)) ?_
    by_cases hpeq : p = i
    · exact .inr (hpeq ▸ hkept hpeq)
    · exact .inl (hcore i fun h => hpeq h.symm)
  have hfresh : ∀ a, db'.brk ≤ a → db'.cells a = none := by
    intro a ha
    have hap : a ≠ p := by
      rintro rfl
      exact absurd (hbrk ▸ ha) (Nat.not_le.mpr (hi.lt_brk ((hi.bucket i hlt).links.isSome hpi)))
    have := hcore a hap
    rw [headAt, headAt, hi.fresh a (hbrk ▸ ha)] at this
    simpa using this
  refine hi.update hsize (Nat.le_of_eq hbrk.symm) hfresh hb hother hlist (fun a => ?_) ?_
  · by_cases hap : a = p
    · subst hap
      exact ⟨fun h => absurd h hpn, fun h => absurd h.2 hdead⟩
    · have hmem : a ∈ xs ++ ys ↔ a ∈ xs ++ p :: ys := by simp [hap]
      have hlive : IsLive db'.cells a ↔ IsLive db.cells a := by
        unfold IsLive
        rw [hkey a hap]
      have hbk : ∀ j, a ∈ j :: Function.update ts i l' j ↔ a ∈ j :: ts j := by
        intro j
        by_cases hji : j = i
        · subst hji
          rw [Function.update_self, List.mem_cons, List.mem_cons, hsub]
          simp [hap]
        · rw [Function.update_of_ne hji]
      rw [hmem, hi.live a, hlive]
      simp only [hbk]
  · rw [hcount, hi.count]
    simp
    omega

theorem entries_erase {cells' : Heap Tuple} {p : Addr} {xs ys : List Addr}
    (hi : HmapInv db ts (xs ++ p :: ys)) (hkp : keyAt db.cells p = some key)
    (hsame : ∀ a ∈ xs ++ ys, entryAt cells' a = entryAt db.cells a) :
    entries cells' (xs ++ ys) = (entries db.cells (xs ++ p :: ys)).erase key := by
  have hkeep : ∀ l : List Addr, (∀ a ∈ l, keyAt db.cells a ≠ some key) →
      (entries db.cells l).filter (fun e => e.1 ≠ key) = entries db.cells l := by
    intro l hl
    refine List.filter_eq_self.mpr fun e he => ?_
    obtain ⟨a, ha, hea⟩ := List.mem_filterMap.mp he
    obtain ⟨t, ht, rfl⟩ := Option.map_eq_some_iff.mp hea
    have hne : t.key ≠ key := fun h => hl a ha (by simp [keyAt, ht, h])
    simpa using hne
  have hpn : p ∉ xs ++ ys := (List.nodup_cons.mp (List.nodup_middle.mp hi.list.nodup)).1
  have hne : ∀ a ∈ xs ++ ys, keyAt db.cells a ≠ some key := by
    intro a ha hka
    have ha' : a ∈ xs ++ p :: ys := by
      rcases List.mem_append.mp ha with h | h
      · exact List.mem_append_left _ h
      · exact List.mem_append_right _ (List.mem_cons_of_mem _ h)
    exact hpn (hi.key_unique ha' (by simp) hka hkp ▸ ha)
  obtain ⟨t, ht, htk⟩ := Option.map_eq_some_iff.mp hkp
  have hone : entries db.cells (p :: ys) = (t.key, t.vals) :: entries db.cells ys := by
    rw [entries, List.filterMap_cons_some (show entryAt db.cells p = some (t.key, t.vals) by
      simp [entryAt, ht])]
    rfl
  rw [entries_congr hsame, entries_append, entries_append, hone, Dict.erase, List.filter_append,
    List.filter_cons_of_neg (by simpa using htk), hkeep xs fun a ha => hne a (by simp [ha]),
    hkeep ys fun a ha => hne a (by simp [ha])]

/-- `hmap_delete` on a key that is there. -/
theorem hmapDelete_present (hi : HmapInv db ts ord) {p : Addr} (hk : key ≠ [])
    (hp : p ∈ ord) (hkp : keyAt db.cells p = some key)
    (hs : Returns (fun n => hmapSearch n db key) (.success, some p)) :
    ∃ db', Returns (fun n => hmapDelete n db key) (.success, db') ∧
      Rep db' ((entries db.cells ord).erase key) := by
  obtain ⟨xs, ys, rfl⟩ := List.append_of_mem hp
  have hlt := hi.index_lt key
  obtain ⟨-, hpi⟩ := hi.mem_home hp hkp
  obtain ⟨i, hix⟩ : ∃ i, db.indexOf key = i := ⟨_, rfl⟩
  rw [hix] at hlt hpi
  obtain ⟨t, ht, htk⟩ := Option.map_eq_some_iff.mp hkp
  have hpn : p ∉ xs ++ ys := (List.nodup_cons.mp (List.nodup_middle.mp hi.list.nodup)).1
  have hhead : headAt db.cells p = some (key, t.index) := by simp [headAt, ht, htk]
  have hindex : (db.cells p).map Tuple.index = some i := by
    rw [ht, Option.map_some, ((hi.bucket i hlt).home p hpi key t.index hk hhead).1]
  have hring : IsRing hashLinks db.cells i (ts i) := by
    rcases (hi.bucket i hlt).links with ⟨hts, t', ht', -, -, hk'⟩ | hr
    · have hpi' : p = i := by simpa [hts] using hpi
      rw [hpi', ht', Option.some.injEq] at ht
      exact absurd (htk.symm.trans (ht ▸ hk')) hk
    · exact hr
  by_cases hpeq : i = p
  · subst hpeq
    obtain ⟨cells', first, hdel, hring', hdead, -, hlist, hsame⟩ :=
      hmapDelete_root_eq hring hi.list hk hindex hs
    refine ⟨_, hdel, _, _, hi.drop (ts i) hlt List.mem_cons_self rfl rfl rfl (fun a => ?_) (.inr hring') ?_
      (fun _ => hdead) (fun a ha => (hsame a ha).map_eq _ fun _ => rfl) ?_ hlist, ?_⟩
    · exact ⟨fun h => ⟨h, fun h' => h'⟩, fun h => h.1⟩
    · rintro ⟨k, hk', hke⟩
      exact hk' (Option.some.inj (hke.symm.trans hdead))
    · intro j hj hji a ha
      refine (hsame a ?_).map_eq _ fun _ => rfl
      rintro rfl
      exact hji (hi.bucket_unique hj hlt ha List.mem_cons_self)
    · refine (entries_erase hi hkp fun a ha => ?_).symm
      exact (hsame a fun h => hpn (h ▸ ha)).map_eq _ fun _ => rfl
  · have hpts : p ∈ ts i := (List.mem_cons.mp hpi).resolve_left fun h => hpeq h.symm
    obtain ⟨us, vs, huv⟩ := List.append_of_mem hpts
    rw [huv] at hring
    obtain ⟨cells', first, hdel, hring', hgone, hlist, hout, hcore⟩ :=
      hmapDelete_secondary_eq hring hi.list hk hpeq hindex hs
    have hpuv : p ∉ us ++ vs := (List.nodup_cons.mp
      (List.nodup_middle.mp (List.nodup_cons.mp hring.nodup).2)).1
    refine ⟨_, hdel, _, _, hi.drop (us ++ vs) hlt hpi rfl rfl rfl (fun a => ?_) (.inr hring') ?_
      (fun h => absurd h.symm hpeq) (fun a ha => (hcore a ha).map_eq _ fun _ => rfl) ?_ hlist, ?_⟩
    · rw [huv]
      by_cases hap : a = p
      · subst hap
        exact ⟨fun h => absurd h hpuv, fun h => absurd (h.2 rfl).symm hpeq⟩
      · simp [hap]
    · rintro ⟨k, -, hke⟩
      simp [keyAt, hgone] at hke
    · intro j hj hji a ha
      have hai : a ∉ i :: ts i := fun h => hji (hi.bucket_unique hj hlt ha h)
      exact (hout a (huv ▸ hai)).map_eq _ fun _ => rfl
    · refine (entries_erase hi hkp fun a ha => ?_).symm
      exact (hcore a fun h => hpn (h ▸ ha)).map_eq _ fun _ => rfl

end Dirlist
