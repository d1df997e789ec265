import Dirlist.Hmap.Refine

/-! The list of all tuples over any run, also one that loses tuples from a bucket: it is a ring in the
order of insertion. `hmap_foreach` goes round it once, `hmap_size` stops one tuple short. -/

namespace Dirlist
open Run Ring

/-- One round of `hmap_size`. -/
def hmapSizeRound (db : HmapDb) (_ : Nat) : Option Addr × Nat → Exec (Option Addr × Nat ⊕ Nat)
  | (none, ret) => .ok (.inr ret)
  | (some p, ret) => do
    let t ← load db.cells p
    if t.next = db.listTuple then .ok (.inr ret) else .ok (.inl (t.next, ret + 1))

def hmapSize (n : Nat) (db : HmapDb) : Exec Nat := loop (hmapSizeRound db) n (db.listTuple, 0)

/-- `hmap_next` -/
def hmapNext (db : HmapDb) (p : Addr) : Exec (Option Addr) := do
  let t ← load db.cells p
  .ok (if db.listTuple = t.next then none else t.next)

/-- One round of `hmap_foreach`, with the tuples it has been at. -/
def hmapForeachRound (db : HmapDb) (_ : Nat) : Option Addr × List Addr → Exec (Option Addr × List Addr ⊕ List Addr)
  | (none, l) => .ok (.inr l)
  | (some p, l) => do
    let next ← hmapNext db p
    .ok (.inl (next, l ++ [p]))

def hmapForeach (n : Nat) (db : HmapDb) : Exec (List Addr) := loop (hmapForeachRound db) n (db.listTuple, [])

/-! ## Histories -/

/-- Whether a tuple is stored: it is there and has a key. -/
def HmapDb.stored (db : HmapDb) (a : Addr) : Bool := (db.cells a).any fun t => t.key ≠ []

/-- The order of insertion behind a call: what is not stored any more drops out, what is new comes last. -/
def insertionStep (db : HmapDb) (ord : List Addr) : List Addr :=
  ord.filter db.stored ++ (List.range db.brk).filter fun a => db.stored a && !ord.contains a

/-- A run with the order of insertion. -/
def hmapHistory (n : Nat) (db : HmapDb) (ord : List Addr) : List HmapOp → Exec (HmapDb × List Addr)
  | [] => .ok (db, ord)
  | op :: ops => do
    let db ← hmapStep n db op
    hmapHistory n db (insertionStep db ord) ops

/-- The list of the table is a ring of the stored tuples. -/
structure ListSound (db : HmapDb) (ord : List Addr) : Prop where
  stored : ∀ a, a ∈ ord ↔ db.stored a = true
  nodup : ord.Nodup
  count : db.tupleCount = ord.length
  empty : db.listTuple = none ↔ ∀ a, ¬db.stored a
  round : ∀ f, db.listTuple = some f → ∀ k : Nat, 0 < k → (k : Int) ≤ db.tupleCount →
    ((fun o => o.bind (listLinks.nextAt db.cells))^[k] (some f) = some f ↔ (k : Int) = db.tupleCount)
  next_prev : ∀ a, db.stored a → ∃ b, listLinks.nextAt db.cells a = some b ∧ listLinks.prevAt db.cells b = some a
  prev_next : ∀ a, db.stored a → ∃ b, listLinks.prevAt db.cells a = some b ∧ listLinks.nextAt db.cells b = some a
  visited : Returns (fun n => hmapForeach n db) ord

variable {db db' : HmapDb} {ord ord' xs ys : List Addr} {key : Bytes} {i p : Addr} {l : List Addr}

theorem stored_iff : db.stored p = true ↔ IsLive db.cells p := by
  rw [HmapDb.stored, IsLive, Option.any_eq_true]
  constructor
  · rintro ⟨t, ht, hk⟩
    exact ⟨t.key, by simpa using hk, by simp [keyAt, ht]⟩
  · rintro ⟨k, hk, hkey⟩
    obtain ⟨t, ht, rfl⟩ := Option.map_eq_some_iff.mp hkey
    exact ⟨t, ht, by simpa using hk⟩

theorem insertionStep_same (h : ∀ a, a ∈ ord ↔ db.stored a = true) : insertionStep db ord = ord := by
  have hkeep : ord.filter db.stored = ord := List.filter_eq_self.mpr fun a ha => (h a).mp ha
  have hnone : ((List.range db.brk).filter fun a => db.stored a && !ord.contains a) = [] := by
    refine List.filter_eq_nil_iff.mpr fun a _ => ?_
    simp [h a]
  rw [insertionStep, hkeep, hnone, List.append_nil]

theorem insertionStep_snoc (h : ∀ a, a ∈ ord ++ [p] ↔ db.stored a = true) (hp : p ∉ ord) (hlt : p < db.brk) :
    insertionStep db ord = ord ++ [p] := by
  have hkeep : ord.filter db.stored = ord :=
    List.filter_eq_self.mpr fun a ha => (h a).mp (List.mem_append_left _ ha)
  have hnew : ((List.range db.brk).filter fun a => db.stored a && !ord.contains a) = [p] := by
    have hone : ((List.range db.brk).filter fun a => db.stored a && !ord.contains a) =
        (List.range db.brk).filter (· == p) := by
      refine List.filter_congr fun a _ => ?_
      rw [Bool.eq_iff_iff, Bool.and_eq_true, ← h a]
      by_cases hap : a = p
      · subst hap
        simp [hp]
      · simp [hap]
    rw [hone, List.filter_beq, List.count_eq_one_of_mem List.nodup_range (List.mem_range.mpr hlt)]
    rfl
  rw [insertionStep, hkeep, hnew]

theorem insertionStep_remove (h : ∀ a, a ∈ xs ++ ys ↔ db.stored a = true) (hp : p ∉ xs ++ ys) :
    insertionStep db (xs ++ p :: ys) = xs ++ ys := by
  have hgone : ¬db.stored p = true := fun hs => hp ((h p).mpr hs)
  have hkeep (l : List Addr) (hl : l ⊆ xs ++ ys) : l.filter db.stored = l :=
    List.filter_eq_self.mpr fun a ha => (h a).mp (hl ha)
  have hnone : ((List.range db.brk).filter fun a => db.stored a && !(xs ++ p :: ys).contains a) = [] := by
    refine List.filter_eq_nil_iff.mpr fun a _ => ?_
    rw [Bool.and_eq_true, ← h a]
    simp only [List.mem_append, Bool.not_eq_true', List.contains_eq_mem, decide_eq_false_iff_not, List.mem_cons]
    tauto
  rw [insertionStep, List.filter_append, List.filter_cons_of_neg hgone,
    hkeep xs (List.subset_append_left xs ys), hkeep ys (List.subset_append_right xs ys), hnone, List.append_nil]

/-! ## The invariant -/

/-- `ts` gives what is linked to each root slot, `ord` all stored tuples in the order of insertion. -/
structure ListInv (db : HmapDb) (ts : Addr → List Addr) (ord : List Addr) : Prop where
  pos : 0 < db.bucketSize
  brk : db.bucketSize ≤ db.brk
  fresh : ∀ a, db.brk ≤ a → db.cells a = none
  bucket : ∀ i < db.bucketSize, BucketSound db.bucketSize db.cells i (ts i)
  list : IsList listLinks db.cells db.listTuple ord
  live : ∀ a, a ∈ ord ↔ IsLive db.cells a
  count : db.tupleCount = ord.length

variable {ts : Addr → List Addr}

theorem sameCore_of_rest {cells cells' : Heap Tuple} {a : Addr} (h : listLinks.SameRest cells cells' a) :
    SameCore cells cells' a := h.map_eq _ fun _ => rfl

theorem SameCore.headAt {cells cells' : Heap Tuple} {a : Addr} (h : SameCore cells cells' a) :
    headAt cells' a = headAt cells a := h.map_eq _ fun _ => rfl

theorem SameCore.keyAt {cells cells' : Heap Tuple} {a : Addr} (h : SameCore cells cells' a) :
    keyAt cells' a = keyAt cells a := h.map_eq _ fun _ => rfl

namespace ListInv

theorem index_lt (hi : ListInv db ts ord) (key : Bytes) : db.indexOf key < db.bucketSize :=
  Nat.mod_lt _ hi.pos

theorem lt_brk (hi : ListInv db ts ord) {a : Addr} (ha : (db.cells a).isSome) : a < db.brk := by
  by_contra hle
  rw [hi.fresh a (Nat.not_lt.mp hle)] at ha
  cases ha

/-- The invariant after a change to bucket `i` and the key of the tuple `p`. -/
theorem update (hi : ListInv db ts ord) (hlt : i < db.bucketSize) (hsize : db'.bucketSize = db.bucketSize)
    (hbrk : db.brk ≤ db'.brk) (hfresh : ∀ a, db'.brk ≤ a → db'.cells a = none)
    (hcore : ∀ a, a ≠ p → SameCore db.cells db'.cells a) (hlinks : IsBucket db'.cells i l)
    (hsub : ∀ a ∈ l, a ≠ p → a ∈ ts i) (hhigh : p ∈ l → db.bucketSize ≤ p)
    (hfull : p ∈ l → keyAt db'.cells p ≠ some [])
    (hindex : ∀ k j, k ≠ [] → headAt db'.cells p = some (k, j) → j = i)
    (hother : ∀ j < db.bucketSize, j ≠ i → ∀ a ∈ j :: ts j, listLinks.SameRest db.cells db'.cells a)
    (hlist : IsList listLinks db'.cells db'.listTuple ord') (hlive : ∀ a, a ∈ ord' ↔ IsLive db'.cells a)
    (hcount : db'.tupleCount = ord'.length) : ListInv db' (Function.update ts i l) ord' := by
  refine ⟨hsize ▸ hi.pos, hsize ▸ hi.brk.trans hbrk, hfresh, fun j hj => ?_, hlist, hlive, hcount⟩
  rw [hsize] at hj ⊢
  by_cases hji : j = i
  · subst hji
    rw [Function.update_self]
    have hb := hi.bucket j hj
    refine ⟨hlinks, fun a ha => ?_, fun a ha => ?_, fun a ha k j' hk he => ?_⟩
    · by_cases hap : a = p
      · exact hap ▸ hhigh (hap ▸ ha)
      · exact hb.high a (hsub a ha hap)
    · by_cases hap : a = p
      · exact hap ▸ hfull (hap ▸ ha)
      · rw [(hcore a hap).keyAt]
        exact hb.full a (hsub a ha hap)
    · by_cases hap : a = p
      · exact hindex k j' hk (hap ▸ he)
      · have ha' : a ∈ j :: ts j := by
          rcases List.mem_cons.mp ha with rfl | ha
          · exact List.mem_cons_self
          · exact List.mem_cons_of_mem _ (hsub a ha hap)
        exact hb.index a ha' k j' hk ((hcore a hap).headAt ▸ he)
  · rw [Function.update_of_ne hji]
    exact (hi.bucket j hj).congr fun a ha => (hother j hj hji a ha).map_eq _ fun _ => rfl

theorem live_of_core (hi : ListInv db ts ord) {a : Addr} (h : SameCore db.cells db'.cells a) :
    a ∈ ord ↔ IsLive db'.cells a := by
  rw [hi.live a, IsLive, IsLive, h.keyAt]

/-- A search comes back with a tuple of the bucket that has the key, or finds none there. -/
theorem search (hi : ListInv db ts ord) (hne : key ≠ []) :
    (∃ p ∈ db.indexOf key :: ts (db.indexOf key), keyAt db.cells p = some key ∧
      Returns (fun n => hmapSearch n db key) (.success, some p)) ∨
    Returns (fun n => hmapSearch n db key) (.tupleNotFound, none) := by
  have hs := returns_hmapSearch hne (hi.bucket _ (hi.index_lt key)).links
  cases hf : (db.indexOf key :: ts (db.indexOf key)).find? fun p => keyAt db.cells p = some key with
  | some p =>
    rw [hf] at hs
    exact .inl ⟨p, List.mem_of_find?_eq_some hf, by simpa using List.find?_some hf, hs⟩
  | none =>
    rw [hf] at hs
    exact .inr hs

end ListInv

/-! ## Steps -/

/-- A call that stores and deletes nothing keeps the order. -/
theorem ListInv.order_eq (hi : ListInv db ts ord) : insertionStep db ord = ord :=
  insertionStep_same fun a => (hi.live a).trans stored_iff.symm

theorem ListInv.unchanged (hi : ListInv db ts ord) : ListInv db ts (insertionStep db ord) :=
  hi.order_eq.symm ▸ hi

theorem ListInv.fresh_of_core (hi : ListInv db ts ord) (hbrk : db.brk ≤ db'.brk) (hp : p < db'.brk)
    (hcore : ∀ a, a ≠ p → SameCore db.cells db'.cells a) : ∀ a, db'.brk ≤ a → db'.cells a = none := by
  intro a ha
  have hgone := (hcore a (Nat.ne_of_gt (Nat.lt_of_lt_of_le hp ha))).map_eq (fun _ => ()) fun _ => rfl
  rw [hi.fresh a (hbrk.trans ha)] at hgone
  simpa using hgone

/-- The invariant after the tuple `p` took a new key. -/
theorem ListInv.put (hi : ListInv db ts ord) (hlt : i < db.bucketSize) (hk : key ≠ []) (hp : p ∉ ord)
    (hplt : p < db'.brk) (hsize : db'.bucketSize = db.bucketSize) (hbrk : db.brk ≤ db'.brk)
    (hcore : ∀ a, a ≠ p → SameCore db.cells db'.cells a) (hlinks : IsBucket db'.cells i l)
    (hsub : ∀ a ∈ l, a ≠ p → a ∈ ts i) (hhigh : p ∈ l → db.bucketSize ≤ p)
    (hcontent : headAt db'.cells p = some (key, i))
    (hother : ∀ j < db.bucketSize, j ≠ i → ∀ a ∈ j :: ts j, listLinks.SameRest db.cells db'.cells a)
    (hlist : IsList listLinks db'.cells db'.listTuple (ord ++ [p]))
    (hcount : db'.tupleCount = db.tupleCount + 1) :
    ListInv db' (Function.update ts i l) (insertionStep db' ord) := by
  have hkey : keyAt db'.cells p = some key := by rw [keyAt_eq_headAt, hcontent]; rfl
  have hlive : ∀ a, a ∈ ord ++ [p] ↔ IsLive db'.cells a := by
    intro a
    rw [List.mem_append, List.mem_singleton]
    by_cases hap : a = p
    · subst hap
      exact ⟨fun _ => ⟨key, hk, hkey⟩, fun _ => .inr rfl⟩
    · rw [hi.live_of_core (hcore a hap)]
      simp [hap]
  rw [insertionStep_snoc (fun a => (hlive a).trans stored_iff.symm) hp hplt]
  refine hi.update hlt hsize hbrk (hi.fresh_of_core hbrk hplt hcore) hcore hlinks hsub hhigh ?_ ?_ hother hlist
    hlive ?_
  · intro _ hempty
    exact hk (Option.some.inj (hkey.symm.trans hempty))
  · intro k j _ he
    exact (Prod.mk.inj (Option.some.inj (hcontent.symm.trans he))).2.symm
  · rw [hcount, hi.count, List.length_append]
    simp

/-- What a caller reads of a tuple. -/
structure HmapEntry where
  key : Bytes
  vals : HmapVals
  dataLen : Nat
  dataType : HmapDataType
deriving DecidableEq, Repr

def Tuple.entry (t : Tuple) : HmapEntry := ⟨t.key, t.vals, t.dataLen, t.dataType⟩

def contentAt (cells : Heap Tuple) (a : Addr) : Option HmapEntry := (cells a).map Tuple.entry

/-- The tuple at `p` took the key, in the root slot if that was empty and in a new tuple otherwise. Then `l` is
what is linked to the root slot. -/
structure HmapPut (db db' : HmapDb) (ts : Addr → List Addr) (key : Bytes) (arg : HmapArg) (v : HmapVals) (p : Addr)
    (l : List Addr) : Prop where
  size : db'.bucketSize = db.bucketSize
  same : ∀ a, a ≠ p → SameCore db.cells db'.cells a
  place : (∃ root, db.cells p = some root ∧ root.key = [] ∧ p = db.indexOf key ∧ l = [] ∧
      contentAt db'.cells p = some ⟨key, v, arg.lenOver root.dataLen, arg.dataType⟩) ∨
    keyAt db.cells (db.indexOf key) ≠ some [] ∧ db.cells p = none ∧ l = ts (db.indexOf key) ++ [p] ∧
      contentAt db'.cells p = some ⟨key, v, arg.lenOver 0, arg.dataType⟩

/-- What `hmap_add` does with an absent key. -/
theorem ListInv.add (hi : ListInv db ts ord) {arg : HmapArg} {v : HmapVals} (hk : key ≠ [])
    (hlen : key.length < maxSizeKey) (hv : arg.vals? = some v)
    (hs : Returns (fun n => hmapSearch n db key) (.tupleNotFound, none)) :
    ∃ db' p l, Returns (fun n => hmapAdd n db key arg) (.ok (db.indexOf key), db') ∧
      ListInv db' (Function.update ts (db.indexOf key) l) (insertionStep db' ord) ∧
      HmapPut db db' ts key arg v p l := by
  have hlt := hi.index_lt key
  have hb := hi.bucket _ hlt
  obtain ⟨i, hix⟩ : ∃ i, db.indexOf key = i := ⟨_, rfl⟩
  obtain ⟨root, hroot⟩ := Option.isSome_iff_exists.mp (hb.links.isSome List.mem_cons_self)
  rw [hix] at hb hlt
  have hother {j a : Addr} (hj : j < db.bucketSize) (hji : j ≠ i) (ha : a ∈ j :: ts j) : a ∉ i :: ts i :=
    fun hm => hji ((hi.bucket j hj).unique hb hj hlt ha hm)
  have hhead {cells' : Heap Tuple} {n : Nat} {p : Addr}
      (h : (cells' p).map (fun t => (t.key, t.index, t.vals, t.dataLen, t.dataType)) =
        some (key, i, v, n, arg.dataType)) : headAt cells' p = some (key, i) := by
    obtain ⟨t, ht, hc⟩ := Option.map_eq_some_iff.mp h
    simp only [Prod.mk.injEq] at hc
    simp [headAt, ht, hc]
  have hvalue {cells' : Heap Tuple} {n : Nat} {p : Addr}
      (h : (cells' p).map (fun t => (t.key, t.index, t.vals, t.dataLen, t.dataType)) =
        some (key, i, v, n, arg.dataType)) : contentAt cells' p = some ⟨key, v, n, arg.dataType⟩ := by
    obtain ⟨t, ht, hc⟩ := Option.map_eq_some_iff.mp h
    simp only [Prod.mk.injEq] at hc
    simp [contentAt, Tuple.entry, ht, hc]
  by_cases he : root.key = []
  · have hiord : i ∉ ord := by
      intro hm
      obtain ⟨k, hk', hki⟩ := (hi.live i).mp hm
      rw [← hix, keyAt, hroot, Option.map_some, he] at hki
      exact hk' (Option.some.inj hki).symm
    obtain ⟨cells', first, heq, hring, hcontent, hlist, hout, hcore⟩ :=
      hmapReuseRoot_eq hb.links hi.list hiord hlen hv (hix ▸ hroot)
    rw [← hix] at heq
    have hadd := hmapAdd_of_reuse hk hs hroot he heq
    rw [hix] at hadd ⊢
    refine ⟨_, i, [], hadd, ?_, ?_⟩
    swap
    · exact ⟨rfl, hcore, .inl ⟨root, hix ▸ hroot, he, hix.symm, rfl, hvalue hcontent⟩⟩
    exact hi.put hlt hk hiord (hlt.trans_le hi.brk) rfl (Nat.le_refl _) hcore (.inr hring) (by simp) (by simp)
      (hhead hcontent) (fun j hj hji a ha => hout a (hother hj hji ha)) hlist rfl
  · have hring : IsRing hashLinks db.cells i (ts i) := by
      rcases hb.links with ⟨-, t, ht, -, -, hk'⟩ | hr
      · rw [hix, ht] at hroot
        exact absurd (Option.some.inj hroot ▸ hk') he
      · exact hr
    have hord : db.brk ∉ ord := fun h => (hi.lt_brk (hi.list.isSome h)).ne rfl
    have hbrk {j : Addr} (hj : j < db.bucketSize) : db.brk ∉ j :: ts j :=
      fun h => (hi.lt_brk ((hi.bucket j hj).links.isSome h)).ne rfl
    obtain ⟨cells', first, heq, hring', hcontent, hlist, hout, hcore⟩ :=
      hmapAddSecondary_eq hring hi.list hord (hbrk hlt) hlen hv
    have hfull : keyAt db.cells (db.indexOf key) ≠ some [] := by
      rw [keyAt, hroot]
      exact fun h => he (Option.some.inj h)
    rw [← hix] at heq
    have hadd := hmapAdd_of_secondary hk hs hroot he heq
    rw [hix] at hadd ⊢
    refine ⟨_, db.brk, ts i ++ [db.brk], hadd, ?_, ?_⟩
    swap
    · exact ⟨rfl, hcore, .inr ⟨hfull, hi.fresh _ (Nat.le_refl _), by rw [hix], hvalue hcontent⟩⟩
    refine hi.put hlt hk hord (Nat.lt_succ_self _) rfl (Nat.le_succ _) hcore (.inr hring') ?_
      (fun _ => hi.brk) (hhead hcontent) (fun j hj hji a ha => hout a fun hm => ?_) hlist rfl
    · intro a ha hne
      exact (List.mem_append.mp ha).resolve_right fun h => hne (List.mem_singleton.mp h)
    · rcases List.mem_append.mp hm with hm | hm
      · exact hother hj hji ha hm
      · exact hbrk hj (List.mem_singleton.mp hm ▸ ha)

theorem ListInv.add_invalid (hi : ListInv db ts ord) {arg : HmapArg} (hk : key ≠ []) (hv : arg.vals? = none)
    (hs : Returns (fun n => hmapSearch n db key) (.tupleNotFound, none)) :
    Returns (fun n => hmapAdd n db key arg) (.error .dataTypeInvalid, db) := by
  obtain ⟨root, hroot⟩ :=
    Option.isSome_iff_exists.mp ((hi.bucket _ (hi.index_lt key)).links.isSome List.mem_cons_self)
  exact hmapAdd_of_invalid hk hs hroot hv

theorem ListInv.revalue (hi : ListInv db ts ord) {cells' : Heap Tuple}
    (h : ∀ a, (cells' a).map Tuple.erased = (db.cells a).map Tuple.erased) :
    ListInv { db with cells := cells' } ts ord := by
  refine ⟨hi.pos, hi.brk, fun a ha => fresh_of_erased (h a) (hi.fresh a ha),
    fun i hlt => (hi.bucket i hlt).congr fun a _ => (view_of_erased (h a)).1,
    hi.list.congr fun a _ => (view_of_erased (h a)).2, fun a => ?_, hi.count⟩
  rw [hi.live a, IsLive, IsLive, keyAt_eq_headAt, keyAt_eq_headAt, headAt_of_view (view_of_erased (h a)).1]

/-- What `hmap_set` does with a key that is there. -/
theorem ListInv.set (hi : ListInv db ts ord) (data : Bytes) (hk : key ≠ []) (hkp : keyAt db.cells p = some key)
    (hs : Returns (fun n => hmapSearch n db key) (.success, some p)) :
    ∃ db' t, Returns (fun n => hmapSet n db key data) (some p, db') ∧ ListInv db' ts (insertionStep db' ord) ∧
      db'.bucketSize = db.bucketSize ∧ db.cells p = some t ∧
      db'.cells p = some { t with vals := .chars (some data), dataLen := data.length } ∧
      ∀ a, a ≠ p → db'.cells a = db.cells a := by
  obtain ⟨t, ht, -⟩ := Option.map_eq_some_iff.mp hkp
  obtain ⟨cells', hset, hcell, hne⟩ := hmapSet_found data hk ht hs
  refine ⟨_, t, hset, (hi.revalue fun a => ?_).unchanged, rfl, ht, hcell, hne⟩
  by_cases hap : a = p
  · subst hap
    rw [hcell, ht]
    rfl
  · rw [hne a hap]

/-- The invariant after the tuple `p` lost its key. -/
theorem ListInv.drop (hi : ListInv db ts (xs ++ p :: ys)) (hlt : i < db.bucketSize) (hpi : p ∈ i :: ts i)
    (hsize : db'.bucketSize = db.bucketSize) (hbrk : db'.brk = db.brk)
    (hcount : db'.tupleCount = db.tupleCount - 1) (hcore : ∀ a, a ≠ p → SameCore db.cells db'.cells a)
    (hlinks : IsBucket db'.cells i l) (hsub : ∀ a ∈ l, a ≠ p → a ∈ ts i) (hp : p ∉ l)
    (hindex : ∀ k j, k ≠ [] → headAt db'.cells p = some (k, j) → j = i)
    (hother : ∀ j < db.bucketSize, j ≠ i → ∀ a ∈ j :: ts j, listLinks.SameRest db.cells db'.cells a)
    (hdead : ¬IsLive db'.cells p) (hlist : IsList listLinks db'.cells db'.listTuple (xs ++ ys)) :
    ListInv db' (Function.update ts i l) (insertionStep db' (xs ++ p :: ys)) := by
  have hpn : p ∉ xs ++ ys := (List.nodup_cons.mp (List.nodup_middle.mp hi.list.nodup)).1
  have hlive : ∀ a, a ∈ xs ++ ys ↔ IsLive db'.cells a := by
    intro a
    by_cases hap : a = p
    · subst hap
      exact ⟨fun h => absurd h hpn, fun h => absurd h hdead⟩
    · rw [← hi.live_of_core (hcore a hap)]
      simp [hap]
  have hplt : p < db'.brk := hbrk ▸ hi.lt_brk ((hi.bucket i hlt).links.isSome hpi)
  rw [insertionStep_remove (fun a => (hlive a).trans stored_iff.symm) hpn]
  refine hi.update hlt hsize hbrk.ge (hi.fresh_of_core hbrk.ge hplt hcore) hcore hlinks hsub
    (fun h => absurd h hp) (fun h => absurd h hp) hindex hother hlist hlive ?_
  rw [hcount, hi.count]
  simp only [List.length_append, List.length_cons]
  omega

/-- What `hmap_delete` does with a key that is there. -/
theorem ListInv.delete (hi : ListInv db ts ord) (hk : key ≠ []) (hpi : p ∈ db.indexOf key :: ts (db.indexOf key))
    (hkp : keyAt db.cells p = some key) (hs : Returns (fun n => hmapSearch n db key) (.success, some p)) :
    ∃ db', Returns (fun n => hmapDelete n db key) (.success, db') ∧
      ListInv db' (Function.update ts (db.indexOf key) ((ts (db.indexOf key)).erase p)) (insertionStep db' ord) ∧
      db'.bucketSize = db.bucketSize ∧ (∀ a, a ≠ p → SameCore db.cells db'.cells a) ∧
      (p = db.indexOf key → keyAt db'.cells p = some [] ∧ (db'.cells p).map Tuple.dataLen = some 0) := by
  obtain ⟨xs, ys, rfl⟩ := List.append_of_mem ((hi.live p).mpr ⟨key, hk, hkp⟩)
  have hlt := hi.index_lt key
  have hb := hi.bucket _ hlt
  obtain ⟨i, hix⟩ : ∃ i, db.indexOf key = i := ⟨_, rfl⟩
  rw [hix] at hb hlt hpi ⊢
  have hpn : p ∉ xs ++ ys := (List.nodup_cons.mp (List.nodup_middle.mp hi.list.nodup)).1
  obtain ⟨t, ht, htk⟩ := Option.map_eq_some_iff.mp hkp
  have hindex : (db.cells p).map Tuple.index = some i := by
    rw [ht, Option.map_some, hb.index p hpi key t.index hk (by simp [headAt, ht, htk])]
  have hring : IsRing hashLinks db.cells i (ts i) := by
    rcases hb.links with ⟨hts, t', ht', -, -, hk'⟩ | hr
    · have hpi' : p = i := by simpa [hts] using hpi
      rw [hpi', ht', Option.some.injEq] at ht
      exact absurd (htk.symm.trans (ht ▸ hk')) hk
    · exact hr
  have hother {j a : Addr} (hj : j < db.bucketSize) (hji : j ≠ i) (ha : a ∈ j :: ts j) : a ∉ i :: ts i :=
    fun hm => hji ((hi.bucket j hj).unique hb hj hlt ha hm)
  by_cases hpeq : i = p
  · subst hpeq
    obtain ⟨cells', first, hdel, hring', hdead, hempty, hlist, hsame⟩ :=
      hmapDelete_root_eq hring hi.list hk hindex hs
    have hits : i ∉ ts i := fun h => absurd hlt (Nat.not_lt.mpr (hb.high i h))
    have hcore : ∀ a, a ≠ i → SameCore db.cells cells' a := fun a ha => sameCore_of_rest (hsame a ha)
    rw [List.erase_of_not_mem hits]
    refine ⟨_, hdel, hi.drop hlt hpi rfl rfl rfl hcore (.inr hring') (fun a ha _ => ha) hits (fun k j hk' he => ?_)
      (fun j hj hji a ha => hsame a ?_) ?_ hlist, rfl, hcore, fun _ => ⟨hdead, hempty⟩⟩
    · rw [keyAt_eq_headAt, he] at hdead
      exact absurd (Option.some.inj hdead) hk'
    · rintro rfl
      exact hother hj hji ha List.mem_cons_self
    · rintro ⟨k, hk', hke⟩
      exact hk' (Option.some.inj (hke.symm.trans hdead))
  · have hpts : p ∈ ts i := (List.mem_cons.mp hpi).resolve_left fun h => hpeq h.symm
    obtain ⟨us, vs, huv⟩ := List.append_of_mem hpts
    rw [huv] at hring
    obtain ⟨cells', first, hdel, hring', hgone, hlist, hout, hcore⟩ :=
      hmapDelete_secondary_eq hring hi.list hk hpeq hindex hs
    have hpuv : p ∉ us ++ vs := (List.nodup_cons.mp
      (List.nodup_middle.mp (List.nodup_cons.mp hring.nodup).2)).1
    have herase : (ts i).erase p = us ++ vs := by
      rw [huv, List.erase_append_right _ fun h => hpuv (List.mem_append_left _ h), List.erase_cons_head]
    rw [herase]
    refine ⟨_, hdel, hi.drop hlt hpi rfl rfl rfl hcore (.inr hring')
      (fun a ha _ => ?_) (fun h => absurd h hpuv) (fun k j _ he => ?_) (fun j hj hji a ha => hout a ?_) ?_ hlist,
      rfl, hcore, fun h => absurd h.symm hpeq⟩
    · rw [huv]
      exact (List.mem_append.mp ha).elim (List.mem_append_left _)
        fun h => List.mem_append_right _ (List.mem_cons_of_mem _ h)
    · simp [headAt, hgone] at he
    · exact huv ▸ hother hj hji ha
    · rintro ⟨k, -, hke⟩
      simp [keyAt, hgone] at hke

theorem hmapStep_order {op : HmapOp} (hi : ListInv db ts ord) (hlen : op.key.length < maxSizeKey) :
    ∃ db' ts', Returns (fun n => hmapStep n db op) db' ∧ ListInv db' ts' (insertionStep db' ord) := by
  cases op with
  | add key arg =>
    by_cases hk : key = []
    · have hadd : Returns (fun n => hmapAdd n db key arg) (.error .keyEmpty, db) := by
        unfold hmapAdd
        simp only [hk, if_true]
        exact returns_ok _
      exact ⟨db, ts, Returns.bind hadd (returns_ok _), hi.unchanged⟩
    · rcases hi.search hk with ⟨p, -, -, hs⟩ | hs
      · exact ⟨db, ts, Returns.bind (hmapAdd_present hk hs) (returns_ok _), hi.unchanged⟩
      · cases hv : arg.vals? with
        | none => exact ⟨db, ts, Returns.bind (hi.add_invalid hk hv hs) (returns_ok _), hi.unchanged⟩
        | some v =>
          obtain ⟨db', p, l, hadd, hi', -⟩ := hi.add hk hlen hv hs
          exact ⟨db', _, Returns.bind hadd (returns_ok _), hi'⟩
  | set key data =>
    by_cases hk : key = []
    · have hset : Returns (fun n => hmapSet n db key data) (none, db) := by
        unfold hmapSet
        simp only [hk, if_true]
        exact returns_ok _
      exact ⟨db, ts, Returns.bind hset (returns_ok _), hi.unchanged⟩
    · rcases hi.search hk with ⟨p, -, hkp, hs⟩ | hs
      · obtain ⟨db', t, hset, hi', -⟩ := hi.set data hk hkp hs
        exact ⟨db', ts, Returns.bind hset (returns_ok _), hi'⟩
      · obtain ⟨db', p, l, hadd, hi', -⟩ := @ListInv.add _ _ _ _ hi (.chars data) _ hk hlen rfl hs
        obtain ⟨q, hs'⟩ : ∃ q, Returns (fun n => hmapSearch n db' key) q := by
          rcases hi'.search hk with ⟨p, -, -, hs'⟩ | hs'
          · exact ⟨_, hs'⟩
          · exact ⟨_, hs'⟩
        exact ⟨db', _, Returns.bind (hmapSet_absent hk hs hadd hs') (returns_ok _), hi'⟩
  | delete key =>
    by_cases hk : key = []
    · have hdel : Returns (fun n => hmapDelete n db key) (.keyEmpty, db) := by
        unfold hmapDelete hmapSearch
        simp only [hk, if_true, ok_bind]
        exact returns_ok _
      exact ⟨db, ts, Returns.bind hdel (returns_ok _), hi.unchanged⟩
    · rcases hi.search hk with ⟨p, hpi, hkp, hs⟩ | hs
      · obtain ⟨db', hdel, hi', -⟩ := hi.delete hk hpi hkp hs
        exact ⟨db', _, Returns.bind hdel (returns_ok _), hi'⟩
      · exact ⟨db, ts, Returns.bind (hmapDelete_absent hk hs) (returns_ok _), hi.unchanged⟩

theorem hmapHistory_order {ops : List HmapOp} (hi : ListInv db ts ord)
    (hkeys : ∀ op ∈ ops, op.key.length < maxSizeKey) :
    ∃ db' ord' ts', Returns (fun n => hmapHistory n db ord ops) (db', ord') ∧ ListInv db' ts' ord' := by
  induction ops generalizing db ts ord with
  | nil => exact ⟨db, ord, ts, returns_ok _, hi⟩
  | cons op ops ih =>
    obtain ⟨hop, hops⟩ := List.forall_mem_cons.mp hkeys
    obtain ⟨db', ts', hstep, hi'⟩ := hmapStep_order hi hop
    obtain ⟨db'', ord'', ts'', hrun, hi''⟩ := ih hi' hops
    exact ⟨db'', ord'', ts'', Returns.bind hstep hrun, hi''⟩

/-- The tables of a history are those of the run. -/
theorem hmapRun_of_history {ops : List HmapOp} (h : Returns (fun n => hmapHistory n db ord ops) (db', ord')) :
    Returns (fun n => hmapRun n db ops) db' := by
  obtain ⟨N, hN⟩ := h
  refine ⟨N, fun n hn => ?_⟩
  have hhist := hN n hn
  clear hN
  dsimp only at hhist ⊢
  induction ops generalizing db ord with
  | nil =>
    cases hhist
    rfl
  | cons op ops ih =>
    obtain ⟨db₁, hstep, hhist⟩ := bind_eq_ok hhist
    rw [hmapRun, hstep, ok_bind, ih hhist]

theorem listInv_init {bs : Nat} (hbs : 1 ≤ bs) : ListInv (hmapInit bs) (fun _ => []) [] := by
  obtain ⟨ts, ord, hi, -⟩ := rep_init hbs
  have hcell : ∀ a t, (hmapInit bs).cells a = some t → t = .zero := by
    intro a t ht
    simp only [hmapInit] at ht
    split at ht
    · exact (Option.some.inj ht).symm
    · cases ht
  refine ⟨hi.pos, hi.brk, hi.fresh, fun i hlt => ⟨.inl ⟨rfl, .zero, if_pos hlt, rfl, rfl, rfl⟩, by simp, by simp, ?_⟩,
    trivial, fun a => ?_, rfl⟩
  · intro a _ k j hk he
    obtain ⟨t, ht, hkj⟩ := Option.map_eq_some_iff.mp he
    obtain rfl := hcell a t ht
    exact absurd (Prod.mk.inj hkj).1.symm hk
  · refine ⟨fun h => absurd h List.not_mem_nil, ?_⟩
    rintro ⟨k, hk, he⟩
    obtain ⟨t, ht, rfl⟩ := Option.map_eq_some_iff.mp he
    exact absurd (congrArg Tuple.key (hcell a t ht)) hk

/-! ## Walkers -/

variable {r : Addr} {rs : List Addr}

theorem load_of_linked {a b : Addr} (h : listLinks.Linked db.cells a b) :
    ∃ t, load db.cells a = .ok t ∧ t.next = some b := by
  obtain ⟨t, ht, hload⟩ := load_eq (isSome_of_nextAt h.1)
  exact ⟨t, hload, by simpa [Links.nextAt, ht, listLinks] using h.1⟩

theorem foreach_round {a b : Addr} (h : listLinks.Linked db.cells a b) (l : List Addr) (k : Nat) :
    hmapForeachRound db k (some a, l) = .ok (.inl (if db.listTuple = some b then none else some b, l ++ [a])) := by
  obtain ⟨t, hload, hnext⟩ := load_of_linked h
  simp only [hmapForeachRound, hmapNext, hload, hnext, ok_bind]

/-- `hmap_foreach` goes along the links and stops behind the tuple that leads back. -/
theorem returns_foreach {a : Addr} {suf : List Addr} (hfirst : db.listTuple = some r)
    (hc : List.IsChain (listLinks.Linked db.cells) (a :: suf ++ [r])) (hr : r ∉ suf) (pre : List Addr) :
    Returns (fun n => loop (hmapForeachRound db) n (some a, pre)) (pre ++ a :: suf) := by
  induction suf generalizing a pre with
  | nil =>
    have hround := foreach_round (List.isChain_pair.mp hc) pre
    rw [hfirst, if_pos rfl] at hround
    have hend : Returns (fun n => loop (hmapForeachRound db) n (none, pre ++ [a])) (pre ++ [a]) :=
      returns_loop_done (returns_ok _)
    exact returns_loop_next ((returns_ok _).congr hround) hend
  | cons b suf ih =>
    obtain ⟨hab, hc⟩ := List.isChain_cons_cons.mp hc
    have hbr : ¬some r = some b := fun h => hr (by simp [Option.some.inj h])
    have hround := foreach_round hab pre
    rw [hfirst, if_neg hbr] at hround
    have hrest := ih hc (fun h => hr (List.mem_cons_of_mem _ h)) (pre ++ [a])
    rw [List.append_assoc, List.singleton_append] at hrest
    exact returns_loop_next ((returns_ok _).congr hround) hrest

/-- `hmap_size` counts the links it follows, which are one fewer than the tuples. -/
theorem returns_size {a : Addr} {suf : List Addr} (hfirst : db.listTuple = some r)
    (hc : List.IsChain (listLinks.Linked db.cells) (a :: suf ++ [r])) (hr : r ∉ suf) (m : Nat) :
    Returns (fun n => loop (hmapSizeRound db) n (some a, m)) (m + suf.length) := by
  induction suf generalizing a m with
  | nil =>
    obtain ⟨t, hload, hnext⟩ := load_of_linked (List.isChain_pair.mp hc)
    have hround (k : Nat) : hmapSizeRound db k (some a, m) = .ok (.inr m) := by
      simp only [hmapSizeRound, hload, hnext, hfirst, ok_bind, if_true]
    exact returns_loop_done ((returns_ok _).congr hround)
  | cons b suf ih =>
    obtain ⟨hab, hc⟩ := List.isChain_cons_cons.mp hc
    obtain ⟨t, hload, hnext⟩ := load_of_linked hab
    have hbr : ¬some b = some r := fun h => hr (by simp [Option.some.inj h])
    have hround (k : Nat) : hmapSizeRound db k (some a, m) = .ok (.inl (some b, m + 1)) := by
      simp only [hmapSizeRound, hload, hnext, hfirst, ok_bind, if_neg hbr]
    have hrest := ih hc (fun h => hr (List.mem_cons_of_mem _ h)) (m + 1)
    rw [List.length_cons, Nat.add_comm suf.length, ← Nat.add_assoc]
    exact returns_loop_next ((returns_ok _).congr hround) hrest

theorem IsList.cases (h : IsList listLinks db.cells db.listTuple ord) :
    db.listTuple = none ∧ ord = [] ∨
      ∃ r rs, db.listTuple = some r ∧ ord = r :: rs ∧ IsRing listLinks db.cells r rs := by
  generalize db.listTuple = first at h
  cases first with
  | none =>
    cases ord with
    | nil => exact .inl ⟨rfl, rfl⟩
    | cons => exact h.elim
  | some r =>
    cases ord with
    | nil => exact h.elim
    | cons a rs => exact .inr ⟨r, rs, rfl, by rw [h.1], h.1 ▸ h.2⟩

theorem ListInv.sound (hi : ListInv db ts ord) : ListSound db ord := by
  have hstored (a : Addr) : a ∈ ord ↔ db.stored a = true := (hi.live a).trans stored_iff.symm
  rcases IsList.cases hi.list with ⟨hfirst, rfl⟩ | ⟨r, rs, hfirst, rfl, hring⟩
  · have hnone (a : Addr) : ¬db.stored a = true := fun h => by cases (hstored a).mpr h
    have hforeach : Returns (fun n => hmapForeach n db) [] := by
      unfold hmapForeach
      rw [hfirst]
      exact returns_loop_done (returns_ok _)
    exact ⟨hstored, List.nodup_nil, hi.count, by simp [hfirst, hnone], by simp [hfirst],
      fun a ha => absurd ha (hnone a), fun a ha => absurd ha (hnone a), hforeach⟩
  · have hforeach : Returns (fun n => hmapForeach n db) (r :: rs) := by
      unfold hmapForeach
      rw [hfirst]
      exact returns_foreach hfirst hring.chain (List.nodup_cons.mp hring.nodup).1 []
    refine ⟨hstored, hring.nodup, hi.count, ?_, fun f hf k hpos hk => ?_, fun a ha => ?_, fun a ha => ?_, hforeach⟩
    · rw [hfirst]
      exact ⟨fun h => absurd h (Option.some_ne_none r), fun h => absurd ((hstored r).mp List.mem_cons_self) (h r)⟩
    · rw [hfirst] at hf
      cases hf
      rw [hi.count] at hk ⊢
      rw [hring.iterate_eq_iff hpos (by exact_mod_cast hk)]
      exact_mod_cast Iff.rfl
    · obtain ⟨b, -, hab⟩ := hring.exists_next ((hstored a).mpr ha)
      exact ⟨b, hab⟩
    · obtain ⟨b, -, hba⟩ := hring.exists_prev ((hstored a).mpr ha)
      exact ⟨b, hba.2, hba.1⟩

theorem ListInv.size (hi : ListInv db ts ord) : Returns (fun n => hmapSize n db) (ord.length - 1) := by
  unfold hmapSize
  rcases IsList.cases hi.list with ⟨hfirst, rfl⟩ | ⟨r, rs, hfirst, rfl, hring⟩
  · rw [hfirst]
    exact returns_loop_done (returns_ok _)
  · rw [hfirst]
    have hsize := returns_size hfirst hring.chain (List.nodup_cons.mp hring.nodup).1 0
    simpa using hsize

/-- Over every run the list is a ring of the stored tuples in the order of insertion, which `hmap_foreach`
goes through. `hmap_size` is the number of tuples just when there are none. -/
theorem hmapSize_iff {bs : Nat} (hbs : 1 ≤ bs) {ops : List HmapOp}
    (hkeys : ∀ op ∈ ops, op.key.length < maxSizeKey) :
    ∃ db ord s, Returns (fun n => hmapRun n (hmapInit bs) ops) db ∧
      Returns (fun n => hmapHistory n (hmapInit bs) [] ops) (db, ord) ∧ ListSound db ord ∧
      Returns (fun n => hmapSize n db) s ∧ ((s : Int) = db.tupleCount ↔ ∀ a, ¬db.stored a) := by
  obtain ⟨db, ord, ts, hrun, hi⟩ := hmapHistory_order (listInv_init hbs) hkeys
  refine ⟨db, ord, _, hmapRun_of_history hrun, hrun, hi.sound, hi.size, ?_⟩
  have hempty : (∀ a, ¬db.stored a) ↔ ord = [] := by
    rw [List.eq_nil_iff_forall_not_mem]
    exact forall_congr' fun a => not_congr (hi.sound.stored a).symm
  rw [hempty, hi.count, ← List.length_eq_zero_iff]
  omega

/-- One key. -/
theorem hmapSize_iff_one : ∃ db ord s, Returns (fun n => hmapRun n (hmapInit 1) [.set [97] [98]]) db ∧
    Returns (fun n => hmapHistory n (hmapInit 1) [] [.set [97] [98]]) (db, ord) ∧ ListSound db ord ∧
    Returns (fun n => hmapSize n db) s ∧ ((s : Int) = db.tupleCount ↔ ∀ a, ¬db.stored a) :=
  hmapSize_iff (by decide) (by decide)

theorem hmapRun_one_count (hrun : Returns (fun n => hmapRun n (hmapInit 1) [.set [97] [98]]) db) :
    db.tupleCount = 1 := by
  obtain ⟨N, hN⟩ := hrun
  have hrun := hN (N + 5) (Nat.le_add_right N 5)
  rw [← Except.ok.inj hrun]
  rfl

/-- With one key stored, `hmap_size` is 0. -/
theorem hmapSize_short : ¬∀ (bs : Nat) (ops : List HmapOp), 1 ≤ bs → (∀ op ∈ ops, op.key.length < maxSizeKey) →
    ∃ db s, Returns (fun n => hmapRun n (hmapInit bs) ops) db ∧ Returns (fun n => hmapSize n db) s ∧
      (s : Int) = db.tupleCount := by
  intro h
  obtain ⟨db, s, hrun, hsize, heq⟩ := h 1 [.set [97] [98]] (by decide) (by decide)
  have hkeys : ∀ op ∈ [HmapOp.set [97] [98]], op.key.length < maxSizeKey := by decide
  obtain ⟨db', ord, ts, hhist, hi⟩ := hmapHistory_order (listInv_init (Nat.le_refl 1)) hkeys
  obtain rfl := hrun.unique (hmapRun_of_history hhist)
  obtain rfl := hsize.unique hi.size
  have hone := hmapRun_one_count hrun
  rw [hi.count] at heq hone
  omega

end Dirlist
