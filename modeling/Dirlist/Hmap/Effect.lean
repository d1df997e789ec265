import Dirlist.Hmap.Inv

/-! What `hmap_add`, `hmap_set` and `hmap_delete` do to the tuples and the two kinds of rings, from a
sound list and a sound bucket on. -/

namespace Dirlist
open Run Ring

variable {db : HmapDb} {ord : List Addr} {key : Bytes} {i p : Addr} {l : List Addr}

/-- A tuple without its links. -/
def Tuple.unlinked (t : Tuple) : Tuple := listLinks.rest (hashLinks.rest t)

/-- Only links of a tuple have changed. -/
def SameCore (cells cells' : Heap Tuple) (a : Addr) : Prop :=
  (cells' a).map Tuple.unlinked = (cells a).map Tuple.unlinked

theorem SameCore.map_eq {cells cells' : Heap Tuple} {a : Addr} (h : SameCore cells cells' a) {β : Type}
    (f : Tuple → β) (hf : ∀ t, f t.unlinked = f t) : (cells' a).map f = (cells a).map f := by
  have hcomp : f ∘ Tuple.unlinked = f := funext hf
  rw [← hcomp, ← Option.map_map, ← Option.map_map, h]

/-- The length of the data that a call stores, over the one that was there: only texts have one. -/
def HmapArg.lenOver (arg : HmapArg) (len : Nat) : Nat :=
  match arg with
  | .chars data => data.length
  | _ => len

theorem hmapSetData_eq {t : Tuple} {arg : HmapArg} {v : HmapVals} (hv : arg.vals? = some v) :
    hmapSetData t arg = .ok { t with vals := v, dataLen := arg.lenOver t.dataLen } := by
  cases arg with
  | tuple => cases hv
  | _ =>
    cases hv
    rfl

theorem hmapSetData_invalid (t : Tuple) {arg : HmapArg} (hv : arg.vals? = none) :
    hmapSetData t arg = .error .dataTypeInvalid := by
  cases arg with
  | tuple => rfl
  | _ => cases hv

theorem hmapFreeData_eq (t : Tuple) : ∃ v, (hmapFreeData t).2 = { t with vals := v } := by
  unfold hmapFreeData
  split <;> exact ⟨_, rfl⟩

/-! ## Adding -/

/-- Whatever ring the root slot was on, it ends up on a ring of its own. -/
theorem hmapLinkRoot_spec {cells : Heap Tuple} {t : Tuple}
    (ht : cells i = some t)
    (hl : (t.hashNext = none ∧ t.hashPrev = none) ∨ IsRing hashLinks cells i l) :
    ∃ cells', hmapLinkRoot cells i t = .ok cells' ∧ IsRing hashLinks cells' i [] ∧
      hashLinks.Frame cells cells' ∧ ∀ c, c ∉ i :: l → cells' c = cells c := by
  by_cases hnp : t.hashNext = none ∧ t.hashPrev = none
  · refine ⟨_, if_pos hnp, ⟨?_, by simp⟩, (frame_refl _ _).upd fun _ => rfl, fun c hc => ?_⟩
    · simp [Links.Linked, Links.nextAt, Links.prevAt, hashLinks, upd, ht]
    · exact upd_of_ne _ fun h => hc (h ▸ List.mem_cons_self)
  · obtain ⟨cells', happ, hring, hframe, hout⟩ := (hl.resolve_left hnp).append_self
    refine ⟨cells', ?_, hring, hframe, hout⟩
    rw [hmapLinkRoot, if_neg hnp, hdbHashAppend, happ, ok_bind]

/-- Storing into an empty root slot. Afterwards the root slot is alone on its ring,
whatever else was there before. -/
theorem hmapReuseRoot_eq (hb : IsBucket db.cells i l) (hlist : IsList listLinks db.cells db.listTuple ord)
    (hiord : i ∉ ord) {arg : HmapArg} {v : HmapVals} {root : Tuple} (hlen : key.length < maxSizeKey)
    (hv : arg.vals? = some v) (hroot : db.cells i = some root) :
    ∃ cells' first, hmapReuseRoot db i root key arg = .ok (.ok i,
        { db with cells := cells', listTuple := first, tupleCount := db.tupleCount + 1 }) ∧
      IsRing hashLinks cells' i [] ∧
      (cells' i).map (fun t => (t.key, t.index, t.vals, t.dataLen, t.dataType)) =
        some (key, i, v, arg.lenOver root.dataLen, arg.dataType) ∧
      IsList listLinks cells' first (ord ++ [i]) ∧
      (∀ a, a ∉ i :: l → listLinks.SameRest db.cells cells' a) ∧
      ∀ a, a ≠ i → SameCore db.cells cells' a := by
  have hset := hmapSetData_eq hv (t := root)
  obtain ⟨t, htdef⟩ : ∃ t : Tuple, t = { root with
      vals := v, dataLen := arg.lenOver root.dataLen, key := key, index := i, type := .primary,
        dataType := arg.dataType } :=
    ⟨_, rfl⟩
  obtain ⟨cells₀, hcells₀⟩ : ∃ cells₀, cells₀ = upd db.cells i fun _ => t := ⟨_, rfl⟩
  have hcell : cells₀ i = some t := by simp [hcells₀, upd, hroot]
  have hne₀ : ∀ c, c ≠ i → cells₀ c = db.cells c := fun c hc => by
    rw [hcells₀, upd_of_ne _ hc]
  have hlinks : (t.hashNext = none ∧ t.hashPrev = none) ∨ IsRing hashLinks cells₀ i l := by
    rcases hb with ⟨-, t', ht', hn, hp, -⟩ | hr
    · obtain rfl : root = t' := Option.some.inj (hroot.symm.trans ht')
      exact .inl ⟨by rw [htdef]; exact hn, by rw [htdef]; exact hp⟩
    · refine .inr (hr.congr fun a _ => ?_)
      by_cases hai : a = i
      · simp [hai, Links.nextAt, Links.prevAt, hcell, hroot, htdef, hashLinks]
      · simp [Links.nextAt, Links.prevAt, hne₀ a hai]
  obtain ⟨cells₁, hlink, hring, hframe₁, hout₁⟩ := hmapLinkRoot_spec hcell hlinks
  have hlist₁ : IsList listLinks cells₁ db.listTuple ord := by
    refine hlist.congr fun a ha => ?_
    have hai : a ≠ i := fun h => hiord (h ▸ ha)
    rw [Links.nextAt, Links.prevAt, Links.nextAt, Links.prevAt, ← hne₀ a hai]
    exact ⟨(hframe₁ a).bind_eq _ fun _ => rfl, (hframe₁ a).bind_eq _ fun _ => rfl⟩
  have hsome : (cells₁ i).isSome := by
    rw [hframe₁.isSome, hcell]
    rfl
  obtain ⟨cells₂, first, happ, hlist₂, hframe₂⟩ := hlist₁.append hsome hiord
  refine ⟨cells₂, first, ?_, hring.congr fun a _ =>
    ⟨(hframe₂ a).bind_eq _ fun _ => rfl, (hframe₂ a).bind_eq _ fun _ => rfl⟩, ?_, hlist₂,
    fun a ha => ?_, fun a ha => ?_⟩
  · simp only [hmapReuseRoot, hset, hmapSetKey, hlen, if_true, ok_bind]
    rw [← htdef, ← hcells₀, hlink, ok_bind, hdbListAppend, happ, ok_bind]
  · rw [(hframe₂ i).map_eq _ fun _ => rfl, (hframe₁ i).map_eq _ fun _ => rfl, hcell, htdef]
    rfl
  · have hai : a ≠ i := fun h => ha (h ▸ List.mem_cons_self)
    exact (Links.SameRest.of_eq ((hout₁ a ha).trans (hne₀ a hai))).trans (hframe₂ a)
  · rw [SameCore, (hframe₂ a).map_eq _ fun _ => rfl, (hframe₁ a).map_eq _ fun _ => rfl, hne₀ a ha]

/-- Chaining a new tuple, at `brk`, to an occupied root slot. -/
theorem hmapAddSecondary_eq (hring : IsRing hashLinks db.cells i l)
    (hlist : IsList listLinks db.cells db.listTuple ord) (hord : db.brk ∉ ord) (hbrk : db.brk ∉ i :: l)
    {arg : HmapArg} {v : HmapVals} (hlen : key.length < maxSizeKey) (hv : arg.vals? = some v) :
    ∃ cells' first, hmapAddSecondary db i key arg = .ok (.ok i,
        { db with cells := cells', listTuple := first, brk := db.brk + 1, tupleCount := db.tupleCount + 1,
                  secondaryTupleCount := db.secondaryTupleCount + 1 }) ∧
      IsRing hashLinks cells' i (l ++ [db.brk]) ∧
      (cells' db.brk).map (fun t => (t.key, t.index, t.vals, t.dataLen, t.dataType)) =
        some (key, i, v, arg.lenOver 0, arg.dataType) ∧
      IsList listLinks cells' first (ord ++ [db.brk]) ∧
      (∀ a, a ∉ i :: l ++ [db.brk] → listLinks.SameRest db.cells cells' a) ∧
      ∀ a, a ≠ db.brk → SameCore db.cells cells' a := by
  have hset := hmapSetData_eq hv (t := .zero)
  obtain ⟨p, hp⟩ : ∃ p, p = db.brk := ⟨_, rfl⟩
  rw [← hp] at hord hbrk ⊢
  obtain ⟨t, htdef⟩ : ∃ t : Tuple, t = { Tuple.zero with
      vals := v, dataLen := arg.lenOver Tuple.zero.dataLen, key := key, index := i, hashNext := none,
      hashPrev := none, next := none, prev := none, type := .secondary, dataType := arg.dataType } := ⟨_, rfl⟩
  obtain ⟨cells₀, hcells₀⟩ : ∃ cells₀, cells₀ = Function.update db.cells p (some t) := ⟨_, rfl⟩
  have hcell : cells₀ p = some t := by rw [hcells₀, Function.update_self]
  have hne₀ : ∀ c, c ≠ p → cells₀ c = db.cells c := fun c hc => by
    rw [hcells₀, Function.update_of_ne hc]
  have hlist₀ : IsList listLinks cells₀ db.listTuple ord := by
    refine hlist.congr fun a ha => ?_
    have hap : a ≠ p := fun h => hord (h ▸ ha)
    simp [Links.nextAt, Links.prevAt, hne₀ a hap]
  obtain ⟨cells₁, first, happ, hlist₁, hframe₁⟩ := hlist₀.append (by rw [hcell]; rfl) hord
  have hring₁ : IsRing hashLinks cells₁ i l := by
    refine hring.congr fun a ha => ?_
    have hap : a ≠ p := fun h => hbrk (h ▸ ha)
    have hsame := (Links.SameRest.of_eq (hne₀ a hap)).trans (hframe₁ a)
    exact ⟨hsame.bind_eq _ fun _ => rfl, hsame.bind_eq _ fun _ => rfl⟩
  have hsome : (cells₁ p).isSome := by
    rw [hframe₁.isSome, hcell]
    rfl
  obtain ⟨cells₂, happ₂, hring₂, hframe₂, hout₂⟩ := hring₁.append hsome hbrk
  refine ⟨cells₂, first, ?_, hring₂, ?_, hlist₁.congr fun a _ =>
    ⟨(hframe₂ a).bind_eq _ fun _ => rfl, (hframe₂ a).bind_eq _ fun _ => rfl⟩, fun a ha => ?_,
    fun a ha => ?_⟩
  · simp only [hmapAddSecondary, hset, hmapSetKey, hlen, if_true, ok_bind]
    rw [← hp, ← htdef, ← hcells₀, hdbListAppend, happ, ok_bind, hdbHashAppend, happ₂, ok_bind]
  · rw [(hframe₂ p).map_eq _ fun _ => rfl, (hframe₁ p).map_eq _ fun _ => rfl, hcell, htdef]
    rfl
  · have hap : a ≠ p := fun h => ha (by simp [h])
    exact ((Links.SameRest.of_eq (hne₀ a hap)).trans (hframe₁ a)).trans (.of_eq (hout₂ a ha))
  · rw [SameCore, (hframe₂ a).map_eq _ fun _ => rfl, (hframe₁ a).map_eq _ fun _ => rfl, hne₀ a ha]

/-- `hmap_add` of an absent key, by what is in the root slot. -/
theorem hmapAdd_of_reuse {arg : HmapArg} {root : Tuple} {r : Except HmapError Nat × HmapDb} (hk : key ≠ [])
    (hs : Returns (fun n => hmapSearch n db key) (.tupleNotFound, none))
    (hroot : db.cells (db.indexOf key) = some root) (he : root.key = [])
    (heq : hmapReuseRoot db (db.indexOf key) root key arg = .ok r) :
    Returns (fun n => hmapAdd n db key arg) r := by
  have hload : load db.cells (db.indexOf key) = .ok root := by simp only [load, hroot]
  unfold hmapAdd
  simp only [hk, if_false]
  refine Returns.bind hs (returns_const ?_)
  dsimp only
  rw [hload, ok_bind, if_pos he, heq]

theorem hmapAdd_of_secondary {arg : HmapArg} {root : Tuple} {r : Except HmapError Nat × HmapDb} (hk : key ≠ [])
    (hs : Returns (fun n => hmapSearch n db key) (.tupleNotFound, none))
    (hroot : db.cells (db.indexOf key) = some root) (he : root.key ≠ [])
    (heq : hmapAddSecondary db (db.indexOf key) key arg = .ok r) :
    Returns (fun n => hmapAdd n db key arg) r := by
  have hload : load db.cells (db.indexOf key) = .ok root := by simp only [load, hroot]
  unfold hmapAdd
  simp only [hk, if_false]
  refine Returns.bind hs (returns_const ?_)
  dsimp only
  rw [hload, ok_bind, if_neg he, heq]

/-- A data type that is not known stores nothing. -/
theorem hmapAdd_of_invalid {arg : HmapArg} {root : Tuple} (hk : key ≠ [])
    (hs : Returns (fun n => hmapSearch n db key) (.tupleNotFound, none))
    (hroot : db.cells (db.indexOf key) = some root) (hv : arg.vals? = none) :
    Returns (fun n => hmapAdd n db key arg) (.error .dataTypeInvalid, db) := by
  by_cases he : root.key = []
  · exact hmapAdd_of_reuse hk hs hroot he (by simp only [hmapReuseRoot, hmapSetData_invalid _ hv])
  · exact hmapAdd_of_secondary hk hs hroot he (by simp only [hmapAddSecondary, hmapSetData_invalid _ hv])

/-! ## Overwriting a value -/

/-- `hmap_set` on a key that is there. -/
theorem hmapSet_found {t : Tuple} (data : Bytes) (hk : key ≠ []) (ht : db.cells p = some t)
    (hs : Returns (fun n => hmapSearch n db key) (.success, some p)) :
    ∃ cells', Returns (fun n => hmapSet n db key data) (some p, { db with cells := cells' }) ∧
      cells' p = some { t with vals := .chars (some data), dataLen := data.length } ∧
      ∀ a, a ≠ p → cells' a = db.cells a := by
  obtain ⟨v, hfree⟩ := hmapFreeData_eq t
  obtain ⟨f, hf⟩ : ∃ f : Tuple → Tuple, f = fun t =>
      { (hmapFreeData t).2 with vals := .chars (some data), dataLen := data.length } := ⟨_, rfl⟩
  have hft : f t = { t with vals := .chars (some data), dataLen := data.length } := by
    rw [hf]
    simp only [hfree]
  refine ⟨upd db.cells p f, ?_, by simp [upd, ht, hft], fun a ha => upd_of_ne f ha⟩
  unfold hmapSet
  simp only [hk, if_false]
  refine Returns.bind hs (returns_const ?_)
  dsimp only [deref]
  rw [modify_eq (by rw [ht]; rfl), hf]

/-! ## Deleting -/

variable {xs ys : List Addr}

/-- Deleting from the root slot, which stays on its ring, empty. -/
theorem hmapDelete_root_eq (hring : IsRing hashLinks db.cells i l)
    (hlist : IsList listLinks db.cells db.listTuple (xs ++ i :: ys)) (hk : key ≠ [])
    (hindex : (db.cells i).map Tuple.index = some i)
    (hs : Returns (fun n => hmapSearch n db key) (.success, some i)) :
    ∃ cells' first, Returns (fun n => hmapDelete n db key) (.success,
        { db with listTuple := first, tupleCount := db.tupleCount - 1, cells := cells' }) ∧
      IsRing hashLinks cells' i l ∧ keyAt cells' i = some [] ∧ (cells' i).map Tuple.dataLen = some 0 ∧
      IsList listLinks cells' first (xs ++ ys) ∧ ∀ a, a ≠ i → listLinks.SameRest db.cells cells' a := by
  obtain ⟨cells₁, first, hrem, hlist₁, hframe₁⟩ := hlist.remove
  have hin : i ∉ xs ++ ys := (List.nodup_cons.mp (List.nodup_middle.mp hlist.nodup)).1
  obtain ⟨t₁, ht₁, hi₁⟩ : ∃ t₁, cells₁ i = some t₁ ∧ t₁.index = i := by
    rw [← (hframe₁ i).map_eq Tuple.index fun _ => rfl] at hindex
    exact Option.map_eq_some_iff.mp hindex
  have hload : load cells₁ i = .ok t₁ := by simp only [load, ht₁]
  have hsome : (cells₁ i).isSome := by simp [ht₁]
  obtain ⟨f, hf⟩ : ∃ f : Tuple → Tuple, f = fun t =>
      { (hmapFreeData { t with key := [] }).2 with data := none, dataLen := 0 } := ⟨_, rfl⟩
  obtain ⟨v, hfree⟩ := hmapFreeData_eq { t₁ with key := [] }
  have hcell : upd cells₁ i f i = some
      { t₁ with key := [], vals := v, data := none, dataLen := 0 } := by
    simp only [upd, ht₁, Option.map_some, Function.update_self, hf, hfree]
  refine ⟨upd cells₁ i f, first, ?_, hring.congr fun a _ => ?_, by simp [keyAt, hcell], by simp [hcell],
    hlist₁.congr fun a ha => ?_, fun a ha => (hframe₁ a).trans (.of_eq (upd_of_ne f ha))⟩
  · unfold hmapDelete
    refine Returns.bind hs (returns_const ?_)
    dsimp only [deref]
    rw [if_neg hk, if_pos rfl, ok_bind, hdbListRemove, hrem, ok_bind, hload, ok_bind]
    rw [if_pos hi₁, modify_eq hsome, ok_bind, hf]
  · have hlinks : hashLinks.nextAt cells₁ a = hashLinks.nextAt db.cells a ∧
        hashLinks.prevAt cells₁ a = hashLinks.prevAt db.cells a :=
      ⟨(hframe₁ a).bind_eq _ fun _ => rfl, (hframe₁ a).bind_eq _ fun _ => rfl⟩
    rw [← hlinks.1, ← hlinks.2]
    by_cases ha : a = i
    · subst ha
      simp [Links.nextAt, Links.prevAt, hcell, ht₁, hashLinks]
    · simp [Links.nextAt, Links.prevAt, upd_of_ne f ha]
  · have hai : a ≠ i := fun h => hin (h ▸ ha)
    simp [Links.nextAt, Links.prevAt, upd_of_ne f hai]

/-- Deleting a secondary tuple, which leaves its ring and is freed. -/
theorem hmapDelete_secondary_eq {us vs : List Addr} (hring : IsRing hashLinks db.cells i (us ++ p :: vs))
    (hlist : IsList listLinks db.cells db.listTuple (xs ++ p :: ys)) (hk : key ≠ []) (hpi : i ≠ p)
    (hindex : (db.cells p).map Tuple.index = some i)
    (hs : Returns (fun n => hmapSearch n db key) (.success, some p)) :
    ∃ cells' first, Returns (fun n => hmapDelete n db key) (.success,
        { db with listTuple := first, tupleCount := db.tupleCount - 1, cells := cells',
                  secondaryTupleCount := db.secondaryTupleCount - 1 }) ∧
      IsRing hashLinks cells' i (us ++ vs) ∧ cells' p = none ∧
      IsList listLinks cells' first (xs ++ ys) ∧
      (∀ a, a ∉ i :: (us ++ p :: vs) → listLinks.SameRest db.cells cells' a) ∧
      ∀ a, a ≠ p → SameCore db.cells cells' a := by
  obtain ⟨cells₁, first, hrem, hlist₁, hframe₁⟩ := hlist.remove
  have hpn : p ∉ xs ++ ys := (List.nodup_cons.mp (List.nodup_middle.mp hlist.nodup)).1
  have hring₁ : IsRing hashLinks cells₁ i (us ++ p :: vs) := hring.congr fun a _ =>
    ⟨(hframe₁ a).bind_eq _ fun _ => rfl, (hframe₁ a).bind_eq _ fun _ => rfl⟩
  obtain ⟨t₁, ht₁, hi₁⟩ : ∃ t₁, cells₁ p = some t₁ ∧ t₁.index = i := by
    rw [← (hframe₁ p).map_eq Tuple.index fun _ => rfl] at hindex
    exact Option.map_eq_some_iff.mp hindex
  have hload : load cells₁ p = .ok t₁ := by simp only [load, ht₁]
  obtain ⟨cells₂, hrem₂, hring₂, hframe₂, hout₂⟩ := hring₁.remove_later
  have hpuv : p ∉ us ++ vs := by
    have hnd := (List.nodup_cons.mp hring₁.nodup).2
    exact (List.nodup_cons.mp (List.nodup_middle.mp hnd)).1
  obtain ⟨cells₃, hcells₃⟩ : ∃ cells₃, cells₃ = Function.update cells₂ p none := ⟨_, rfl⟩
  have hne₃ : ∀ a, a ≠ p → cells₃ a = cells₂ a := fun a ha => by
    rw [hcells₃, Function.update_of_ne ha]
  have hgone : cells₃ p = none := by rw [hcells₃, Function.update_self]
  refine ⟨cells₃, first, ?_, hring₂.congr fun a ha => ?_, hgone, hlist₁.congr fun a ha => ?_,
    fun a ha => ?_, fun a ha => ?_⟩
  · unfold hmapDelete
    refine Returns.bind hs (returns_const ?_)
    dsimp only [deref]
    rw [if_neg hk, if_pos rfl, ok_bind, hdbListRemove, hrem, ok_bind, hload, ok_bind]
    rw [if_neg (by rw [hi₁]; exact hpi), hdbHashRemove, hi₁, hrem₂, ok_bind, hcells₃]
  · have hap : a ≠ p := by
      rintro rfl
      rcases List.mem_cons.mp ha with h | h
      · exact hpi h.symm
      · exact hpuv h
    simp [Links.nextAt, Links.prevAt, hne₃ a hap]
  · have hap : a ≠ p := fun h => hpn (h ▸ ha)
    rw [Links.nextAt, Links.prevAt, hne₃ a hap]
    exact ⟨(hframe₂ a).bind_eq _ fun _ => rfl, (hframe₂ a).bind_eq _ fun _ => rfl⟩
  · have hap : a ≠ p := fun h => ha (by simp [h])
    refine (hframe₁ a).trans (.of_eq ?_)
    rw [hne₃ a hap, hout₂ a ha]
  · rw [SameCore, hne₃ a ha, (hframe₂ a).map_eq _ fun _ => rfl, (hframe₁ a).map_eq _ fun _ => rfl]

end Dirlist
