import Dirlist.Set.Defs

/-! The invariant of the hash set and what looking up and inserting do under it. Lookups
take the remainder of a hash by the table length, insertions mask it; the two agree
because the length is a power of two. -/

namespace Dirlist
open Run

/-- The number of array elements that hold a value themselves. -/
def setOccupied (s : SetT) : Nat := ((List.range s.len).filter fun i => (s.array i).head.isSome).length

/-- The number of buckets behind the array elements. -/
def setChained (s : SetT) : Nat := ((List.range s.len).map fun i => (s.array i).next.length).sum

structure SetOk (s : SetT) : Prop where
  pow : ∃ k, 10 ≤ k ∧ s.len = 2 ^ k
  bound : s.len < 2 ^ 31
  slot : ∀ i < s.len, (s.array i).head = none → (s.array i).next = []
  home : ∀ i < s.len, ∀ b ∈ (s.array i).walk, b.hash = s.hashFp b.value ∧ b.hash.toNat % s.len = i
  nodup : ∀ i < s.len, ((s.array i).walk.map Bucket.value).Nodup
  entries : s.entries = (setValues s).length % 2 ^ 32
  overflow : s.overflow = setChained s % 2 ^ 32

/-! ## Sums over the array -/

section
variable {α : Type} {n i : Nat}

/-- The array around one of its elements. -/
theorem range_split (h : i < n) : ∃ xs ys, List.range n = xs ++ i :: ys ∧ i ∉ xs ∧ i ∉ ys := by
  obtain ⟨xs, ys, hs⟩ := List.append_of_mem (List.mem_range.mpr h)
  have hnd : (xs ++ i :: ys).Nodup := hs ▸ List.nodup_range
  have hnd' := List.nodup_cons.mp (List.nodup_middle.mp hnd)
  rw [List.mem_append, not_or] at hnd'
  exact ⟨xs, ys, hs, hnd'.1.1, hnd'.1.2⟩

theorem map_update_of_not_mem {β : Type} {f : Nat → α} {l : List Nat} {a : α} (h : i ∉ l)
    (g : Nat → α → β) : (l.map fun j => g j (Function.update f i a j)) = l.map fun j => g j (f j) := by
  refine List.map_congr_left fun j hj => ?_
  have hne : j ≠ i := fun he => h (he ▸ hj)
  rw [Function.update_of_ne hne]

end

variable {s : SetT} {val : Bytes}

theorem SetOk.len_pos (h : SetOk s) : 0 < s.len := by
  obtain ⟨k, -, hk⟩ := h.pow
  rw [hk]
  exact Nat.two_pow_pos k

theorem SetOk.index_eq (h : SetOk s) (val : Bytes) :
    (s.hashFp val).toNat &&& (s.len - 1) = (s.hashFp val).toNat % s.len := by
  obtain ⟨k, -, hk⟩ := h.pow
  rw [hk, Nat.and_two_pow_sub_one_eq_mod]

theorem mem_setValues : val ∈ setValues s ↔ ∃ i < s.len, ∃ b ∈ (s.array i).walk, b.value = val := by
  simp [setValues]

/-- A value is in the slot its hash says. -/
theorem SetOk.mem_values (h : SetOk s) : val ∈ setValues s ↔
    ∃ b ∈ (s.array ((s.hashFp val).toNat % s.len)).walk, b.hash = s.hashFp val ∧ b.value = val := by
  rw [mem_setValues]
  constructor
  · rintro ⟨i, hi, b, hb, rfl⟩
    obtain ⟨hh, hmod⟩ := h.home i hi b hb
    rw [← hh, hmod]
    exact ⟨b, hb, rfl, rfl⟩
  · rintro ⟨b, hb, -, hv⟩
    exact ⟨_, Nat.mod_lt _ h.len_pos, b, hb, hv⟩

theorem SetOk.has (h : SetOk s) (val : Bytes) : setHas s val = .ok (decide (val ∈ setValues s)) := by
  have hlen := h.len_pos
  rw [setHas]
  simp only [Nat.ne_of_gt hlen, if_false, Except.ok.injEq]
  rw [Bool.eq_iff_iff, List.any_eq_true, decide_eq_true_iff, h.mem_values]
  refine exists_congr fun b => and_congr_right fun _ => ?_
  rw [decide_eq_true_iff]
  constructor
  · exact fun hb => hb.2
  · exact fun hb => ⟨by rw [hb.2], hb⟩

theorem SetOk.nodup_values (h : SetOk s) : (setValues s).Nodup := by
  rw [setValues, List.nodup_flatMap]
  refine ⟨fun i hi => h.nodup i (List.mem_range.mp hi), ?_⟩
  refine (List.nodup_range.pairwise_of_forall_ne) fun i hi j hj hij => ?_
  intro v hvi hvj
  obtain ⟨b, hb, rfl⟩ := List.mem_map.mp hvi
  obtain ⟨c, hc, hcv⟩ := List.mem_map.mp hvj
  obtain ⟨hbh, hbi⟩ := h.home i (List.mem_range.mp hi) b hb
  obtain ⟨hch, hcj⟩ := h.home j (List.mem_range.mp hj) c hc
  rw [hcv, ← hbh] at hch
  exact hij (hbi.symm.trans (hch ▸ hcj))

/-- Every value is either in the array itself or chained behind it. -/
theorem SetOk.length_values (h : SetOk s) :
    (setValues s).length = setOccupied s + setChained s := by
  have hlist : ∀ l : List Nat, (∀ i ∈ l, i < s.len) →
      (l.flatMap fun i => (s.array i).walk.map Bucket.value).length =
        (l.filter fun i => (s.array i).head.isSome).length +
          (l.map fun i => (s.array i).next.length).sum := by
    intro l hl
    induction l with
    | nil => rfl
    | cons i l ih =>
      have ih' := ih fun j hj => hl j (List.mem_cons_of_mem _ hj)
      rw [List.flatMap_cons, List.length_append, ih', List.map_cons, List.sum_cons,
        List.filter_cons]
      cases hh : (s.array i).head with
      | none =>
        have hnext := h.slot i (hl i List.mem_cons_self) hh
        simp [SetSlot.walk, hh, hnext]
      | some b =>
        simp [SetSlot.walk, hh]
        omega
  exact hlist _ fun i hi => List.mem_range.mp hi

/-! ## Inserting -/

/-- The slot a new bucket went into. -/
def SetSlot.push (b : SetSlot) (e : Bucket) : SetSlot :=
  match b.head with
  | none => { b with head := some e }
  | some _ => { b with next := b.next ++ [e] }

theorem SetSlot.walk_push {b : SetSlot} (hb : b.head = none → b.next = []) (e : Bucket) :
    (b.push e).walk = b.walk ++ [e] := by
  cases hh : b.head with
  | none => simp [SetSlot.push, SetSlot.walk, hh, hb hh]
  | some a => simp [SetSlot.push, SetSlot.walk, hh]

theorem SetSlot.push_head (b : SetSlot) (e : Bucket) : (b.push e).head ≠ none := by
  cases hh : b.head with
  | none => simp [SetSlot.push, hh]
  | some a => simp [SetSlot.push, hh]

/-- The counters apart, inserting pushes a bucket onto the slot its hash says. -/
theorem SetOk.insert_eq (h : SetOk s) (val : Bytes) : setInsert s val =
    { s with
      array := Function.update s.array ((s.hashFp val).toNat % s.len)
        ((s.array ((s.hashFp val).toNat % s.len)).push ⟨val, s.hashFp val⟩)
      entries := (s.entries + 1) % 2 ^ 32
      overflow := match (s.array ((s.hashFp val).toNat % s.len)).head with
        | none => s.overflow
        | some _ => (s.overflow + 1) % 2 ^ 32 } := by
  simp only [setInsert, h.index_eq]
  cases hh : (s.array ((s.hashFp val).toNat % s.len)).head with
  | none => simp [SetSlot.push, hh]
  | some a => simp [SetSlot.push, hh]

/-- The values around those of one array element. -/
theorem setValues_around {i : Nat} (s : SetT) (hi : i < s.len) : ∃ before after,
    setValues s = before ++ (s.array i).walk.map Bucket.value ++ after ∧
    ∀ b, setValues { s with array := Function.update s.array i b } =
      before ++ b.walk.map Bucket.value ++ after := by
  obtain ⟨xs, ys, hr, hxs, hys⟩ := range_split hi
  refine ⟨xs.flatMap fun j => (s.array j).walk.map Bucket.value,
    ys.flatMap fun j => (s.array j).walk.map Bucket.value, ?_, fun b => ?_⟩
  · simp [setValues, hr]
  · have hsame : ∀ l : List Nat, i ∉ l →
        l.flatMap (fun j => ((Function.update s.array i b) j).walk.map Bucket.value) =
          l.flatMap fun j => (s.array j).walk.map Bucket.value := by
      intro l hl
      rw [List.flatMap_def, List.flatMap_def,
        map_update_of_not_mem hl fun _ (b : SetSlot) => b.walk.map Bucket.value]
    simp [setValues, hr, hsame xs hxs, hsame ys hys]

theorem SetOk.values_insert (h : SetOk s) (val : Bytes) :
    (setValues (setInsert s val)).Perm (val :: setValues s) := by
  obtain ⟨i, hi⟩ : ∃ i, (s.hashFp val).toNat % s.len = i := ⟨_, rfl⟩
  have hlt : i < s.len := hi ▸ Nat.mod_lt _ h.len_pos
  obtain ⟨before, after, hvals, hupdate⟩ := setValues_around s hlt
  have hins : setValues (setInsert s val) = before ++
      ((s.array i).push ⟨val, s.hashFp val⟩).walk.map Bucket.value ++ after := by
    rw [h.insert_eq, hi]
    exact hupdate _
  rw [hins, hvals, SetSlot.walk_push (h.slot i hlt), List.map_append, ← List.append_assoc,
    List.append_assoc (before ++ _)]
  exact List.perm_middle

theorem SetOk.chained_insert (h : SetOk s) (val : Bytes) : setChained (setInsert s val) =
    match (s.array ((s.hashFp val).toNat % s.len)).head with
    | none => setChained s
    | some _ => setChained s + 1 := by
  obtain ⟨i, hi⟩ : ∃ i, (s.hashFp val).toNat % s.len = i := ⟨_, rfl⟩
  have hlt : i < s.len := hi ▸ Nat.mod_lt _ h.len_pos
  obtain ⟨xs, ys, hr, hxs, hys⟩ := range_split hlt
  have hsame : ∀ l : List Nat, i ∉ l → (l.map fun j => ((Function.update s.array i
      ((s.array i).push ⟨val, s.hashFp val⟩)) j).next.length) =
      l.map fun j => (s.array j).next.length := fun l hl =>
    map_update_of_not_mem hl fun _ (b : SetSlot) => b.next.length
  rw [h.insert_eq, hi]
  simp only [setChained, hr, List.map_append, List.map_cons, List.sum_append, List.sum_cons,
    hsame xs hxs, hsame ys hys, Function.update_self]
  cases hh : (s.array i).head with
  | none => simp [SetSlot.push, hh]
  | some a =>
    simp [SetSlot.push, hh]
    omega

theorem SetOk.insert (h : SetOk s) (hval : val ∉ setValues s) : SetOk (setInsert s val) := by
  have hcount := (h.values_insert val).length_eq
  have hchain := h.chained_insert val
  obtain ⟨i, hi⟩ : ∃ i, (s.hashFp val).toNat % s.len = i := ⟨_, rfl⟩
  have hlt : i < s.len := hi ▸ Nat.mod_lt _ h.len_pos
  have hwalk := SetSlot.walk_push (h.slot i hlt) ⟨val, s.hashFp val⟩
  rw [h.insert_eq, hi] at hcount hchain ⊢
  refine ⟨h.pow, h.bound, fun j hj => ?_, fun j hj b hb => ?_, fun j hj => ?_, ?_, ?_⟩
  · by_cases hji : j = i
    · subst hji
      dsimp only
      rw [Function.update_self]
      exact fun hn => absurd hn (SetSlot.push_head _ _)
    · dsimp only
      rw [Function.update_of_ne hji]
      exact h.slot j hj
  · by_cases hji : j = i
    · subst hji
      dsimp only at hb
      rw [Function.update_self, hwalk, List.mem_append, List.mem_singleton] at hb
      rcases hb with hb | rfl
      · exact h.home j hj b hb
      · exact ⟨rfl, hi⟩
    · dsimp only at hb
      rw [Function.update_of_ne hji] at hb
      exact h.home j hj b hb
  · by_cases hji : j = i
    · subst hji
      dsimp only
      rw [Function.update_self, hwalk, List.map_append, List.map_cons, List.map_nil,
        List.nodup_append]
      refine ⟨h.nodup j hj, by simp, fun v hv w hw => ?_⟩
      rw [List.mem_singleton.mp hw]
      rintro rfl
      obtain ⟨b, hb, hbv⟩ := List.mem_map.mp hv
      exact hval (mem_setValues.mpr ⟨j, hj, b, hb, hbv⟩)
    · dsimp only
      rw [Function.update_of_ne hji]
      exact h.nodup j hj
  · dsimp only
    rw [hcount, List.length_cons, h.entries]
    omega
  · dsimp only
    rw [hchain]
    cases (s.array i).head with
    | none => exact h.overflow
    | some a =>
      dsimp only
      rw [h.overflow, Nat.mod_add_mod]

end Dirlist
