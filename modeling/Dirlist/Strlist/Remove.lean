import Dirlist.Strlist.Grow

/-! Runs that also remove elements, next to the list of byte strings they stand for.
Removing by value keeps the buffer in order, but may leave a separator at its end; removing
by index takes the index for the length of the element. -/

namespace Dirlist
open Trace

variable {sep : UInt8} {s t u v x : Bytes} {xs ys : List Bytes} {sl : Strlist}

/-! ## The buffer around an element -/

/-- The elements, each with a separator behind it. -/
def ended (sep : UInt8) (xs : List Bytes) : Bytes := xs.flatMap fun x => x ++ [sep]

theorem ended_cons (x : Bytes) (xs : List Bytes) : ended sep (x :: xs) = x ++ sep :: ended sep xs := by
  simp [ended]

theorem length_ended (k : Nat) : (ended sep (xs.take k)).length = offset xs k := by
  simp [ended, offset, List.length_flatMap]

theorem Lists.ended_append (hxs : ∀ x ∈ xs, Clean sep x) (h : Lists sep s ys) :
    Lists sep (ended sep xs ++ s) (xs ++ ys) := by
  induction xs with
  | nil => exact h
  | cons x xs ih =>
    rw [ended_cons, List.append_assoc, List.cons_append]
    exact .cons (hxs x List.mem_cons_self) (ih fun y hy => hxs y (List.mem_cons_of_mem _ hy))

/-- The buffer up to an element, and from it on. -/
theorem Lists.split (h : Lists sep s xs) {k : Nat} (hk : k < xs.length) :
    ∃ t, s = ended sep (xs.take k) ++ t ∧ Lists sep t (xs.drop k) := by
  induction h generalizing k with
  | nil => cases hk
  | @last x hx =>
    obtain rfl : k = 0 := by simpa using hk
    exact ⟨x, rfl, .last hx⟩
  | @cons x s xs hx hs ih =>
    cases k with
    | zero => exact ⟨_, rfl, .cons hx hs⟩
    | succ k =>
      obtain ⟨t, rfl, ht⟩ := ih (Nat.lt_of_succ_lt_succ hk)
      refine ⟨t, ?_, ht⟩
      rw [List.take_succ_cons, ended_cons, List.append_assoc, List.cons_append]

theorem Lists.head_cases (h : Lists sep s (x :: xs)) :
    (s = x ∧ xs = []) ∨ ∃ t, s = x ++ sep :: t ∧ Lists sep t xs := by
  cases h with
  | last hx => exact .inl ⟨rfl, rfl⟩
  | cons hx hs => exact .inr ⟨_, rfl, hs⟩

/-- Without the last separator the elements are the same. -/
theorem lists_dropLast (hxs : ∀ x ∈ xs, Clean sep x) : Lists sep (ended sep xs).dropLast xs := by
  induction xs with
  | nil => exact .nil
  | cons x xs ih =>
    have hx := hxs x List.mem_cons_self
    rw [ended_cons]
    cases xs with
    | nil =>
      have hdrop : (x ++ sep :: ended sep []).dropLast = x := by simp [ended]
      rw [hdrop]
      exact .last hx
    | cons y xs =>
      have hne : sep :: ended sep (y :: xs) ≠ [] := List.cons_ne_nil _ _
      have hne' : ended sep (y :: xs) ≠ [] := by simp [ended]
      rw [List.dropLast_append_of_ne_nil hne, List.dropLast_cons_of_ne_nil hne']
      exact .cons hx (ih fun z hz => hxs z (List.mem_cons_of_mem _ hz))

theorem strallocRemove_append (s : Bytes) (ht : t ≠ []) (n : Nat) :
    strallocRemove (s ++ t) s.length n = s ++ t.drop n := by
  have hpos := List.length_pos_iff.mpr ht
  rw [strallocRemove, if_neg (by simp; omega)]
  split
  · next h =>
    rw [List.length_append] at h
    rw [List.take_left, List.drop_of_length_le (by omega), List.append_nil]
  · rw [List.take_left, List.drop_append, List.drop_of_length_le (by omega)]
    simp

theorem strallocRemove_last (hs : s ≠ []) {n : Nat} (hn : t.length + 1 ≤ n) :
    strallocRemove (s ++ t) (s.length - 1) n = s.dropLast := by
  have hpos := List.length_pos_iff.mpr hs
  rw [strallocRemove, if_neg (by simp; omega), if_pos (by simp; omega),
    List.take_append_of_le_length (by omega), List.dropLast_eq_take]

/-! ## Removing by value -/

theorem strlistRemoveb_sep (sl : Strlist) (x : Bytes) : (strlistRemoveb sl x).2.sep = sl.sep := by
  simp only [strlistRemoveb]
  split <;> rfl

theorem Strlist.Holds.removeb_of_mem (h : sl.Holds xs) (hx : x ∈ xs) :
    (strlistRemoveb sl x).2.Holds (xs.erase x) := by
  have hk := List.idxOf_lt_length_of_mem hx
  obtain ⟨t, hsa, ht⟩ := Lists.split h hk
  have hclean : ∀ y ∈ xs.take (xs.idxOf x), Clean sl.sep y := fun y hy =>
    Lists.clean h y (List.mem_of_mem_take hy)
  have hdrop : xs.drop (xs.idxOf x) = x :: xs.drop (xs.idxOf x + 1) := by
    rw [List.drop_eq_getElem_cons hk, List.getElem_idxOf hk]
  have hoff : strlistIndexofb sl x = (ended sl.sep (xs.take (xs.idxOf x))).length := by
    rw [h.indexof, if_pos hx, length_ended]
  have herase : xs.erase x = xs.take (xs.idxOf x) ++ xs.drop (xs.idxOf x + 1) := by
    rw [List.erase_eq_eraseIdx_of_idxOf rfl, List.eraseIdx_eq_take_drop_succ]
  rw [hdrop] at ht
  have hne : t ≠ [] := fun hnil => by
    rw [ht.eq_nil_iff] at hnil
    cases hnil
  have hrem : (strlistRemoveb sl x).2.sa = ended sl.sep (xs.take (xs.idxOf x)) ++ t.drop (x.length + 1) := by
    simp only [strlistRemoveb, hoff]
    rw [if_pos (by omega), Int.toNat_natCast]
    dsimp only
    rw [hsa, strallocRemove_append _ hne]
    rcases ht.head_cases with ⟨rfl, -⟩ | ⟨s, rfl, -⟩
    · simp
    · simp
  rw [Strlist.Holds, strlistRemoveb_sep, hrem, herase]
  refine Lists.ended_append hclean ?_
  rcases ht.head_cases with ⟨rfl, hnil⟩ | ⟨s, rfl, hs⟩
  · rw [List.drop_of_length_le (Nat.le_succ _), hnil]
    exact .nil
  · rw [drop_past]
    exact hs

theorem Strlist.Holds.removeb (h : sl.Holds xs) (x : Bytes) :
    (strlistRemoveb sl x).2.Holds (xs.erase x) := by
  by_cases hx : x ∈ xs
  · exact h.removeb_of_mem hx
  · have hno : strlistRemoveb sl x = (0, sl) := by
      rw [strlistRemoveb, h.indexof, if_neg hx]
      rfl
    rw [hno, List.erase_of_not_mem hx]
    exact h

theorem Strlist.Holds.sub {o : Strlist} (h : sl.Holds xs) (ho : o.Holds ys) :
    (strlistSub sl o).2.Holds (ys.foldl List.erase xs) := by
  rw [strlistSub, ho.foreach]
  have hstart : ((0, sl) : Nat × Strlist).2.Holds xs := h
  generalize ((0, sl) : Nat × Strlist) = s at hstart ⊢
  clear ho h
  induction ys generalizing s xs with
  | nil => exact hstart
  | cons y ys ih =>
    obtain ⟨r, sl⟩ := s
    exact ih _ (hstart.removeb y)

theorem Strlist.Holds.removeAll {o : Strlist} (h : sl.Holds xs) (ho : o.Holds ys) :
    (strlistRemoveAll sl o).2.Holds (ys.foldl List.erase xs) := by
  rw [strlistRemoveAll, ho.foreach]
  have hstart : ((0, sl) : Nat × Strlist).2.Holds xs := h
  generalize ((0, sl) : Nat × Strlist) = s at hstart ⊢
  clear ho h
  induction ys generalizing s xs with
  | nil => exact hstart
  | cons y ys ih =>
    obtain ⟨count, sl⟩ := s
    rw [List.foldl_cons, List.foldl_cons]
    dsimp only at hstart ⊢
    rw [hstart.contains]
    by_cases hy : y ∈ xs
    · rw [decide_eq_true hy, if_pos rfl]
      exact ih _ (hstart.removeb y)
    · rw [decide_eq_false hy, if_neg Bool.false_ne_true, List.erase_of_not_mem hy]
      exact ih _ hstart

/-! ## Removing by index -/

theorem atFrom_append {i l : Nat} (hl : l ≠ i) (hx : sep ∉ x) (p : Nat) (s : Bytes) :
    atFrom sep i l p (x ++ s) = atFrom sep i l (p + x.length) s := by
  induction x generalizing p with
  | nil => rfl
  | cons c x ih =>
    obtain ⟨hc, hx'⟩ : c ≠ sep ∧ sep ∉ x := by simpa [eq_comm] using hx
    rw [List.cons_append, atFrom, if_neg hl, if_neg hc, ih hx', List.length_cons]
    congr 1
    omega

/-- The scan finds every element, and the end of the buffer behind a separator. -/
theorem Lists.at (h : Lists sep s xs) (p : Nat) {i l : Nat} (hl : l ≤ i) :
    atFrom sep i l p s =
      if i - l < xs.length then some (p + offset xs (i - l))
      else if i - l = xs.length ∧ s = ended sep xs then some (p + s.length) else none := by
  induction h generalizing p l with
  | nil =>
    by_cases heq : l = i
    · simp [atFrom, heq, ended]
    · have hsub : i - l ≠ 0 := by omega
      simp [atFrom, heq, hsub]
  | @last x hx =>
    by_cases heq : l = i
    · subst heq
      obtain ⟨c, x', rfl⟩ := List.exists_cons_of_ne_nil hx.1
      simp [atFrom, offset]
    · have hpass : atFrom sep i l p (x ++ []) = atFrom sep i l (p + x.length) [] :=
        atFrom_append heq hx.2 _ _
      have hended : x ≠ ended sep [x] := fun he => hx.2 (he ▸ by simp [ended])
      rw [List.append_nil, atFrom, if_neg heq] at hpass
      rw [hpass, if_neg (by simp; omega), if_neg (fun hc => hended hc.2)]
  | @cons x s xs hx hs ih =>
    by_cases heq : l = i
    · subst heq
      obtain ⟨c, x', rfl⟩ := List.exists_cons_of_ne_nil hx.1
      simp [atFrom, offset]
    · have hidx : i - l = (i - (l + 1)) + 1 := by omega
      rw [atFrom_append heq hx.2, atFrom, if_neg heq, if_pos rfl, ih _ (by omega), hidx,
        List.length_cons, offset_cons_succ, ended_cons]
      simp only [Nat.add_lt_add_iff_right, Nat.add_right_cancel_iff, List.length_append,
        List.length_cons, List.append_cancel_left_eq, List.cons.injEq, true_and]
      split
      · congr 1
        omega
      · split
        · congr 1
          omega
        · rfl

/-- A list with bytes in it was allocated. -/
def Strlist.Ready (sl : Strlist) : Prop := sl.sa ≠ [] → sl.ready = true

theorem ended_getLast? (sep : UInt8) (hxs : xs ≠ []) : (ended sep xs).getLast? = some sep := by
  obtain ⟨ys, y, rfl⟩ := List.eq_nil_or_concat xs |>.resolve_left hxs
  simp [ended]

/-- What is left if the list has an element with that index: the bytes behind the index are
taken away from the start of the element, or the end of the buffer with the separator before it. -/
theorem Strlist.Holds.removeAt_sa (h : sl.Holds xs) (hr : sl.Ready) {k : Nat} (hk : k < xs.length)
    (hsa : sl.sa = ended sl.sep (xs.take k) ++ t) (ht : t ≠ []) :
    (strlistRemoveAt sl k).2.sa =
      if k < t.length then
        ended sl.sep (xs.take k) ++ t.drop (if t[k]? = some sl.sep then k + 1 else k)
      else (ended sl.sep (xs.take k)).dropLast := by
  have hne : sl.sa ≠ [] := by simp [hsa, ht]
  have hat : strlistAt sl k = some (ended sl.sep (xs.take k)).length := by
    rw [strlistAt, hr hne, if_pos rfl, Lists.at h 0 (Nat.zero_le k), Nat.sub_zero, if_pos hk,
      Nat.zero_add, length_ended]
  simp only [strlistRemoveAt, hat]
  by_cases hlt : k < t.length
  · have hlt' : (ended sl.sep (xs.take k)).length + k < sl.sa.length := by
      rw [hsa, List.length_append]
      omega
    have hget : sl.sa[(ended sl.sep (xs.take k)).length + k]? = t[k]? := by
      rw [hsa, List.getElem?_append_right (by omega)]
      congr 1
      omega
    simp only [hlt', hlt, if_true, hget]
    rw [hsa, strallocRemove_append _ ht]
  · have hge : ¬(ended sl.sep (xs.take k)).length + k < sl.sa.length := by
      rw [hsa, List.length_append]
      omega
    have hpos := List.length_pos_iff.mpr ht
    have htake : xs.take k ≠ [] := by
      rw [ne_eq, List.take_eq_nil_iff, not_or]
      exact ⟨by omega, fun hnil => by simp [hnil] at hk⟩
    have hlast := ended_getLast? sl.sep htake
    have hE : ended sl.sep (xs.take k) ≠ [] := by
      rintro he
      rw [he] at hlast
      cases hlast
    have hEpos := List.length_pos_iff.mpr hE
    have hget : sl.sa[(ended sl.sep (xs.take k)).length - 1]? = some sl.sep := by
      rw [hsa, List.getElem?_append_left (by omega), ← hlast, List.getLast?_eq_getElem?]
    simp only [hge, hlt, if_false, gt_iff_lt, hEpos, hget, and_self, if_true]
    rw [hsa, strallocRemove_last hE (by omega)]

theorem strlistRemoveAt_sep (sl : Strlist) (k : Nat) : (strlistRemoveAt sl k).2.sep = sl.sep := by
  rw [strlistRemoveAt]
  split <;> rfl

/-- Without an element of that index nothing but a last separator goes. -/
theorem Strlist.Holds.removeAt_none (h : sl.Holds xs) {k : Nat} (hk : xs.length ≤ k) :
    (strlistRemoveAt sl k).2.Holds xs := by
  rw [Strlist.Holds, strlistRemoveAt_sep, strlistRemoveAt, strlistAt]
  by_cases hready : sl.ready = true
  · rw [if_pos hready, Lists.at h 0 (Nat.zero_le k), Nat.sub_zero, if_neg (Nat.not_lt.mpr hk)]
    by_cases hend : k = xs.length ∧ sl.sa = ended sl.sep xs
    · rw [if_pos hend, Nat.zero_add]
      dsimp only
      rw [if_neg (by omega)]
      by_cases hxs : xs = []
      · have hsa : sl.sa = [] := (Lists.eq_nil_iff h).mpr hxs
        simpa [hsa, strallocRemove] using hsa ▸ h
      · have hlast := ended_getLast? sl.sep hxs
        rw [← hend.2] at hlast
        have hne : sl.sa ≠ [] := by
          rintro he
          rw [he] at hlast
          cases hlast
        have hget : sl.sa[sl.sa.length - 1]? = some sl.sep := by
          rw [← hlast, List.getLast?_eq_getElem?]
        rw [if_pos ⟨List.length_pos_iff.mpr hne, hget⟩]
        have hrem := strallocRemove_last (t := []) hne (n := k + 1) (by simp)
        rw [List.append_nil] at hrem
        dsimp only
        rw [hrem, hend.2]
        exact lists_dropLast (Lists.clean h)
    · rw [if_neg hend]
      exact h
  · rw [if_neg hready]
    exact h

/-- The element with the index `k` is as long as the index says, separator included or not,
or it is the last one and not longer. -/
def IndexFits (xs : List Bytes) (k : Nat) : Prop :=
  ∀ x ∈ xs[k]?, x.length = k ∨ x.length + 1 = k ∨ x.length < k ∧ k + 1 = xs.length

instance (xs : List Bytes) (k : Nat) : Decidable (IndexFits xs k) :=
  inferInstanceAs (Decidable (∀ x ∈ xs[k]?, _))

theorem Lists.head_ne (h : Lists sep s xs) : s.head? ≠ some sep := by
  have hne {x : Bytes} (hx : Clean sep x) (t : Bytes) : (x ++ t).head? ≠ some sep := by
    obtain ⟨c, x', rfl⟩ := List.exists_cons_of_ne_nil hx.1
    rintro he
    obtain rfl : c = sep := by simpa using he
    exact hx.2 List.mem_cons_self
  cases h with
  | nil => simp
  | last hx => simpa using hne hx []
  | cons hx hs => exact hne hx _

/-- The buffer around the element with the index `k`. -/
theorem Lists.around (h : Lists sep s xs) {k : Nat} (hk : k < xs.length) :
    ∃ x t, xs[k]? = some x ∧ Clean sep x ∧ s = ended sep (xs.take k) ++ t ∧
      xs.eraseIdx k = xs.take k ++ xs.drop (k + 1) ∧ (∀ y ∈ xs.take k, Clean sep y) ∧
      ((t = x ∧ xs.drop (k + 1) = []) ∨ ∃ u, t = x ++ sep :: u ∧ Lists sep u (xs.drop (k + 1))) := by
  obtain ⟨t, hs, ht⟩ := h.split hk
  rw [List.drop_eq_getElem_cons hk] at ht
  exact ⟨xs[k], t, List.getElem?_eq_getElem hk, h.clean _ (List.getElem_mem hk), hs,
    List.eraseIdx_eq_take_drop_succ xs k, fun y hy => h.clean y (List.mem_of_mem_take hy),
    ht.head_cases⟩

theorem Strlist.Holds.removeAt (h : sl.Holds xs) (hr : sl.Ready) {k : Nat} (hfit : IndexFits xs k) :
    (strlistRemoveAt sl k).2.Holds (xs.eraseIdx k) := by
  by_cases hk : k < xs.length
  · obtain ⟨x, t, hx, hclean, hsa, herase, hpre, ht⟩ := Lists.around h hk
    have hfit := hfit x hx
    have hne : t ≠ [] := by
      rcases ht with ⟨rfl, -⟩ | ⟨u, rfl, -⟩
      · exact hclean.1
      · simp
    rw [Strlist.Holds, strlistRemoveAt_sep, h.removeAt_sa hr hk hsa hne, herase]
    rcases ht with ⟨rfl, hrest⟩ | ⟨u, rfl, hu⟩
    · rw [if_neg (by omega), hrest, List.append_nil]
      exact lists_dropLast hpre
    · rw [List.length_append, List.length_cons]
      by_cases hlong : k < x.length + (u.length + 1)
      · rw [if_pos hlong]
        refine Lists.ended_append hpre ?_
        by_cases heq : x.length = k
        · have hsep : (x ++ sl.sep :: u)[k]? = some sl.sep := by simp [← heq]
          have hdrop : (x ++ sl.sep :: u).drop (k + 1) = u := by rw [← heq, drop_past]
          rw [if_pos hsep, hdrop]
          exact hu
        · have hnext : x.length + 1 = k := by
            rcases hfit with hfit | hfit | hfit
            · exact absurd hfit heq
            · exact hfit
            · have hlast : xs.drop (k + 1) = [] := List.drop_of_length_le (by omega)
              rw [hu.eq_nil_iff.mpr hlast, List.length_nil] at hlong
              omega
          have hsep : (x ++ sl.sep :: u)[k]? ≠ some sl.sep := by
            have hget : (x ++ sl.sep :: u)[k]? = u.head? := by
              rw [← hnext, List.getElem?_append_right (by omega)]
              simp [List.head?_eq_getElem?]
            rw [hget]
            exact hu.head_ne
          have hdrop : (x ++ sl.sep :: u).drop k = u := by rw [← hnext, drop_past]
          rw [if_neg hsep, hdrop]
          exact hu
      · have hlast : xs.drop (k + 1) = [] := by
          rcases hfit with hfit | hfit | hfit
          · omega
          · exact hu.eq_nil_iff.mp (List.length_eq_zero_iff.mp (by omega))
          · exact List.drop_of_length_le (by omega)
        rw [if_neg hlong, hlast, List.append_nil]
        exact lists_dropLast hpre
  · rw [List.eraseIdx_of_length_le (Nat.not_lt.mp hk)]
    exact h.removeAt_none (Nat.not_lt.mp hk)

/-! ## What goes wrong otherwise -/

/-- The bytes the elements take with a separator behind each, where the buffer has one. -/
def weight (sep : UInt8) (s : Bytes) : Nat :=
  s.length + if s = [] ∨ s.getLast? = some sep then 0 else 1

theorem weight_drop (sep : UInt8) {j : Nat} (hj : j < s.length) : weight sep (s.drop j) + j = weight sep s := by
  have hne : s.drop j ≠ [] := by
    rw [ne_eq, List.drop_eq_nil_iff]
    omega
  have hne' : s ≠ [] := by
    rintro rfl
    cases hj
  have hlast : (s.drop j).getLast? = s.getLast? := by
    rw [List.getLast?_drop, if_neg (by omega)]
  simp only [weight, hne, hne', hlast, List.length_drop, false_or]
  omega

theorem Lists.weight (h : Lists sep s xs) : weight sep s = offset xs xs.length := by
  induction h with
  | nil => rfl
  | @last x hx =>
    have hend : x.getLast? ≠ some sep := fun he => hx.2 (List.mem_of_getLast? he)
    simp [Dirlist.weight, hx.1, hend, offset]
  | @cons x s xs hx hs ih =>
    rw [List.length_cons, offset_cons_succ, ← ih]
    by_cases hnil : s = []
    · simp [hnil, Dirlist.weight]
    · have hlen : x.length + 1 < (x ++ sep :: s).length := by
        have := List.length_pos_iff.mpr hnil
        simp
        omega
      have hw := weight_drop sep hlen
      rw [drop_past] at hw
      omega

/-- What `strlist_foreach` meets cannot weigh more than the buffer. -/
theorem foreachFrom_weight (sep : UInt8) (k : Nat) (u : Bytes) :
    offset (foreachFrom sep k u) (foreachFrom sep k u).length ≤ weight sep u := by
  induction k generalizing u with
  | zero => exact Nat.zero_le _
  | succ k ih =>
    rw [foreachFrom]
    by_cases hnil : u = []
    · rw [if_pos hnil]
      exact Nat.zero_le _
    · rw [if_neg hnil]
      dsimp only
      by_cases hpos : byteChr sep u > 0
      · rw [if_pos hpos, List.length_cons, offset_cons_succ]
        have hih := ih (u.drop (byteChr sep u + 1))
        have hle : byteChr sep u ≤ u.length := byteChr_le sep u
        rw [List.length_take, Nat.min_eq_left hle]
        by_cases hlt : byteChr sep u + 1 < u.length
        · have := weight_drop sep hlt
          omega
        · rw [List.drop_of_length_le (by omega)] at hih ⊢
          have hw : weight sep ([] : Bytes) = 0 := rfl
          have hu : byteChr sep u + 1 ≤ weight sep u := by
            by_cases hfull : byteChr sep u = u.length
            · have hend : u.getLast? ≠ some sep := fun he =>
                byteChr_full hfull (List.mem_of_getLast? he)
              simp [weight, hnil, hend, hfull]
            · rw [weight]
              omega
          omega
      · rw [if_neg hpos]
        exact Nat.zero_le _

theorem foreachFrom_ended (hxs : ∀ x ∈ xs, Clean sep x) {k : Nat}
    (hk : (ended sep xs ++ u).length ≤ k) :
    ∃ k', foreachFrom sep k (ended sep xs ++ u) = xs ++ foreachFrom sep k' u := by
  induction xs generalizing k with
  | nil => exact ⟨k, rfl⟩
  | cons x xs ih =>
    have hx := hxs x List.mem_cons_self
    have hpos := hx.length_pos
    rw [ended_cons, List.append_assoc, List.cons_append] at hk ⊢
    simp only [List.length_append, List.length_cons] at hk
    obtain ⟨k, rfl⟩ : ∃ j, k = j + 1 := ⟨k - 1, by omega⟩
    obtain ⟨k', hk'⟩ := ih (fun y hy => hxs y (List.mem_cons_of_mem _ hy)) (k := k) (by
      rw [List.length_append]
      omega)
    refine ⟨k', ?_⟩
    rw [foreachFrom, if_neg (by simp)]
    simp only [byteChr_at hx.2, gt_iff_lt, hpos, if_true, List.take_left, drop_past]
    rw [hk']
    rfl

/-- If the index does not fit, another list is left. -/
theorem Strlist.Holds.indexFits_of_removeAt (h : sl.Holds xs) (hr : sl.Ready) {k : Nat}
    (hafter : strlistForeach (strlistRemoveAt sl k).2 = xs.eraseIdx k) : IndexFits xs k := by
  intro x hx
  have hk : k < xs.length := (List.getElem?_eq_some_iff.mp hx).1
  obtain ⟨x', t, hx', hclean, hsa, herase, hpre, ht⟩ := Lists.around h hk
  obtain rfl : x' = x := Option.some.inj (hx'.symm.trans hx)
  have hne : t ≠ [] := by
    rcases ht with ⟨rfl, -⟩ | ⟨u, rfl, -⟩
    · exact hclean.1
    · simp
  have hrem := h.removeAt_sa hr hk hsa hne
  rw [strlistForeach, strlistRemoveAt_sep, hrem, herase] at hafter
  have hlen : (xs.take k).length = k := List.length_take_of_le (Nat.le_of_lt hk)
  by_contra hfit
  rw [not_or, not_or, not_and_or] at hfit
  obtain ⟨hne₁, hne₂, hne₃⟩ := hfit
  by_cases hlong : k < x'.length
  · -- the element keeps its end
    have hget : t[k]? ≠ some sl.sep := by
      have hmem : t[k]? = x'[k]? := by
        rcases ht with ⟨rfl, -⟩ | ⟨u, rfl, -⟩
        · rfl
        · exact List.getElem?_append_left hlong
      rw [hmem]
      exact fun he => hclean.2 (List.mem_of_getElem? he)
    have htk : k < t.length := by
      rcases ht with ⟨rfl, -⟩ | ⟨u, rfl, -⟩
      · exact hlong
      · simp
        omega
    have hclean' : Clean sl.sep (x'.drop k) := by
      refine ⟨?_, fun hm => hclean.2 (List.mem_of_mem_drop hm)⟩
      rw [ne_eq, List.drop_eq_nil_iff]
      omega
    have hlists : Lists sl.sep (t.drop k) (x'.drop k :: xs.drop (k + 1)) := by
      rcases ht with ⟨rfl, hrest⟩ | ⟨u, rfl, hu⟩
      · rw [hrest]
        exact .last hclean'
      · rw [List.drop_append_of_le_length (Nat.le_of_lt hlong)]
        exact .cons hclean' hu
    rw [if_pos htk, if_neg hget] at hafter
    rw [(Lists.ended_append hpre hlists).foreach (Nat.le_refl _)] at hafter
    have := congrArg List.length hafter
    simp at this
  · -- the bytes of the next element go too
    have hmore : k + 1 < xs.length := by omega
    have hrest : xs.drop (k + 1) ≠ [] := by
      rw [ne_eq, List.drop_eq_nil_iff]
      omega
    rcases ht with ⟨rfl, hnil⟩ | ⟨u, rfl, hu⟩
    · exact hrest hnil
    · by_cases htk : k < (x' ++ sl.sep :: u).length
      · rw [if_pos htk] at hafter
        obtain ⟨n, hn, hdrop⟩ : ∃ n, 1 ≤ n ∧ (x' ++ sl.sep :: u).drop
            (if (x' ++ sl.sep :: u)[k]? = some sl.sep then k + 1 else k) = u.drop n := by
          have hpast (j : Nat) : (x' ++ sl.sep :: u).drop (x'.length + 1 + j) = u.drop j := by
            rw [← List.drop_drop, drop_past]
          split
          · refine ⟨k - x'.length, by omega, ?_⟩
            rw [← hpast]
            congr 1
            omega
          · refine ⟨k - (x'.length + 1), by omega, ?_⟩
            rw [← hpast]
            congr 1
            omega
        rw [hdrop] at hafter
        obtain ⟨k', hk'⟩ := foreachFrom_ended (u := u.drop n) hpre (Nat.le_refl _)
        rw [hk'] at hafter
        have hsame := List.append_cancel_left hafter
        have hw := foreachFrom_weight sl.sep k' (u.drop n)
        rw [hsame, ← hu.weight] at hw
        have hpos : u ≠ [] := fun he => hrest (hu.eq_nil_iff.mp he)
        by_cases hnl : n < u.length
        · have := weight_drop sl.sep hnl
          omega
        · have hzero : weight sl.sep (u.drop n) = 0 := by
            rw [List.drop_of_length_le (Nat.not_lt.mp hnl)]
            rfl
          have := List.length_pos_iff.mpr hpos
          have hge : u.length ≤ weight sl.sep u := Nat.le_add_right _ _
          omega
      · rw [if_neg htk, (lists_dropLast hpre).foreach (Nat.le_refl _)] at hafter
        have hlen' := congrArg List.length hafter
        rw [List.length_append, hlen] at hlen'
        exact hrest (List.length_eq_zero_iff.mp (by omega))

/-! ## Runs -/

inductive RemoveOp
  | pushb (x : Bytes)
  | removeb (x : Bytes)
  | removeAt (k : Nat)
  /-- take away the elements of a list that holds `ys` -/
  | sub (o : Strlist) (ys : List Bytes)
  | removeAll (o : Strlist) (ys : List Bytes)

/-- A step of the code and of the list it stands for. -/
def removeStep (s : Strlist × List Bytes) : RemoveOp → Strlist × List Bytes
  | .pushb x => (strlistPushb s.1 x, s.2 ++ [x])
  | .removeb x => ((strlistRemoveb s.1 x).2, s.2.erase x)
  | .removeAt k => ((strlistRemoveAt s.1 k).2, s.2.eraseIdx k)
  | .sub o ys => ((strlistSub s.1 o).2, ys.foldl List.erase s.2)
  | .removeAll o ys => ((strlistRemoveAll s.1 o).2, ys.foldl List.erase s.2)

def RemoveLegal (s : Strlist × List Bytes) : RemoveOp → Prop
  | .pushb x => Clean s.1.sep x
  | .sub o ys => o.Holds ys
  | .removeAll o ys => o.Holds ys
  | _ => True

/-- Nothing is pushed behind a separator, and an index fits the element it removes. -/
def RemovesApart (s : Strlist × List Bytes) : RemoveOp → Prop
  | .pushb _ => s.1.sa.getLast? ≠ some s.1.sep
  | .removeAt k => IndexFits s.2 k
  | _ => True

instance (s : Strlist × List Bytes) : (op : RemoveOp) → Decidable (RemovesApart s op)
  | .pushb _ => inferInstanceAs (Decidable (s.1.sa.getLast? ≠ some s.1.sep))
  | .removeAt k => inferInstanceAs (Decidable (IndexFits s.2 k))
  | .removeb _ => .isTrue trivial
  | .sub _ _ => .isTrue trivial
  | .removeAll _ _ => .isTrue trivial

/-- The buffer denotes `xs`, and none of its elements is empty. -/
structure Denotes (sl : Strlist) (xs : List Bytes) : Prop where
  foreach : strlistForeach sl = xs
  count : strlistCount sl = xs.length
  filled : ∀ i p, strlistAtN sl i ≠ some (p, 0)

theorem Strlist.Holds.denotes (h : sl.Holds xs) : Denotes sl xs where
  foreach := h.foreach
  count := h.count
  filled i p hat := by
    have hget := h.atN i
    rw [hat] at hget
    exact (Lists.clean h [] (List.mem_of_getElem? hget.symm)).1 rfl

theorem Strlist.Ready.pushb (x : Bytes) (hr : sl.Ready) : (strlistPushb sl x).Ready := by
  intro hne
  by_cases hsa : sl.sa = []
  · have hx : x ≠ [] := by simpa [strlistPushb, hsa] using hne
    simp [strlistPushb, List.length_pos_iff.mpr hx]
  · simp [strlistPushb, hr hsa]

theorem Strlist.Ready.cut (hr : sl.Ready) (pos n : Nat) :
    ({ sl with sa := strallocRemove sl.sa pos n } : Strlist).Ready := by
  intro hne
  refine hr ?_
  rintro hnil
  rw [hnil] at hne
  simp [strallocRemove] at hne

theorem Strlist.Ready.removeb (x : Bytes) (hr : sl.Ready) : (strlistRemoveb sl x).2.Ready := by
  simp only [strlistRemoveb]
  split
  · exact hr.cut _ _
  · exact hr

theorem Strlist.Ready.removeAt (k : Nat) (hr : sl.Ready) : (strlistRemoveAt sl k).2.Ready := by
  rw [strlistRemoveAt]
  split
  · exact hr
  · exact hr.cut _ _

theorem Strlist.Ready.sub (o : Strlist) (hr : sl.Ready) : (strlistSub sl o).2.Ready := by
  rw [strlistSub]
  refine List.foldlRecOn (motive := fun s : Nat × Strlist => s.2.Ready) (strlistForeach o) _ hr ?_
  exact fun s hs x _ => hs.removeb x

theorem Strlist.Ready.removeAll (o : Strlist) (hr : sl.Ready) : (strlistRemoveAll sl o).2.Ready := by
  rw [strlistRemoveAll]
  refine List.foldlRecOn (motive := fun s : Nat × Strlist => s.2.Ready) (strlistForeach o) _ hr ?_
  intro s hs x _
  dsimp only
  split
  · exact hs.removeb x
  · exact hs

theorem removeStep_ready {s : Strlist × List Bytes} (op : RemoveOp) (hr : s.1.Ready) :
    (removeStep s op).1.Ready := by
  cases op with
  | pushb x => exact hr.pushb x
  | removeb x => exact hr.removeb x
  | removeAt k => exact hr.removeAt k
  | sub o ys => exact hr.sub o
  | removeAll o ys => exact hr.removeAll o

theorem removeStep_holds {s : Strlist × List Bytes} {op : RemoveOp} (h : s.1.Holds s.2)
    (hr : s.1.Ready) (hlegal : RemoveLegal s op) (hop : RemovesApart s op) :
    (removeStep s op).1.Holds (removeStep s op).2 := by
  cases op with
  | pushb x => exact h.pushb hlegal hop
  | removeb x => exact h.removeb x
  | removeAt k => exact h.removeAt hr hop
  | sub o ys => exact h.sub hlegal
  | removeAll o ys => exact h.removeAll hlegal

theorem removesApart_of_denotes {s : Strlist × List Bytes} {op : RemoveOp} (h : s.1.Holds s.2)
    (hr : s.1.Ready) (hden : Denotes (removeStep s op).1 (removeStep s op).2) : RemovesApart s op := by
  cases op with
  | pushb x =>
    intro hend
    have hforeach := hden.foreach
    rw [removeStep, h.foreach_push_stuck hend] at hforeach
    have := congrArg List.length hforeach
    simp at this
  | removeAt k => exact h.indexFits_of_removeAt hr hden.foreach
  | removeb x => trivial
  | sub o ys => trivial
  | removeAll o ys => trivial

/-- From any list on, the buffer denotes the abstract list all along exactly if nothing is
pushed behind a separator and every index fits the element it removes. -/
theorem removeRun_denotes_iff (sl : Strlist) (xs : List Bytes) (hsl : sl.Holds xs) (hr : sl.Ready)
    (ops : List RemoveOp) (hlegal : Steps removeStep RemoveLegal (sl, xs) ops) :
    (∀ done, done <+: ops → Denotes (run removeStep (sl, xs) done).1 (run removeStep (sl, xs) done).2) ↔
      Steps removeStep RemovesApart (sl, xs) ops := by
  rw [steps_iff] at hlegal
  refine every_stage_iff
    (P := fun done s => s = run removeStep (sl, xs) done ∧ s.1.Holds s.2 ∧ s.1.Ready)
    (Q := fun _ s => Denotes s.1 s.2) ⟨rfl, hsl, hr⟩ (fun _ _ _ h => h.2.1.denotes) ?_ ?_
  · rintro done s op hd ⟨rfl, h, hr⟩ hop
    exact ⟨(run_concat op).symm, removeStep_holds h hr (hlegal done op hd) hop, removeStep_ready op hr⟩
  · rintro done s op hd ⟨rfl, h, hr⟩ hden
    exact removesApart_of_denotes h hr hden

/-- From `a:b:cc`: push `b`, remove the first `b`, then by index the last `b`, and `a`. -/
theorem removeRun_denotes_abc :
    Denotes (run removeStep (⟨[97, 58, 98, 58, 99, 99], true, 58⟩, [[97], [98], [99, 99]])
        [.pushb [98], .removeb [98], .removeAt 2, .sub ⟨[97], true, 44⟩ [[97]]]).1
      (run removeStep (⟨[97, 58, 98, 58, 99, 99], true, 58⟩, [[97], [98], [99, 99]])
        [.pushb [98], .removeb [98], .removeAt 2, .sub ⟨[97], true, 44⟩ [[97]]]).2 := by
  refine (removeRun_denotes_iff _ _ ?_ (fun _ => rfl) _ ?_).mpr (by decide) _ (List.prefix_refl _)
  · exact .cons (x := [97]) ⟨by decide, by decide⟩ (.cons (x := [98]) ⟨by decide, by decide⟩
      (.last ⟨by decide, by decide⟩))
  · exact ⟨⟨by decide, by decide⟩, trivial, trivial, .last ⟨by decide, by decide⟩, trivial⟩

/-- `b` is removed from the end of `a:b`, and `c` pushed behind the separator it leaves. -/
theorem removeRun_hidden : ¬∀ (sl : Strlist) (xs : List Bytes), sl.Holds xs → sl.Ready →
    ∀ ops, Steps removeStep RemoveLegal (sl, xs) ops → ∀ done, done <+: ops →
      Denotes (run removeStep (sl, xs) done).1 (run removeStep (sl, xs) done).2 := by
  intro hall
  have hlegal : Steps removeStep RemoveLegal (strlistInit 58, [])
      [.pushb [97], .pushb [98], .removeb [98], .pushb [99]] :=
    ⟨⟨by decide, by decide⟩, ⟨by decide, by decide⟩, trivial, ⟨by decide, by decide⟩, trivial⟩
  have hden := hall (strlistInit 58) [] .nil (fun hne => absurd rfl hne) _ hlegal _ (List.prefix_refl _)
  exact absurd hden.count (by decide)

end Dirlist
