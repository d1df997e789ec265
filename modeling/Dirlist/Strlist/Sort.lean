import Dirlist.Lib.Run
import Dirlist.Strlist.Grow

/-! `strlist_sort`: the pointers into the buffer are counted once to make room for them and found once
more to be stored. -/

namespace Dirlist
open Run

/-- `str_diff`, on strings that end at a zero, or where the list does. -/
def strDiff : Bytes → Bytes → Int
  | [], [] => 0
  | [], b :: _ => -b.toNat
  | a :: _, [] => a.toNat
  | a :: as, b :: bs => if a ≠ b then a.toNat - b.toNat else if b = 0 then 0 else strDiff as bs

/-- The loop that stores pointers into an array of `cap`. A separator becomes a zero, where the string
ends that begins at the pointer, unless it holds a zero itself. -/
def sortScan (sep : UInt8) (cap : Nat) : Nat → List Bytes → Bytes → Exec (List Bytes)
  | 0, ptrs, _ => .ok ptrs
  | k + 1, ptrs, s =>
    if s = [] then .ok ptrs
    else
      let len := byteChr sep s
      if ptrs.length < cap then sortScan sep cap k (ptrs ++ [(s.take len).takeWhile (· ≠ 0)]) (s.drop (len + 1))
      else .error .bounds

/-- `strlist_sort`, which sorts by `str_diff` whatever comparison it is given. -/
def strlistSort (qsort : (Bytes → Bytes → Int) → List Bytes → List Bytes) (sl : Strlist) :
    Exec (Nat × Strlist) := do
  let p := strlistCount sl
  if p ≤ 1 then .ok (p, { sl with ready := true })
  else
    let ptrs ← sortScan sl.sep p sl.sa.length [] sl.sa
    .ok (ptrs.length, (qsort strDiff ptrs).foldl strlistPush { sl with sa := [], ready := false })

/-- What `qsort` needs of its comparison. -/
structure Compares {α : Type} (cmp : α → α → Int) : Prop where
  swap : ∀ a b, cmp a b < 0 ↔ 0 < cmp b a
  trans : ∀ a b c, cmp a b ≤ 0 → cmp b c ≤ 0 → cmp a c ≤ 0

/-- What `qsort` does with it. -/
def SortsBy {α : Type} (qsort : (α → α → Int) → List α → List α) : Prop :=
  ∀ cmp, Compares cmp → ∀ l, (qsort cmp l).Perm l ∧ (qsort cmp l).Pairwise fun a b => cmp a b ≤ 0

variable {sep : UInt8} {s t x : Bytes} {xs ys : List Bytes} {sl : Strlist}

/-! ## The comparison -/

theorem strDiff_swap (a b : Bytes) : strDiff b a = -strDiff a b := by
  induction a generalizing b with
  | nil => cases b <;> simp [strDiff]
  | cons c a ih =>
    cases b with
    | nil => simp [strDiff]
    | cons d b =>
      rw [strDiff, strDiff]
      by_cases hcd : c = d
      · subst hcd
        rw [if_neg (not_not.mpr rfl), if_neg (not_not.mpr rfl), ih]
        split_ifs <;> simp
      · rw [if_pos hcd, if_pos (Ne.symm hcd)]
        omega

/-- The first byte decides, and a zero ends both strings. -/
theorem strDiff_nonpos (a b : Bytes) : strDiff a b ≤ 0 ↔ a.headD 0 < b.headD 0 ∨
    a.headD 0 = b.headD 0 ∧ (b.headD 0 = 0 ∨ strDiff a.tail b.tail ≤ 0) := by
  cases a with
  | nil =>
    cases b with
    | nil => simp [strDiff]
    | cons d b =>
      have hd := Nat.eq_zero_or_pos d.toNat
      simp only [strDiff, List.headD_nil, List.headD_cons, UInt8.lt_iff_toNat_lt, ← UInt8.toNat_inj]
      simp
      omega
  | cons c a =>
    cases b with
    | nil =>
      simp only [strDiff, List.headD_nil, List.headD_cons, UInt8.lt_iff_toNat_lt, ← UInt8.toNat_inj]
      simp
    | cons d b =>
      rw [strDiff, List.headD_cons, List.headD_cons, List.tail_cons, List.tail_cons]
      by_cases hcd : c = d
      · subst hcd
        by_cases hzero : c = 0
        · simp [hzero]
        · simp [hzero]
      · rw [if_pos hcd, or_iff_left (fun h => hcd h.1), UInt8.lt_iff_toNat_lt]
        have hne : c.toNat ≠ d.toNat := fun h => hcd (UInt8.toNat_inj.mp h)
        omega

theorem strDiff_trans {a b c : Bytes} (hab : strDiff a b ≤ 0) (hbc : strDiff b c ≤ 0) : strDiff a c ≤ 0 := by
  induction a generalizing b c with
  | nil =>
    cases c with
    | nil => exact Int.le_refl _
    | cons z c =>
      rw [strDiff]
      omega
  | cons x a ih =>
    rw [strDiff_nonpos] at hab hbc ⊢
    rcases hab with hlt | ⟨heq, hrest⟩
    · rcases hbc with hlt' | ⟨heq', -⟩
      · exact .inl (UInt8.lt_trans hlt hlt')
      · exact .inl (heq' ▸ hlt)
    · rcases hbc with hlt' | ⟨heq', hrest'⟩
      · exact .inl (heq ▸ hlt')
      · refine .inr ⟨heq.trans heq', ?_⟩
        rcases hrest with hzero | hrest
        · exact .inl (heq'.symm.trans hzero)
        · exact hrest'.imp_right fun hrest' => ih hrest hrest'

theorem compares_strDiff : Compares strDiff where
  swap a b := by
    rw [strDiff_swap a b]
    omega
  trans _ _ _ := strDiff_trans

/-! ## The pointers -/

theorem countFrom_ge (sep : UInt8) (l k : Nat) (s : Bytes) : l ≤ countFrom sep l k s := by
  induction k generalizing l s with
  | zero => exact Nat.le_refl l
  | succ k ih =>
    rw [countFrom]
    dsimp only
    split_ifs
    · exact Nat.le_refl l
    · exact Nat.le_refl l
    · exact Nat.le_refl l
    · exact Nat.le_of_succ_le (ih (l + 1) _)

theorem sortScan_nil (sep : UInt8) (cap k : Nat) (ptrs : List Bytes) : sortScan sep cap k ptrs [] = .ok ptrs := by
  cases k with
  | zero => rfl
  | succ k => rw [sortScan, if_pos rfl]

/-- On any bytes, the second loop finds as many strings as the first one has counted. -/
theorem sortScan_count {cap k : Nat} {ptrs : List Bytes} (hs : s ≠ []) (hk : s.length ≤ k)
    (hcap : countFrom sep (ptrs.length + 1) k s ≤ cap) :
    ∃ r, sortScan sep cap k ptrs s = .ok r ∧ r.length = countFrom sep (ptrs.length + 1) k s := by
  induction k generalizing ptrs s with
  | zero => exact absurd (List.length_eq_zero_iff.mp (Nat.le_zero.mp hk)) hs
  | succ k ih =>
    have hroom : ptrs.length < cap := Nat.lt_of_lt_of_le (countFrom_ge sep _ _ s) hcap
    rw [sortScan, if_neg hs, if_pos hroom]
    rw [countFrom, if_neg hs] at hcap ⊢
    dsimp only at hcap ⊢
    by_cases hlast : byteChr sep s = s.length ∨ byteChr sep s + 1 = s.length
    · have hcount (n : Nat) : (if byteChr sep s = s.length then ptrs.length + 1
          else if byteChr sep s + 1 = s.length then ptrs.length + 1 else n) = ptrs.length + 1 := by
        rcases hlast with h | h
        · rw [if_pos h]
        · rw [if_pos h, ite_self]
      rw [hcount, List.drop_of_length_le (by omega), sortScan_nil]
      exact ⟨_, rfl, by simp⟩
    · obtain ⟨hfull, hend⟩ := not_or.mp hlast
      have hle := byteChr_le sep s
      rw [if_neg hfull, if_neg hend] at hcap ⊢
      have hne : s.drop (byteChr sep s + 1) ≠ [] := by
        rw [ne_eq, List.drop_eq_nil_iff]
        omega
      have hlen : (ptrs ++ [(s.take (byteChr sep s)).takeWhile (· ≠ 0)]).length = ptrs.length + 1 := by simp
      rw [← hlen] at hcap ⊢
      exact ih hne (by rw [List.length_drop]; omega) hcap

theorem Lists.sortScan (h : Lists sep s xs) (hz : ∀ x ∈ xs, 0 ∉ x) {cap k : Nat} {ptrs : List Bytes}
    (hk : s.length ≤ k) (hcap : ptrs.length + xs.length ≤ cap) :
    sortScan sep cap k ptrs s = .ok (ptrs ++ xs) := by
  induction h generalizing k ptrs with
  | nil => rw [sortScan_nil, List.append_nil]
  | @last x hx =>
    have hpos := hx.length_pos
    obtain ⟨k, rfl⟩ : ∃ j, k = j + 1 := ⟨k - 1, by omega⟩
    have hroom : ptrs.length < cap := hcap
    rw [Dirlist.sortScan, if_neg hx.1, if_pos hroom]
    rw [byteChr_free hx.2, List.take_length, takeWhile_free (hz x List.mem_cons_self), List.drop_of_length_le (Nat.le_succ _),
      sortScan_nil]
  | @cons x s xs hx hs ih =>
    obtain ⟨hzx, hzs⟩ := List.forall_mem_cons.mp hz
    simp only [List.length_append, List.length_cons] at hk hcap
    obtain ⟨k, rfl⟩ : ∃ j, k = j + 1 := ⟨k - 1, by omega⟩
    have hroom : ptrs.length < cap := by omega
    rw [Dirlist.sortScan, if_neg (by simp), if_pos hroom]
    rw [byteChr_at hx.2, List.take_left, drop_past, takeWhile_free hzx, ih hzs (by omega) (by simp; omega)]
    simp

/-! ## The new buffer -/

theorem Strlist.Holds.push (h : sl.Holds xs) (hx : Clean sl.sep x) : (strlistPush sl x).Holds (xs ++ [x]) :=
  Lists.append h (.last hx)

theorem Strlist.Holds.pushAll (h : sl.Holds xs) (hys : ∀ y ∈ ys, Clean sl.sep y) :
    (ys.foldl strlistPush sl).Holds (xs ++ ys) := by
  induction ys generalizing sl xs with
  | nil => rwa [List.append_nil]
  | cons y ys ih =>
    obtain ⟨hy, hys⟩ := List.forall_mem_cons.mp hys
    have hnext := ih (h.push hy) hys
    rwa [List.append_assoc] at hnext

variable {qsort : (Bytes → Bytes → Int) → List Bytes → List Bytes}

theorem Strlist.Holds.sort (hq : SortsBy qsort) (h : sl.Holds xs) (hz : ∀ x ∈ xs, 0 ∉ x) :
    ∃ ys sl', strlistSort qsort sl = .ok (xs.length, sl') ∧ sl'.Holds ys ∧ ys.Perm xs ∧
      ys.Pairwise fun a b => strDiff a b ≤ 0 := by
  rw [strlistSort, h.count]
  by_cases hone : xs.length ≤ 1
  · rw [if_pos hone]
    refine ⟨xs, _, rfl, h, List.Perm.refl xs, ?_⟩
    match xs, hone with
    | [], _ => exact .nil
    | [x], _ => exact List.pairwise_singleton _ x
  · obtain ⟨hperm, hsorted⟩ := hq strDiff compares_strDiff xs
    have hscan : sortScan sl.sep xs.length sl.sa.length [] sl.sa = .ok ([] ++ xs) :=
      Lists.sortScan h hz (Nat.le_refl _) (Nat.le_of_eq (Nat.zero_add _))
    have hempty : Strlist.Holds { sl with sa := [], ready := false } [] := .nil
    rw [if_neg hone, hscan]
    exact ⟨_, _, rfl, hempty.pushAll fun y hy => Lists.clean h y (hperm.mem_iff.mp hy), hperm, hsorted⟩

/-- On any buffer the pointers fit into the array that was allocated for them. -/
theorem sortScan_fits (sl : Strlist) (hcount : ¬strlistCount sl ≤ 1) :
    ∃ ptrs, sortScan sl.sep (strlistCount sl) sl.sa.length [] sl.sa = .ok ptrs ∧ ptrs.length ≤ strlistCount sl := by
  have hne : sl.sa.length ≠ 0 := by
    intro hzero
    rw [strlistCount, if_pos hzero] at hcount
    exact hcount (Nat.zero_le 1)
  rw [strlistCount, if_neg hne]
  have hcap : countFrom sl.sep (([] : List Bytes).length + 1) sl.sa.length sl.sa ≤
      countFrom sl.sep 1 sl.sa.length sl.sa := Nat.le_refl _
  obtain ⟨ptrs, hscan, hlen⟩ := sortScan_count (fun h => hne (List.length_eq_zero_iff.mpr h))
    (Nat.le_refl sl.sa.length) hcap
  exact ⟨ptrs, hscan, Nat.le_of_eq hlen⟩

/-- A list of elements without zeros is sorted by `str_diff`, and no buffer has more strings than were
counted. -/
theorem strlistSort_spec (hq : SortsBy qsort) :
    (∀ (sl : Strlist) (xs : List Bytes), sl.Holds xs → (∀ x ∈ xs, 0 ∉ x) →
      ∃ ys sl', strlistSort qsort sl = .ok (xs.length, sl') ∧ sl'.Holds ys ∧ ys.Perm xs ∧
        ys.Pairwise fun a b => strDiff a b ≤ 0) ∧
    ∀ sl : Strlist, ¬strlistCount sl ≤ 1 →
      ∃ ptrs, sortScan sl.sep (strlistCount sl) sl.sa.length [] sl.sa = .ok ptrs ∧ ptrs.length ≤ strlistCount sl :=
  ⟨fun _ _ h hz => h.sort hq hz, sortScan_fits⟩

theorem mergeSort_sortsBy : SortsBy fun (cmp : Bytes → Bytes → Int) l => l.mergeSort fun a b => cmp a b ≤ 0 := by
  intro cmp hcmp l
  refine ⟨List.mergeSort_perm l _, ?_⟩
  have hsorted : (l.mergeSort fun a b => cmp a b ≤ 0).Pairwise fun a b => decide (cmp a b ≤ 0) = true :=
    List.pairwise_mergeSort (fun a b c hab hbc => ?_) (fun a b => ?_) l
  · simpa using hsorted
  · simp only [decide_eq_true_iff] at hab hbc ⊢
    exact hcmp.trans a b c hab hbc
  · have hswap := hcmp.swap b a
    simp only [Bool.or_eq_true, decide_eq_true_iff]
    omega

/-- `b:a`, sorted by merging. -/
theorem strlistSort_ba : ∃ ys sl', strlistSort (fun cmp l => l.mergeSort fun a b => cmp a b ≤ 0)
    ⟨[98, 58, 97], true, 58⟩ = .ok (2, sl') ∧ sl'.Holds ys ∧ ys.Perm [[98], [97]] ∧
      ys.Pairwise fun a b => strDiff a b ≤ 0 := by
  have hlists : Lists 58 [98, 58, 97] [[98], [97]] :=
    .cons (x := [98]) ⟨by decide, by decide⟩ (.last ⟨by decide, by decide⟩)
  exact (strlistSort_spec mergeSort_sortsBy).1 ⟨[98, 58, 97], true, 58⟩ [[98], [97]] hlists (by decide)

end Dirlist
