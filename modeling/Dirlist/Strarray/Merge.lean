import Dirlist.Strarray.Splice
import Dirlist.Lib.Sorted

/-! `strarray_intersection` walks two ascending arrays side by side and keeps what they have in common.
`strarray_union` compares the members at both places before it looks whether they are there. -/

namespace Dirlist
open Run

variable {x out s1 s2 : Strarray} {xs ys zs acc : List CStr} {a b : CStr}

/-! ## The order of strings -/

/-- `a` stands before `b` by `str_diff`. -/
def StrBefore (a b : CStr) : Prop := strDiff a b < 0

/-- Strictly ascending by `str_diff`. -/
def Ascending (xs : List CStr) : Prop := xs.Pairwise StrBefore

instance (a b : CStr) : Decidable (StrBefore a b) := inferInstanceAs (Decidable (_ < _))

instance (xs : List CStr) : Decidable (Ascending xs) := inferInstanceAs (Decidable (xs.Pairwise StrBefore))

theorem strDiff_eq_zero {a b : Bytes} (ha : 0 ∉ a) (hb : 0 ∉ b) (h : strDiff a b = 0) : a = b := by
  induction a generalizing b with
  | nil =>
    cases b with
    | nil => rfl
    | cons d b =>
      have hd : d ≠ 0 := fun hd => hb (hd ▸ List.mem_cons_self)
      rw [strDiff] at h
      exact absurd (UInt8.toNat_inj.mp (show d.toNat = (0 : UInt8).toNat by simpa using h)) hd
  | cons c a ih =>
    obtain ⟨hc, ha⟩ := not_or.mp (mt List.mem_cons.mpr ha)
    cases b with
    | nil =>
      rw [strDiff] at h
      exact absurd (UInt8.toNat_inj.mp (show c.toNat = (0 : UInt8).toNat by simpa using h)) (Ne.symm hc)
    | cons d b =>
      obtain ⟨hd, hb'⟩ := not_or.mp (mt List.mem_cons.mpr hb)
      rw [strDiff] at h
      by_cases hcd : c = d
      · subst hcd
        rw [if_neg (not_not.mpr rfl), if_neg (Ne.symm hd)] at h
        rw [ih ha hb' h]
      · rw [if_pos hcd] at h
        exact absurd (UInt8.toNat_inj.mp (by omega)) hcd

theorem strDiff_self (a : Bytes) : strDiff a a = 0 := by
  have h := strDiff_swap a a
  omega

instance : IsStrictOrder CStr StrBefore where
  irrefl a h := by
    rw [StrBefore, strDiff_self] at h
    exact absurd h (Int.lt_irrefl 0)
  trans a b c hab hbc := by
    have hle := strDiff_trans (Int.le_of_lt hab) (Int.le_of_lt hbc)
    rcases Int.lt_or_eq_of_le hle with hlt | heq
    · exact hlt
    · have hac := Subtype.ext (strDiff_eq_zero a.2 c.2 heq)
      rw [StrBefore, hac, strDiff_swap] at hab
      rw [StrBefore] at hbc
      omega

/-! ## Members -/

namespace Strarray.Holds

theorem at_of_lt (h : x.Holds (acc ++ a :: xs)) : strarrayAt x acc.length = .ok a := by
  obtain ⟨spare, hcells⟩ := h.cells
  have hread : readCell x.cells acc.length = .ok (some a) := by
    rw [hcells, List.map_append, List.map_cons, List.append_assoc, List.cons_append]
    exact readCell_at (by rw [List.length_map])
  rw [strarrayAt, h.sized.size, if_pos (by simp), hread]
  rfl

theorem at_of_ge (h : x.Holds xs) {i : Nat} (hi : xs.length ≤ i) : strarrayAt x i = .error .bounds := by
  rw [strarrayAt, h.sized.size, if_neg (Nat.not_lt.mpr hi)]

theorem push (h : x.Holds xs) (hroom : 8 * (xs.length + 1) + 128 ≤ 2 ^ 63) (a : CStr) :
    ∃ y, strarrayPush x a = .ok y ∧ y.Holds (xs ++ [a]) := by
  obtain ⟨spare, hcells⟩ := h.cells
  obtain ⟨y, hy, hsized, htake⟩ := h.sized.allocate (m := xs.length + 1) (p := 8 * xs.length + 8 - 1)
    (Nat.lt_succ_self _) (by omega) (.inl ⟨rfl, rfl⟩) hroom
  have hfirst : y.cells.take xs.length = xs.map some := by
    rw [htake, hcells, List.take_left' (by rw [List.length_map])]
  have hfits := hsized.fits
  obtain ⟨c, rest, hrest⟩ : ∃ c rest, y.cells = xs.map some ++ [c] ++ rest := by
    obtain ⟨c, rest, hdrop⟩ := List.exists_cons_of_ne_nil (l := y.cells.drop xs.length)
      (List.ne_nil_of_length_pos (by rw [List.length_drop]; omega))
    refine ⟨c, rest, ?_⟩
    rw [← hfirst, List.append_assoc, List.singleton_append, ← hdrop, List.take_append_drop]
  have hcopy : copyIn y.cells xs.length [some a] = .ok (xs.map some ++ [some a] ++ rest) := by
    rw [hrest]
    exact copyIn_eq (by rw [List.length_map]) rfl
  refine ⟨{ y with cells := xs.map some ++ [some a] ++ rest }, ?_, ?_, rest, by simp⟩
  · rw [strarrayPush, h.sized.initialized, sizeofPtr, if_neg (by omega), hy]
    simp only [Nat.mul_div_cancel_left xs.length (show 0 < 8 by decide), hcopy, ok_bind]
  · rw [List.length_append, List.length_singleton]
    exact hsized.withCells (by rw [hrest]; simp)

end Strarray.Holds

/-! ## Intersection -/

theorem Strarray.Holds.room (h : x.Holds xs) {k : Nat} (hk : k < xs.length) : 8 * (k + 1) + 128 ≤ 2 ^ 63 := by
  have hfits := h.sized.fits
  have hlen := h.sized.length_lt
  omega

theorem intersectionRound_end {i j : Nat} (h : ¬(i < strarraySize s1 ∧ j < strarraySize s2)) (n : Nat) :
    intersectionRound s1 s2 n (i, j, out) = .ok (.inr out) := by
  rw [intersectionRound, if_neg h]

/-- One round between two members. -/
theorem intersectionRound_eq {pre pre' : List CStr} (h1 : s1.Holds (pre ++ a :: xs)) (h2 : s2.Holds (pre' ++ b :: ys))
    (n : Nat) : intersectionRound s1 s2 n (pre.length, pre'.length, out) =
      if strDiff a b < 0 then .ok (.inl (pre.length + 1, pre'.length, out))
      else if strDiff a b > 0 then .ok (.inl (pre.length, pre'.length + 1, out))
      else strarrayPush out a >>= fun out => .ok (.inl (pre.length + 1, pre'.length + 1, out)) := by
  rw [intersectionRound, h1.sized.size, h2.sized.size, if_pos (by simp), h1.at_of_lt, h2.at_of_lt]
  rfl

/-- From `i` and `j` on, what the rest of the two arrays has in common is appended. -/
theorem returns_intersection {pre pre' : List CStr} (h1 : s1.Holds (pre ++ xs)) (h2 : s2.Holds (pre' ++ ys))
    (hx : Ascending xs) (hy : Ascending ys) (hout : out.Holds acc) (hacc : acc.length ≤ pre.length) :
    ∃ out', Returns (fun n => loop (intersectionRound s1 s2) n (pre.length, pre'.length, out)) out' ∧
      out'.Holds (acc ++ xs.filter (· ∈ ys)) := by
  induction hm : xs.length + ys.length using Nat.strongRecOn generalizing pre pre' xs ys acc out with
  | _ m ih =>
    cases xs with
    | nil =>
      refine ⟨out, returns_loop_done (returns_const (intersectionRound_end ?_ 0)), by simpa using hout⟩
      rw [h1.sized.size]
      simp
    | cons a xs =>
      cases ys with
      | nil =>
        refine ⟨out, returns_loop_done (returns_const (intersectionRound_end ?_ 0)), by simpa using hout⟩
        rw [h2.sized.size]
        simp
      | cons b ys =>
        have h1' : s1.Holds ((pre ++ [a]) ++ xs) := by simpa using h1
        have h2' : s2.Holds ((pre' ++ [b]) ++ ys) := by simpa using h2
        have hround (n : Nat) := @intersectionRound_eq out s1 s2 xs ys a b pre pre' h1 h2 n
        rcases Int.lt_trichotomy (strDiff a b) 0 with hlt | heq | hgt
        · obtain ⟨out', hrun, hholds⟩ := ih (xs.length + (b :: ys).length) (by simp at hm ⊢; omega) h1' h2
            (List.Pairwise.of_cons hx) hy hout (by simp; omega) rfl
          have hnext : ∀ n, intersectionRound s1 s2 n (pre.length, pre'.length, out) =
              .ok (.inl (pre.length + 1, pre'.length, out)) := fun n => by
            rw [hround, if_pos hlt]
          refine ⟨out', returns_loop_next ((returns_ok _).congr hnext) ?_, ?_⟩
          · simpa using hrun
          · rwa [Sorted.common_lt hy hlt]
        · obtain rfl : a = b := Subtype.ext (strDiff_eq_zero a.2 b.2 heq)
          obtain ⟨out₁, hpush, hout₁⟩ := hout.push (h1.room (by simp; omega)) a
          obtain ⟨out', hrun, hholds⟩ := ih (xs.length + ys.length) (by simp at hm ⊢; omega) h1' h2'
            (List.Pairwise.of_cons hx) (List.Pairwise.of_cons hy) hout₁ (by simpa using hacc) rfl
          have hnext : ∀ n, intersectionRound s1 s2 n (pre.length, pre'.length, out) =
              .ok (.inl (pre.length + 1, pre'.length + 1, out₁)) := fun n => by
            rw [hround, if_neg (by omega), if_neg (by omega), hpush, ok_bind]
          refine ⟨out', returns_loop_next ((returns_ok _).congr hnext) ?_, ?_⟩
          · simpa using hrun
          · rw [Sorted.common_eq hx]
            simpa using hholds
        · have hba : StrBefore b a := by
            rw [StrBefore, strDiff_swap]
            omega
          obtain ⟨out', hrun, hholds⟩ := ih ((a :: xs).length + ys.length) (by simp at hm ⊢; omega) h1 h2'
            hx (List.Pairwise.of_cons hy) hout hacc rfl
          have hnext : ∀ n, intersectionRound s1 s2 n (pre.length, pre'.length, out) =
              .ok (.inl (pre.length, pre'.length + 1, out)) := fun n => by
            rw [hround, if_neg (by omega), if_pos hgt]
          refine ⟨out', returns_loop_next ((returns_ok _).congr hnext) ?_, ?_⟩
          · simpa using hrun
          · rwa [Sorted.common_gt hx hba]

theorem Strarray.Holds.truncate (h : x.Holds xs) : (arrayTruncate x 0).Holds [] :=
  ⟨h.sized.truncate (Nat.zero_le _), _, rfl⟩

theorem strarrayAt_lt {i : Nat} (h : strarrayAt x i = .ok a) : i < strarraySize x := by
  by_contra hge
  rw [strarrayAt, if_neg hge] at h
  exact absurd h (by simp)

/-- A round that ends has read below both sizes, and steps on in one array at least. -/
theorem unionRound_ok {u v : Union} (h : unionRound s1 s2 u = .ok v) : u.i < strarraySize s1 ∧
    u.j < strarraySize s2 ∧ u.i + u.j < v.i + v.j ∧ v.i ≤ u.i + 1 ∧ v.j ≤ u.j + 1 := by
  obtain ⟨a, ha, h⟩ := bind_eq_ok h
  obtain ⟨b, hb, h⟩ := bind_eq_ok h
  have hi := strarrayAt_lt ha
  have hj := strarrayAt_lt hb
  refine ⟨hi, hj, ?_⟩
  simp only at h
  split_ifs at h
  all_goals
    obtain ⟨cells, -, h⟩ := bind_eq_ok h
    obtain rfl := Except.ok.inj h
    simp only
    omega

/-- The rounds that are left would reach both ends, and the last of them compares members. -/
theorem unionRounds_error {left : Nat} {u : Union} (hi : u.i ≤ strarraySize s1) (hj : u.j ≤ strarraySize s2)
    (hleft : 0 < left) (hsum : strarraySize s1 + strarraySize s2 ≤ u.i + u.j + left) (v : Union) :
    unionRounds s1 s2 left u ≠ .ok v := by
  intro h
  induction left generalizing u with
  | zero => exact absurd hleft (Nat.lt_irrefl 0)
  | succ left ih =>
    obtain ⟨w, hround, hrest⟩ := bind_eq_ok h
    obtain ⟨hi, hj, hstep, hwi, hwj⟩ := unionRound_ok hround
    exact ih (by omega) (by omega) (by omega) (by omega) hrest

/-- The merged array comes out when there is nothing to merge. With a member on either side the comparison reads
past the end of an array. -/
theorem strarrayUnion_iff (h1 : s1.Holds xs) (h2 : s2.Holds ys) (hout : out.Holds acc) (hx : Ascending xs)
    (hy : Ascending ys) : (∃ out' zs, strarrayUnion s1 s2 out = .ok out' ∧ out'.Holds zs ∧ Ascending zs ∧
      ∀ s, s ∈ zs ↔ s ∈ xs ∨ s ∈ ys) ↔ xs = [] ∧ ys = [] := by
  constructor
  · rintro ⟨out', zs, hrun, -⟩
    obtain ⟨v, hrounds, -⟩ := bind_eq_ok hrun
    by_contra hsome
    have hpos : 0 < xs.length + ys.length := by
      rcases not_and_or.mp hsome with hne | hne
      · have := List.length_pos_iff.mpr hne
        omega
      · have := List.length_pos_iff.mpr hne
        omega
    rw [← h1.sized.size, ← h2.sized.size] at hpos
    exact unionRounds_error (Nat.zero_le _) (Nat.zero_le _) hpos (by simp) v hrounds
  · rintro ⟨rfl, rfl⟩
    have hnone : (arrayAllocate out sizeofPtr (2 ^ 64 - 1)).2 = out := by
      rw [arrayAllocate, if_pos (.inr (.inl (by decide)))]
    refine ⟨arrayTruncate out 0, [], ?_, hout.truncate, List.Pairwise.nil, by simp⟩
    rw [strarrayUnion, h1.sized.size, h2.sized.size]
    simp only [List.length_nil, Nat.add_zero, Nat.zero_add, unionRounds, ok_bind]
    rw [Nat.mod_eq_of_lt (by decide), hnone]

theorem strarrayUnion_iff_init : (∃ out' zs, strarrayUnion arrayInit arrayInit arrayInit = .ok out' ∧ out'.Holds zs ∧
    Ascending zs ∧ ∀ s, s ∈ zs ↔ s ∈ ([] : List CStr) ∨ s ∈ ([] : List CStr)) ↔
      ([] : List CStr) = [] ∧ ([] : List CStr) = [] :=
  strarrayUnion_iff arrayInit_holds arrayInit_holds arrayInit_holds List.Pairwise.nil List.Pairwise.nil

/-- `"a"` alone, to be merged with nothing. -/
def oneMember : Strarray where
  cells := some ⟨[97], by decide⟩ :: List.replicate 15 none
  allocated := 128
  initialized := 8

theorem strarrayUnion_oneMember : oneMember.Holds [⟨[97], by decide⟩] ∧ Ascending [(⟨[97], by decide⟩ : CStr)] ∧
    arrayInit.Holds [] ∧ strarrayUnion oneMember arrayInit arrayInit = .error .bounds :=
  ⟨⟨⟨rfl, rfl, by decide, by decide, by decide⟩, List.replicate 15 none, rfl⟩, List.pairwise_singleton _ _,
    arrayInit_holds, by decide⟩

end Dirlist
