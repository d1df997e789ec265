import Mathlib

/-! What two strictly ascending lists have in common, by their first members: a first member that is below
the other one is not in the other list at all. -/

namespace Sorted

variable {α : Type} {r : α → α → Prop} [IsStrictOrder α r] {x y z : α} {xs ys : List α}

theorem not_mem_of_lt (h : (y :: ys).Pairwise r) (hxy : r x y) : x ∉ y :: ys := by
  intro hx
  rcases List.mem_cons.mp hx with rfl | hx
  · exact irrefl_of r x hxy
  · exact irrefl_of r x (trans_of r hxy (List.rel_of_pairwise_cons h hx))

variable [BEq α] [LawfulBEq α]

theorem common_lt (h : (y :: ys).Pairwise r) (hxy : r x y) :
    (x :: xs).filter (· ∈ y :: ys) = xs.filter (· ∈ y :: ys) :=
  List.filter_cons_of_neg (by simpa using not_mem_of_lt h hxy)

theorem common_gt (h : (x :: xs).Pairwise r) (hyx : r y x) :
    (x :: xs).filter (· ∈ y :: ys) = (x :: xs).filter (· ∈ ys) := by
  refine List.filter_congr fun z hz => ?_
  have hzy : z ≠ y := fun hzy => not_mem_of_lt h hyx (hzy ▸ hz)
  simp [hzy]

theorem common_eq (h : (x :: xs).Pairwise r) :
    (x :: xs).filter (· ∈ x :: ys) = x :: xs.filter (· ∈ ys) := by
  rw [List.filter_cons_of_pos (by simp)]
  refine congrArg _ (List.filter_congr fun z hz => ?_)
  have hzx : z ≠ x := fun hzx => irrefl_of r x (hzx ▸ List.rel_of_pairwise_cons h hz)
  simp [hzx]

end Sorted
