import Mathlib

/-! Replacing a list in another one, from the left, where what was put in is never looked at again. -/

namespace Replace

variable {α : Type} {old new xs ys zs : List α} {x : α}

/-- `ys` is `xs` with every leftmost occurrence of `old` that overlaps no earlier one replaced by `new`. -/
inductive Substituted (old new : List α) : List α → List α → Prop
  | nil : Substituted old new [] []
  | hit {xs ys : List α} (h : Substituted old new xs ys) : Substituted old new (old ++ xs) (new ++ ys)
  | miss {x : α} {xs ys : List α} (hno : ¬old <+: x :: xs) (h : Substituted old new xs ys) :
      Substituted old new (x :: xs) (x :: ys)

theorem Substituted.unique (hne : old ≠ []) (hy : Substituted old new xs ys) (hz : Substituted old new xs zs) :
    ys = zs := by
  induction hy generalizing zs with
  | nil =>
    generalize hxs : ([] : List α) = xs at hz
    cases hz with
    | nil => rfl
    | hit hz => exact absurd (List.append_eq_nil_iff.mp hxs.symm).1 hne
    | miss => cases hxs
  | @hit xs ys hy ih =>
    generalize hsame : old ++ xs = us at hz
    cases hz with
    | nil => exact absurd (List.append_eq_nil_iff.mp hsame).1 hne
    | hit hz =>
      obtain rfl := List.append_cancel_left hsame
      rw [ih hz]
    | miss hno => exact absurd ⟨xs, hsame⟩ hno
  | @miss x xs ys hno hy ih =>
    generalize hsame : x :: xs = us at hz
    cases hz with
    | nil => cases hsame
    | hit hz => exact absurd ⟨_, hsame.symm⟩ hno
    | miss _ hz =>
      obtain ⟨rfl, rfl⟩ := List.cons.inj hsame
      rw [ih hz]

theorem Substituted.length_le (hlen : old.length ≤ new.length) (h : Substituted old new xs ys) :
    xs.length ≤ ys.length := by
  induction h with
  | nil => exact Nat.le_refl _
  | hit h ih =>
    rw [List.length_append, List.length_append]
    omega
  | miss hno h ih => exact Nat.succ_le_succ ih

theorem exists_substituted (hne : old ≠ []) (new xs : List α) : ∃ ys, Substituted old new xs ys := by
  classical
  induction hn : xs.length using Nat.strongRecOn generalizing xs with
  | _ n ih =>
    by_cases hpre : old <+: xs
    · obtain ⟨rest, rfl⟩ := hpre
      have hpos := List.length_pos_of_ne_nil hne
      obtain ⟨ys, hys⟩ := ih rest.length (by rw [← hn, List.length_append]; omega) rest rfl
      exact ⟨new ++ ys, .hit hys⟩
    · cases xs with
      | nil => exact ⟨[], .nil⟩
      | cons x rest =>
        obtain ⟨ys, hys⟩ := ih rest.length (by rw [← hn, List.length_cons]; omega) rest rfl
        exact ⟨x :: ys, .miss hpre hys⟩

end Replace
