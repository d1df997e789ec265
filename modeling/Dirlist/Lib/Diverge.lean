import Mathlib

/-! Where two lists part: what they have in common at the front, and the two rests, which do not begin alike. Of
three lists, the two places where the second one parts from the others say where the first one parts from the third. -/

namespace Run

variable {α : Type} {x y z w w' a b c : List α}

structure Diverge (x y w a b : List α) : Prop where
  left : x = w ++ a
  right : y = w ++ b
  head : a.head? ≠ b.head?

namespace Diverge

theorem symm (h : Diverge x y w a b) : Diverge y x w b a := ⟨h.right, h.left, h.head.symm⟩

theorem exists_of_ne (h : x ≠ y) : ∃ w a b, Diverge x y w a b := by
  induction x generalizing y with
  | nil => exact ⟨[], [], y, rfl, rfl, by cases y <;> simp_all⟩
  | cons c x ih =>
    cases y with
    | nil => exact ⟨[], c :: x, [], rfl, rfl, by simp⟩
    | cons d y =>
      by_cases hcd : c = d
      · subst hcd
        obtain ⟨w, a, b, hx, hy, hne⟩ := ih fun hxy => h (congrArg _ hxy)
        exact ⟨c :: w, a, b, by rw [hx, List.cons_append], by rw [hy, List.cons_append], hne⟩
      · exact ⟨[], c :: x, d :: y, rfl, rfl, by simpa using hcd⟩

/-- Lists of which none begins the other part at a member of both. -/
theorem exists_of_not_prefix (hxy : ¬x <+: y) (hyx : ¬y <+: x) :
    ∃ w c a d b, x = w ++ c :: a ∧ y = w ++ d :: b ∧ c ≠ d := by
  obtain ⟨w, a, b, hx, hy, hne⟩ :=
    exists_of_ne (x := x) (y := y) fun h => hxy (h ▸ List.prefix_rfl)
  cases a with
  | nil => exact absurd ⟨b, by rw [hx, hy, List.append_nil]⟩ hxy
  | cons c a =>
    cases b with
    | nil => exact absurd ⟨c :: a, by rw [hx, hy, List.append_nil]⟩ hyx
    | cons d b => exact ⟨w, c, a, d, b, hx, hy, by simpa using hne⟩

theorem not_prefix {c d : α} (h : c ≠ d) (w a b : List α) : ¬w ++ c :: a <+: w ++ d :: b := by
  rw [List.prefix_append_right_inj, List.cons_prefix_cons]
  exact fun hcd => h hcd.1

/-- The second list parts from the first one before, after or where it parts from the third. -/
theorem cases_three {e f : List α} (h₁ : Diverge x y w a b) (h₂ : Diverge y z w' e f) :
    (∃ m, m ≠ [] ∧ w' = w ++ m ∧ b = m ++ e ∧ Diverge x z w a (m ++ f)) ∨
      (∃ m, m ≠ [] ∧ w = w' ++ m ∧ e = m ++ b ∧ Diverge x z w' (m ++ a) f) ∨
      w' = w ∧ e = b ∧ (a.head? ≠ f.head? → Diverge x z w a f) := by
  have hy := h₁.right.symm.trans h₂.left
  rcases List.append_eq_append_iff.mp hy with ⟨m, hw, hb⟩ | ⟨m, hw, he⟩
  · by_cases hm : m = []
    · subst hm
      rw [List.append_nil] at hw
      rw [List.nil_append] at hb
      exact .inr (.inr ⟨hw, hb.symm, fun hne => ⟨h₁.left, hw ▸ h₂.right, hne⟩⟩)
    · refine .inl ⟨m, hm, hw, hb, h₁.left, by rw [h₂.right, hw, List.append_assoc], ?_⟩
      obtain ⟨c, t, rfl⟩ := List.exists_cons_of_ne_nil hm
      have hne := h₁.head
      rw [hb] at hne
      exact hne
  · by_cases hm : m = []
    · subst hm
      rw [List.append_nil] at hw
      rw [List.nil_append] at he
      exact .inr (.inr ⟨hw.symm, he, fun hne => ⟨h₁.left, hw ▸ h₂.right, hne⟩⟩)
    · refine .inr (.inl ⟨m, hm, hw, he, by rw [h₁.left, hw, List.append_assoc], h₂.right, ?_⟩)
      obtain ⟨c, t, rfl⟩ := List.exists_cons_of_ne_nil hm
      have hne := h₂.head
      rw [he] at hne
      exact hne

end Diverge

end Run
