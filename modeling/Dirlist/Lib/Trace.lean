import Mathlib

/-! Runs of a deterministic machine that takes one input after another, and the rule for
properties of every state such a run goes through. -/

namespace Trace

variable {σ ι : Type} (step : σ → ι → σ)

def run (s : σ) (is : List ι) : σ := is.foldl step s

/-- Every step of the run is taken in a state that meets `C` with its input. -/
def Steps (C : σ → ι → Prop) : σ → List ι → Prop
  | _, [] => True
  | s, i :: is => C s i ∧ Steps C (step s i) is

/-- The condition can be checked along a run. -/
def decideSteps (C : σ → ι → Prop) [∀ s i, Decidable (C s i)] :
    (s : σ) → (is : List ι) → Decidable (Steps step C s is)
  | _, [] => .isTrue trivial
  | s, i :: is =>
    match (inferInstance : Decidable (C s i)), decideSteps C (step s i) is with
    | .isTrue h, .isTrue hs => .isTrue ⟨h, hs⟩
    | .isFalse h, _ => .isFalse fun hC => h hC.1
    | _, .isFalse hs => .isFalse fun hC => hs hC.2

instance (C : σ → ι → Prop) [∀ s i, Decidable (C s i)] (s : σ) (is : List ι) :
    Decidable (Steps step C s is) := decideSteps step C s is

variable {step} {C : σ → ι → Prop} {P : List ι → σ → Prop} {s : σ} {is : List ι}

@[simp] theorem run_nil : run step s [] = s := rfl

theorem run_cons (i : ι) : run step s (i :: is) = run step (step s i) is := rfl

theorem run_concat (i : ι) : run step s (is ++ [i]) = step (run step s is) i := by
  rw [run, List.foldl_append]
  rfl

theorem steps_iff : Steps step C s is ↔
    ∀ done i, done ++ [i] <+: is → C (run step s done) i := by
  induction is generalizing s with
  | nil => simp [Steps]
  | cons j is ih =>
    constructor
    · rintro ⟨hj, hrest⟩ done i hd
      cases done with
      | nil =>
        rw [List.nil_append, List.cons_prefix_cons] at hd
        rw [hd.1]
        exact hj
      | cons k done =>
        rw [List.cons_append, List.cons_prefix_cons] at hd
        rw [hd.1, run_cons]
        exact ih.mp hrest done i hd.2
    · intro h
      refine ⟨h [] j (by simp), ih.mpr fun done i hd => ?_⟩
      have hd' : (j :: done) ++ [i] <+: j :: is := by
        rw [List.cons_append, List.cons_prefix_cons]
        exact ⟨rfl, hd⟩
      have hC := h (j :: done) i hd'
      rwa [run_cons] at hC

theorem Steps.of_prefix {done : List ι} (h : Steps step C s is) (hd : done <+: is) :
    Steps step C s done := by
  rw [steps_iff] at h ⊢
  exact fun before i hb => h before i (hb.trans hd)

/-- What holds at first and is kept by every step that meets `C` holds all along. -/
theorem every_stage (hinit : P [] s)
    (hstep : ∀ done s i, done ++ [i] <+: is → P done s → C s i → P (done ++ [i]) (step s i))
    (hC : Steps step C s is) : ∀ done, done <+: is → P done (run step s done) := by
  rw [steps_iff] at hC
  intro done
  induction done using List.reverseRecOn with
  | nil => exact fun _ => hinit
  | append_singleton done i ih =>
    intro hd
    have hpre : done <+: is := (List.prefix_append done [i]).trans hd
    rw [run_concat]
    exact hstep done _ i hd (ih hpre) (hC done i hd)

/-- If `C` keeps the invariant `P`, and a step that ends in `Q` needed `C`, then a run
goes through states with `Q` alone exactly when all its steps meet `C`. -/
theorem every_stage_iff {Q : List ι → σ → Prop} (hinit : P [] s)
    (hPQ : ∀ done s, done <+: is → P done s → Q done s)
    (hkeep : ∀ done s i, done ++ [i] <+: is → P done s → C s i → P (done ++ [i]) (step s i))
    (hneed : ∀ done s i, done ++ [i] <+: is → P done s → Q (done ++ [i]) (step s i) → C s i) :
    (∀ done, done <+: is → Q done (run step s done)) ↔ Steps step C s is := by
  constructor
  · intro hQ
    have hP : ∀ done, done <+: is → P done (run step s done) := by
      intro done
      induction done using List.reverseRecOn with
      | nil => exact fun _ => hinit
      | append_singleton done i ih =>
        intro hd
        have hnow := ih ((List.prefix_append done [i]).trans hd)
        have hnext := hQ _ hd
        rw [run_concat] at hnext ⊢
        exact hkeep done _ i hd hnow (hneed done _ i hd hnow hnext)
    rw [steps_iff]
    intro done i hd
    have hnext := hQ _ hd
    rw [run_concat] at hnext
    exact hneed done _ i hd (hP done ((List.prefix_append done [i]).trans hd)) hnext
  · intro hC done hd
    exact hPQ done _ hd (every_stage hinit hkeep hC done hd)

end Trace
