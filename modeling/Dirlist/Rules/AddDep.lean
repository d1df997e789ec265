import Dirlist.Lib.Depth
import Dirlist.Rules.Defs

/-! `rule_add_dep` is a depth-first search whose list of discovered targets is the array it
extends. -/

namespace Dirlist
open Run Search

variable {α : Type} [DecidableEq α]

/-- Targets with their arrays, which hold targets. -/
structure DepsGraph (α : Type) where
  targets : List α
  deps : α → List α
  closed : ∀ t ∈ targets, ∀ d ∈ deps t, d ∈ targets

/-- The body of the loop of `rule_add_dep`. -/
def addDepBody (k : Nat) (t d : α) (deps : α → List α) : Exec (α → List α) := do
  let r ← ruleAddDep k t d deps
  .ok r.2

variable {deps : α → List α} {t other : α} {seen todo l post : List α}

omit [DecidableEq α] in
theorem visits_of_subset {next : α → List α} (h : Visits next seen todo l post)
    (hsub : ∀ x ∈ todo, x ∈ seen) : l = seen := by
  induction h with
  | done => rfl
  | skip _ _ ih => exact ih fun x hx => hsub x (List.mem_cons_of_mem _ hx)
  | visit hx _ _ _ _ => exact absurd (hsub _ List.mem_cons_self) hx

theorem returns_arrayForeach_cons {σ : Type} {read : σ → List α} {body : Nat → α → σ → Exec σ}
    {arr xs : List α} {x : α} {s s' r : σ} (hbody : Returns (fun k => body k x s) s') (hread : read s' = arr)
    (hrest : Returns (fun k => arrayForeach read (body k) arr xs s') r) :
    Returns (fun k => arrayForeach read (body k) arr (x :: xs) s) r := by
  simp only [arrayForeach]
  refine hbody.bind ?_
  simp only [if_pos hread]
  exact hrest

theorem update_catb (deps : α → List α) (t x : α) (seen : List α) :
    arrayCatb (Function.update deps t seen) t x = Function.update deps t (seen ++ [x]) := by
  rw [arrayCatb, Function.update_self, Function.update_idem]

/-! ## One call -/

theorem returns_addDep_present {x : α} (hx : x ∈ seen) :
    Returns (fun k => ruleAddDep k t x (Function.update deps t seen)) (0, Function.update deps t seen) := by
  refine (returns_ok _).succ fun k => ?_
  rw [ruleAddDep, if_pos (by rwa [Function.update_self])]

theorem returns_addDep_new {x : α} {mid : List α} (hx : x ∉ seen)
    (hloop : Returns (fun k => arrayForeach (fun deps => deps x) (addDepBody k t)
      (Function.update deps t (seen ++ [x]) x) (Function.update deps t (seen ++ [x]) x)
      (Function.update deps t (seen ++ [x]))) (Function.update deps t mid)) :
    Returns (fun k => ruleAddDep k t x (Function.update deps t seen)) (1, Function.update deps t mid) := by
  refine (hloop.bind (g := fun _ deps => .ok (1, deps)) (returns_ok _)).succ fun k => ?_
  rw [ruleAddDep, if_neg (by rwa [Function.update_self]), update_catb]
  rfl

theorem returns_addDepBody {r : Nat} {deps deps' : α → List α} {x : α}
    (h : Returns (fun k => ruleAddDep k t x deps) (r, deps')) :
    Returns (fun k => addDepBody k t x deps) deps' := h.bind (returns_ok deps')

/-! ## Loops -/

/-- A loop over targets that are all there changes nothing. -/
theorem returns_addDeps_skip {read : (α → List α) → List α} {arr : List α}
    (hread : read (Function.update deps t seen) = arr) (hsub : ∀ x ∈ todo, x ∈ seen) :
    Returns (fun k => arrayForeach read (addDepBody k t) arr todo (Function.update deps t seen))
      (Function.update deps t seen) := by
  induction todo with
  | nil => exact returns_ok _
  | cons x todo ih =>
    obtain ⟨hx, hsub⟩ := List.forall_mem_cons.mp hsub
    exact returns_arrayForeach_cons (returns_addDepBody (returns_addDep_present hx)) hread (ih hsub)

/-- A call for a new target, from what the loop over any other array does. -/
theorem returns_addDep_visit {x : α} {mid inner : List α} (hx : x ∉ seen)
    (h : Visits deps (seen ++ [x]) (deps x) mid inner) (hold : ∀ y ∈ deps t, y ∈ seen ++ [x])
    (hloop : ∀ {read : (α → List α) → List α} {arr : List α},
      (∀ grown, read (Function.update deps t grown) = arr) →
      Returns (fun k => arrayForeach read (addDepBody k t) arr (deps x) (Function.update deps t (seen ++ [x])))
        (Function.update deps t mid)) :
    Returns (fun k => ruleAddDep k t x (Function.update deps t seen)) (1, Function.update deps t mid) := by
  refine returns_addDep_new hx ?_
  by_cases hxt : x = t
  · -- the loop goes through the array that would grow, and finds all of it there
    subst hxt
    obtain rfl := visits_of_subset h hold
    rw [Function.update_self]
    exact returns_addDeps_skip (Function.update_self ..) fun _ hy => hy
  · rw [Function.update_of_ne hxt]
    exact hloop fun grown => Function.update_of_ne hxt ..

/-- A loop over an array that is not the one that grows is the search through its targets. -/
theorem returns_addDeps (h : Visits deps seen todo l post) (hold : ∀ x ∈ deps t, x ∈ seen)
    {read : (α → List α) → List α} {arr : List α}
    (hread : ∀ grown, read (Function.update deps t grown) = arr) :
    Returns (fun k => arrayForeach read (addDepBody k t) arr todo (Function.update deps t seen))
      (Function.update deps t l) := by
  induction h generalizing read arr with
  | done => exact returns_ok _
  | @skip seen todo l post x hx _ ih =>
    exact returns_arrayForeach_cons (returns_addDepBody (returns_addDep_present hx)) (hread seen) (ih hold hread)
  | @visit seen todo mid l inner post x hx h₁ h₂ ih₁ ih₂ =>
    have hold₁ : ∀ y ∈ deps t, y ∈ seen ++ [x] := fun y hy => List.mem_append_left _ (hold y hy)
    have hold₂ : ∀ y ∈ deps t, y ∈ mid := fun y hy => h₁.discovered.subset (hold₁ y hy)
    have hcall := returns_addDep_visit hx h₁ hold₁ (ih₁ hold₁)
    exact returns_arrayForeach_cons (returns_addDepBody hcall) (hread mid) (ih₂ hold₂ hread)

theorem returns_ruleAddDep (h : Visits deps seen [other] l post) (hold : ∀ x ∈ deps t, x ∈ seen) :
    Returns (fun k => ruleAddDep k t other (Function.update deps t seen))
      (if other ∈ seen then 0 else 1, Function.update deps t l) := by
  cases h with
  | skip hmem h =>
    cases h
    rw [if_pos hmem]
    exact returns_addDep_present hmem
  | visit hmem h₁ h₂ =>
    cases h₂
    rw [if_neg hmem]
    have hold₁ : ∀ y ∈ deps t, y ∈ seen ++ [other] := fun y hy => List.mem_append_left _ (hold y hy)
    exact returns_addDep_visit hmem h₁ hold₁ (returns_addDeps h₁ hold₁)

/-! ## The closure -/

/-- `rule_add_dep` adds what it can reach from `other` without the targets that were there. -/
theorem ruleAddDep_spec (g : DepsGraph α) (t other : α) (ht : t ∈ g.targets) (hother : other ∈ g.targets)
    (hnd : ∀ x ∈ g.targets, (g.deps x).Nodup) :
    ∃ new, Returns (fun k => ruleAddDep k t other g.deps)
        (if other ∈ g.deps t then 0 else 1, Function.update g.deps t (g.deps t ++ new)) ∧
      (g.deps t ++ new).Nodup ∧
      ∀ x, x ∈ new ↔ other ∉ g.deps t ∧ Reach g.deps (g.deps t) other x := by
  obtain ⟨l, post, h, -⟩ : ∃ l post, Visits g.deps (g.deps t) [other] l post ∧ ∀ x ∈ l, x ∈ g.targets :=
    exists_visits g.closed (g.closed t ht) (by simpa using hother) (hnd t ht)
  obtain ⟨new, rfl⟩ := h.discovered
  have hl := h.nodup (hnd t ht)
  refine ⟨new, ?_, hl, fun x => ?_⟩
  · have hcall := returns_ruleAddDep h fun _ hx => hx
    rwa [Function.update_eq_self] at hcall
  · have hmem := h.mem_iff x
    have hnew : x ∈ new ↔ x ∈ g.deps t ++ new ∧ x ∉ g.deps t := by
      rw [List.mem_append]
      have hdisj := List.disjoint_of_nodup_append hl
      exact ⟨fun hx => ⟨.inr hx, fun hold => hdisj hold hx⟩, fun hx => hx.1.resolve_left hx.2⟩
    rw [hnew, hmem]
    constructor
    · rintro ⟨hx | ⟨y, hy, hne, hyx⟩, hx'⟩
      · exact absurd hx hx'
      · obtain rfl := List.mem_singleton.mp hy
        exact ⟨hne, hyx⟩
    · rintro ⟨hne, hyx⟩
      exact ⟨.inr ⟨other, List.mem_singleton_self other, hne, hyx⟩, hyx.not_mem hne⟩

/-- A target without dependencies, and two that need it and each other. -/
def cycleGraph : DepsGraph Nat where
  targets := [0, 1, 2]
  deps t := if t = 1 then [0, 2] else if t = 2 then [1] else []
  closed := by decide

/-- The target itself is added too, where a dependency needs it. -/
theorem ruleAddDep_cycle : ∃ new, Returns (fun k => ruleAddDep k 0 1 cycleGraph.deps)
    (1, Function.update cycleGraph.deps 0 new) ∧ 0 ∈ new ∧ 2 ∈ new := by
  obtain ⟨new, hr, -, hnew⟩ := ruleAddDep_spec cycleGraph 0 1 (by decide) (by decide) (by decide)
  have hone : Reach cycleGraph.deps (cycleGraph.deps 0) 1 0 := .single ⟨by decide, by decide⟩
  have htwo : Reach cycleGraph.deps (cycleGraph.deps 0) 1 2 := .single ⟨by decide, by decide⟩
  exact ⟨new, hr, (hnew 0).mpr ⟨by decide, hone⟩, (hnew 2).mpr ⟨by decide, htwo⟩⟩

end Dirlist
