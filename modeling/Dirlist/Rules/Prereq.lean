import Dirlist.Lib.Depth
import Dirlist.Rules.Find

/-! `rule_prereq_recursive` follows the prerequisites that are rules, down to those that are not. It
keeps no marks, so it ends only where no rule leads back to itself by way of another. -/

namespace Dirlist
open Run

variable {α : Type} [DecidableEq α]

/-- `rule_prereq_recursive`, with the keys of the rules and the set that is filled. -/
def rulePrereqRecursive (prereq : α → List Bytes) :
    Nat → α → List (Bytes × α) × List Bytes → Exec (List (Bytes × α) × List Bytes)
  | 0, _, _ => .error .fuel
  | k + 1, t, st =>
    (prereq t).foldlM (fun st x =>
      match (ruleFindB st.1 x).1 with
      | some rule =>
        if rule ≠ t then rulePrereqRecursive prereq k rule ((ruleFindB st.1 x).2, st.2)
        else .ok ((ruleFindB st.1 x).2, st.2)
      | none => .ok ((ruleFindB st.1 x).2, setAdds st.2 x)) st

/-- The body of the loop of `rule_prereq_recursive`. -/
def prereqBody (prereq : α → List Bytes) (k : Nat) (t : α) (st : List (Bytes × α) × List Bytes) (x : Bytes) :
    Exec (List (Bytes × α) × List Bytes) :=
  match (ruleFindB st.1 x).1 with
  | some rule =>
    if rule ≠ t then rulePrereqRecursive prereq k rule ((ruleFindB st.1 x).2, st.2)
    else .ok ((ruleFindB st.1 x).2, st.2)
  | none => .ok ((ruleFindB st.1 x).2, setAdds st.2 x)

/-- A prerequisite of a rule is found as a rule. -/
def Leads (rules : List (Bytes × α)) (prereq : α → List Bytes) (t u : α) : Prop :=
  ∃ x ∈ prereq t, (ruleFindB rules x).1 = some u

/-- A rule requires another. -/
def Requires (based : List (Bytes × α)) (prereq : α → List Bytes) (t u : α) : Prop :=
  u ≠ t ∧ ∃ x ∈ prereq t, ruleOf based x = some u

/-- A prerequisite of `t`, or of a rule that `t` leads to, that is no rule. -/
def Leaf (based : List (Bytes × α)) (prereq : α → List Bytes) (t : α) (x : Bytes) : Prop :=
  ∃ u, Relation.ReflTransGen (Requires based prereq) t u ∧ x ∈ prereq u ∧ ruleOf based x = none

variable {prereq : α → List Bytes} {based rules : List (Bytes × α)} {s : List Bytes} {t u : α} {x p : Bytes}

omit [DecidableEq α] in
theorem leaf_iff : Leaf based prereq t x ↔
    (x ∈ prereq t ∧ ruleOf based x = none) ∨ ∃ u, Requires based prereq t u ∧ Leaf based prereq u x := by
  constructor
  · rintro ⟨u, htu, hx, hnone⟩
    rcases Relation.ReflTransGen.cases_head htu with rfl | ⟨w, htw, hwu⟩
    · exact .inl ⟨hx, hnone⟩
    · exact .inr ⟨w, htw, u, hwu, hx, hnone⟩
  · rintro (⟨hx, hnone⟩ | ⟨w, htw, u, hwu, hx, hnone⟩)
    · exact ⟨t, .refl, hx, hnone⟩
    · exact ⟨u, .head htw hwu, hx, hnone⟩

/-! ## Where it ends -/

/-- What one prerequisite brings. -/
def Brings (based : List (Bytes × α)) (prereq : α → List Bytes) (t : α) (p x : Bytes) : Prop :=
  (ruleOf based p = none ∧ x = p) ∨ ∃ u, u ≠ t ∧ ruleOf based p = some u ∧ Leaf based prereq u x

omit [DecidableEq α] in
theorem brings_iff : (∃ p ∈ prereq t, Brings based prereq t p x) ↔ Leaf based prereq t x := by
  rw [leaf_iff]
  constructor
  · rintro ⟨p, hp, ⟨hnone, rfl⟩ | ⟨u, hut, hfound, hleaf⟩⟩
    · exact .inl ⟨hp, hnone⟩
    · exact .inr ⟨u, ⟨hut, p, hp, hfound⟩, hleaf⟩
  · rintro (⟨hx, hnone⟩ | ⟨u, ⟨hut, p, hp, hfound⟩, hleaf⟩)
    · exact ⟨x, hx, .inl ⟨hnone, rfl⟩⟩
    · exact ⟨p, hp, .inr ⟨u, hut, hfound, hleaf⟩⟩

theorem returns_prereq (hacc : Acc (fun a b => Requires based prereq b a) t) (hrules : bases rules = based) :
    ∃ r, Returns (fun k => rulePrereqRecursive prereq k t (rules, s)) r ∧ bases r.1 = based ∧
      ∀ x, x ∈ r.2 ↔ x ∈ s ∨ Leaf based prereq t x := by
  induction hacc generalizing rules s with
  | intro t _ ih =>
    suffices hloop : ∀ (ps : List Bytes) (rules : List (Bytes × α)) (s : List Bytes), (∀ p ∈ ps, p ∈ prereq t) →
        bases rules = based → ∃ r, Returns (fun k => ps.foldlM (prereqBody prereq k t) (rules, s)) r ∧
          bases r.1 = based ∧ ∀ x, x ∈ r.2 ↔ x ∈ s ∨ ∃ p ∈ ps, Brings based prereq t p x by
      obtain ⟨r, hr, hkeep, hmem⟩ := hloop (prereq t) rules s (fun _ hp => hp) hrules
      exact ⟨r, hr.succ fun k => rfl, hkeep, fun x => by rw [hmem, brings_iff]⟩
    intro ps
    induction ps with
    | nil => exact fun rules s _ hrules => ⟨(rules, s), returns_ok _, hrules, by simp⟩
    | cons p ps ihp =>
      intro rules s hps hrules
      obtain ⟨hp, hps⟩ := List.forall_mem_cons.mp hps
      have hkeep : bases (ruleFindB rules p).2 = based := (bases_ruleFindB ..).trans hrules
      have hstep : ∃ r, Returns (fun k => prereqBody prereq k t (rules, s) p) r ∧ bases r.1 = based ∧
          ∀ x, x ∈ r.2 ↔ x ∈ s ∨ Brings based prereq t p x := by
        simp only [prereqBody, ruleFindB_fst, hrules]
        cases hfound : ruleOf based p with
        | none =>
          refine ⟨_, returns_ok _, hkeep, fun x => ?_⟩
          simp [mem_setAdds, Brings, hfound]
        | some u =>
          by_cases hut : u = t
          · subst hut
            simp only [ne_eq, not_true_eq_false, if_false]
            refine ⟨_, returns_ok _, hkeep, fun x => ?_⟩
            simp [Brings, hfound]
          · simp only [ne_eq, hut, not_false_eq_true, if_true]
            obtain ⟨r, hr, hbases, hmem⟩ := ih u ⟨hut, p, hp, hfound⟩ hkeep
            refine ⟨r, hr, hbases, fun x => ?_⟩
            simp [hmem, Brings, hfound, hut]
      obtain ⟨r₁, hr₁, hkeep₁, hmem₁⟩ := hstep
      obtain ⟨r, hr, hbases, hmem⟩ := ihp r₁.1 r₁.2 hps hkeep₁
      refine ⟨r, returns_foldlM_cons hr₁ hr, hbases, fun x => ?_⟩
      rw [hmem, hmem₁]
      simp [or_assoc]

/-! ## Where it does not -/

/-- A call at this depth comes back. -/
def PrereqEnds (prereq : α → List Bytes) (based : List (Bytes × α)) (k : Nat) (t : α) : Prop :=
  ∃ st r, bases st.1 = based ∧ rulePrereqRecursive prereq k t st = .ok r

theorem prereqBody_bases {k : Nat} {st r : List (Bytes × α) × List Bytes}
    (hrec : ∀ u st r, rulePrereqRecursive prereq k u st = .ok r → bases r.1 = bases st.1)
    (h : prereqBody prereq k t st p = .ok r) : bases r.1 = bases st.1 := by
  have hkeep := bases_ruleFindB st.1 p
  unfold prereqBody at h
  split at h
  · split at h
    · exact (hrec _ _ _ h).trans hkeep
    · cases h
      exact hkeep
  · cases h
    exact hkeep

theorem prereq_bases (k : Nat) (t : α) (st r : List (Bytes × α) × List Bytes)
    (h : rulePrereqRecursive prereq k t st = .ok r) : bases r.1 = bases st.1 := by
  induction k generalizing t st r with
  | zero => cases h
  | succ k ih =>
    have hstep : ∀ (s : List (Bytes × α) × List Bytes) p s', bases s.1 = bases st.1 →
        prereqBody prereq k t s p = .ok s' → bases s'.1 = bases st.1 :=
      fun s p s' hs hp => (prereqBody_bases ih hp).trans hs
    exact (foldlM_inv (fun s => bases s.1 = bases st.1) hstep rfl h).1

/-- A call that comes back made the calls for the rules it requires. -/
theorem PrereqEnds.step {k : Nat} (h : PrereqEnds prereq based k t) (hu : Requires based prereq t u) :
    ∃ j < k, PrereqEnds prereq based j u := by
  obtain ⟨st, r, hst, h⟩ := h
  obtain ⟨hut, p, hp, hfound⟩ := hu
  cases k with
  | zero => cases h
  | succ k =>
    have hstep : ∀ (s : List (Bytes × α) × List Bytes) p s', bases s.1 = based →
        prereqBody prereq k t s p = .ok s' → bases s'.1 = based :=
      fun s p s' hs hp => (prereqBody_bases (prereq_bases k) hp).trans hs
    obtain ⟨s, hs, r', hr'⟩ := (foldlM_inv (fun s => bases s.1 = based) hstep hst h).2 p hp
    have hbody : prereqBody prereq k t s p = .ok r' := hr'
    simp only [prereqBody, ruleFindB_fst, hs, hfound, ne_eq, hut, not_false_eq_true, if_true] at hbody
    exact ⟨k, Nat.lt_succ_self k, _, r', (bases_ruleFindB ..).trans hs, hbody⟩

theorem PrereqEnds.path {k : Nat} (h : PrereqEnds prereq based k t)
    (hu : Relation.TransGen (Requires based prereq) t u) : ∃ j < k, PrereqEnds prereq based j u := by
  induction hu with
  | single hu => exact h.step hu
  | tail _ hu ih =>
    obtain ⟨j, hj, hends⟩ := ih
    obtain ⟨i, hi, hends⟩ := hends.step hu
    exact ⟨i, hi.trans hj, hends⟩

theorem PrereqEnds.acyclic {k : Nat} (h : PrereqEnds prereq based k t) :
    ¬Relation.TransGen (Requires based prereq) t t := by
  intro hcycle
  induction k using Nat.strongRecOn with
  | _ k ih =>
    obtain ⟨j, hj, hends⟩ := h.path hcycle
    exact ih j hj hends

/-! ## The leaves -/

omit [DecidableEq α] in
theorem leads_iff {rules : List (Bytes × α)} :
    Leads rules prereq t u ↔ ∃ x ∈ prereq t, ruleOf (bases rules) x = some u := by
  simp only [Leads, ruleFindB_fst]

/-- Rules that lead to themselves make no difference. -/
theorem reflTransGen_leads {rules : List (Bytes × α)} :
    Relation.ReflTransGen (Leads rules prereq) t u ↔ Relation.ReflTransGen (Requires (bases rules) prereq) t u := by
  constructor
  · intro h
    induction h with
    | refl => exact .refl
    | @tail v w _ hvw ih =>
      by_cases hne : w = v
      · exact hne ▸ ih
      · exact ih.tail ⟨hne, leads_iff.mp hvw⟩
  · intro h
    induction h with
    | refl => exact .refl
    | tail _ hvw ih => exact ih.tail (leads_iff.mpr hvw.2)

theorem transGen_requires {rules : List (Bytes × α)} : Relation.TransGen (Requires (bases rules) prereq) u u ↔
    ∃ w, w ≠ u ∧ Leads rules prereq u w ∧ Relation.ReflTransGen (Leads rules prereq) w u := by
  constructor
  · intro h
    obtain ⟨w, huw, hwu⟩ := Relation.TransGen.head'_iff.mp h
    exact ⟨w, huw.1, leads_iff.mpr huw.2, reflTransGen_leads.mpr hwu⟩
  · rintro ⟨w, hne, huw, hwu⟩
    exact .head' ⟨hne, leads_iff.mp huw⟩ (reflTransGen_leads.mp hwu)

end Dirlist
