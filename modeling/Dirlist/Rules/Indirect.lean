import Dirlist.Rules.DepList
import Dirlist.Rules.Find

/-! `rule_deps_indirect` takes no serial of its own, so it passes over what earlier calls marked with
the last one. -/

namespace Dirlist
open Run Search

variable {α : Type} [DecidableEq α]

/-! ## Stages -/

/-- What can be reached from a dependency of `t`. -/
def Beneath (next : α → List α) (t x : α) : Prop := ∃ d ∈ next t, Relation.TransGen (fun a b => b ∈ next a) d x

/-- The dependencies that lead to one another stand in an order that finds them. -/
def FoundBefore (next : α → List α) (t : α) : Prop :=
  ∀ pre d rest, next t = pre ++ d :: rest → d ≠ t → Beneath next t d →
    ∃ e ∈ pre, ∃ y ∈ next e, y ≠ t ∧ Reach next [t] y d

section
variable {next : α → List α} {seen pre roots l added : List α} {t x : α}

omit [DecidableEq α] in
theorem Beneath.step {y : α} (hx : Beneath next t x) (hy : y ∈ next x) : Beneath next t y := by
  obtain ⟨d, hd, hdx⟩ := hx
  exact ⟨d, hd, hdx.tail hy⟩

theorem below_mem (hst : Stages next seen (next t) l added)
    (hfree : ∀ x, x ≠ t → Beneath next t x → x ∉ seen) (hx : Beneath next t x) : x ∈ l := by
  have hstep : ∀ z ∈ l, Beneath next t z → ∀ y ∈ next z, y ∈ l := by
    intro z hz hbelow y hy
    by_cases hzt : z = t
    · subst hzt
      exact hst.mem_l_iff.mpr (.inr (.inl hy))
    · exact (hst.closed z hz).resolve_left (hfree z hzt hbelow) y hy
  obtain ⟨d, hd, hdx⟩ := hx
  induction hdx with
  | single hy => exact hst.entered hd _ hy
  | tail hab hy ih => exact hstep _ ih ⟨d, hd, hab⟩ _ hy

/-- The stages before a root reach it, where a path leads there past nothing known. -/
theorem reach_added (hst : Stages next seen pre l added) (hpre : ∀ e ∈ pre, e ∈ next t)
    (hfree : ∀ x, x ≠ t → Beneath next t x → x ∉ seen) (hx : x ∉ pre) {e y : α} (he : e ∈ pre) (hy : y ∈ next e)
    (hyt : y ≠ t) (hyx : Reach next [t] y x) : x ∈ added := by
  have hall : x ∈ l ∧ x ≠ t ∧ Beneath next t x := by
    clear hx
    induction hyx with
    | refl => exact ⟨hst.entered he y hy, hyt, e, hpre e he, .single hy⟩
    | @tail b c _ hbc ih =>
      obtain ⟨hl, hbt, hbelow⟩ := ih
      have hmem := (hst.closed b hl).resolve_left (hfree b hbt hbelow) c hbc.1
      exact ⟨hmem, by simpa using hbc.2, hbelow.step hbc.1⟩
  obtain ⟨hl, hxt, hbelow⟩ := hall
  exact ((hst.mem_l_iff.mp hl).resolve_left (hfree x hxt hbelow)).resolve_left hx

/-- When the stages add all that is below `t`. -/
theorem stages_complete_iff (hst : Stages next seen (next t) l added) (ht : t ∈ seen) :
    (∀ x, x ≠ t → Beneath next t x → x ∈ added) ↔
      (∀ x, x ≠ t → Beneath next t x → x ∉ seen) ∧ FoundBefore next t := by
  constructor
  · intro hall
    refine ⟨fun x hxt hx => hst.fresh (hall x hxt hx), fun pre d rest hsplit hdt hd => ?_⟩
    rw [hsplit] at hst
    obtain ⟨mid, a, b, ha, hb, rfl⟩ := hst.split
    have hda : d ∈ a := (List.mem_append.mp (hall d hdt hd)).resolve_right hb.root_fresh
    obtain ⟨e, he, y, hy, hseen, hyd⟩ := ha.sound d hda
    refine ⟨e, he, y, hy, fun hyt => hseen (hyt ▸ ht), hyd.mono ?_⟩
    simpa using ht
  · rintro ⟨hfree, hfound⟩ x hxt hx
    rcases hst.mem_l_iff.mp (below_mem hst hfree hx) with hmem | hmem | hmem
    · exact absurd hmem (hfree x hxt hx)
    · obtain ⟨pre, rest, hsplit, hpre⟩ := List.eq_append_cons_of_mem hmem
      obtain ⟨e, he, y, hy, hyt, hyx⟩ := hfound pre x rest hsplit hxt hx
      have hsub : ∀ e ∈ pre, e ∈ next t := fun e he => hsplit ▸ List.mem_append_left _ he
      rw [hsplit] at hst
      obtain ⟨mid, a, b, ha, hb, rfl⟩ := hst.split
      exact List.mem_append_left _ (reach_added ha hsub hfree hpre he hy hyt hyx)
    · exact hmem

end

/-! ## One call -/

variable {g : RuleGraph α} {depSerial : UInt32} {h : Strlist} {hs : List Bytes} {seen : List α} {st : DepState α}
  {t u : α} {m : DepMarks α}

/-- `rule_dep_list_recursive` marks the target it is called for, whatever its serial. -/
theorem DepView.mark (hview : DepView g depSerial h hs seen st) (hu : u ∈ g.targets) :
    DepView g depSerial h hs (seen.insert u) { st with serial := Function.update st.serial u depSerial } where
  hier := hview.hier
  marked y hy := by
    by_cases hyu : y = u
    · subst hyu
      simp
    · simp [hyu, hview.marked y hy, List.mem_insert_iff]

theorem returns_depEnter {mid post : List α} (hvis : Visits g.deps (seen.insert u) (g.deps u) mid post)
    (hu : u ∈ g.targets) (hok : HierOk h hs) (hview : DepView g depSerial h hs seen st) {depth : Int}
    (hdepth : -1 ≤ depth) :
    ∃ st', Returns (fun k => ruleDepListRecursive g.deps g.name depSerial k u depth st) st' ∧
      DepView g depSerial h hs mid st' ∧
      (0 ≤ depth → ∀ n, n ∈ st'.s ↔ n ∈ st.s ∨ ∃ x ∈ post, n = g.name x) := by
  obtain ⟨st', hr, hview', hs', -⟩ := returns_depLoop hvis (g.closed u hu) hok (hview.mark hu)
    (Function.update_self ..) hdepth
  exact ⟨st', hr.succ fun k => ruleDepListRecursive_succ .., hview', hs'⟩

theorem returns_depStages {roots l added : List α} (hst : Stages g.deps seen roots l added)
    (hroots : ∀ x ∈ roots, x ∈ g.targets) (hok : HierOk h hs) (hview : DepView g depSerial h hs seen st) :
    ∃ st', Returns (fun k => roots.foldlM
        (fun st ptr => ruleDepListRecursive g.deps g.name depSerial k ptr 0 st) st) st' ∧
      ∀ n, n ∈ st'.s ↔ n ∈ st.s ∨ ∃ x ∈ added, n = g.name x := by
  induction hst generalizing st with
  | done => exact ⟨st, returns_ok st, by simp⟩
  | enter hvis _ ih =>
    obtain ⟨hd, hroots⟩ := List.forall_mem_cons.mp hroots
    obtain ⟨st₁, hr₁, hview₁, hs₁⟩ := returns_depEnter hvis hd hok hview (show (-1 : Int) ≤ 0 by decide)
    obtain ⟨st₂, hr₂, hs₂⟩ := ih hroots hview₁
    refine ⟨st₂, returns_foldlM_cons hr₁ hr₂, fun n => ?_⟩
    rw [hs₂, hs₁ le_rfl]
    simp only [List.mem_append, or_and_right, exists_or, or_assoc]

/-- The targets that are marked or on the way. -/
def viewed (g : RuleGraph α) (depSerial : UInt32) (hs : List Bytes) (serial : α → UInt32) : List α :=
  g.targets.dedup.filter fun x => serial x = depSerial || hs.contains (g.name x)

theorem mem_viewed {serial : α → UInt32} {x : α} :
    x ∈ viewed g depSerial hs serial ↔ x ∈ g.targets ∧ (serial x = depSerial ∨ g.name x ∈ hs) := by
  simp [viewed]

theorem nodup_viewed (g : RuleGraph α) (depSerial : UInt32) (hs : List Bytes) (serial : α → UInt32) :
    (viewed g depSerial hs serial).Nodup :=
  (List.nodup_dedup _).filter _

theorem depView_viewed (serial : α → UInt32) (s : List Bytes) (h : Strlist) :
    DepView g depSerial h hs (viewed g depSerial hs serial) ⟨serial, s, h⟩ where
  hier := rfl
  marked x hx := by rw [mem_viewed, and_iff_right hx]

/-- The state from which `rule_deps_indirect` finds all: no target it is to find is marked. -/
structure Unspent (g : RuleGraph α) (m : DepMarks α) (t : α) : Prop where
  unmarked : ∀ x, x ≠ t → Beneath g.deps t x → m.serial x ≠ m.depSerial
  found : FoundBefore g.deps t

omit [DecidableEq α] in
theorem below_mem_targets (ht : t ∈ g.targets) {x : α} (hx : Beneath g.deps t x) : x ∈ g.targets := by
  obtain ⟨d, hd, hdx⟩ := hx
  induction hdx with
  | single hy => exact g.closed d (g.closed t ht d hd) _ hy
  | tail _ hy ih => exact g.closed _ ih _ hy

theorem returns_ruleDepsIndirect (ht : t ∈ g.targets) (s : List Bytes) (m : DepMarks α) :
    ∃ serial s' l added, Returns (fun k => ruleDepsIndirect g.deps g.name k t s m) (⟨serial, m.depSerial⟩, s') ∧
      Stages g.deps (viewed g m.depSerial [g.name t] m.serial) (g.deps t) l added ∧
      ∀ n, n ∈ s' ↔ (n ∈ s ∨ n = g.name t) ∨ ∃ x ∈ added, n = g.name x := by
  have hseen : ∀ x ∈ viewed g m.depSerial [g.name t] m.serial, x ∈ g.targets := fun x hx => (mem_viewed.mp hx).1
  obtain ⟨l, added, hst⟩ := exists_stages g.closed hseen (g.closed t ht) (nodup_viewed ..)
  obtain ⟨st', hr, hs'⟩ := returns_depStages hst (g.closed t ht) (hierOk_init (g.named t ht))
    (depView_viewed m.serial (setAdds s (g.name t)) _)
  refine ⟨st'.serial, st'.s, l, added, hr.bind (returns_ok _), hst, fun n => ?_⟩
  rw [hs' n, mem_setAdds]

theorem ruleDepsIndirect_iff (ht : t ∈ g.targets) (m : DepMarks α) :
    ∃ m' s, Returns (fun k => ruleDepsIndirect g.deps g.name k t [] m) (m', s) ∧
      ((∀ n, n ∈ s ↔ n = g.name t ∨ ∃ x, Beneath g.deps t x ∧ n = g.name x) ↔ Unspent g m t) := by
  obtain ⟨serial, s, l, added, hr, hst, hs⟩ := returns_ruleDepsIndirect ht [] m
  refine ⟨_, s, hr, ?_⟩
  have hself : t ∈ viewed g m.depSerial [g.name t] m.serial := mem_viewed.mpr ⟨ht, .inr List.mem_cons_self⟩
  have hadded : ∀ x ∈ added, Beneath g.deps t x := by
    intro x hx
    obtain ⟨d, hd, y, hy, -, hyx⟩ := hst.sound x hx
    exact ⟨d, hd, .head' hy hyx.path⟩
  have hset : (∀ n, n ∈ s ↔ n = g.name t ∨ ∃ x, Beneath g.deps t x ∧ n = g.name x) ↔
      ∀ x, x ≠ t → Beneath g.deps t x → x ∈ added := by
    constructor
    · intro hall x hxt hx
      have hxm := below_mem_targets ht hx
      rcases (hs _).mp ((hall (g.name x)).mpr (.inr ⟨x, hx, rfl⟩)) with (hn | hn) | ⟨y, hy, hn⟩
      · cases hn
      · exact absurd (g.distinct x hxm t ht hn) hxt
      · exact g.distinct x hxm y (below_mem_targets ht (hadded y hy)) hn ▸ hy
    · intro hall n
      rw [hs n]
      constructor
      · rintro ((hn | hn) | ⟨x, hx, hn⟩)
        · cases hn
        · exact .inl hn
        · exact .inr ⟨x, hadded x hx, hn⟩
      · rintro (hn | ⟨x, hx, rfl⟩)
        · exact .inl (.inr hn)
        · by_cases hxt : x = t
          · exact .inl (.inr (hxt ▸ rfl))
          · exact .inr ⟨x, hall x hxt hx, rfl⟩
  have hfree : (∀ x, x ≠ t → Beneath g.deps t x → x ∉ viewed g m.depSerial [g.name t] m.serial) ↔
      ∀ x, x ≠ t → Beneath g.deps t x → m.serial x ≠ m.depSerial := by
    refine forall_congr' fun x => forall_congr' fun hxt => forall_congr' fun hx => ?_
    have hxm := below_mem_targets ht hx
    have hname : g.name x ≠ g.name t := fun he => hxt (g.distinct x hxm t ht he)
    simp [mem_viewed, hxm, hname]
  rw [hset, stages_complete_iff hst hself, hfree]
  exact ⟨fun h => ⟨h.1, h.2⟩, fun h => ⟨h.unmarked, h.found⟩⟩

/-! ## Call after call -/

/-- The body of the loop of `deps_indirect`. -/
def depsIndirectBody (g : RuleGraph α) (k : Nat) (depSerial : UInt32) (r : DepState α × List (Bytes × α))
    (x : Bytes) : Exec (DepState α × List (Bytes × α)) :=
  match (ruleFindB r.2 x).1 with
  | none => .ok (r.1, (ruleFindB r.2 x).2)
  | some t => do
    let st ← ruleDepListRecursive g.deps g.name depSerial k t (-1) { r.1 with hier := strlistPushb r.1.hier x }
    .ok ({ st with hier := { st.hier with sa := [] } }, (ruleFindB r.2 x).2)

/-- `deps_indirect`, with the keys of the rules. -/
def depsIndirect (g : RuleGraph α) (k : Nat) (names : Strlist) (s : List Bytes) (rules : List (Bytes × α))
    (m : DepMarks α) : Exec (DepMarks α × List (Bytes × α) × List Bytes) := do
  let r ← (strlistForeach names).foldlM (depsIndirectBody g k m.depSerial) (⟨m.serial, s, strlistInit 0⟩, rules)
  .ok (⟨r.1.serial, m.depSerial⟩, r.2, r.1.s)

/-- The calls that share the serials. -/
inductive DepCall (α : Type)
  | list (t : α)
  | indirect (t : α) (s : List Bytes)
  | names (names : Strlist) (s : List Bytes)

def depCall (g : RuleGraph α) (k : Nat) (m : DepMarks α × List (Bytes × α)) :
    DepCall α → Exec (DepMarks α × List (Bytes × α))
  | .list t => do
    let r ← ruleDepList g.deps g.name k t m.1
    .ok (r.1, m.2)
  | .indirect t s => do
    let r ← ruleDepsIndirect g.deps g.name k t s m.1
    .ok (r.1, m.2)
  | .names names s => do
    let r ← depsIndirect g k names s m.2 m.1
    .ok (r.1, r.2.1)

def DepCallOk (g : RuleGraph α) : DepCall α → Prop
  | .list t => t ∈ g.targets
  | .indirect t _ => t ∈ g.targets
  | .names names _ => ∀ x ∈ strlistForeach names, Clean 0 x

/-- The rules before any look-up. -/
def ruleMap (g : RuleGraph α) : List (Bytes × α) := g.targets.map fun t => (g.name t, t)

theorem returns_ruleDepListRecursive (depSerial : UInt32) (hu : u ∈ g.targets) (hok : HierOk h hs) (serial : α → UInt32)
    (s : List Bytes) {depth : Int} (hdepth : -1 ≤ depth) :
    ∃ st', Returns (fun k => ruleDepListRecursive g.deps g.name depSerial k u depth ⟨serial, s, h⟩) st' ∧
      st'.hier = h := by
  have hseen : ∀ x ∈ (viewed g depSerial hs serial).insert u, x ∈ g.targets := by
    intro x hx
    rcases List.mem_insert_iff.mp hx with rfl | hx
    · exact hu
    · exact (mem_viewed.mp hx).1
  obtain ⟨mid, post, hvis, -⟩ := exists_visits g.closed hseen (g.closed u hu) (nodup_viewed ..).insert
  obtain ⟨st', hr, hview, -⟩ := returns_depEnter hvis hu hok (depView_viewed serial s h) hdepth
  exact ⟨st', hr, hview.hier⟩

omit [DecidableEq α] in
theorem ruleOf_mem_targets {x : Bytes} (hfound : ruleOf (bases (ruleMap g)) x = some t) : t ∈ g.targets := by
  obtain ⟨r, hr, rfl⟩ := ruleOf_mem hfound
  obtain ⟨r', hr', rfl⟩ := List.mem_map.mp hr
  obtain ⟨u, hu, rfl⟩ := List.mem_map.mp hr'
  exact hu

theorem hierOk_pushb {x : Bytes} (hsep : h.sep = 0) (hsa : h.sa = []) (hx : Clean 0 x) :
    HierOk (strlistPushb h x) [x] where
  sep := hsep
  ready := by
    have hpos := hx.length_pos
    simp [strlistPushb, hpos]
  holds := by
    have hlist : Lists 0 x [x] := .last hx
    simpa [Strlist.Holds, strlistPushb, hsa, hsep] using hlist
  nonempty := by simpa [strlistPushb, hsa] using hx.1
  shut := by
    rw [show (strlistPushb h x).sa = x by simp [strlistPushb, hsa]]
    exact fun he => hx.2 (List.mem_of_getLast? he)

/-- `deps_indirect` ends, whatever is marked. -/
theorem returns_depsIndirect {names : Strlist} (hnames : ∀ x ∈ strlistForeach names, Clean 0 x)
    (s : List Bytes) {rules : List (Bytes × α)} (hrules : bases rules = bases (ruleMap g)) (m : DepMarks α) :
    ∃ m' rules' s', Returns (fun k => depsIndirect g k names s rules m) (m', rules', s') ∧
      bases rules' = bases (ruleMap g) := by
  suffices hloop : ∀ (xs : List Bytes) (st : DepState α) (rules : List (Bytes × α)), (∀ x ∈ xs, Clean 0 x) →
      bases rules = bases (ruleMap g) → st.hier.sep = 0 → st.hier.sa = [] →
      ∃ r, Returns (fun k => xs.foldlM (depsIndirectBody g k m.depSerial) (st, rules)) r ∧
        bases r.2 = bases (ruleMap g) by
    obtain ⟨r, hr, hkeep⟩ := hloop _ ⟨m.serial, s, strlistInit 0⟩ rules hnames hrules rfl rfl
    exact ⟨_, r.2, r.1.s, hr.bind (returns_ok _), hkeep⟩
  intro xs
  induction xs with
  | nil => exact fun st rules _ hrules _ _ => ⟨(st, rules), returns_ok _, hrules⟩
  | cons x xs ih =>
    intro st rules hxs hrules hsep hsa
    obtain ⟨hx, hxs⟩ := List.forall_mem_cons.mp hxs
    have hkeep : bases (ruleFindB rules x).2 = bases (ruleMap g) := (bases_ruleFindB ..).trans hrules
    cases hfound : ruleOf (bases (ruleMap g)) x with
    | none =>
      obtain ⟨r, hr, hbases⟩ := ih st (ruleFindB rules x).2 hxs hkeep hsep hsa
      refine ⟨r, returns_foldlM_cons ((returns_ok _).congr fun k => ?_) hr, hbases⟩
      rw [depsIndirectBody, ruleFindB_fst, hrules, hfound]
    | some t =>
      have ht := ruleOf_mem_targets hfound
      obtain ⟨st', hr', hhier⟩ := returns_ruleDepListRecursive m.depSerial ht
        (hierOk_pushb hsep hsa hx) st.serial st.s (le_refl (-1))
      obtain ⟨r, hr, hbases⟩ := ih { st' with hier := { st'.hier with sa := [] } } (ruleFindB rules x).2 hxs hkeep
        (by rw [hhier]; exact hsep) rfl
      refine ⟨r, returns_foldlM_cons ?_ hr, hbases⟩
      simp only [depsIndirectBody, ruleFindB_fst, hrules, hfound]
      exact hr'.bind (returns_ok _)

theorem returns_depCall {c : DepCall α} (hc : DepCallOk g c) {rules : List (Bytes × α)}
    (hrules : bases rules = bases (ruleMap g)) (m : DepMarks α) :
    ∃ m', Returns (fun k => depCall g k (m, rules) c) m' ∧ bases m'.2 = bases (ruleMap g) := by
  cases c with
  | list t =>
    obtain ⟨st, hr, -⟩ := returns_ruleDepListRecursive (m.depSerial - 1) hc (hierOk_init (g.named t hc)) m.serial []
      (show (-1 : Int) ≤ 0 by decide)
    have hcall : Returns (fun k => ruleDepList g.deps g.name k t m) (⟨st.serial, m.depSerial - 1⟩, st.s) :=
      hr.bind (returns_ok _)
    exact ⟨_, hcall.bind (returns_ok _), hrules⟩
  | indirect t s =>
    obtain ⟨serial, s', l, added, hr, -, -⟩ := returns_ruleDepsIndirect hc s m
    exact ⟨_, hr.bind (returns_ok _), hrules⟩
  | names names s =>
    obtain ⟨m', rules', s', hr, hkeep⟩ := returns_depsIndirect hc s hrules m
    exact ⟨_, hr.bind (returns_ok _), hkeep⟩

theorem returns_depCalls {calls : List (DepCall α)} (hcalls : ∀ c ∈ calls, DepCallOk g c)
    {rules : List (Bytes × α)} (hrules : bases rules = bases (ruleMap g)) (m : DepMarks α) :
    ∃ m', Returns (fun k => calls.foldlM (depCall g k) (m, rules)) m' := by
  induction calls generalizing m rules with
  | nil => exact ⟨_, returns_ok _⟩
  | cons c calls ih =>
    obtain ⟨hc, hcalls⟩ := List.forall_mem_cons.mp hcalls
    obtain ⟨m₁, hr₁, hkeep⟩ := returns_depCall hc hrules m
    obtain ⟨m₂, hr₂⟩ := ih hcalls hkeep m₁.1
    exact ⟨m₂, returns_foldlM_cons hr₁ hr₂⟩

/-- After any calls, `rule_deps_indirect` finds all exactly when none of it is marked and the
dependencies stand in order. -/
theorem ruleDepsIndirect_after (g : RuleGraph α) (calls : List (DepCall α)) (t : α)
    (hcalls : ∀ c ∈ calls, DepCallOk g c) (ht : t ∈ g.targets) :
    ∃ m rules, Returns (fun k => calls.foldlM (depCall g k) (⟨fun _ => 0, 0⟩, ruleMap g)) (m, rules) ∧
      ∃ m' s, Returns (fun k => ruleDepsIndirect g.deps g.name k t [] m) (m', s) ∧
        ((∀ n, n ∈ s ↔ n = g.name t ∨ ∃ x, Beneath g.deps t x ∧ n = g.name x) ↔ Unspent g m t) := by
  obtain ⟨⟨m, rules⟩, hr⟩ := returns_depCalls hcalls rfl ⟨fun _ => 0, 0⟩
  exact ⟨m, rules, hr, ruleDepsIndirect_iff ht m⟩

theorem ruleDepsIndirect_knot :
    ∃ m rules, Returns (fun k => [DepCall.list true, .names ⟨[97], true, 0⟩ []].foldlM (depCall knotGraph k)
        (⟨fun _ => 0, 0⟩, ruleMap knotGraph)) (m, rules) ∧
      ∃ m' s, Returns (fun k => ruleDepsIndirect knotGraph.deps knotGraph.name k false [] m) (m', s) ∧
        ((∀ n, n ∈ s ↔ n = [98] ∨ ∃ x, Beneath knotGraph.deps false x ∧ n = knotGraph.name x) ↔
          Unspent knotGraph m false) := by
  refine ruleDepsIndirect_after knotGraph [.list true, .names ⟨[97], true, 0⟩ []] false ?_ (by decide)
  intro c hc
  rcases List.mem_cons.mp hc with rfl | hc
  · exact List.mem_cons_self
  · obtain rfl := List.mem_singleton.mp hc
    simp [DepCallOk, strlistForeach, foreachFrom, byteChr, Clean]

/-- A target that needs another by way of a third. -/
def chainGraph : RuleGraph Nat where
  targets := [0, 1, 2]
  deps t := if t < 2 then [t + 1] else []
  closed := by decide
  name t := [UInt8.ofNat t + 97]
  named := by simp [Clean]
  distinct := by decide

/-- Before any call all targets carry the serial of the call. -/
theorem ruleDepsIndirect_first :
    ∃ m s, Returns (fun k => ruleDepsIndirect chainGraph.deps chainGraph.name k 0 [] ⟨fun _ => 0, 0⟩) (m, s) ∧
      ¬∀ n, n ∈ s ↔ n = chainGraph.name 0 ∨ ∃ x, Beneath chainGraph.deps 0 x ∧ n = chainGraph.name x := by
  refine ⟨⟨Function.update (fun _ => 0) 1 0, 0⟩, [[97]], ⟨1, fun k hk => ?_⟩, fun hall => ?_⟩
  · obtain ⟨k, rfl⟩ := Nat.exists_eq_add_of_le' hk
    rfl
  · have hbelow : Beneath chainGraph.deps 0 2 := ⟨1, by decide, .single (by decide)⟩
    have hmem := (hall [99]).mpr (.inr ⟨2, hbelow, rfl⟩)
    revert hmem
    decide

end Dirlist
