import Dirlist.Rules.AddDep
import Dirlist.Strlist.Grow

/-! `rule_dep_list` and `rule_deps_indirect`. The targets that carry the current serial, and those
whose names are on the way, are the ones a depth-first search has discovered. -/

namespace Dirlist
open Run Search

/-- Targets with names that tell them apart. -/
structure RuleGraph (α : Type) extends DepsGraph α where
  name : α → Bytes
  named : ∀ t ∈ targets, Clean 0 (name t)
  distinct : ∀ t ∈ targets, ∀ u ∈ targets, name t = name u → t = u

/-! ## The names on the way -/

/-- A list that a name can be pushed to and popped from. -/
structure HierOk (h : Strlist) (hs : List Bytes) : Prop where
  sep : h.sep = 0
  ready : h.ready = true
  holds : h.Holds hs
  nonempty : h.sa ≠ []
  shut : h.sa.getLast? ≠ some 0

variable {h : Strlist} {hs : List Bytes} {x : Bytes}

theorem HierOk.push_sa (hok : HierOk h hs) (x : Bytes) : (strlistPush h x).sa = h.sa ++ 0 :: x := by
  have hpos := List.length_pos_iff.mpr hok.nonempty
  have hshut := hok.shut
  simp [strlistPush, hok.sep, hpos, hshut]

theorem HierOk.push (hok : HierOk h hs) (hx : Clean 0 x) : HierOk (strlistPush h x) (hs ++ [x]) where
  sep := hok.sep
  ready := by simp [strlistPush, hok.ready]
  holds := by
    have happ := Lists.append hok.holds (.last (hok.sep.symm ▸ hx))
    exact happ
  nonempty := by simp [hok.push_sa]
  shut := by
    rw [hok.push_sa, getLast?_past h.sa 0 hx.1]
    exact fun he => hx.2 (List.mem_of_getLast? he)

theorem HierOk.pop_push (hok : HierOk h hs) (hx : Clean 0 x) : strlistPop (strlistPush h x) = .ok h := by
  have hsep : (strlistPush h x).sep = 0 := hok.sep
  rw [strlistPop, hsep, hok.push_sa, lastSep_append hx.2]
  have hready : (strlistPush h x).ready = h.ready := by simp [strlistPush, hok.ready]
  simp only [List.take_left, hready]
  rw [← hok.sep]

theorem hierOk_init (hx : Clean 0 x) : HierOk (strlistPush (strlistInit 0) x) [x] where
  sep := rfl
  ready := by
    simpa [strlistPush, strlistInit] using hx.length_pos
  holds := .last hx
  nonempty := hx.1
  shut := fun he => hx.2 (List.mem_of_getLast? he)

/-! ## The search -/

variable {α : Type} [DecidableEq α]

/-- The body of the loop of `rule_dep_list_recursive`. -/
def depListBody (g : RuleGraph α) (depSerial : UInt32) (k : Nat) (t : α) (depth : Int) (st : DepState α)
    (ptr : α) : Exec (DepState α) :=
  if st.serial t = st.serial ptr then .ok st
  else if strlistContainsb st.hier (g.name ptr) then .ok st
  else do
    let st ← ruleDepListRecursive g.deps g.name depSerial k ptr (depth + 1)
      { st with hier := strlistPush st.hier (g.name ptr) }
    let hier ← strlistPop st.hier
    .ok { st with hier := hier, s := if depth ≥ 0 then setAdds st.s (g.name ptr) else st.s }

theorem ruleDepListRecursive_succ (g : RuleGraph α) (depSerial : UInt32) (k : Nat) (t : α) (depth : Int)
    (st : DepState α) : ruleDepListRecursive g.deps g.name depSerial (k + 1) t depth st =
      (g.deps t).foldlM (depListBody g depSerial k t depth)
        { st with serial := Function.update st.serial t depSerial } := rfl

/-- What is discovered carries the serial or is on the way. -/
structure DepView (g : RuleGraph α) (depSerial : UInt32) (h : Strlist) (hs : List Bytes) (seen : List α)
    (st : DepState α) : Prop where
  hier : st.hier = h
  marked : ∀ x ∈ g.targets, x ∈ seen ↔ st.serial x = depSerial ∨ g.name x ∈ hs

variable {g : RuleGraph α} {depSerial : UInt32} {seen todo l post : List α} {st : DepState α} {t u : α}

theorem depListBody_seen (hok : HierOk h hs) (hview : DepView g depSerial h hs seen st)
    (ht : st.serial t = depSerial) (hu : u ∈ g.targets) (hseen : u ∈ seen) (k : Nat) (depth : Int) :
    depListBody g depSerial k t depth st u = .ok st := by
  by_cases hserial : st.serial t = st.serial u
  · rw [depListBody, if_pos hserial]
  · have hin : g.name u ∈ hs := ((hview.marked u hu).mp hseen).resolve_left fun he => hserial (ht.trans he.symm)
    have hcontains : strlistContainsb st.hier (g.name u) = true := by
      rw [hview.hier, hok.holds.contains]
      exact decide_eq_true hin
    rw [depListBody, if_neg hserial, if_pos hcontains]

/-- A target that is not discovered is marked, with its name on the way. -/
theorem DepView.enter (hview : DepView g depSerial h hs seen st) (hu : u ∈ g.targets) :
    DepView g depSerial (strlistPush h (g.name u)) (hs ++ [g.name u]) (seen ++ [u])
      ⟨Function.update st.serial u depSerial, st.s, strlistPush st.hier (g.name u)⟩ where
  hier := by rw [hview.hier]
  marked y hy := by
    by_cases hyu : y = u
    · subst hyu
      simp
    · have hname : g.name y ≠ g.name u := fun he => hyu (g.distinct y hy u hu he)
      simp [hyu, hname, hview.marked y hy]

omit [DecidableEq α] in
theorem DepView.leave {st' : DepState α} {s : List Bytes}
    (hview : DepView g depSerial (strlistPush h (g.name u)) (hs ++ [g.name u]) seen st')
    (hu : u ∈ g.targets) (hmark : st'.serial u = depSerial) : DepView g depSerial h hs seen ⟨st'.serial, s, h⟩ where
  hier := rfl
  marked y hy := by
    rw [hview.marked y hy, List.mem_append, List.mem_singleton]
    constructor
    · rintro (hm | hm | hm)
      · exact .inl hm
      · exact .inr hm
      · exact .inl (g.distinct y hy u hu hm ▸ hmark)
    · rintro (hm | hm)
      · exact .inl hm
      · exact .inr (.inl hm)

/-- The loop over the dependencies of a target is the search through them. -/
theorem returns_depLoop (hvis : Visits g.deps seen todo l post) (htodo : ∀ x ∈ todo, x ∈ g.targets)
    (hok : HierOk h hs) (hview : DepView g depSerial h hs seen st) (ht : st.serial t = depSerial) {depth : Int}
    (hdepth : -1 ≤ depth) :
    ∃ st', Returns (fun k => todo.foldlM (depListBody g depSerial k t depth) st) st' ∧
      DepView g depSerial h hs l st' ∧ (0 ≤ depth → ∀ n, n ∈ st'.s ↔ n ∈ st.s ∨ ∃ x ∈ post, n = g.name x) ∧
      ∀ y, st'.serial y = st.serial y ∨ st'.serial y = depSerial := by
  induction hvis generalizing h hs st t depth with
  | done => exact ⟨st, returns_ok st, hview, by simp, fun _ => .inl rfl⟩
  | @skip seen todo l post u hu hvis ih =>
    obtain ⟨hut, htodo⟩ := List.forall_mem_cons.mp htodo
    obtain ⟨st', hr, hview', hs', hmono⟩ := ih htodo hok hview ht hdepth
    have hbody := depListBody_seen hok hview ht hut hu
    exact ⟨st', returns_foldlM_cons ((returns_ok st).congr fun k => hbody k depth) hr, hview', hs', hmono⟩
  | @visit seen todo mid l inner post u hu h₁ h₂ ih₁ ih₂ =>
    obtain ⟨hut, htodo⟩ := List.forall_mem_cons.mp htodo
    have hclean := g.named u hut
    obtain ⟨st₁, hr₁, hview₁, hs₁, hmono₁⟩ := ih₁ (g.closed u hut) (hok.push hclean) (hview.enter hut)
      (Function.update_self ..) (show -1 ≤ depth + 1 by omega)
    have hmark : st₁.serial u = depSerial := (hmono₁ u).elim (fun he => he.trans (Function.update_self ..)) id
    have hkeep : ∀ y, st₁.serial y = st.serial y ∨ st₁.serial y = depSerial := by
      intro y
      by_cases hyu : y = u
      · subst hyu
        exact .inr hmark
      · exact (hmono₁ y).imp_left fun he => he.trans (Function.update_of_ne hyu ..)
    obtain ⟨st₂, hr₂, hview₂, hs₂, hmono₂⟩ := ih₂ htodo hok
      (hview₁.leave (s := if depth ≥ 0 then setAdds st₁.s (g.name u) else st₁.s) hut hmark)
      ((hkeep t).elim (·.trans ht) id) hdepth
    refine ⟨st₂, returns_foldlM_cons ?_ hr₂, hview₂, fun hpos n => ?_, fun y => ?_⟩
    · have hserial : st.serial t ≠ st.serial u := by
        intro he
        exact hu ((hview.marked u hut).mpr (.inl (he.symm.trans ht)))
      have hcontains : ¬strlistContainsb st.hier (g.name u) = true := by
        rw [hview.hier, hok.holds.contains, decide_eq_true_iff]
        exact fun hin => hu ((hview.marked u hut).mpr (.inr hin))
      have hcall : Returns (fun k => ruleDepListRecursive g.deps g.name depSerial k u (depth + 1)
          { st with hier := strlistPush st.hier (g.name u) }) st₁ :=
        hr₁.succ fun k => ruleDepListRecursive_succ ..
      have hpop : strlistPop st₁.hier = .ok h := by
        rw [hview₁.hier]
        exact hok.pop_push hclean
      simp only [depListBody, if_neg hserial, if_neg hcontains]
      refine hcall.bind ?_
      simp only [hpop, ok_bind]
      exact returns_ok _
    · have hadded := hs₂ hpos n
      rw [if_pos hpos, mem_setAdds, hs₁ (by omega)] at hadded
      rw [hadded]
      simp only [List.mem_append, List.mem_cons]
      constructor
      · rintro (((hn | ⟨y, hy, rfl⟩) | rfl) | ⟨y, hy, rfl⟩)
        · exact .inl hn
        · exact .inr ⟨y, .inl hy, rfl⟩
        · exact .inr ⟨u, .inr (.inl rfl), rfl⟩
        · exact .inr ⟨y, .inr (.inr hy), rfl⟩
      · rintro (hn | ⟨y, hy | rfl | hy, rfl⟩)
        · exact .inl (.inl (.inl hn))
        · exact .inl (.inl (.inr ⟨y, hy, rfl⟩))
        · exact .inl (.inr rfl)
        · exact .inr ⟨y, hy, rfl⟩
    · rcases hmono₂ y with hy | hy
      · exact (hkeep y).imp hy.trans hy.trans
      · exact .inr hy

/-! ## One call of `rule_dep_list` -/

theorem returns_ruleDepList (ht : t ∈ g.targets) {m : DepMarks α}
    (hfresh : ∀ x ∈ g.targets, m.serial x ≠ m.depSerial - 1) :
    ∃ m' s, Returns (fun k => ruleDepList g.deps g.name k t m) (m', s) ∧ m'.depSerial = m.depSerial - 1 ∧
      (∀ x, m'.serial x = m.serial x ∨ m'.serial x = m.depSerial - 1) ∧
      ∀ n, n ∈ s ↔ ∃ x, (t ≠ x ∧ Relation.TransGen (fun a b => b ∈ g.deps a) t x) ∧ n = g.name x := by
  obtain ⟨l, post, hvis, -⟩ : ∃ l post, Visits g.deps [t] (g.deps t) l post ∧ ∀ x ∈ l, x ∈ g.targets :=
    exists_visits g.closed (by simpa using ht) (g.closed t ht) (List.nodup_singleton t)
  have hview : DepView g (m.depSerial - 1) (strlistPush (strlistInit 0) (g.name t)) [g.name t] [t]
      ⟨Function.update m.serial t (m.depSerial - 1), [], strlistPush (strlistInit 0) (g.name t)⟩ := by
    refine ⟨rfl, fun y hy => ?_⟩
    by_cases hyt : y = t
    · subst hyt
      simp
    · have hname : g.name y ≠ g.name t := fun he => hyt (g.distinct y hy t ht he)
      simp [hyt, hname, hfresh y hy]
  obtain ⟨st, hr, -, hs, hmono⟩ := returns_depLoop hvis (g.closed t ht) (hierOk_init (g.named t ht)) hview
    (Function.update_self ..) (show (-1 : Int) ≤ 0 by decide)
  refine ⟨⟨st.serial, m.depSerial - 1⟩, st.s, ?_, rfl, fun x => ?_, fun n => ?_⟩
  · exact (hr.succ fun k => ruleDepListRecursive_succ ..).bind (returns_ok _)
  · by_cases hxt : x = t
    · subst hxt
      exact (hmono x).elim (fun he => .inr (he.trans (Function.update_self ..))) .inr
    · exact (hmono x).imp_left fun he => he.trans (Function.update_of_ne hxt ..)
  · rw [hs le_rfl]
    simp only [List.not_mem_nil, false_or, hvis.mem_post_iff]

/-! ## Call after call -/

/-- Calls of `rule_dep_list`, one after the other. -/
def depLists (g : RuleGraph α) (k : Nat) (ts : List α) (m : DepMarks α) : Exec (DepMarks α) :=
  ts.foldlM (fun m t => do
    let r ← ruleDepList g.deps g.name k t m
    .ok r.1) m

/-- After `i` calls the serials count down from 0, and none is beyond the last one given out. -/
structure Counted (i : Nat) (m : DepMarks α) : Prop where
  depSerial : m.depSerial = 0 - UInt32.ofNat i
  serial : ∀ x, ∃ j ≤ i, m.serial x = 0 - UInt32.ofNat j

variable {i : Nat} {m : DepMarks α}

omit [DecidableEq α] in
theorem Counted.next (hm : Counted i m) : m.depSerial - 1 = 0 - UInt32.ofNat (i + 1) := by
  rw [hm.depSerial, UInt32.ofNat_add]
  grind

omit [DecidableEq α] in
theorem Counted.fresh (hm : Counted i m) (hi : i + 1 < 2 ^ 32) (x : α) : m.serial x ≠ m.depSerial - 1 := by
  obtain ⟨j, hj, hx⟩ := hm.serial x
  rw [hx, hm.next]
  intro he
  have hinj : UInt32.ofNat j = UInt32.ofNat (i + 1) := by grind
  have hnat := congrArg UInt32.toNat hinj
  rw [UInt32.toNat_ofNat_of_lt' (Nat.lt_of_le_of_lt hj (Nat.lt_of_succ_lt hi)),
    UInt32.toNat_ofNat_of_lt' hi] at hnat
  omega

omit [DecidableEq α] in
theorem Counted.step {m' : DepMarks α} (hm : Counted i m) (hserial : m'.depSerial = m.depSerial - 1)
    (hkeep : ∀ x, m'.serial x = m.serial x ∨ m'.serial x = m.depSerial - 1) : Counted (i + 1) m' where
  depSerial := hserial.trans hm.next
  serial x := by
    rcases hkeep x with hx | hx
    · obtain ⟨j, hj, he⟩ := hm.serial x
      exact ⟨j, Nat.le_succ_of_le hj, hx.trans he⟩
    · exact ⟨i + 1, le_rfl, hx.trans hm.next⟩

/-- A run of calls ends, and leaves as many serials used. -/
theorem returns_depLists {ts : List α} (hts : ∀ t ∈ ts, t ∈ g.targets) (hm : Counted i m)
    (hi : i + ts.length < 2 ^ 32) :
    ∃ m', Returns (fun k => depLists g k ts m) m' ∧ Counted (i + ts.length) m' := by
  induction ts generalizing i m with
  | nil => exact ⟨m, returns_ok m, hm⟩
  | cons t ts ih =>
    obtain ⟨ht, hts⟩ := List.forall_mem_cons.mp hts
    rw [List.length_cons, ← Nat.add_assoc, Nat.add_right_comm] at hi ⊢
    obtain ⟨m₁, s, hr, hserial, hkeep, -⟩ := returns_ruleDepList ht fun x _ => hm.fresh (by omega) x
    obtain ⟨m', hr', hm'⟩ := ih hts (hm.step hserial hkeep) hi
    exact ⟨m', returns_foldlM_cons (hr.bind (returns_ok m₁)) hr', hm'⟩

/-- After fewer than `2 ^ 32 - 1` calls `rule_dep_list` lists what can be reached. -/
theorem ruleDepList_reachable (g : RuleGraph α) (ts : List α) (t : α) (hts : ∀ u ∈ ts, u ∈ g.targets)
    (hlen : ts.length < 2 ^ 32 - 1) (ht : t ∈ g.targets) :
    ∃ m s, Returns (fun k => do
        let m ← depLists g k ts ⟨fun _ => 0, 0⟩
        ruleDepList g.deps g.name k t m) (m, s) ∧
      ∀ n, n ∈ s ↔ ∃ x, x ≠ t ∧ Relation.TransGen (fun a b => b ∈ g.deps a) t x ∧ n = g.name x := by
  have hzero : Counted 0 (⟨fun _ => 0, 0⟩ : DepMarks α) := ⟨rfl, fun _ => ⟨0, le_rfl, rfl⟩⟩
  obtain ⟨m, hr, hm⟩ := returns_depLists hts hzero (by omega)
  obtain ⟨m', s, hr', -, -, hs⟩ := returns_ruleDepList ht fun x _ => hm.fresh (by omega) x
  refine ⟨m', s, hr.bind hr', fun n => ?_⟩
  rw [hs n]
  constructor
  · rintro ⟨x, ⟨hne, hreach⟩, hn⟩
    exact ⟨x, hne.symm, hreach, hn⟩
  · rintro ⟨x, hne, hreach, hn⟩
    exact ⟨x, ⟨hne.symm, hreach⟩, hn⟩

/-- Two targets that need each other, and one of them itself. -/
def knotGraph : RuleGraph Bool where
  targets := [true, false]
  deps t := if t then [true, false] else [true]
  closed := by decide
  name t := if t then [97] else [98]
  named := by simp [Clean]
  distinct := by decide

theorem ruleDepList_knot : ∃ m s, Returns (fun k => do
      let m ← depLists knotGraph k [false, true] ⟨fun _ => 0, 0⟩
      ruleDepList knotGraph.deps knotGraph.name k true m) (m, s) ∧ ∀ n, n ∈ s ↔ n = [98] := by
  obtain ⟨m, s, hr, hs⟩ := ruleDepList_reachable knotGraph [false, true] true (by decide) (by decide) (by decide)
  refine ⟨m, s, hr, fun n => ?_⟩
  rw [hs n]
  constructor
  · rintro ⟨x, hx, -, rfl⟩
    cases x with
    | true => exact absurd rfl hx
    | false => rfl
  · rintro rfl
    exact ⟨false, by decide, .single (by decide), rfl⟩

end Dirlist
