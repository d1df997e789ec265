import Mathlib

/-! Trees in memory: nodes with links to their first child, their next sibling and their parent, and
the forests that such links hold. -/

namespace Nodes

variable {ι : Type}

/-- The links of nodes. -/
structure Links (ι : Type) where
  next : ι → Option ι
  children : ι → Option ι
  parent : ι → Option ι

/-- Siblings in their order, each with its children. -/
inductive Forest (ι : Type)
  | nil
  | node (x : ι) (kids rest : Forest ι)

/-- The nodes in document order. -/
def Forest.preorder : Forest ι → List ι
  | .nil => []
  | .node x kids rest => x :: (kids.preorder ++ rest.preorder)

/-- From a link on, the nodes are linked as a forest, below a parent. -/
inductive Links.Linked (m : Links ι) : Option ι → Option ι → Forest ι → Prop
  | nil (par : Option ι) : Linked m par none .nil
  | node {par : Option ι} {x : ι} {kids rest : Forest ι} :
    m.parent x = par → Linked m (some x) (m.children x) kids → Linked m par (m.next x) rest →
      Linked m par (some x) (.node x kids rest)

/-- The node `x` stands somewhere in a forest, with its children and what comes behind it. -/
inductive Forest.At (x : ι) (kids rest : Forest ι) : Forest ι → Prop
  | here : At x kids rest (.node x kids rest)
  | inside {y : ι} {f g : Forest ι} : At x kids rest f → At x kids rest (.node y f g)
  | later {y : ι} {f g : Forest ι} : At x kids rest g → At x kids rest (.node y f g)

variable {m : Links ι} {par head : Option ι} {f kids rest : Forest ι} {x y : ι}

theorem Links.Linked.eq_nil (h : m.Linked par none f) : f = .nil := by
  cases h
  rfl

theorem Forest.At.mem (h : Forest.At x kids rest f) : x ∈ f.preorder := by
  induction h with
  | here => exact List.mem_cons_self
  | inside _ ih => exact List.mem_cons_of_mem _ (List.mem_append_left _ ih)
  | later _ ih => exact List.mem_cons_of_mem _ (List.mem_append_right _ ih)

/-- What is linked at a node of a forest. -/
theorem Forest.At.linked (h : Forest.At x kids rest f) (hf : m.Linked par head f) :
    m.Linked (some x) (m.children x) kids ∧ m.Linked (m.parent x) (m.next x) rest := by
  induction h generalizing par head with
  | here =>
    cases hf with
    | node hpar hkids hrest => exact ⟨hkids, hpar ▸ hrest⟩
  | inside _ ih =>
    cases hf with
    | node _ hkids _ => exact ih hkids
  | later _ ih =>
    cases hf with
    | node _ _ hrest => exact ih hrest

/-- Links that agree on the nodes of a forest hold it too. -/
theorem Links.Linked.congr {m' : Links ι} (h : m.Linked par head f)
    (heq : ∀ x ∈ f.preorder, m'.parent x = m.parent x ∧ m'.children x = m.children x ∧ m'.next x = m.next x) :
    m'.Linked par head f := by
  induction h with
  | nil par => exact .nil par
  | @node par x kids rest hpar _ _ ihk ihr =>
    obtain ⟨hparent, hchildren, hnext⟩ := heq x List.mem_cons_self
    refine .node (hparent.trans hpar) ?_ ?_
    · rw [hchildren]
      exact ihk fun y hy => heq y (List.mem_cons_of_mem _ (List.mem_append_left _ hy))
    · rw [hnext]
      exact ihr fun y hy => heq y (List.mem_cons_of_mem _ (List.mem_append_right _ hy))

theorem Forest.At.not_mem_kids (h : Forest.At x kids rest f) (hnd : f.preorder.Nodup) :
    x ∉ kids.preorder := by
  induction h with
  | here => exact fun hx => (List.nodup_cons.mp hnd).1 (List.mem_append_left _ hx)
  | inside _ ih => exact ih (List.nodup_append.mp (List.nodup_cons.mp hnd).2).1
  | later _ ih => exact ih (List.nodup_append.mp (List.nodup_cons.mp hnd).2).2.1

/-! ## Going on without a stack -/

variable {root : ι} {nxt : Option ι} {l l' : List ι}

/-- Where a walk below `root` goes on when all below a node is done: to the next sibling of it, or of the
first node above that has one. At `root` it is over in any case. -/
inductive Links.Over (m : Links ι) (root : ι) : ι → Option ι → Prop
  | stop {x : ι} : x = root ∨ (m.next x).isSome → Over m root x (m.next x)
  | climb {x y : ι} {nxt : Option ι} :
    x ≠ root → m.next x = none → m.parent x = some y → Over m root y nxt → Over m root x nxt
  | top {x : ι} : x ≠ root → m.next x = none → m.parent x = none → Over m root x none

/-- The node behind a node: its first child, its next sibling, or one that is found above. -/
inductive Links.Succ (m : Links ι) (root : ι) : ι → Option ι → Prop
  | child {x y : ι} : m.children x = some y → Succ m root x (some y)
  | sibling {x y : ι} : m.children x = none → m.next x = some y → Succ m root x (some y)
  | above {x y : ι} {nxt : Option ι} :
    m.children x = none → m.next x = none → m.parent x = some y → Over m root y nxt → Succ m root x nxt
  | top {x : ι} : m.children x = none → m.next x = none → m.parent x = none → Succ m root x none

/-- The nodes a walk comes to from one on, and the one that is next. -/
inductive Links.Steps (m : Links ι) (root : ι) : Option ι → List ι → Option ι → Prop
  | refl (a : Option ι) : Steps m root a [] a
  | step {x : ι} {b c : Option ι} {l : List ι} :
    Succ m root x b → Steps m root b l c → Steps m root (some x) (x :: l) c

theorem Links.Over.unique {nxt' : Option ι} (h : m.Over root x nxt) (h' : m.Over root x nxt') : nxt = nxt' := by
  induction h with
  | stop hs =>
    cases h' with
    | stop => rfl
    | climb hne hn => simp [hne, hn] at hs
    | top hne hn => simp [hne, hn] at hs
  | climb hne hn hp _ ih =>
    cases h' with
    | stop hs => simp [hne, hn] at hs
    | climb _ _ hp' hy =>
      cases hp.symm.trans hp'
      exact ih hy
    | top _ _ hp' => cases hp.symm.trans hp'
  | top hne hn hp =>
    cases h' with
    | stop hs => simp [hne, hn] at hs
    | climb _ _ hp' => cases hp.symm.trans hp'
    | top => rfl

theorem Links.Succ.unique {nxt' : Option ι} (h : m.Succ root x nxt) (h' : m.Succ root x nxt') : nxt = nxt' := by
  cases h with
  | child hc => cases h' <;> simp_all
  | sibling hc hn => cases h' <;> simp_all
  | above hc hn hp hover =>
    cases h' with
    | child hc' => cases hc.symm.trans hc'
    | sibling _ hn' => cases hn.symm.trans hn'
    | above _ _ hp' hover' =>
      cases hp.symm.trans hp'
      exact hover.unique hover'
    | top _ _ hp' => cases hp.symm.trans hp'
  | top hc hn hp => cases h' <;> simp_all

theorem Links.Steps.unique {a b b' : Option ι} (h : m.Steps root a l b) (h' : m.Steps root a l b') : b = b' := by
  induction h with
  | refl => cases h'; rfl
  | step hs _ ih =>
    cases h' with
    | step hs' hrest => exact ih (hs.unique hs' ▸ hrest)

theorem Links.Steps.append {a b c : Option ι} (h : m.Steps root a l b) (h' : m.Steps root b l' c) :
    m.Steps root a (l ++ l') c := by
  induction h with
  | refl => exact h'
  | step hs _ ih => exact .step hs (ih h')

theorem Links.Over.succ (h : m.Over root x nxt) (hne : x ≠ root) (hkids : m.children x = none) :
    m.Succ root x nxt := by
  cases h with
  | stop hs =>
    obtain ⟨y, hy⟩ := Option.isSome_iff_exists.mp (hs.resolve_left hne)
    exact hy ▸ .sibling hkids hy
  | climb _ hn hp hover => exact .above hkids hn hp hover
  | top _ hn hp => exact .top hkids hn hp

/-- A node and what is below it. -/
theorem Links.Linked.steps_node (hkids : m.Linked par (m.children x) kids)
    (hsteps : kids = .nil ∨ m.Steps root (m.children x) kids.preorder nxt)
    (hleaf : m.children x = none → m.Succ root x nxt) :
    m.Steps root (some x) (x :: kids.preorder) nxt := by
  cases hc : m.children x with
  | none =>
    obtain rfl := (hc ▸ hkids).eq_nil
    exact .step (hleaf hc) (.refl nxt)
  | some c =>
    rw [hc] at hsteps hkids
    rcases hsteps with rfl | hsteps
    · cases hkids
    · exact .step (.child hc) hsteps

/-- A walk inside the tree of its root goes through a forest in document order, and then on from the
parent. -/
theorem Links.Linked.steps (hf : m.Linked par head f) (hroot : root ∉ f.preorder) (hpar : par = some y)
    (hover : m.Over root y nxt) : f = .nil ∨ m.Steps root head f.preorder nxt := by
  induction hf generalizing y nxt with
  | nil => exact .inl rfl
  | @node par x kids rest hx hkids hrest ihk ihr =>
    right
    simp only [Forest.preorder, List.mem_cons, List.mem_append, not_or] at hroot
    obtain ⟨hne, hrootk, hrootr⟩ := hroot
    -- Behind the children comes the next sibling, or what comes behind the parent.
    obtain ⟨nxt', hover', hsteps⟩ : ∃ nxt', m.Over root x nxt' ∧ m.Steps root nxt' rest.preorder nxt := by
      cases hsib : m.next x with
      | none =>
        obtain rfl := (hsib ▸ hrest).eq_nil
        exact ⟨nxt, .climb (Ne.symm hne) hsib (hx.trans hpar) hover, .refl nxt⟩
      | some z =>
        refine ⟨m.next x, .stop (.inr (by simp [hsib])), ?_⟩
        rcases ihr hrootr hpar hover with rfl | hsteps
        · rw [hsib] at hrest
          cases hrest
        · exact hsteps
    have hnode := hkids.steps_node (ihk hrootk rfl hover') (hover'.succ (Ne.symm hne))
    exact hnode.append hsteps

/-! ## Walking below a node -/

/-- A node that has a node below it, and what is above that. -/
def Links.Above (m : Links ι) (x y : ι) : Prop := m.parent x = some y

/-- Where a walk goes on from the parent of a node. -/
inductive Links.OverPar (m : Links ι) (root : ι) : Option ι → Option ι → Prop
  | top : OverPar m root none none
  | node {y : ι} {nxt : Option ι} : Over m root y nxt → OverPar m root (some y) nxt

/-- From above `root` a walk goes on just when a node there has a next sibling. -/
theorem Forest.At.over (h : Forest.At root kids rest f) (hf : m.Linked par head f) (hnd : f.preorder.Nodup)
    (hpar : ∃ nxt, m.OverPar root par nxt ∧
      (nxt = none ↔ ∀ y ∈ par, ∀ z, Relation.ReflTransGen m.Above y z → m.next z = none)) :
    ∃ nxt, m.OverPar root (m.parent root) nxt ∧
      (nxt = none ↔ ∀ z, Relation.TransGen m.Above root z → m.next z = none) := by
  induction h generalizing par head with
  | here =>
    cases hf with
    | node hx _ _ =>
      obtain ⟨nxt, hover, hiff⟩ := hpar
      refine ⟨nxt, hx ▸ hover, hiff.trans ⟨fun hall z hz => ?_, fun hall y hy z hz => ?_⟩⟩
      · obtain ⟨y, hy, hyz⟩ := Relation.TransGen.head'_iff.mp hz
        exact hall y (hx ▸ hy) z hyz
      · exact hall z (.head' (hx.trans hy) hz)
  | later hat ih =>
    cases hf with
    | node _ _ hrest => exact ih hrest (List.nodup_append.mp (List.nodup_cons.mp hnd).2).2.1 hpar
  | @inside y f g hat ih =>
    cases hf with
    | node hy hkids _ =>
      refine ih hkids (List.nodup_append.mp (List.nodup_cons.mp hnd).2).1 ?_
      have hne : y ≠ root := by
        rintro rfl
        exact (List.nodup_cons.mp hnd).1 (List.mem_append_left _ hat.mem)
      cases hn : m.next y with
      | some z =>
        refine ⟨some z, .node (hn ▸ .stop (.inr (by simp [hn]))), by simp, fun hall => ?_⟩
        exact absurd (hn.symm.trans (hall y rfl y .refl)) (by simp)
      | none =>
        obtain ⟨nxt, hover, hiff⟩ := hpar
        refine ⟨nxt, .node ?_, hiff.trans ⟨fun hall w hw z hz => ?_, fun hall w hw z hz => ?_⟩⟩
        · cases hover with
          | top => exact .top hne hn hy
          | node hover => exact .climb hne hn hy hover
        · obtain rfl : y = w := Option.some.inj hw
          rcases Relation.ReflTransGen.cases_head hz with rfl | ⟨w, hw, hwz⟩
          · exact hn
          · exact hall w (hy.symm.trans hw) z hwz
        · exact hall y rfl z (.head (hy.trans hw) hz)

/-- A walk below a node goes through its tree, and ends there just when neither the node has a next
sibling nor, where it has no children, a node above it. -/
theorem Forest.At.steps (h : Forest.At root kids rest f) (hf : m.Linked none head f)
    (hnd : f.preorder.Nodup) :
    ∃ nxt, m.Steps root (some root) (root :: kids.preorder) nxt ∧
      (nxt = none ↔ m.next root = none ∧
        (m.children root = none → ∀ z, Relation.TransGen m.Above root z → m.next z = none)) := by
  have hlinked := (h.linked hf).1
  cases hc : m.children root with
  | some c =>
    have hsteps := hlinked.steps (h.not_mem_kids hnd) rfl (.stop (.inl rfl))
    refine ⟨m.next root, hlinked.steps_node hsteps fun hnone => ?_, by simp⟩
    cases hc.symm.trans hnone
  | none =>
    obtain rfl := (hc ▸ hlinked).eq_nil
    cases hn : m.next root with
    | some z => exact ⟨some z, .step (.sibling hc hn) (.refl _), by simp⟩
    | none =>
      have htop : ∃ nxt, m.OverPar root none nxt ∧
          (nxt = none ↔ ∀ y ∈ (none : Option ι), ∀ z, Relation.ReflTransGen m.Above y z → m.next z = none) :=
        ⟨none, .top, by simp⟩
      obtain ⟨nxt, hover, hiff⟩ := h.over hf hnd htop
      refine ⟨nxt, .step ?_ (.refl _), by simpa using hiff⟩
      generalize hp : m.parent root = par at hover
      cases hover with
      | top => exact .top hc hn hp
      | node hover => exact .above hc hn hp hover

end Nodes
