import Dirlist.Lib.Couple
import Dirlist.Lib.Forest

/-! `xml_walk`: it goes through a tree without a stack, along the links of the nodes, and leaves the tree
of its root where the root has a next sibling, or has no children and stands below one that has. -/

namespace Dirlist
open Run Nodes

variable {ι σ : Type} (m : Links ι)

/-- A document: nodes that are linked as a tree, and stand in it once. -/
structure XmlDoc (ι : Type) where
  links : Links ι
  top : Option ι
  forest : Forest ι
  linked : links.Linked none top forest
  nodup : forest.preorder.Nodup

/-! ## The recursion -/

/-- The recursion of `xml_find_all_predicate`, with what the array holds. -/
def xmlFindAllPredicate (pred : ι → Bool) : Nat → ι → List ι → Exec (List ι)
  | 0, _, _ => .error .fuel
  | k + 1, node, a => do
    let a := if pred node then a ++ [node] else a
    let a ← match m.children node with
      | none => .ok a
      | some child => xmlFindAllPredicate pred k child a
    match m.next node with
    | none => .ok a
    | some node => xmlFindAllPredicate pred k node a

/-- The recursion goes through siblings and what is below them in document order. -/
theorem xmlFindAllPredicate_linked {m : Links ι} {par : Option ι} {x : ι} {f : Forest ι} (pred : ι → Bool)
    (hf : m.Linked par (some x) f) (a : List ι) :
    Returns (fun k => xmlFindAllPredicate m pred k x a) (a ++ f.preorder.filter pred) := by
  generalize hhead : some x = head at hf
  induction hf generalizing x a with
  | nil => cases hhead
  | @node par x kids rest _ hkids hrest ihk ihr =>
    cases hhead
    let a' := if pred x then a ++ [x] else a
    have hkid : Returns (fun k => (m.children x).elim (.ok a') fun y => xmlFindAllPredicate m pred k y a')
        (a' ++ kids.preorder.filter pred) := by
      cases hc : m.children x with
      | none =>
        obtain rfl := (hc ▸ hkids).eq_nil
        simpa [Forest.preorder] using returns_ok a'
      | some c => exact ihk a' hc.symm
    have hsib (b : List ι) : Returns (fun k => (m.next x).elim (.ok b) fun y => xmlFindAllPredicate m pred k y b)
        (b ++ rest.preorder.filter pred) := by
      cases hn : m.next x with
      | none =>
        obtain rfl := (hn ▸ hrest).eq_nil
        simpa [Forest.preorder] using returns_ok b
      | some y => exact ihr b hn.symm
    have hresult : a ++ (Forest.node x kids rest).preorder.filter pred =
        a' ++ kids.preorder.filter pred ++ rest.preorder.filter pred := by
      simp only [Forest.preorder, List.filter_cons, List.filter_append, a']
      split <;> simp
    rw [hresult]
    refine Returns.succ (Returns.bind (g := fun k b => (m.next x).elim (.ok b) fun y =>
      xmlFindAllPredicate m pred k y b) hkid (hsib _)) fun k => ?_
    rw [xmlFindAllPredicate]
    cases m.children x <;> cases m.next x <;> rfl

/-- From the first child of a node on, it collects what is below the node. -/
theorem xmlFindAllPredicate_below (d : XmlDoc ι) {x c : ι} {kids rest : Forest ι} (hx : Forest.At x kids rest d.forest)
    (hc : d.links.children x = some c) (pred : ι → Bool) (a : List ι) :
    Returns (fun k => xmlFindAllPredicate d.links pred k c a) (a ++ kids.preorder.filter pred) :=
  xmlFindAllPredicate_linked pred (hc ▸ (hx.linked d.linked).1) a

/-! ## The walk -/

variable [DecidableEq ι]

/-- The inner loop of `xml_walk`, from a node upwards. -/
def xmlClimbRound (root : ι) (_ : Nat) (node : ι) : Exec (ι ⊕ Option ι) :=
  match m.parent node with
  | none => .ok (.inr none)
  | some node => if node ≠ root ∧ (m.next node).isNone then .ok (.inl node) else .ok (.inr (some node))

/-- The node that `xml_walk` takes behind `node`. -/
def xmlWalkNext (root : ι) (k : Nat) (node : ι) : Exec (Option ι) :=
  if (m.children node).isSome ∨ (m.next node).isSome then
    .ok (if (m.children node).isSome then m.children node else m.next node)
  else do
    let node ← loop (xmlClimbRound m root) k node
    .ok (node.bind m.next)

/-- One round of `xml_walk`, with the state of the callback. -/
def xmlWalkRound (func : ι → ι → σ → Int × σ) (root : ι) (k : Nat) : ι × σ → Exec (ι × σ ⊕ σ)
  | (node, s) =>
    let (ret, s) := func node root s
    if ret ≠ 0 then .ok (.inr s)
    else do
      match ← xmlWalkNext m root k node with
      | none => .ok (.inr s)
      | some node => .ok (.inl (node, s))

/-- `xml_walk` -/
def xmlWalk (func : ι → ι → σ → Int × σ) (root : ι) (k : Nat) (s : σ) : Exec σ :=
  loop (xmlWalkRound m func root) k (root, s)

variable {m} {root x y : ι} {nxt : Option ι} {par : Option ι} {f : Forest ι}

variable {func : ι → ι → σ → Int × σ}

theorem returns_climb (h : m.Over root y nxt) (hx : m.parent x = some y) :
    ∃ r, Returns (fun k => loop (xmlClimbRound m root) k x) r ∧ r.bind m.next = nxt := by
  induction h generalizing x with
  | @stop y hs =>
    have hround : ∀ k, xmlClimbRound m root k x = .ok (.inr (some y)) := by
      intro k
      have hnot : ¬(y ≠ root ∧ (m.next y).isNone = true) := by
        rintro ⟨hne, hnone⟩
        rw [Option.isNone_iff_eq_none] at hnone
        simp [hne, hnone] at hs
      simp only [xmlClimbRound, hx, if_neg hnot]
    exact ⟨some y, returns_loop_done ((returns_ok _).congr hround), rfl⟩
  | @climb y z nxt hne hn hp _ ih =>
    obtain ⟨r, hr, hnext⟩ := ih hp
    have hround : ∀ k, xmlClimbRound m root k x = .ok (.inl y) := by
      intro k
      simp [xmlClimbRound, hx, hne, hn]
    exact ⟨r, returns_loop_next ((returns_ok _).congr hround) hr, hnext⟩
  | @top y hne hn hp =>
    have hround : ∀ k, xmlClimbRound m root k x = .ok (.inl y) := by
      intro k
      simp [xmlClimbRound, hx, hne, hn]
    have hend : ∀ k, xmlClimbRound m root k y = .ok (.inr none) := by
      intro k
      simp [xmlClimbRound, hp]
    exact ⟨none, returns_loop_next ((returns_ok _).congr hround)
      (returns_loop_done ((returns_ok _).congr hend)), rfl⟩

theorem xmlWalkNext_leaf (hc : m.children x = none) (hn : m.next x = none) (k : Nat) :
    xmlWalkNext m root k x = loop (xmlClimbRound m root) k x >>= fun node => .ok (node.bind m.next) := by
  rw [xmlWalkNext, if_neg (by simp [hc, hn])]

theorem returns_xmlWalkNext (h : m.Succ root x nxt) : Returns (fun k => xmlWalkNext m root k x) nxt := by
  cases h with
  | child hc => exact (returns_ok _).congr fun k => by simp [xmlWalkNext, hc]
  | sibling hc hn => exact (returns_ok _).congr fun k => by simp [xmlWalkNext, hc, hn]
  | above hc hn hp hover =>
    obtain ⟨r, hr, rfl⟩ := returns_climb hover hp
    have hnext := Returns.bind (g := fun _ node => .ok (node.bind m.next)) hr (returns_ok _)
    exact hnext.congr (xmlWalkNext_leaf hc hn)
  | top hc hn hp =>
    have hround : ∀ k, xmlClimbRound m root k x = .ok (.inr none) := by
      intro k
      simp [xmlClimbRound, hp]
    have hr := returns_loop_done ((returns_ok _).congr hround)
    have hnext := Returns.bind (g := fun _ node => .ok (node.bind m.next)) hr (returns_ok _)
    exact hnext.congr (xmlWalkNext_leaf hc hn)

/-- A round that goes on from a node, or does not. -/
def goOn (s : σ) (nxt : Option ι) : ι × σ ⊕ σ := nxt.elim (.inr s) fun y => .inl (y, s)

/-- A round of a walk whose callback returns 0. -/
theorem returns_xmlWalkRound (hfunc : ∀ node root s, (func node root s).1 = 0) (h : m.Succ root x nxt) (s : σ) :
    Returns (fun k => xmlWalkRound m func root k (x, s)) (goOn (func x root s).2 nxt) := by
  have hround (k : Nat) : xmlWalkRound m func root k (x, s) =
      xmlWalkNext m root k x >>= fun r => .ok (goOn (func x root s).2 r) := by
    simp only [xmlWalkRound, hfunc, ne_eq, not_true_eq_false, if_false]
    congr 1
    funext r
    cases r <;> rfl
  have hbind := Returns.bind (g := fun _ r => .ok (goOn (func x root s).2 r)) (returns_xmlWalkNext h) (returns_ok _)
  exact hbind.congr hround

/-- What the callback makes of its state on the way. -/
theorem returns_of_steps (hfunc : ∀ node root s, (func node root s).1 = 0) {l : List ι}
    (h : m.Steps root (some x) l nxt) (s : σ) :
    nxt = none ∧ Returns (fun k => loop (xmlWalkRound m func root) k (x, s))
        (l.foldl (fun s node => (func node root s).2) s) ∨
      ∃ y, nxt = some y ∧ ∀ r, Returns (fun k => loop (xmlWalkRound m func root) k (x, s)) r ↔
        Returns (fun k => loop (xmlWalkRound m func root) k (y, l.foldl (fun s node => (func node root s).2) s)) r := by
  generalize ha : some x = a at h
  induction h generalizing x s with
  | refl a => exact .inr ⟨x, ha.symm, fun r => Iff.rfl⟩
  | @step x b c l hsucc hsteps ih =>
    cases ha
    have hround := returns_xmlWalkRound hfunc hsucc s
    cases b with
    | none =>
      cases hsteps
      exact .inl ⟨rfl, returns_loop_done hround⟩
    | some y =>
      have hgoes : GoesTo (xmlWalkRound m func root) (x, s) (y, (func x root s).2) := hround
      rcases ih (func x root s).2 rfl with ⟨rfl, hr⟩ | ⟨z, rfl, hiff⟩
      · exact .inl ⟨rfl, (hgoes.returns_iff _).mpr hr⟩
      · exact .inr ⟨z, rfl, fun r => (hgoes.returns_iff r).trans (hiff r)⟩

/-- The callback that writes down where it is called. -/
def traced (node _ : ι) (s : List ι) : Int × List ι := (0, s ++ [node])

omit [DecidableEq ι] in
theorem foldl_traced (l s : List ι) : l.foldl (fun s node => (traced node root s).2) s = s ++ l := by
  induction l generalizing s with
  | nil => simp
  | cons x l ih =>
    rw [List.foldl_cons, ih]
    simp [traced]

/-- A walk that goes on writes down more. -/
theorem length_lt_of_returns {s r : List ι} (h : Returns (fun k => loop (xmlWalkRound m traced root) k (x, s)) r) :
    s.length < r.length := by
  obtain ⟨N, hN⟩ := h
  have hround (k : Nat) (t : ι × List ι) (z) (hz : xmlWalkRound m traced root k t = .ok z) :
      z = .inr (t.2 ++ [t.1]) ∨ ∃ y, z = .inl (y, t.2 ++ [t.1]) := by
    simp only [xmlWalkRound, traced, ne_eq, not_true_eq_false, if_false] at hz
    obtain ⟨nxt, -, hz⟩ := bind_eq_ok hz
    cases nxt with
    | none =>
      cases hz
      exact .inl rfl
    | some y =>
      cases hz
      exact .inr ⟨y, rfl⟩
  refine loop_inv (fun t => s.length ≤ t.2.length) (fun r => s.length < r.length) ?_ ?_ (Nat.le_refl _)
    (hN N (Nat.le_refl N))
  · intro k t t' ht hz
    rcases hround k t _ hz with h | ⟨y, h⟩ <;> cases h
    simp only [List.length_append, List.length_singleton]
    omega
  · intro k t r' ht hz
    rcases hround k t _ hz with h | ⟨y, h⟩ <;> cases h
    simp only [List.length_append, List.length_singleton]
    omega

/-- The walk calls its callback once for the root and each node below it, in document order, and comes to
an end there, just when the root has no next sibling and, if it has no children, no node above it has
one. -/
theorem xmlWalk_iff (d : XmlDoc ι) {kids rest : Forest ι} (hroot : Forest.At root kids rest d.forest) :
    (∀ (σ : Type) (func : ι → ι → σ → Int × σ), (∀ node root s, (func node root s).1 = 0) → ∀ s,
      Returns (fun k => xmlWalk d.links func root k s)
        ((root :: kids.preorder).foldl (fun s node => (func node root s).2) s)) ↔
      d.links.next root = none ∧ (d.links.children root = none →
        ∀ z, Relation.TransGen d.links.Above root z → d.links.next z = none) := by
  obtain ⟨nxt, hsteps, hiff⟩ := hroot.steps d.linked d.nodup
  rw [← hiff]
  constructor
  · intro h
    have htrace : Returns (fun k => loop (xmlWalkRound d.links traced root) k (root, []))
        ((root :: kids.preorder).foldl (fun s node => (traced node root s).2) []) :=
      h (List ι) traced (fun _ _ _ => rfl) []
    rw [foldl_traced, List.nil_append] at htrace
    rcases returns_of_steps (fun node root s => show (traced node root s).1 = 0 from rfl) hsteps [] with ⟨hnone, -⟩ |
      ⟨y, rfl, hgo⟩
    · exact hnone
    · have hlt := length_lt_of_returns ((hgo _).mp htrace)
      rw [foldl_traced, List.nil_append] at hlt
      exact absurd hlt (Nat.lt_irrefl _)
  · rintro rfl σ func hfunc s
    rcases returns_of_steps hfunc hsteps s with ⟨-, hr⟩ | ⟨y, hy, -⟩
    · exact hr
    · cases hy

/-! ## Two siblings -/

/-- The node 0 with the children 1 and 2. -/
def siblings : XmlDoc Nat where
  links := ⟨fun x => if x = 1 then some 2 else none, fun x => if x = 0 then some 1 else none,
    fun x => if x = 0 then none else some 0⟩
  top := some 0
  forest := .node 0 (.node 1 .nil (.node 2 .nil .nil)) .nil
  linked := .node rfl (.node rfl (.nil _) (.node rfl (.nil _) (.nil _))) (.nil _)
  nodup := by decide

/-- From the top the walk goes through the whole tree. -/
theorem xmlWalk_iff_siblings :
    Returns (fun k => xmlWalk siblings.links traced 0 k []) [0, 1, 2] :=
  (xmlWalk_iff siblings .here).mpr ⟨rfl, fun h => by cases h⟩ (List Nat) traced (fun _ _ _ => rfl) []

/-- From the first child it goes to the second. -/
theorem xmlWalk_leaves : ¬∀ (d : XmlDoc Nat) (root : Nat) (kids rest : Forest Nat),
    Forest.At root kids rest d.forest →
      ∀ (σ : Type) (func : Nat → Nat → σ → Int × σ), (∀ node root s, (func node root s).1 = 0) → ∀ s,
        Returns (fun k => xmlWalk d.links func root k s)
          ((root :: kids.preorder).foldl (fun s node => (func node root s).2) s) := by
  intro h
  have htrace : Returns (fun k => loop (xmlWalkRound siblings.links traced 1) k (1, [])) [1] :=
    h siblings 1 .nil (.node 2 .nil .nil) (.inside .here) (List Nat) traced (fun _ _ _ => rfl) []
  have hsteps : siblings.links.Steps 1 (some 1) [1] (some 2) := .step (.sibling rfl rfl) (.refl _)
  rcases returns_of_steps (fun node root s => show (traced node root s).1 = 0 from rfl) hsteps [] with
    ⟨h, -⟩ | ⟨y, -, hgo⟩
  · cases h
  · exact absurd (length_lt_of_returns ((hgo _).mp htrace)) (by decide)

end Dirlist
