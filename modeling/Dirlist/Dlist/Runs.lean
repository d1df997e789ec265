import Dirlist.Dlist.Walks

/-! Any run of the operations of lib/dlist, on any number of lists at once, beside the same operations on sequences of
nodes. -/

namespace Dirlist
open Run Ring Strand

variable {α : Type} {s s' : Dlists α} {A : Nat → List Addr} {h h' : Heap (DlistNode α)} {i j : Nat} {p q : Addr}
  {touched xs ys : List Addr}

/-! ## Sequences -/

def insertBehind (p q : Addr) (xs : List Addr) : List Addr := xs.flatMap fun a => if a = q then [a, p] else [a]

def insertBefore (p q : Addr) (xs : List Addr) : List Addr := xs.flatMap fun a => if a = q then [p, a] else [a]

/-- What an operation gives back, and what it makes of the sequences `A`. The nodes carry `value`. -/
def dlistSpec (value : Addr → Option α) (A : Nat → List Addr) : DlistOp α → DlistOut × (Nat → List Addr)
  | .init i => (.none, Function.update A i [])
  | .push i p => (.none, Function.update A i (A i ++ [p]))
  | .unshift i p => (.none, Function.update A i (p :: A i))
  | .addAfter i p after => (.none, Function.update A i (insertBehind p after (A i)))
  | .addBefore i p before => (.none, Function.update A i (insertBefore p before (A i)))
  | .remove i p => (.none, Function.update A i ((A i).erase p))
  | .swap i p1 p2 => (.none, Function.update A i ((A i).map (Equiv.swap p1 p2)))
  | .moveHead src dst => (.none, Function.update (Function.update A src []) dst (A src ++ A dst))
  | .moveTail src dst => (.none, Function.update (Function.update A src []) dst (A dst ++ A src))
  | .findDelete i pred =>
    (.node ((A i).find? fun a => (value a).any pred),
      Function.update A i ((A i).eraseP fun a => (value a).any pred))
  | .find i pred => (.node ((A i).find? fun a => (value a).any pred), A)
  | .length i => (.number (A i).length, A)
  | .down i => (.nodes (A i), A)
  | .up i => (.nodes (A i).reverse, A)

def dlistSpecRun (value : Addr → Option α) : List (DlistOp α) → (Nat → List Addr) →
    List DlistOut × (Nat → List Addr)
  | [], A => ([], A)
  | op :: ops, A =>
    let (out, A) := dlistSpec value A op
    let (outs, A) := dlistSpecRun value ops A
    (out :: outs, A)

/-- What a caller has to see to: a node that is added is on no list, one that is taken out, swapped or added at is on
this list, and a list is not moved to itself. -/
def DlistLegal (value : Addr → Option α) (A : Nat → List Addr) : DlistOp α → Prop
  | .push _ p => (value p).isSome ∧ ∀ j, p ∉ A j
  | .unshift _ p => (value p).isSome ∧ ∀ j, p ∉ A j
  | .addAfter i p after => (value p).isSome ∧ (∀ j, p ∉ A j) ∧ after ∈ A i
  | .addBefore i p before => (value p).isSome ∧ (∀ j, p ∉ A j) ∧ before ∈ A i
  | .remove i p => p ∈ A i
  | .swap i p1 p2 => p1 ∈ A i ∧ p2 ∈ A i
  | .moveHead src dst => src ≠ dst
  | .moveTail src dst => src ≠ dst
  | _ => True

def DlistsLegal (value : Addr → Option α) : List (DlistOp α) → (Nat → List Addr) → Prop
  | [], _ => True
  | op :: ops, A => DlistLegal value A op ∧ DlistsLegal value ops (dlistSpec value A op).2

/-- Each list is linked through its sequence, and no node is on two lists. -/
structure DlistsHold (s : Dlists α) (A : Nat → List Addr) : Prop where
  list : ∀ i, s.list i = dlistOf (A i)
  strung : ∀ i, Strung s.heap (A i)
  disjoint : ∀ i j, i ≠ j → ∀ a ∈ A i, a ∉ A j

theorem dataAt_within (hw : Confined dlistLinks h h' touched) : dataAt h' = dataAt h :=
  funext fun a => (hw.rest a).map_eq DlistNode.data fun _ => rfl

theorem dataAt_isSome : (dataAt h p).isSome = (h p).isSome := Option.isSome_map

theorem flatMap_others {f : Addr → List Addr} {cs : List Addr} (hc : ∀ a ∈ cs, f a = [a]) : cs.flatMap f = cs := by
  induction cs with
  | nil => rfl
  | cons c cs ih =>
    obtain ⟨hfc, hfcs⟩ := List.forall_mem_cons.mp hc
    rw [List.flatMap_cons, hfc, ih hfcs]
    rfl

theorem flatMap_split {f : Addr → List Addr} {as bs : List Addr} (hf : ∀ a, a ≠ q → f a = [a])
    (hnd : (as ++ q :: bs).Nodup) : (as ++ q :: bs).flatMap f = as ++ (f q ++ bs) := by
  obtain ⟨-, -, hqa, hqb, -, -⟩ := nodup_split hnd
  rw [List.flatMap_append, List.flatMap_cons, flatMap_others fun a ha => hf a (ne_of_mem_of_not_mem ha hqa),
    flatMap_others fun a ha => hf a (ne_of_mem_of_not_mem ha hqb)]

theorem insertBehind_split {as bs : List Addr} (hnd : (as ++ q :: bs).Nodup) :
    insertBehind p q (as ++ q :: bs) = as ++ q :: p :: bs := by
  rw [insertBehind, flatMap_split (fun a ha => if_neg ha) hnd, if_pos rfl]
  rfl

theorem insertBefore_split {as bs : List Addr} (hnd : (as ++ q :: bs).Nodup) :
    insertBefore p q (as ++ q :: bs) = as ++ p :: q :: bs := by
  rw [insertBefore, flatMap_split (fun a ha => if_neg ha) hnd, if_pos rfl]
  rfl

theorem perm_behind (p q : Addr) (as bs : List Addr) : (as ++ q :: p :: bs).Perm (p :: (as ++ q :: bs)) :=
  ((List.Perm.swap p q bs).append_left as).trans List.perm_middle

theorem erase_split {as bs : List Addr} (hnd : (as ++ q :: bs).Nodup) : (as ++ q :: bs).erase q = as ++ bs := by
  rw [List.erase_append_right _ (nodup_split hnd).2.2.1, List.erase_cons_head]

/-! ## One operation -/

/-- One list is changed, with nodes that no other list holds. -/
theorem DlistsHold.put (hs : DlistsHold s A) (hys : Strung h' ys) (hw : Confined dlistLinks s.heap h' touched)
    (hsub : ys ⊆ touched) (hfree : ∀ a ∈ touched, ∀ j, i ≠ j → a ∉ A j) :
    DlistsHold { heap := h', list := Function.update s.list i (dlistOf ys) } (Function.update A i ys) := by
  constructor
  · intro k
    dsimp only
    by_cases hk : k = i
    · rw [hk, Function.update_self, Function.update_self]
    · rw [Function.update_of_ne hk, Function.update_of_ne hk, hs.list]
  · intro k
    by_cases hk : k = i
    · rw [hk, Function.update_self]
      exact hys
    · rw [Function.update_of_ne hk]
      exact ⟨(hs.strung k).seg.within hw fun a ha hat => hfree a hat k (Ne.symm hk) ha, (hs.strung k).nodup⟩
  · intro k m hkm a ha
    by_cases hk : k = i
    · rw [hk, Function.update_self] at ha
      rw [Function.update_of_ne (hk ▸ hkm.symm)]
      exact hfree a (hsub ha) m (hk ▸ hkm)
    · rw [Function.update_of_ne hk] at ha
      by_cases hm : m = i
      · rw [hm, Function.update_self]
        exact fun hay => hfree a (hsub hay) k (Ne.symm hk) ha
      · rw [Function.update_of_ne hm]
        exact hs.disjoint k m hkm a ha

/-- A run of one operation that ends well: what it gives back, and the sequences it leaves. -/
def Comes (f : Nat → Exec (DlistOut × Dlists α)) (s : Dlists α) (r : DlistOut × (Nat → List Addr)) : Prop :=
  ∃ s', Returns f (r.1, s') ∧ DlistsHold s' r.2 ∧ dataAt s'.heap = dataAt s.heap

theorem Makes.comes {x : Exec (Dlist × Heap (DlistNode α))} (hm : Makes x s.heap touched ys) (hs : DlistsHold s A)
    (hsub : ys ⊆ touched) (hfree : ∀ a ∈ touched, ∀ j, i ≠ j → a ∉ A j) :
    Comes (fun _ => do .ok (s.put i (← x))) s (.none, Function.update A i ys) := by
  obtain ⟨h', rfl, hys, hw⟩ := hm
  exact ⟨_, returns_ok _, hs.put hys hw hsub hfree, dataAt_within hw⟩

theorem DlistsHold.others (hs : DlistsHold s A) (i : Nat) : ∀ a ∈ A i, ∀ j, i ≠ j → a ∉ A j :=
  fun a ha j hij => hs.disjoint i j hij a ha

theorem DlistsHold.others_cons (hs : DlistsHold s A) (i : Nat) (hp : ∀ j, p ∉ A j) :
    ∀ a ∈ p :: A i, ∀ j, i ≠ j → a ∉ A j :=
  List.forall_mem_cons.mpr ⟨fun j _ => hp j, hs.others i⟩

/-- An operation that adds a node. -/
theorem Makes.comes_add {x : Exec (Dlist × Heap (DlistNode α))} (hm : Makes x s.heap (p :: A i) ys)
    (hs : DlistsHold s A) (hp : ∀ j, p ∉ A j) (hsub : ys ⊆ p :: A i) :
    Comes (fun _ => do .ok (s.put i (← x))) s (.none, Function.update A i ys) :=
  hm.comes hs hsub (hs.others_cons i hp)

theorem dlistStep_push (hs : DlistsHold s A) (hp : (dataAt s.heap p).isSome) (hfree : ∀ j, p ∉ A j) :
    Comes (fun n => dlistStep n (.push i p) s) s (dlistSpec (dataAt s.heap) A (.push i p)) := by
  have hm := dlistPush_spec (hs.strung i) (dataAt_isSome ▸ hp) (hfree i)
  rw [← hs.list i] at hm
  refine hm.comes_add hs hfree fun a ha => ?_
  rcases List.mem_append.mp ha with ha | ha
  · exact List.mem_cons_of_mem p ha
  · exact List.mem_singleton.mp ha ▸ List.mem_cons_self

theorem dlistStep_unshift (hs : DlistsHold s A) (hp : (dataAt s.heap p).isSome) (hfree : ∀ j, p ∉ A j) :
    Comes (fun n => dlistStep n (.unshift i p) s) s (dlistSpec (dataAt s.heap) A (.unshift i p)) := by
  have hm := dlistUnshift_spec (hs.strung i) (dataAt_isSome ▸ hp) (hfree i)
  rw [← hs.list i] at hm
  exact hm.comes_add hs hfree fun a ha => ha

theorem dlistStep_addAfter (hs : DlistsHold s A) (hp : (dataAt s.heap p).isSome) (hfree : ∀ j, p ∉ A j)
    (hq : q ∈ A i) : Comes (fun n => dlistStep n (.addAfter i p q) s) s
      (dlistSpec (dataAt s.heap) A (.addAfter i p q)) := by
  obtain ⟨as, bs, hsplit⟩ := List.append_of_mem hq
  have hst := hs.strung i
  rw [hsplit] at hst
  have hm := dlistAddAfter_spec hst (dataAt_isSome ▸ hp) (hsplit ▸ hfree i)
  have hsub : insertBehind p q (A i) ⊆ p :: A i := by
    rw [hsplit, insertBehind_split hst.nodup]
    exact (perm_behind p q as bs).subset
  rw [← insertBehind_split hst.nodup, ← hsplit, ← hs.list i] at hm
  exact hm.comes_add hs hfree hsub

theorem dlistStep_addBefore (hs : DlistsHold s A) (hp : (dataAt s.heap p).isSome) (hfree : ∀ j, p ∉ A j)
    (hq : q ∈ A i) : Comes (fun n => dlistStep n (.addBefore i p q) s) s
      (dlistSpec (dataAt s.heap) A (.addBefore i p q)) := by
  obtain ⟨as, bs, hsplit⟩ := List.append_of_mem hq
  have hst := hs.strung i
  rw [hsplit] at hst
  have hm := dlistAddBefore_spec hst (dataAt_isSome ▸ hp) (hsplit ▸ hfree i)
  have hsub : insertBefore p q (A i) ⊆ p :: A i := by
    rw [hsplit, insertBefore_split hst.nodup]
    exact List.perm_middle.subset
  rw [← insertBefore_split hst.nodup, ← hsplit, ← hs.list i] at hm
  exact hm.comes_add hs hfree hsub

theorem dlistStep_remove (hs : DlistsHold s A) (hp : p ∈ A i) :
    Comes (fun n => dlistStep n (.remove i p) s) s (dlistSpec (dataAt s.heap) A (.remove i p)) := by
  obtain ⟨as, bs, hsplit⟩ := List.append_of_mem hp
  have hst := hs.strung i
  rw [hsplit] at hst
  have hm := dlistRemove_spec hst
  rw [← erase_split hst.nodup, ← hsplit, ← hs.list i] at hm
  exact hm.comes hs List.erase_subset (hs.others i)

theorem dlistStep_swap {p1 p2 : Addr} (hs : DlistsHold s A) (h1 : p1 ∈ A i) (h2 : p2 ∈ A i) :
    Comes (fun n => dlistStep n (.swap i p1 p2) s) s (dlistSpec (dataAt s.heap) A (.swap i p1 p2)) := by
  have hm := dlistSwap_spec (hs.strung i) h1 h2
  rw [← hs.list i] at hm
  refine hm.comes hs (fun a ha => ?_) (hs.others i)
  obtain ⟨b, hb, rfl⟩ := List.mem_map.mp ha
  exact swap_mem h1 h2 hb

theorem DlistsHold.init (hs : DlistsHold s A) (i : Nat) :
    DlistsHold { heap := s.heap, list := Function.update s.list i dlistInit } (Function.update A i []) := by
  have hempty : Strung s.heap [] := ⟨trivial, List.nodup_nil⟩
  exact hs.put hempty (Confined.refl s.heap []) (List.Subset.refl []) fun _ ha => (List.not_mem_nil ha).elim

/-- Two lists become one: the first is left without nodes. -/
theorem DlistsHold.putTwo {src dst : Nat} (hs : DlistsHold s A) (hys : Strung h' ys)
    (hw : Confined dlistLinks s.heap h' ys) (hmem : ∀ a ∈ ys, a ∈ A src ∨ a ∈ A dst) :
    DlistsHold (s.putTwo src dst (dlistInit, dlistOf ys, h')).2
      (Function.update (Function.update A src []) dst ys) := by
  refine (hs.init src).put hys hw (List.Subset.refl ys) fun a ha j hj => ?_
  by_cases hsrc : j = src
  · rw [hsrc, Function.update_self]
    exact List.not_mem_nil
  · rw [Function.update_of_ne hsrc]
    rcases hmem a ha with ha | ha
    · exact hs.disjoint src j (Ne.symm hsrc) a ha
    · exact hs.disjoint dst j hj a ha

theorem dlistStep_moveHead {src dst : Nat} (hs : DlistsHold s A) (hne : src ≠ dst) :
    Comes (fun n => dlistStep n (.moveHead src dst) s) s (dlistSpec (dataAt s.heap) A (.moveHead src dst)) := by
  obtain ⟨h', hrun, hys, hw⟩ := dlistMoveHead_spec (hs.strung src) (hs.strung dst) (hs.disjoint src dst hne)
  refine ⟨_, returns_const ?_, hs.putTwo hys hw fun a ha => List.mem_append.mp ha, dataAt_within hw⟩
  simp only [hs.list, hrun]
  rfl

theorem dlistStep_moveTail {src dst : Nat} (hs : DlistsHold s A) (hne : src ≠ dst) :
    Comes (fun n => dlistStep n (.moveTail src dst) s) s (dlistSpec (dataAt s.heap) A (.moveTail src dst)) := by
  obtain ⟨h', hrun, hys, hw⟩ := dlistMoveTail_spec (hs.strung src) (hs.strung dst) (hs.disjoint src dst hne)
  refine ⟨_, returns_const ?_, hs.putTwo hys hw fun a ha => (List.mem_append.mp ha).symm, dataAt_within hw⟩
  simp only [hs.list, hrun]
  rfl

theorem dlistStep_findDelete (hs : DlistsHold s A) (pred : α → Bool) :
    Comes (fun n => dlistStep n (.findDelete i pred) s) s (dlistSpec (dataAt s.heap) A (.findDelete i pred)) := by
  have hfind := dlistFind_spec (hs.strung i) pred
  rw [← hs.list i] at hfind
  cases hp : (A i).find? fun a => (dataAt s.heap a).any pred with
  | none =>
    have herase : (A i).eraseP (fun a => (dataAt s.heap a).any pred) = A i :=
      List.eraseP_of_forall_not (List.find?_eq_none.mp hp)
    have hput := hs.put (hs.strung i) (Confined.refl s.heap (A i)) (List.Subset.refl (A i)) (hs.others i)
    rw [hp] at hfind
    rw [dlistSpec, hp, herase]
    refine ⟨_, Returns.bind (a := (none, s.list i, s.heap)) (hfind.bind (returns_ok _)) (returns_ok _), ?_, rfl⟩
    rw [hs.list i]
    exact hput
  | some p =>
    obtain ⟨hpred, as, bs, hsplit, hbefore⟩ := List.find?_eq_some_iff_append.mp hp
    have herase : (A i).eraseP (fun a => (dataAt s.heap a).any pred) = as ++ bs := by
      have hfirst : ((p :: bs).eraseP fun a => (dataAt s.heap a).any pred) = bs := List.eraseP_cons_of_pos hpred
      rw [hsplit, List.eraseP_append_right _ fun a ha => by simpa using hbefore a ha, hfirst]
    have hst := hs.strung i
    rw [hsplit] at hst
    obtain ⟨h', hrun, hys, hw⟩ := dlistDelete_spec hst
    rw [← hsplit, ← hs.list i] at hrun
    rw [← hsplit] at hw
    have hsub : as ++ bs ⊆ A i := hsplit ▸ (List.sublist_cons_self p bs).append_left as |>.subset
    rw [hp] at hfind
    rw [dlistSpec, hp, herase]
    refine ⟨_, Returns.bind (a := (some p, dlistOf (as ++ bs), h')) (hfind.bind (returns_const ?_)) (returns_ok _),
      hs.put hys hw hsub (hs.others i), dataAt_within hw⟩
    dsimp only
    rw [hrun, ok_bind]

/-- Each operation does to the lists what it does to the sequences. -/
theorem dlistStep_comes {op : DlistOp α} (hs : DlistsHold s A) (hop : DlistLegal (dataAt s.heap) A op) :
    Comes (fun n => dlistStep n op s) s (dlistSpec (dataAt s.heap) A op) := by
  cases op with
  | init i => exact ⟨_, returns_ok _, hs.init i, rfl⟩
  | push i p => exact dlistStep_push hs hop.1 hop.2
  | unshift i p => exact dlistStep_unshift hs hop.1 hop.2
  | addAfter i p after => exact dlistStep_addAfter hs hop.1 hop.2.1 hop.2.2
  | addBefore i p before => exact dlistStep_addBefore hs hop.1 hop.2.1 hop.2.2
  | remove i p => exact dlistStep_remove hs hop
  | swap i p1 p2 => exact dlistStep_swap hs hop.1 hop.2
  | moveHead src dst => exact dlistStep_moveHead hs hop
  | moveTail src dst => exact dlistStep_moveTail hs hop
  | findDelete i pred => exact dlistStep_findDelete hs pred
  | find i pred => exact ⟨s, (hs.list i ▸ dlistFind_spec (hs.strung i) pred).bind (returns_ok _), hs, rfl⟩
  | length i => exact ⟨s, (hs.list i ▸ dlistLength_spec (hs.strung i)).bind (returns_ok _), hs, rfl⟩
  | down i => exact ⟨s, (hs.list i ▸ dlistForeachDown_spec (hs.strung i)).bind (returns_ok _), hs, rfl⟩
  | up i => exact ⟨s, (hs.list i ▸ dlistForeachUp_spec (hs.strung i)).bind (returns_ok _), hs, rfl⟩

/-! ## Runs -/

/-- A run gives what the same operations give on the sequences, and leaves the lists linked through them, with what
the nodes carry as it was. -/
theorem dlistRun_lists {ops : List (DlistOp α)} (hs : DlistsHold s A) (hops : DlistsLegal (dataAt s.heap) ops A) :
    ∃ s', Returns (fun n => dlistRun n ops s) ((dlistSpecRun (dataAt s.heap) ops A).1, s') ∧
      DlistsHold s' (dlistSpecRun (dataAt s.heap) ops A).2 ∧ dataAt s'.heap = dataAt s.heap := by
  induction ops generalizing s A with
  | nil => exact ⟨s, returns_ok _, hs, rfl⟩
  | cons op ops ih =>
    obtain ⟨s₁, hstep, hs₁, hdata⟩ := dlistStep_comes hs hops.1
    have hops₁ : DlistsLegal (dataAt s₁.heap) ops (dlistSpec (dataAt s.heap) A op).2 := hdata ▸ hops.2
    obtain ⟨s₂, hrun, hs₂, hdata₂⟩ := ih hs₁ hops₁
    rw [hdata] at hrun hs₂
    exact ⟨s₂, hstep.bind (hrun.bind (returns_ok _)), hs₂, hdata₂.trans hdata⟩

theorem dlistsHold_init (h : Heap (DlistNode α)) :
    DlistsHold { heap := h, list := fun _ => dlistInit } fun _ => [] :=
  ⟨fun _ => rfl, fun _ => ⟨trivial, List.nodup_nil⟩, fun _ _ _ _ ha => (List.not_mem_nil ha).elim⟩

theorem dlistRun_lists_swap :
    ∃ s', Returns (fun n => dlistRun n [.push 0 7, .push 0 8, .swap 0 7 8, .moveHead 0 1, .up 1]
      (Dlists.mk (fun a => some (DlistNode.mk none none a)) fun _ => dlistInit))
        ([.none, .none, .none, .none, .nodes [7, 8]], s') ∧ s'.list 1 = ⟨some 8, some 7⟩ := by
  have hlegal : DlistsLegal (dataAt fun a => some (DlistNode.mk none none a))
      [.push 0 7, .push 0 8, .swap 0 7 8, .moveHead 0 1, .up 1] fun _ => [] := by
    refine ⟨⟨rfl, fun _ => List.not_mem_nil⟩, ⟨rfl, fun j => ?_⟩, ⟨?_, ?_⟩, Nat.zero_ne_one, trivial, trivial⟩
    · show 8 ∉ Function.update (fun _ => []) 0 [7] j
      by_cases hj : j = 0
      · rw [hj, Function.update_self]
        decide
      · rw [Function.update_of_ne hj]
        exact List.not_mem_nil
    · show 7 ∈ [7, 8]
      decide
    · show 8 ∈ [7, 8]
      decide
  obtain ⟨s', hrun, hs, -⟩ := dlistRun_lists (dlistsHold_init fun a => some (DlistNode.mk none none a)) hlegal
  exact ⟨s', hrun, hs.list 1⟩

end Dirlist
