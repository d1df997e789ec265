import Dirlist.Xml.Comments
import Dirlist.Xml.Content
import Dirlist.Xml.Nesting

/-! The tree of `xml_read_tree` as it grows: each step of the callback puts a node to the place where the next one
goes, below the element that is open, and leaves all others as they were. -/

namespace Dirlist
open Run Ring Nodes

def treeLinks (nodes : Heap XmlNode) : Nodes.Links Addr where
  next a := (nodes a).bind XmlNode.next
  children a := (nodes a).bind XmlNode.children
  parent a := (nodes a).bind XmlNode.parent

/-- The nodes of a forest are these elements, with texts between them. -/
inductive HoldsElements (nodes : Heap XmlNode) : Forest Addr → Forest (Bytes × Dict Bytes Bytes) → Prop
  | nil : HoldsElements nodes .nil .nil
  | text {a : Addr} {x : XmlNode} {rest : Forest Addr} {E : Forest (Bytes × Dict Bytes Bytes)} :
    nodes a = some x → x.type = .text → HoldsElements nodes rest E → HoldsElements nodes (.node a .nil rest) E
  | element {a : Addr} {x : XmlNode} {kids rest : Forest Addr} {name : Bytes} {attrs : Dict Bytes Bytes}
    {K E : Forest (Bytes × Dict Bytes Bytes)} :
    nodes a = some x → x.type = .element → x.name = some name → x.attributes = some attrs → HoldsElements nodes kids K →
      HoldsElements nodes rest E → HoldsElements nodes (.node a kids rest) (.node (name, attrs) K E)

variable {nodes nodes' : Heap XmlNode} {par head p : Option Addr} {f : Forest Addr}
  {E K : Forest (Bytes × Dict Bytes Bytes)} {slot place : XmlSlot} {c : Addr} {x : XmlNode} {t t' t₁ t₂ : XmlTree}

theorem HoldsElements.congr (h : HoldsElements nodes f E) (heq : ∀ a ∈ f.preorder, nodes' a = nodes a) :
    HoldsElements nodes' f E := by
  induction h with
  | nil => exact .nil
  | text hx htype _ ih =>
    refine .text ((heq _ List.mem_cons_self).trans hx) htype (ih fun a ha => ?_)
    exact heq a (List.mem_cons_of_mem _ (List.mem_append_right _ ha))
  | element hx htype hname hattrs _ _ ihk ihr =>
    refine .element ((heq _ List.mem_cons_self).trans hx) htype hname hattrs (ihk fun a ha => ?_) (ihr fun a ha => ?_)
    · exact heq a (List.mem_cons_of_mem _ (List.mem_append_left _ ha))
    · exact heq a (List.mem_cons_of_mem _ (List.mem_append_right _ ha))

theorem linked_congr (h : (treeLinks nodes).Linked par head f) (heq : ∀ a ∈ f.preorder, nodes' a = nodes a) :
    (treeLinks nodes').Linked par head f := by
  refine h.congr fun a ha => ?_
  simp only [treeLinks, heq a ha, and_self]

/-! ## A pointer in a node -/

namespace XmlSlot

def read : XmlSlot → XmlNode → Option Addr
  | children _, x => x.children
  | next _, x => x.next

def write (p : Option Addr) : XmlSlot → XmlNode → XmlNode
  | children _, x => { x with children := p }
  | next _, x => { x with next := p }

/-- The nodes with `p` at a place. -/
def put (nodes : Heap XmlNode) (p : Option Addr) (slot : XmlSlot) : Heap XmlNode := upd nodes slot.addr (slot.write p)

@[simp] theorem write_write (p q : Option Addr) (x : XmlNode) : slot.write q (slot.write p x) = slot.write q x := by
  cases slot <;> rfl

theorem write_read (x : XmlNode) : slot.write (slot.read x) x = x := by cases slot <;> rfl

theorem get_of (h : nodes slot.addr = some x) : slot.get nodes = .ok (slot.read x) := by
  cases slot with
  | children a =>
    have h : nodes a = some x := h
    simp only [get, load, h, ok_bind, read]
  | next a =>
    have h : nodes a = some x := h
    simp only [get, load, h, ok_bind, read]

theorem set_eq (h : (nodes slot.addr).isSome) (p : Option Addr) : slot.set nodes p = .ok (slot.put nodes p) := by
  cases slot with
  | children a => exact modify_eq h _
  | next a => exact modify_eq h _

theorem put_self (p : Option Addr) : slot.put nodes p slot.addr = (nodes slot.addr).map (slot.write p) := by
  rw [put, upd, Function.update_self]

theorem put_of_ne (hc : c ≠ slot.addr) (p : Option Addr) : slot.put nodes p c = nodes c := upd_of_ne _ hc

theorem put_isSome (p : Option Addr) : (slot.put nodes p c).isSome = (nodes c).isSome := upd_isSome _

/-- Nothing changes where nothing is put in the place of nothing. -/
theorem put_none (h : slot.get nodes = .ok none) : slot.put nodes none = nodes := by
  funext c
  by_cases hc : c = slot.addr
  · subst hc
    rw [put_self]
    cases hx : nodes slot.addr with
    | none => rfl
    | some x =>
      rw [get_of hx] at h
      have hread : slot.read x = none := Except.ok.inj h
      rw [Option.map_some, ← hread, write_read]
  · exact put_of_ne hc none

/-- What was put first makes no difference. -/
theorem put_congr {q : Option Addr} (h : nodes' c = slot.put nodes q c) : slot.put nodes' p c = slot.put nodes p c := by
  by_cases hc : c = slot.addr
  · subst hc
    rw [put_self, h, put_self, put_self, Option.map_map]
    congr 1
    funext x
    exact write_write q p x
  · rw [put_of_ne hc, h, put_of_ne hc, put_of_ne hc]

end XmlSlot

/-! ## A tree that grows -/

/-- A new node, with a pointer to it. -/
def XmlTree.add (t : XmlTree) (x : XmlNode) (place : XmlSlot) : XmlTree :=
  { t.alloc x with nodes := place.put (t.alloc x).nodes (some t.brk) }

/-- The next node goes to `place`, where there is nothing yet. -/
structure Building (t : XmlTree) (place : XmlSlot) : Prop where
  fresh : ∀ c, t.brk ≤ c → t.nodes c = none
  parent : (t.nodes t.parent).isSome
  ptr : (t.nodes t.ptr.addr).isSome
  there : (t.nodes place.addr).isSome
  empty : place.get t.nodes = .ok none
  next : readNodeNext t = .ok { t with ptr := place }

/-- There is a forest at `place`, of nodes that are new. All others are as they were. -/
structure Grown (t : XmlTree) (place : XmlSlot) (E : Forest (Bytes × Dict Bytes Bytes)) (t' : XmlTree) : Prop where
  parent : t'.parent = t.parent
  stack : t'.stack = t.stack
  brk : t.brk ≤ t'.brk
  fresh : ∀ c, t'.brk ≤ c → t'.nodes c = none
  ptr : (t'.nodes t'.ptr.addr).isSome
  tree : ∃ head f, (∀ c < t.brk, t'.nodes c = place.put t.nodes head c) ∧
    (treeLinks t'.nodes).Linked (some t.parent) head f ∧ (∀ c ∈ f.preorder, t.brk ≤ c) ∧ HoldsElements t'.nodes f E

/-- A node has been put to `place`, with a forest in it, and `ptr` points there. -/
structure Put (t : XmlTree) (place : XmlSlot) (x : XmlNode) (f : Forest Addr) (t' : XmlTree) : Prop where
  parent : t'.parent = t.parent
  stack : t'.stack = t.stack
  ptr : t'.ptr = place
  brk : t.brk < t'.brk
  fresh : ∀ c, t'.brk ≤ c → t'.nodes c = none
  below : ∀ c < t.brk, t'.nodes c = place.put t.nodes (some t.brk) c
  node : t'.nodes t.brk = some x
  up : x.parent = some t.parent
  next : x.next = none
  linked : (treeLinks t'.nodes).Linked (some t.brk) x.children f
  new : ∀ c ∈ f.preorder, t.brk < c ∧ (t'.nodes c).isSome

theorem HoldsElements.isSome (h : HoldsElements nodes f E) : ∀ a ∈ f.preorder, (nodes a).isSome := by
  induction h with
  | nil => exact fun a ha => (List.not_mem_nil ha).elim
  | @text b x rest E hx _ _ ih =>
    intro a ha
    rcases List.mem_cons.mp ha with rfl | ha
    · exact Option.isSome_of_eq_some hx
    · exact ih a ha
  | @element b x kids rest name attrs K E hx _ _ _ _ _ ihk ihr =>
    intro a ha
    rcases List.mem_cons.mp ha with rfl | ha
    · exact Option.isSome_of_eq_some hx
    · rcases List.mem_append.mp ha with ha | ha
      · exact ihk a ha
      · exact ihr a ha

theorem lt_of_isSome {brk : Addr} (hfresh : ∀ c, brk ≤ c → nodes c = none) (h : (nodes c).isSome) : c < brk := by
  by_contra hle
  rw [hfresh c (Nat.le_of_not_lt hle)] at h
  cases h

theorem XmlTree.add_below (hc : c < t.brk) : (t.add x place).nodes c = place.put t.nodes (some t.brk) c := by
  have halloc : (t.alloc x).nodes c = t.nodes c := Function.update_of_ne (Nat.ne_of_lt hc) _ _
  by_cases hplace : c = place.addr
  · subst hplace
    rw [XmlTree.add]
    dsimp only
    rw [XmlSlot.put_self, XmlSlot.put_self, halloc]
  · rw [XmlTree.add]
    dsimp only
    rw [XmlSlot.put_of_ne hplace, XmlSlot.put_of_ne hplace, halloc]

section Add
variable (hfresh : ∀ c, t.brk ≤ c → t.nodes c = none) (hthere : (t.nodes place.addr).isSome)

include hfresh in
theorem XmlTree.alloc_isSome (h : (t.nodes c).isSome) : (t.alloc x).nodes c = t.nodes c :=
  Function.update_of_ne (Nat.ne_of_lt (lt_of_isSome hfresh h)) _ _

include hfresh hthere in
theorem XmlTree.add_self : (t.add x place).nodes t.brk = some x := by
  have hne : t.brk ≠ place.addr := (Nat.ne_of_lt (lt_of_isSome hfresh hthere)).symm
  rw [XmlTree.add]
  dsimp only
  rw [XmlSlot.put_of_ne hne]
  exact Function.update_self _ _ _

include hfresh hthere in
theorem XmlTree.add_fresh (hc : t.brk + 1 ≤ c) : (t.add x place).nodes c = none := by
  have hne : c ≠ place.addr := by
    rintro rfl
    exact absurd (lt_of_isSome hfresh hthere) (Nat.not_lt.mpr (Nat.le_of_succ_le hc))
  rw [XmlTree.add]
  dsimp only
  rw [XmlSlot.put_of_ne hne]
  exact (Function.update_of_ne (Nat.ne_of_gt hc) _ _).trans (hfresh c (Nat.le_of_succ_le hc))

include hfresh hthere in
theorem XmlTree.set_alloc : place.set (t.alloc x).nodes (some t.brk) = .ok (t.add x place).nodes := by
  apply XmlSlot.set_eq
  rw [XmlTree.alloc_isSome hfresh hthere]
  exact hthere

end Add

theorem Building.lt (h : Building t place) : place.addr < t.brk := lt_of_isSome h.fresh h.there

theorem Building.grown (h : Building t place) : Grown t place .nil t where
  parent := rfl
  stack := rfl
  brk := Nat.le_refl _
  fresh := h.fresh
  ptr := h.ptr
  tree := by
    refine ⟨none, .nil, fun c _ => ?_, .nil _, fun _ hc => (List.not_mem_nil hc).elim, .nil⟩
    rw [XmlSlot.put_none h.empty]

/-- Behind a node the next one goes to its sibling. -/
theorem Put.building (h : Put t place x f t') (ht : Building t place) : Building t' (.next t.brk) := by
  obtain ⟨y, hy⟩ := Option.isSome_iff_exists.mp ht.there
  have hplace : t'.nodes place.addr = some (place.write (some t.brk) y) := by
    rw [h.below _ ht.lt, XmlSlot.put_self, hy, Option.map_some]
  have hread : place.read (place.write (some t.brk) y) = some t.brk := by cases place <;> rfl
  refine ⟨h.fresh, ?_, ?_, Option.isSome_of_eq_some h.node, ?_, ?_⟩
  · rw [h.parent, h.below _ (lt_of_isSome ht.fresh ht.parent), XmlSlot.put_isSome]
    exact ht.parent
  · rw [h.ptr]
    exact Option.isSome_of_eq_some hplace
  · rw [@XmlSlot.get_of t'.nodes (.next t.brk) x h.node]
    exact congrArg Except.ok h.next
  · rw [readNodeNext, h.ptr, XmlSlot.get_of hplace, ok_bind, hread]

/-- A node, and what is behind it. -/
theorem Put.grown {E' : Forest (Bytes × Dict Bytes Bytes)} (h : Put t place x f t₁)
    (hE : Grown t₁ (.next t.brk) E t')
    (hholds : ∀ y g, t'.nodes t.brk = some { x with next := y } → (∀ c ∈ f.preorder, t'.nodes c = t₁.nodes c) →
      HoldsElements t'.nodes g E → HoldsElements t'.nodes (.node t.brk f g) E') : Grown t place E' t' := by
  obtain ⟨head, g, hbelow, hlinked, hnew, hrest⟩ := hE.tree
  have hself : t'.nodes t.brk = some { x with next := head } := by
    have hput := @XmlSlot.put_self t₁.nodes (.next t.brk) head
    rw [hbelow _ h.brk]
    exact hput.trans (by rw [XmlSlot.addr, h.node]; rfl)
  have hkids : ∀ c ∈ f.preorder, t'.nodes c = t₁.nodes c := by
    intro c hc
    obtain ⟨hlt, hsome⟩ := h.new c hc
    rw [hbelow c (lt_of_isSome h.fresh hsome)]
    exact XmlSlot.put_of_ne (Nat.ne_of_gt hlt) _
  refine ⟨hE.parent.trans h.parent, hE.stack.trans h.stack, (Nat.le_of_lt h.brk).trans hE.brk, hE.fresh, hE.ptr, ?_⟩
  refine ⟨some t.brk, .node t.brk f g, ?_, .node ?_ ?_ ?_, ?_, hholds head g hself hkids hrest⟩
  · intro c hc
    rw [hbelow c (hc.trans h.brk), XmlSlot.put_of_ne (Nat.ne_of_lt hc), h.below c hc]
  · simp only [treeLinks, hself, Option.bind_some, h.up]
  · have hchildren : (treeLinks t'.nodes).children t.brk = x.children := by
      simp only [treeLinks, hself, Option.bind_some]
    rw [hchildren]
    exact linked_congr h.linked hkids
  · have hnext : (treeLinks t'.nodes).next t.brk = head := by simp only [treeLinks, hself, Option.bind_some]
    rw [hnext, ← h.parent]
    exact hlinked
  · intro c hc
    rcases List.mem_cons.mp hc with rfl | hc
    · exact Nat.le_refl _
    · rcases List.mem_append.mp hc with hc | hc
      · exact Nat.le_of_lt (h.new c hc).1
      · exact (Nat.le_of_lt h.brk).trans (hnew c hc)

theorem Put.grown_element {name : Bytes} {attrs : Dict Bytes Bytes} (h : Put t place x f t₁)
    (htype : x.type = .element) (hname : x.name = some name) (hattrs : x.attributes = some attrs)
    (hK : HoldsElements t₁.nodes f K) (hE : Grown t₁ (.next t.brk) E t') : Grown t place (.node (name, attrs) K E) t' :=
  h.grown hE fun _ _ hself hkids hrest => .element hself htype hname hattrs (hK.congr hkids) hrest

/-! ## A text -/

/-- Blanks are no text. -/
theorem readNodeText_blank (hparent : (t.nodes t.parent).isSome) {name : Option Bytes}
    (hblank : (name.getD []).drop (scanWhitenskip (name.getD [])) = []) : readNodeText t name = .ok t := by
  obtain ⟨y, hy⟩ := Option.isSome_iff_exists.mp hparent
  rw [readNodeText]
  simp only [load, hy, ok_bind, hblank]
  rw [if_neg fun h => h.1 rfl]

/-- Behind the first child of an element there is no text. -/
theorem readNodeText_later (hparent : (t.nodes t.parent).isSome) (hptr : t.ptr ≠ .children t.parent)
    (name : Option Bytes) : readNodeText t name = .ok t := by
  obtain ⟨y, hy⟩ := Option.isSome_iff_exists.mp hparent
  rw [readNodeText]
  simp only [load, hy, ok_bind]
  rw [if_neg fun h => hptr h.2.2]

/-- A text goes in front of what is at `ptr`. -/
theorem readNodeText_add (hfresh : ∀ c, t.brk ≤ c → t.nodes c = none) {y : XmlNode}
    (hparent : t.nodes t.parent = some y) (htype : y.type = .element) (hptr : t.ptr = .children t.parent) {w : Bytes}
    (hw : w.drop (scanWhitenskip w) ≠ []) :
    ∃ x, readNodeText t (some w) = .ok (t.add x t.ptr) ∧ x.type = .text ∧ x.parent = some t.parent ∧
      x.children = none ∧ t.ptr.get t.nodes = .ok x.next := by
  obtain ⟨text, htext⟩ := xmlUnescape_zero (w.drop (scanWhitenskip w))
  have hthere : t.nodes t.ptr.addr = some y := by rw [hptr]; exact hparent
  have hget := XmlSlot.get_of hthere
  refine ⟨{ xmlNewnode .text with name := some text, parent := some t.parent, next := t.ptr.read y }, ?_, rfl, rfl, rfl,
    hget⟩
  rw [readNodeText]
  simp only [load, hparent, ok_bind, Option.getD_some]
  rw [if_pos ⟨hw, htype, hptr⟩, htext, ok_bind, hget, ok_bind]
  exact (congrArg (· >>= _) (XmlTree.set_alloc hfresh (Option.isSome_of_eq_some hthere))).trans rfl

theorem readNodeText_cases (hfresh : ∀ c, t.brk ≤ c → t.nodes c = none) (hparent : (t.nodes t.parent).isSome)
    (w : Bytes) : readNodeText t (some w) = .ok t ∨ (w.drop (scanWhitenskip w) ≠ [] ∧ t.ptr = .children t.parent) ∧
      ∃ x, readNodeText t (some w) = .ok (t.add x t.ptr) ∧ x.type = .text ∧ x.parent = some t.parent ∧
        x.children = none ∧ t.ptr.get t.nodes = .ok x.next := by
  by_cases hw : w.drop (scanWhitenskip w) = []
  · exact .inl (readNodeText_blank hparent hw)
  · by_cases hptr : t.ptr = .children t.parent
    · obtain ⟨y, hy⟩ := Option.isSome_iff_exists.mp hparent
      by_cases htype : y.type = .element
      · exact .inr ⟨⟨hw, hptr⟩, readNodeText_add hfresh hy htype hptr hw⟩
      · left
        rw [readNodeText]
        simp only [load, hy, ok_bind]
        rw [if_neg fun h => htype h.2.1]
    · exact .inl (readNodeText_later hparent hptr _)

/-- A node that has been added where the next one was to go. -/
theorem Building.put (ht : Building t place) (hup : x.parent = some t.parent) (hnext : x.next = none)
    (hchildren : x.children = none) : Put t place x .nil ({ t with ptr := place }.add x place) where
  parent := rfl
  stack := rfl
  ptr := rfl
  brk := Nat.lt_succ_self _
  fresh _ hc := @XmlTree.add_fresh place _ x { t with ptr := place } ht.fresh ht.there hc
  below _ hc := @XmlTree.add_below place _ x { t with ptr := place } hc
  node := @XmlTree.add_self place x { t with ptr := place } ht.fresh ht.there
  up := hup
  next := hnext
  linked := by
    rw [hchildren]
    exact .nil _
  new _ hc := (List.not_mem_nil hc).elim

/-- The text behind the opening tag of an element goes in front of what is still to come. -/
theorem Building.text (ht : Building t place) (hptr : t.ptr = place) {y : XmlNode} (hparent : t.nodes t.parent = some y)
    (htype : y.type = .element) (hplace : place = .children t.parent) (w : Bytes) :
    ∃ t₁ place₁, readNodeText t (some w) = .ok t₁ ∧ Building t₁ place₁ ∧ t₁.parent = t.parent ∧
      (place₁ = .children t.parent → w.drop (scanWhitenskip w) = []) ∧
      ∀ E t', Grown t₁ place₁ E t' → Grown t place E t' := by
  by_cases hw : w.drop (scanWhitenskip w) = []
  · exact ⟨t, place, readNodeText_blank ht.parent hw, ht, rfl, fun _ => hw, fun _ _ => id⟩
  · obtain ⟨x, hadd, hx, hup, hchildren, hget⟩ := readNodeText_add ht.fresh hparent htype (hptr.trans hplace) hw
    rw [hptr, ht.empty] at hget
    have hput := ht.put hup (Except.ok.inj hget).symm hchildren
    have hself : { t with ptr := place } = t := by rw [← hptr]
    rw [hptr] at hadd
    rw [hself] at hput
    refine ⟨_, .next t.brk, hadd, hput.building ht, rfl, (fun h => by cases h), fun E t' hE => ?_⟩
    exact hput.grown hE fun _ _ hnode _ hrest => .text hnode hx hrest

/-- A text that comes late goes in front of the one element that is there, where nothing is lost. -/
theorem Grown.splice (h : Grown t place E t₁) (ht : Building t place) (hptr : t₁.ptr = place) (htype : x.type = .text)
    (hup : x.parent = some t.parent) (hchildren : x.children = none) (hget : place.get t₁.nodes = .ok x.next) :
    Grown t place E (t₁.add x place) := by
  obtain ⟨head, f, hbelow, hlinked, hnew, hholds⟩ := h.tree
  obtain ⟨y, hy⟩ := Option.isSome_iff_exists.mp ht.there
  have hplace : t₁.nodes place.addr = some (place.write head y) := by
    rw [hbelow _ ht.lt, XmlSlot.put_self, hy, Option.map_some]
  have hthere := Option.isSome_of_eq_some hplace
  have hhead : x.next = head := by
    have hread : place.read (place.write head y) = head := by cases place <;> rfl
    rw [XmlSlot.get_of hplace, hread] at hget
    exact (Except.ok.inj hget).symm
  have hnode := @XmlTree.add_self place x t₁ h.fresh hthere
  have hsame : ∀ c ∈ f.preorder, (t₁.add x place).nodes c = t₁.nodes c := by
    intro c hc
    have hne : c ≠ place.addr := Nat.ne_of_gt (Nat.lt_of_lt_of_le ht.lt (hnew c hc))
    rw [XmlTree.add_below (lt_of_isSome h.fresh (hholds.isSome c hc)), XmlSlot.put_of_ne hne]
  refine ⟨h.parent, h.stack, h.brk.trans (Nat.le_succ _), fun c hc => XmlTree.add_fresh h.fresh hthere hc, ?_, ?_⟩
  · show ((t₁.add x place).nodes t₁.ptr.addr).isSome
    rw [XmlTree.add_below (lt_of_isSome h.fresh h.ptr), XmlSlot.put_isSome]
    exact h.ptr
  refine ⟨some t₁.brk, .node t₁.brk .nil f, ?_, .node ?_ ?_ ?_, ?_, .text hnode htype (hholds.congr hsame)⟩
  · intro c hc
    rw [XmlTree.add_below (Nat.lt_of_lt_of_le hc h.brk)]
    exact XmlSlot.put_congr (hbelow c hc)
  · simp only [treeLinks, hnode, Option.bind_some, hup]
  · simp only [treeLinks, hnode, Option.bind_some, hchildren]
    exact .nil _
  · simp only [treeLinks, hnode, Option.bind_some, hhead]
    exact linked_congr hlinked hsame
  · intro c hc
    rcases List.mem_cons.mp hc with rfl | hc
    · exact h.brk
    · exact hnew c hc

/-! ## An element -/

variable {r : XmlReader XmlTree} {n : Bytes} {d : Dict Bytes Bytes}

/-- The node of an element that is opened. -/
def openedNode (t : XmlTree) (n : Bytes) (d : Dict Bytes Bytes) : XmlNode :=
  { xmlNewnode .element with name := some n, parent := some t.parent, attributes := some d }

/-- The tree with an element that has been opened, whose kids come next. -/
def openedTree (t : XmlTree) (place : XmlSlot) (n : Bytes) (d : Dict Bytes Bytes) : XmlTree :=
  { ({ t with ptr := place }).add (openedNode t n d) place with
    parent := t.brk
    ptr := .children t.brk
    stack := ⟨t.parent, place, none, false, false⟩ :: t.stack }

theorem readNodeElement_add (ht : Building r.data place) (hn : 0 ∉ n) (hclose : r.closing = false) :
    readNodeElement r n (some d) = .ok (n,
      if r.selfClosing then ⟨none, false, true, ({ r.data with ptr := place }).add (openedNode r.data n d) place⟩
      else ⟨none, false, false, openedTree r.data place n d⟩) := by
  have hset := @XmlTree.set_alloc place (openedNode r.data n d) { r.data with ptr := place } ht.fresh ht.there
  obtain ⟨attrmap, closing, selfClosing, data⟩ := r
  obtain rfl : closing = false := hclose
  rw [readNodeElement, ht.next, ok_bind]
  dsimp only
  rw [if_neg Bool.false_ne_true, if_pos (.inl rfl), takeWhile_free hn]
  have hnode : place.set ((XmlTree.alloc { data with ptr := place } (openedNode data n d)).nodes) (some data.brk) = _ :=
    hset
  refine (congrArg (fun y => y >>= _) hnode).trans ?_
  cases selfClosing with
  | true => rfl
  | false => rfl

theorem Building.put_opened (ht : Building t place) :
    Put t place (openedNode t n d) .nil (({ t with ptr := place }).add (openedNode t n d) place) := ht.put rfl rfl rfl

theorem Building.opened (ht : Building t place) : Building (openedTree t place n d) (.children t.brk) := by
  have h := @Building.put_opened _ _ n d ht
  have hnode : (openedTree t place n d).nodes t.brk = some (openedNode t n d) := h.node
  have hsome := Option.isSome_of_eq_some hnode
  have hget : XmlSlot.get (openedTree t place n d).nodes (.children t.brk) = .ok none :=
    @XmlSlot.get_of _ (.children t.brk) _ hnode
  refine ⟨h.fresh, hsome, hsome, hsome, hget, ?_⟩
  show (XmlSlot.get (openedTree t place n d).nodes (.children t.brk) >>= _) = _
  rw [hget]
  rfl

/-- The closing tag takes back the reader, with the element behind it. -/
theorem readNodeElement_take (ht : Building t place) (hK : Grown (openedTree t place n d) (.children t.brk) K r.data)
    (hclose : r.closing = true) (hself : r.selfClosing = false) (name : Bytes) (attrs : Option (Dict Bytes Bytes)) :
    ∃ name' t₁ x f, readNodeElement r name attrs = .ok (name', ⟨none, false, false, t₁⟩) ∧ Put t place x f t₁ ∧
      x.type = .element ∧ x.name = some n ∧ x.attributes = some d ∧ HoldsElements t₁.nodes f K := by
  have h := @Building.put_opened _ _ n d ht
  obtain ⟨head, f, hbelow, hlinked, hnew, hholds⟩ := hK.tree
  obtain ⟨y, hy⟩ := Option.isSome_iff_exists.mp hK.ptr
  obtain ⟨ptr, hlast⟩ : ∃ ptr, readNodeNext r.data = .ok { r.data with ptr := ptr } := by
    rw [readNodeNext, XmlSlot.get_of hy, ok_bind]
    cases r.data.ptr.read y with
    | none => exact ⟨_, rfl⟩
    | some a => exact ⟨_, rfl⟩
  have hclosing : ¬(r.closing = false ∨ r.selfClosing = true) := by simp [hclose, hself]
  have hopener : r.data.nodes t.brk = some { openedNode t n d with children := head } := by
    have hput := @XmlSlot.put_self (openedTree t place n d).nodes (.children t.brk) head
    have hnode : (openedTree t place n d).nodes t.brk = some (openedNode t n d) := h.node
    rw [hbelow _ (Nat.lt_succ_self _)]
    exact hput.trans (by rw [XmlSlot.addr, hnode]; rfl)
  refine ⟨if r.closing then 47 :: name else name, { r.data with stack := t.stack, parent := t.parent, ptr := place },
    { openedNode t n d with children := head }, f, ?_, ?_, rfl, rfl, rfl, hholds⟩
  · rw [readNodeElement, hlast, ok_bind]
    dsimp only
    rw [if_neg hclosing, xmlreaderPop]
    dsimp only
    rw [hK.stack]
    rfl
  · refine ⟨rfl, rfl, rfl, Nat.lt_of_lt_of_le (Nat.lt_succ_self _) hK.brk, hK.fresh, ?_, hopener, rfl, rfl, hlinked, ?_⟩
    · intro c hc
      have hopened : (openedTree t place n d).nodes c = place.put t.nodes (some t.brk) c := h.below c hc
      rw [← hopened, ← @XmlSlot.put_of_ne (openedTree t place n d).nodes (.children t.brk) c (Nat.ne_of_lt hc) head]
      exact hbelow c (Nat.lt_succ_of_lt hc)
    · intro c hc
      exact ⟨Nat.lt_of_succ_le (hnew c hc), hholds.isSome c hc⟩

end Dirlist
