import Dirlist.Xml.Tree

/-! `xml_read_tree` on any text: it comes to its end where no tag breaks off and every closing tag has an
open one to close. -/

namespace Dirlist
open Run Ring

/-! ## What the reader can take -/

/-- All tags of a text are whole and nested, with `depth` elements open in front of it. -/
def xmlNests : Nat → Nat → Bytes → Bool
  | 0, _, _ => false
  | n + 1, depth, s =>
    if 60 ∈ s then
      match (s.dropWhile (· ≠ 60)).tail with
      | [] => false
      | c :: u =>
        if c = 33 then if 62 ∈ u then xmlNests n depth (u.dropWhile (· ≠ 62)).tail else true
        else
          let (t, v) := tagAt (if c = 47 then u else c :: u)
          if t.finish = .null ∨ t.attrs.any (fun av => maxSizeKey ≤ av.1.length) then false
          else if c = 63 ∨ t.slash then behind n depth (afterSpace v)
          else if c = 47 then depth ≠ 0 && behind n (depth - 1) ((afterSpace v).dropWhile (· ≠ 60))
          else behind n (depth + 1) ((afterSpace v).dropWhile (· ≠ 60))
    else true
where
  /-- One byte that is left is not looked at any more. -/
  behind (n depth : Nat) (u : Bytes) : Bool := if u.length ≤ 1 then true else xmlNests n depth u

/-! ## The tree -/

/-- A pointer that may be followed. -/
def There (nodes : Heap XmlNode) (p : Option Addr) : Prop := ∀ a ∈ p, (nodes a).isSome

def NodesOk (nodes : Heap XmlNode) : Prop :=
  ∀ a x, nodes a = some x → There nodes x.children ∧ There nodes x.next

def XmlSlot.addr : XmlSlot → Addr
  | .children a => a
  | .next a => a

/-- What a saved reader points to is there, and it was saved by an element that was opened. -/
structure SavedOk (nodes : Heap XmlNode) (f : XmlSaved) : Prop where
  parent : (nodes f.parent).isSome
  ptr : (nodes f.ptr.addr).isSome
  closing : f.closing = false
  selfClosing : f.selfClosing = false

/-- The reader may follow all its pointers, with `depth` elements open. -/
structure TreeOk (depth : Nat) (t : XmlTree) : Prop where
  nodes : NodesOk t.nodes
  parent : (t.nodes t.parent).isSome
  ptr : (t.nodes t.ptr.addr).isSome
  saved : ∀ f ∈ t.stack, SavedOk t.nodes f
  depth : t.stack.length = depth

variable {nodes : Heap XmlNode} {depth : Nat} {t : XmlTree}

theorem isSome_put (a : Addr) (x : XmlNode) {c : Addr} (h : (nodes c).isSome) :
    (Function.update nodes a (some x) c).isSome := by
  rw [Function.update_apply]
  split
  · rfl
  · exact h

theorem There.put {p : Option Addr} (h : There nodes p) (a : Addr) (x : XmlNode) :
    There (Function.update nodes a (some x)) p := fun c hc => isSome_put a x (h c hc)

theorem NodesOk.put (h : NodesOk nodes) {a : Addr} {x : XmlNode} (hchildren : There nodes x.children)
    (hnext : There nodes x.next) : NodesOk (Function.update nodes a (some x)) := by
  intro c y hy
  rw [Function.update_apply] at hy
  split at hy
  · obtain rfl := Option.some.inj hy
    exact ⟨hchildren.put a x, hnext.put a x⟩
  · exact ⟨(h c y hy).1.put a x, (h c y hy).2.put a x⟩

theorem TreeOk.put (h : TreeOk depth t) {a : Addr} {x : XmlNode} (hchildren : There t.nodes x.children)
    (hnext : There t.nodes x.next) (brk : Addr) :
    TreeOk depth { t with nodes := Function.update t.nodes a (some x), brk := brk } where
  nodes := h.nodes.put hchildren hnext
  parent := isSome_put a x h.parent
  ptr := isSome_put a x h.ptr
  saved f hf := {
    parent := isSome_put a x (h.saved f hf).parent
    ptr := isSome_put a x (h.saved f hf).ptr
    closing := (h.saved f hf).closing
    selfClosing := (h.saved f hf).selfClosing }
  depth := h.depth

theorem there_none : There nodes none := fun _ h => by cases h

theorem TreeOk.alloc (h : TreeOk depth t) {x : XmlNode} (hchildren : There t.nodes x.children)
    (hnext : There t.nodes x.next) : TreeOk depth (t.alloc x) := h.put hchildren hnext _

theorem XmlSlot.get_ok (hnodes : NodesOk nodes) {ptr : XmlSlot} (hptr : (nodes ptr.addr).isSome) :
    ∃ p, ptr.get nodes = .ok p ∧ There nodes p := by
  obtain ⟨x, hx⟩ := Option.isSome_iff_exists.mp hptr
  cases ptr with
  | children a => exact ⟨x.children, by rw [get, load, show nodes a = some x from hx]; rfl, (hnodes a x hx).1⟩
  | next a => exact ⟨x.next, by rw [get, load, show nodes a = some x from hx]; rfl, (hnodes a x hx).2⟩

/-- `*ptr = p` in a tree. -/
theorem TreeOk.set (h : TreeOk depth t) {p : Option Addr} (hp : There t.nodes p) :
    ∃ nodes, t.ptr.set t.nodes p = .ok nodes ∧ TreeOk depth { t with nodes := nodes } ∧
      ∀ c, (t.nodes c).isSome → (nodes c).isSome := by
  obtain ⟨x, hx⟩ := Option.isSome_iff_exists.mp h.ptr
  have hset (a : Addr) (f : XmlNode → XmlNode) (ha : t.nodes a = some x) :
      Ring.modify t.nodes a f = .ok (Function.update t.nodes a (some (f x))) := by
    rw [Ring.modify, load, ha, ok_bind, upd, ha, Option.map_some]
  cases hptr : t.ptr with
  | children a =>
    rw [hptr] at hx
    have htree := h.put (a := a) (x := { x with children := p }) hp (h.nodes a x hx).2 t.brk
    exact ⟨_, hset a _ hx, by simpa only [hptr] using htree, fun c => isSome_put a _⟩
  | next a =>
    rw [hptr] at hx
    have htree := h.put (a := a) (x := { x with next := p }) (h.nodes a x hx).1 hp t.brk
    exact ⟨_, hset a _ hx, by simpa only [hptr] using htree, fun c => isSome_put a _⟩

theorem there_alloc (t : XmlTree) (x : XmlNode) : There (t.alloc x).nodes (some t.brk) := by
  intro a ha
  obtain rfl := Option.some.inj ha
  unfold XmlTree.alloc
  dsimp only
  rw [Function.update_self]
  rfl

/-! ## The callback -/

/-- A text puts one more node into the tree, or none. -/
theorem readNodeText_ok (h : TreeOk depth t) (name : Option Bytes) :
    ∃ t', readNodeText t name = .ok t' ∧ TreeOk depth t' := by
  obtain ⟨pnode, hpnode⟩ := Option.isSome_iff_exists.mp h.parent
  have hload : load t.nodes t.parent = .ok pnode := by rw [load, hpnode]
  rw [readNodeText]
  simp only [hload, ok_bind]
  generalize name.getD [] = x
  split_ifs
  · obtain ⟨text, htext⟩ := xmlUnescape_zero (x.drop (scanWhitenskip x))
    obtain ⟨next, hget, hnext⟩ := XmlSlot.get_ok h.nodes h.ptr
    have halloc := h.alloc (x := { xmlNewnode .text with name := some text, parent := some t.parent, next := next })
      there_none hnext
    obtain ⟨nodes, hset, htree, -⟩ := halloc.set (there_alloc t _)
    rw [htext, ok_bind, hget, ok_bind]
    exact ⟨_, by rw [show t.ptr.set _ _ = _ from hset, ok_bind], htree⟩
  · exact ⟨t, rfl, h⟩

theorem readNodeNext_ok (h : TreeOk depth t) :
    ∃ ptr, readNodeNext t = .ok { t with ptr := ptr } ∧ TreeOk depth { t with ptr := ptr } := by
  obtain ⟨p, hget, hp⟩ := XmlSlot.get_ok h.nodes h.ptr
  rw [readNodeNext, hget, ok_bind]
  cases p with
  | none => exact ⟨t.ptr, rfl, h⟩
  | some a => exact ⟨.next a, rfl, { h with ptr := hp a rfl }⟩

variable {r : XmlReader XmlTree}

/-- A new element in the tree, behind the last one of its list. -/
theorem readNodeElement_new (h : TreeOk depth r.data) (hnew : r.closing = false ∨ r.selfClosing = true)
    (name : Bytes) (attrs : Option (Dict Bytes Bytes)) :
    ∃ t a name', TreeOk depth t ∧ (t.nodes a).isSome ∧ readNodeElement r name attrs =
      .ok (name', if r.closing = false ∧ r.selfClosing = false then
        xmlreaderPush { r with attrmap := none, data := t } a
      else { r with attrmap := none, data := t }) := by
  obtain ⟨ptr, hlast, htree⟩ := readNodeNext_ok h
  have halloc := htree.alloc (x := { xmlNewnode .element with
    name := some ((if r.closing then 47 :: name else name).takeWhile (· ≠ 0))
    parent := some r.data.parent, attributes := attrs }) there_none there_none
  obtain ⟨nodes, hset, hdone, hgrows⟩ := halloc.set (there_alloc _ _)
  refine ⟨_, r.data.brk, if r.closing then 47 :: name else name, hdone, hgrows _ (there_alloc _ _ _ rfl), ?_⟩
  rw [readNodeElement, hlast, ok_bind]
  dsimp only
  rw [if_pos hnew, show ptr.set _ _ = _ from hset, ok_bind]

/-- Behind an element: flags and depth. -/
structure Behind (depth : Nat) (closing selfClosing : Bool) (r : XmlReader XmlTree) : Prop where
  tree : TreeOk depth r.data
  closing : r.closing = closing
  selfClosing : r.selfClosing = selfClosing

theorem readNodeElement_self (h : TreeOk depth r.data) (hself : r.selfClosing = true)
    (name : Bytes) (attrs : Option (Dict Bytes Bytes)) :
    ∃ x, readNodeElement r name attrs = .ok x ∧ Behind depth r.closing true x.2 := by
  obtain ⟨t, a, name', htree, -, heq⟩ := readNodeElement_new h (.inr hself) name attrs
  have hflag : ¬(r.closing = false ∧ r.selfClosing = false) := fun hflags => by
    rw [hself] at hflags
    cases hflags.2
  rw [if_neg hflag] at heq
  exact ⟨_, heq, htree, rfl, hself⟩

theorem readNodeElement_open (h : TreeOk depth r.data) (hopen : r.closing = false) (hself : r.selfClosing = false)
    (name : Bytes) (attrs : Option (Dict Bytes Bytes)) :
    ∃ x, readNodeElement r name attrs = .ok x ∧ Behind (depth + 1) false false x.2 := by
  obtain ⟨t, a, name', htree, ha, heq⟩ := readNodeElement_new h (.inl hopen) name attrs
  rw [if_pos ⟨hopen, hself⟩] at heq
  refine ⟨_, heq, ⟨htree.nodes, ha, ha, ?_, ?_⟩, hopen, hself⟩
  · intro f hf
    rcases List.mem_cons.mp hf with rfl | hf
    · exact ⟨htree.parent, htree.ptr, hopen, hself⟩
    · exact htree.saved f hf
  · show t.stack.length + 1 = depth + 1
    rw [htree.depth]

/-- A closing tag takes back the reader that the element saved. -/
theorem readNodeElement_close (h : TreeOk (depth + 1) r.data) (hclose : r.closing = true)
    (hself : r.selfClosing = false)
    (name : Bytes) (attrs : Option (Dict Bytes Bytes)) :
    ∃ x, readNodeElement r name attrs = .ok x ∧ Behind depth false false x.2 := by
  obtain ⟨ptr, hlast, htree⟩ := readNodeNext_ok h
  obtain ⟨f, stack, hstack⟩ := List.exists_cons_of_length_eq_add_one h.depth
  obtain ⟨hf, hsaved⟩ := List.forall_mem_cons.mp (hstack ▸ h.saved)
  have hdepth : stack.length = depth := by
    have hlen := h.depth
    rw [hstack] at hlen
    exact Nat.succ.inj hlen
  have hclosing : ¬(r.closing = false ∨ r.selfClosing = true) := by simp [hclose, hself]
  rw [readNodeElement, hlast, ok_bind]
  dsimp only
  rw [if_neg hclosing, xmlreaderPop]
  dsimp only
  rw [hstack]
  exact ⟨_, rfl, ⟨htree.nodes, hf.parent, hf.ptr, hsaved, hdepth⟩, hf.closing, hf.selfClosing⟩

/-- There is nothing on the stack that a closing tag could take back. -/
theorem readNodeElement_assert (h : TreeOk 0 r.data) (hclose : r.closing = true) (hself : r.selfClosing = false)
    (name : Bytes) (attrs : Option (Dict Bytes Bytes)) : readNodeElement r name attrs = .error .assert := by
  obtain ⟨ptr, hlast, -⟩ := readNodeNext_ok h
  have hstack : r.data.stack = [] := List.length_eq_zero_iff.mp h.depth
  have hclosing : ¬(r.closing = false ∨ r.selfClosing = true) := by simp [hclose, hself]
  rw [readNodeElement, hlast, ok_bind]
  dsimp only
  rw [if_neg hclosing, xmlreaderPop]
  dsimp only
  rw [hstack]
  rfl

theorem goesOn_xmlReadNode : GoesOn xmlReadNode := by
  intro r e x h
  unfold xmlReadNode at h
  split at h
  · cases h
    rfl
  · obtain ⟨t, -, h⟩ := bind_eq_ok h
    cases h
    rfl
  · obtain ⟨⟨name, r'⟩, -, h⟩ := bind_eq_ok h
    cases h
    rfl

/-- The attributes of a tag are put into the map, which has room for names that are not too long. -/
theorem readAttrs_xmlReadNode (avs : List (Bytes × Bytes)) (r : XmlReader XmlTree) (d : Dict Bytes Bytes) :
    (avs.any (fun av => maxSizeKey ≤ av.1.length) = true →
      readAttrs xmlReadNode avs { r with attrmap := some d } = .error .bounds) ∧
    (avs.any (fun av => maxSizeKey ≤ av.1.length) = false →
      ∃ d', readAttrs xmlReadNode avs { r with attrmap := some d } = .ok { r with attrmap := some d' }) := by
  induction avs generalizing d with
  | nil => exact ⟨fun h => (Bool.false_ne_true h).elim, fun _ => ⟨d, rfl⟩⟩
  | cons av avs ih =>
    obtain ⟨attr, val⟩ := av
    have hset : xmlAttrSet (some d) attr val =
        if attr = [] then .ok d else if attr.length < maxSizeKey then .ok (d.set attr val) else .error .bounds := rfl
    have hnext (d' : Dict Bytes Bytes) (h : xmlAttrSet (some d) attr val = .ok d') :
        readAttrs xmlReadNode ((attr, val) :: avs) { r with attrmap := some d } =
          readAttrs xmlReadNode avs { r with attrmap := some d' } := by
      rw [readAttrs]
      dsimp only
      rw [h, ok_bind]
      rfl
    rw [List.any_cons]
    by_cases hlong : maxSizeKey ≤ attr.length
    · have hne : attr ≠ [] := by
        rintro rfl
        exact absurd hlong (by decide)
      rw [if_neg hne, if_neg (Nat.not_lt.mpr hlong)] at hset
      have herror : readAttrs xmlReadNode ((attr, val) :: avs) { r with attrmap := some d } = .error .bounds := by
        rw [readAttrs]
        dsimp only
        rw [hset, error_bind]
      simp [hlong, herror]
    · obtain ⟨d', hd'⟩ : ∃ d', xmlAttrSet (some d) attr val = .ok d' := by
        rw [hset, if_pos (Nat.lt_of_not_le hlong)]
        split_ifs
        · exact ⟨_, rfl⟩
        · exact ⟨_, rfl⟩
      rw [hnext d' hd', decide_eq_false hlong, Bool.false_or]
      exact ih d'

/-! ## Reading on -/

/-- What follows on `y` comes to its end if and only if `b`. -/
def EndsIff (y : Exec (XmlPhase Bytes XmlTree ⊕ XmlEnd × XmlReader XmlTree)) (b : Bool) : Prop :=
  ∃ x, ComesTo (readRound xmlReadNode) y x ∧ ((∃ r', x = .ok (.ended, r')) ↔ b = true)

theorem EndsIff.next {p : XmlPhase Bytes XmlTree} {b : Bool} (h : EndsIff (readRound xmlReadNode p) b) :
    EndsIff (.ok (.inl p)) b := by
  obtain ⟨x, hx, hb⟩ := h
  exact ⟨x, hx.next, hb⟩

theorem endsIff_ended (r : XmlReader XmlTree) : EndsIff (.ok (.inr (.ended, r))) true :=
  ⟨_, .done, iff_of_true ⟨r, rfl⟩ rfl⟩

theorem endsIff_null (r : XmlReader XmlTree) : EndsIff (.ok (.inr (.null, r))) false :=
  ⟨_, .done, iff_of_false (by rintro ⟨r', hr'⟩; cases hr') Bool.false_ne_true⟩

theorem endsIff_error {e : Fault} (he : e ≠ .fuel) : EndsIff (.error e) false :=
  ⟨_, .error he, iff_of_false (by rintro ⟨r', hr'⟩; cases hr') Bool.false_ne_true⟩

/-- What is left of a text comes to its end as it nests. -/
def NestsFrom (n depth : Nat) (u : Bytes) : Prop := ∀ r : XmlReader XmlTree, TreeOk depth r.data → r.attrmap.isSome →
  EndsIff (readRound xmlReadNode (.tag r u)) (xmlNests n depth u)

variable {n : Nat} {u : Bytes}

theorem readText_xmlReadNode (h : TreeOk depth r.data) (name value : Option Bytes) :
    ∃ t, xmlReadNode r ⟨.text, name, value, none⟩ = .ok (true, name.getD [], { r with data := t }) ∧
      TreeOk depth t := by
  obtain ⟨t, htext, ht⟩ := readNodeText_ok h name
  refine ⟨t, ?_, ht⟩
  rw [xmlReadNode]
  dsimp only
  rw [htext, ok_bind]

/-- The test behind a tag. -/
theorem endsIff_test (h : NestsFrom n depth u) (hr : TreeOk depth r.data) (hmap : r.attrmap.isSome) (tag : Bytes) :
    EndsIff (.ok (.inl (.test r tag u))) (xmlNests.behind n depth u) := by
  apply EndsIff.next
  have hround : readRound xmlReadNode (.test r tag u) = if u.length ≤ 1 then .ok (.inr (.ended, r)) else
      if xmlIsWhitespace tag then .ok (.inl (.tag r u)) else
        xmlReadNode r ⟨.text, none, some tag, none⟩ >>= fun x =>
          if x.1 then .ok (.inl (.tag x.2.2 u)) else .ok (.inr (.ended, x.2.2)) := rfl
  rw [hround, xmlNests.behind]
  by_cases hone : u.length ≤ 1
  · rw [if_pos hone, if_pos hone]
    exact endsIff_ended r
  · rw [if_neg hone, if_neg hone]
    by_cases hblank : xmlIsWhitespace tag
    · rw [if_pos hblank]
      exact (h r hr hmap).next
    · obtain ⟨t, htext, ht⟩ := readText_xmlReadNode hr none (some tag)
      rw [if_neg hblank, htext, ok_bind, if_pos rfl]
      exact EndsIff.next (h _ ht hmap)

/-- The text behind an element, and what follows. -/
theorem endsIff_text {closing selfClosing : Bool} (h : ∀ v, v.length ≤ u.length → NestsFrom n depth v)
    (hr : Behind depth closing selfClosing r) (tag : Bytes) :
    EndsIff (readText xmlReadNode r tag u) (xmlNests.behind n depth
      (if (closing || selfClosing) = false then u.dropWhile (· ≠ 60) else u)) := by
  have hflags : (r.closing || r.selfClosing) = (closing || selfClosing) := by rw [hr.closing, hr.selfClosing]
  cases u with
  | nil =>
    have hnil : xmlNests.behind n depth [] = true := by
      rw [xmlNests.behind, if_pos (by decide)]
    rw [List.dropWhile_nil, ite_self, readText, hnil]
    exact endsIff_ended r
  | cons c u =>
    have hskip : textInput.gettok [60] 0 (c :: u) =
        .ok ((c :: u).takeWhile (· ∉ [60]), (c :: u).dropWhile (· ≠ 60)) := by
      rw [text_gettok, notMem_one]
    have hshort : ((c :: u).dropWhile (· ≠ 60)).length ≤ (c :: u).length := List.length_dropWhile_le _ _
    rw [readText, xmlText, hflags]
    by_cases hopen : (closing || selfClosing) = false
    · rw [if_pos hopen]
      by_cases hlt : c = 60
      · have hnone : (c :: u).dropWhile (· ≠ 60) = c :: u := List.dropWhile_cons_of_neg (by simpa using hlt)
        rw [if_neg (fun hc => hc.1 hlt), hnone, ok_bind]
        exact endsIff_test (r := { r with attrmap := some [] }) (h _ (Nat.le_refl _)) hr.tree rfl tag
      · rw [if_pos ⟨hlt, hopen⟩, hskip, ok_bind]
        dsimp only
        by_cases hblank : xmlIsWhitespace ((c :: u).takeWhile (· ∉ [60]))
        · rw [if_pos hblank, ok_bind]
          exact endsIff_test (r := { r with attrmap := some [] }) (h _ hshort) hr.tree rfl _
        · obtain ⟨t, htext, ht⟩ := readText_xmlReadNode hr.tree (some ((c :: u).takeWhile (· ∉ [60]))) none
          rw [if_neg hblank, htext, ok_bind, ok_bind]
          exact endsIff_test (r := { r with attrmap := some [], data := t }) (h _ hshort) ht rfl _
    · rw [if_neg hopen, if_neg (fun hc => hopen hc.2), ok_bind]
      exact endsIff_test (r := { r with attrmap := some [] }) (h _ (Nat.le_refl _)) hr.tree rfl tag

/-- An element, and what follows. -/
theorem endsIff_element (h : ∀ depth v, v.length ≤ u.length → NestsFrom n depth v) (hr : TreeOk depth r.data)
    (name : Option Bytes) (attrs : Option (Dict Bytes Bytes)) :
    EndsIff (xmlReadNode r ⟨.element, name, none, attrs⟩ >>= fun x => readText xmlReadNode x.2.2 x.2.1 u)
      (if r.selfClosing then xmlNests.behind n depth u
      else if r.closing then depth ≠ 0 && xmlNests.behind n (depth - 1) (u.dropWhile (· ≠ 60))
      else xmlNests.behind n (depth + 1) (u.dropWhile (· ≠ 60))) := by
  have hcall : xmlReadNode r ⟨.element, name, none, attrs⟩ =
      readNodeElement r (name.getD []) attrs >>= fun x => .ok (true, x.1, x.2) := rfl
  rw [hcall]
  cases hself : r.selfClosing with
  | true =>
    obtain ⟨x, hx, hbehind⟩ := readNodeElement_self hr hself (name.getD []) attrs
    rw [if_pos rfl, hx]
    have htext := endsIff_text (h depth) hbehind x.1
    rwa [Bool.or_true, if_neg (by decide)] at htext
  | false =>
    rw [if_neg Bool.false_ne_true]
    cases hclose : r.closing with
    | true =>
      rw [if_pos rfl]
      cases depth with
      | zero =>
        rw [readNodeElement_assert hr hclose hself]
        exact endsIff_error (by decide)
      | succ depth =>
        obtain ⟨x, hx, hbehind⟩ := readNodeElement_close hr hclose hself (name.getD []) attrs
        rw [hx]
        exact endsIff_text (h depth) hbehind x.1
    | false =>
      obtain ⟨x, hx, hbehind⟩ := readNodeElement_open hr hclose hself (name.getD []) attrs
      rw [if_neg Bool.false_ne_true, hx]
      exact endsIff_text (h (depth + 1)) hbehind x.1

/-- A tag from its name on. -/
theorem endsIff_tag (h : ∀ depth v, v.length ≤ (afterSpace (tagAt u).2).length → NestsFrom n depth v)
    (hr : TreeOk depth r.data) (hmap : r.attrmap.isSome) :
    EndsIff (readTag xmlReadNode r u)
      (if (tagAt u).1.finish = .null ∨ (tagAt u).1.attrs.any (fun av => maxSizeKey ≤ av.1.length) then false
      else if r.selfClosing || (tagAt u).1.slash then xmlNests.behind n depth (afterSpace (tagAt u).2)
      else if r.closing then
        depth ≠ 0 && xmlNests.behind n (depth - 1) ((afterSpace (tagAt u).2).dropWhile (· ≠ 60))
      else xmlNests.behind n (depth + 1) ((afterSpace (tagAt u).2).dropWhile (· ≠ 60))) := by
  obtain ⟨d, hd⟩ := Option.isSome_iff_exists.mp hmap
  obtain ⟨hlong, hshort⟩ := readAttrs_xmlReadNode (tagAt u).1.attrs r d
  have hself : { r with attrmap := some d } = r := by rw [← hd]
  rw [hself] at hlong hshort
  unfold readTag
  generalize (tagAt u).1 = t at *
  generalize afterSpace (tagAt u).2 = v at *
  obtain ⟨name, avs, finish, slash⟩ := t
  dsimp only at hlong hshort ⊢
  cases hany : avs.any (fun av => maxSizeKey ≤ av.1.length) with
  | true =>
    rw [hlong hany, error_bind, if_pos (.inr rfl)]
    exact endsIff_error (by decide)
  | false =>
    obtain ⟨d', hattrs⟩ := hshort hany
    rw [hattrs, ok_bind]
    cases finish with
    | null =>
      have hbroken : XmlEnd.null = .null ∨ false = true := .inl rfl
      rw [if_pos hbroken]
      exact endsIff_null _
    | ended =>
      have hwhole : ¬(XmlEnd.ended = .null ∨ false = true) := by simp
      rw [if_neg hwhole]
      cases slash with
      | true =>
        rw [Bool.or_true]
        exact endsIff_element (r := ⟨some d', false, true, r.data⟩) h hr _ _
      | false =>
        rw [Bool.or_false]
        exact endsIff_element (r := { r with attrmap := some d' }) h hr _ _

/-- By induction on the rounds there are: each one takes something of the text. -/
theorem nestsFrom {s : Bytes} (hn : s.length < n) : NestsFrom n depth s := by
  induction n generalizing depth s with
  | zero => exact absurd hn (Nat.not_lt_zero _)
  | succ n ih =>
    intro r hr hmap
    rw [readRound, xmlNests]
    split_ifs with hlt
    · have hshort : (s.dropWhile (· ≠ 60)).tail.length < s.length := by
        have hpos : 0 < (s.dropWhile (· ≠ 60)).length := by
          rw [List.length_pos_iff, ne_eq, List.dropWhile_eq_nil_iff]
          exact fun h => absurd (h 60 hlt) (by simp)
        have hle := List.length_dropWhile_le (· ≠ 60) s
        rw [List.length_tail]
        omega
      generalize (s.dropWhile (· ≠ 60)).tail = v at *
      cases v with
      | nil => exact endsIff_null _
      | cons c u =>
        have hfewer : (c :: u).length < n := by omega
        have htag (w : Bytes) (hw : w.length ≤ (c :: u).length) (depth : Nat) (v : Bytes)
            (hv : v.length ≤ (afterSpace (tagAt w).2).length) : NestsFrom n depth v :=
          ih (Nat.lt_of_le_of_lt (hv.trans ((afterSpace_le _).trans ((tagAt_le w).trans hw))) hfewer)
        have hu : u.length ≤ (c :: u).length := Nat.le_succ _
        rw [readMarkup]
        dsimp only
        by_cases hbang : c = 33
        · have hslash : c ≠ 47 := fun h => absurd (hbang.symm.trans h) (by decide)
          have hquery : c ≠ 63 := fun h => absurd (hbang.symm.trans h) (by decide)
          rw [if_neg hslash, if_neg hquery, if_pos hbang, if_pos hbang]
          split_ifs
          · have hle := (tail_dropWhile_le (· ≠ 62) u).trans hu
            exact (ih (Nat.lt_of_le_of_lt hle hfewer) { r with closing := false, selfClosing := false } hr hmap).next
          · exact endsIff_ended _
        · rw [if_neg hbang]
          by_cases hslash : c = 47
          · have hends := endsIff_tag (r := ⟨r.attrmap, true, false, r.data⟩) (htag u hu) hr hmap
            subst hslash
            simpa using hends
          · by_cases hquery : c = 63
            · have hends := endsIff_tag (r := ⟨r.attrmap, false, true, r.data⟩) (htag (c :: u) le_rfl) hr hmap
              subst hquery
              simpa using hends
            · have hends := endsIff_tag (r := ⟨r.attrmap, false, false, r.data⟩) (htag (c :: u) le_rfl) hr hmap
              simpa [hslash, hquery, hbang] using hends
    · exact endsIff_ended r

/-! ## The whole text -/

theorem treeOk_xmlReader : TreeOk 0 xmlReader.data where
  nodes a x hx := by
    have hnode : x = xmlNewnode .document := by
      by_cases ha : a = 0
      · subst ha
        exact (Option.some.inj hx).symm
      · have hnone : xmlReader.data.nodes a = none := by
          simp only [xmlReader, Function.update_apply, if_neg ha]
        cases hnone.symm.trans hx
    subst hnode
    exact ⟨there_none, there_none⟩
  parent := rfl
  ptr := rfl
  saved _ hf := by cases hf
  depth := rfl

theorem ok_ne_fuel {α : Type} (a : α) : (Except.ok a : Exec α) ≠ .error .fuel := by simp

theorem load_ne_fuel (nodes : Heap XmlNode) (a : Addr) : load nodes a ≠ .error .fuel := by
  unfold load
  split <;> simp

theorem get_ne_fuel (ptr : XmlSlot) : ptr.get nodes ≠ .error .fuel := by
  cases ptr with
  | children a => exact bind_ne_fuel (load_ne_fuel nodes a) fun x => ok_ne_fuel x.children
  | next a => exact bind_ne_fuel (load_ne_fuel nodes a) fun x => ok_ne_fuel x.next

theorem set_ne_fuel (p : Option Addr) (ptr : XmlSlot) : ptr.set nodes p ≠ .error .fuel := by
  cases ptr with
  | children a => exact bind_ne_fuel (load_ne_fuel nodes a) fun _ => ok_ne_fuel _
  | next a => exact bind_ne_fuel (load_ne_fuel nodes a) fun _ => ok_ne_fuel _

theorem readNodeText_ne_fuel (t : XmlTree) (name : Option Bytes) : readNodeText t name ≠ .error .fuel := by
  unfold readNodeText
  refine bind_ne_fuel (load_ne_fuel _ _) fun pnode => ?_
  split_ifs
  · obtain ⟨text, htext⟩ := xmlUnescape_zero ((name.getD []).drop (scanWhitenskip (name.getD [])))
    rw [htext, ok_bind]
    refine bind_ne_fuel (get_ne_fuel t.ptr) fun next => ?_
    exact bind_ne_fuel (set_ne_fuel _ t.ptr) fun nodes => ok_ne_fuel _
  · exact ok_ne_fuel t

theorem readNodeElement_ne_fuel (r : XmlReader XmlTree) (name : Bytes) (attrs : Option (Dict Bytes Bytes)) :
    readNodeElement r name attrs ≠ .error .fuel := by
  have hnext : readNodeNext r.data ≠ .error .fuel := by
    refine bind_ne_fuel (get_ne_fuel r.data.ptr) fun p => ?_
    cases p with
    | none => exact ok_ne_fuel _
    | some a => exact ok_ne_fuel _
  have hpop (r : XmlReader XmlTree) : xmlreaderPop r ≠ .error .fuel := by
    unfold xmlreaderPop
    split <;> simp
  unfold readNodeElement
  refine bind_ne_fuel hnext fun t => ?_
  dsimp only
  split_ifs
  all_goals first
    | exact bind_ne_fuel (set_ne_fuel _ _) fun nodes => ok_ne_fuel _
    | exact bind_ne_fuel (hpop _) fun r => ok_ne_fuel _

theorem xmlReadNode_ne_fuel (r : XmlReader XmlTree) (e : XmlEvent) : xmlReadNode r e ≠ .error .fuel := by
  unfold xmlReadNode
  split
  · exact ok_ne_fuel _
  · exact bind_ne_fuel (readNodeText_ne_fuel _ _) fun t => ok_ne_fuel _
  · exact bind_ne_fuel (readNodeElement_ne_fuel _ _ _) fun x => ok_ne_fuel _

/-- Reading a buffer comes to what the rounds over its text come to. -/
theorem settles_xmlReadTree (sched : Schedule) {text : Bytes} {x : Exec (XmlEnd × XmlReader XmlTree)}
    (hx : ComesTo (readRound xmlReadNode) (readRound xmlReadNode (.tag { xmlReader with attrmap := some [] } text)) x) :
    Settles (fun m => xmlReadTree sched m (bufferWhole text)) x := by
  have htext := settles_read goesOn_xmlReadNode (r := xmlReader) hx
  obtain ⟨y, y', hy, hy', hsame⟩ := coupled_xmlReadCallback xmlReadNode_ne_fuel sched xmlReader
    (delivers_whole text) fun hw => by cases hw
  obtain ⟨rfl, -⟩ := hsame.eq
  obtain rfl := hy'.unique htext
  exact hy

/-- `xml_read_tree` comes to its end where the tags of the text are whole, and nest. -/
theorem xmlReadTree_iff (sched : Schedule) (text : Bytes) :
    (∃ r, Returns (fun m => xmlReadTree sched m (bufferWhole text)) (.ended, r)) ↔
      xmlNests (text.length + 1) 0 text = true := by
  obtain ⟨x, hx, hends⟩ := nestsFrom (Nat.lt_succ_self text.length) { xmlReader with attrmap := some [] }
    treeOk_xmlReader rfl
  have hy := settles_xmlReadTree sched hx
  rw [← hends]
  constructor
  · rintro ⟨r, hr⟩
    exact ⟨r, hy.unique hr⟩
  · rintro ⟨r, rfl⟩
    exact ⟨r, hy⟩

/-- `</a>`: there is nothing to close. -/
theorem xmlReadTree_unbalanced : ¬∀ (sched : Schedule) (text : Bytes),
    ∃ r, Returns (fun m => xmlReadTree sched m (bufferWhole text)) (.ended, r) := by
  intro h
  obtain ⟨r, N, hN⟩ := h (fun _ => 1) [60, 47, 97, 62]
  have hassert : xmlReadTree (fun _ => 1) (N + 20) (bufferWhole [60, 47, 97, 62]) = .error .assert := rfl
  cases hassert.symm.trans (hN (N + 20) (Nat.le_add_right N 20))

end Dirlist
