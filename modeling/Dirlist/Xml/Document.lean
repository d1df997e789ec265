import Dirlist.Xml.Build

/-! `xml_read_tree` on a document. Where behind each tag there is text enough, and no element has attributes, the
tree has all elements of the document, each at its place. -/

namespace Dirlist
open Run Ring Nodes

variable {r : XmlReader XmlTree} {t t₁ t' : XmlTree} {place : XmlSlot} {x y b u w n tag : Bytes} {e : UInt8}
  {z : Exec (XmlEnd × XmlReader XmlTree)} {K : Forest (Bytes × Dict Bytes Bytes)}

/-- What the reader of a tree comes to from where it stands. -/
abbrev Reaches (p : Exec (XmlPhase Bytes XmlTree ⊕ XmlEnd × XmlReader XmlTree))
    (z : Exec (XmlEnd × XmlReader XmlTree)) : Prop := ComesTo (readRound xmlReadNode) p z

/-! ## The text behind a tag -/

/-- The test behind a tag calls the callback without a text. -/
theorem reaches_test (hx : 1 < x.length) (hparent : (r.data.nodes r.data.parent).isSome) (tag : Bytes)
    (hz : Reaches (readRound xmlReadNode (.tag r x)) z) : Reaches (.ok (.inl (.test r tag x))) z := by
  apply ComesTo.next
  have hround : readRound xmlReadNode (.test r tag x) = if xmlIsWhitespace tag then .ok (.inl (.tag r x)) else
      xmlReadNode r ⟨.text, none, some tag, none⟩ >>= fun y =>
        if y.1 then .ok (.inl (.tag y.2.2 x)) else .ok (.inr (.ended, y.2.2)) := if_neg (Nat.not_le.mpr hx)
  have hcall : xmlReadNode r ⟨.text, none, some tag, none⟩ = .ok (true, [], r) := by
    have htext : readNodeText r.data none = .ok r.data := readNodeText_blank hparent rfl
    show (readNodeText r.data none >>= _) = _
    rw [htext]
    rfl
  rw [hround, hcall, ok_bind, if_pos rfl, ite_self]
  exact hz.next

/-- Where no tag begins nothing is read. -/
theorem readRound_before (hw : 60 ∉ w) (hy : y ≠ []) (r : XmlReader XmlTree) :
    readRound xmlReadNode (.tag r (w ++ 60 :: y)) = readRound xmlReadNode (.tag r (60 :: y)) := by
  have hdrop : (w ++ [60]).dropWhile (· ≠ 60) = [60] := by
    rw [List.dropWhile_append_of_pos fun c hc => decide_eq_true (ne_of_mem_of_not_mem hc hw)]
    rfl
  have hcons : w ++ 60 :: y = w ++ [60] ++ y := by simp
  rw [hcons, readRound_skip hdrop hy]

theorem readText_silent (hself : r.selfClosing = true) (tag : Bytes) (c : UInt8) (s : Bytes) :
    readText xmlReadNode r tag (c :: s) = .ok (.inl (.test { r with attrmap := some [] } tag (c :: s))) := by
  rw [readText, xmlText, if_neg (by simp [hself])]
  rfl

/-- Text that stands behind the end of an empty tag is passed over. -/
theorem reaches_silent (hself : r.selfClosing = true) (hparent : (r.data.nodes r.data.parent).isSome) (hw : 60 ∉ w)
    (hy : y ≠ []) (hz : Reaches (readRound xmlReadNode (.tag { r with attrmap := some [] } (60 :: y))) z) :
    Reaches (readText xmlReadNode r tag (w ++ 60 :: y)) z := by
  obtain ⟨c, s, hs⟩ := List.exists_cons_of_ne_nil (List.append_ne_nil_of_right_ne_nil w (List.cons_ne_nil 60 y))
  rw [hs, readText_silent hself, ← hs]
  refine reaches_test (r := { r with attrmap := some [] }) ?_ hparent tag ?_
  · have hpos := List.length_pos_of_ne_nil hy
    rw [List.length_append, List.length_cons]
    omega
  · rw [readRound_before hw hy]
    exact hz

theorem blank_of_isWhitespace (h : xmlIsWhitespace w = true) : w.drop (scanWhitenskip w) = [] := by
  have hspace : w.takeWhile isspace = w := by
    rw [List.takeWhile_eq_self_iff]
    intro c hc
    have hmem := of_decide_eq_true (List.all_eq_true.mp h c hc)
    simp only [List.mem_cons, List.not_mem_nil, or_false] at hmem
    rcases hmem with rfl | rfl | rfl | rfl | rfl <;> decide
  rw [scanWhitenskip, hspace, List.drop_length]

/-- Text behind a tag that opens or closes an element goes to the callback. -/
theorem reaches_text (hclose : r.closing = false) (hself : r.selfClosing = false)
    (hparent : (r.data.nodes r.data.parent).isSome) (hw : 60 ∉ w) (htext : readNodeText r.data (some w) = .ok t')
    (hparent' : (t'.nodes t'.parent).isSome) (hy : y ≠ [])
    (hz : Reaches (readRound xmlReadNode (.tag ⟨some [], false, false, t'⟩ (60 :: y))) z) :
    Reaches (readText xmlReadNode r tag (w ++ 60 :: y)) z := by
  have hlen : 1 < (60 :: y : Bytes).length := Nat.succ_lt_succ (List.length_pos_of_ne_nil hy)
  obtain ⟨attrmap, closing, selfClosing, data⟩ := r
  obtain rfl : closing = false := hclose
  obtain rfl : selfClosing = false := hself
  cases w with
  | nil =>
    have hsame : readNodeText data (some []) = .ok data := readNodeText_blank hparent rfl
    obtain rfl := Except.ok.inj (hsame.symm.trans htext)
    exact reaches_test (r := ⟨some [], false, false, data⟩) hlen hparent tag hz
  | cons c w =>
    have hwhole : ∀ d ∈ c :: w, decide (d ∉ [60]) = true := by
      intro d hd
      rw [decide_eq_true_iff, List.mem_singleton]
      exact ne_of_mem_of_not_mem hd hw
    have hgettok : textInput.gettok [60] 0 (c :: w ++ 60 :: y) = .ok (c :: w, 60 :: y) := by
      rw [text_gettok, List.takeWhile_append_of_pos hwhole, List.dropWhile_append_of_pos hwhole]
      simp
    have hc : c ≠ 60 := ne_of_mem_of_not_mem List.mem_cons_self hw
    have hread (r : XmlReader XmlTree) : readText xmlReadNode r tag (c :: w ++ 60 :: y) =
        xmlText textInput xmlReadNode 0 r tag c (c :: w ++ 60 :: y) >>= fun y =>
          .ok (.inl (.test { y.1 with attrmap := some [] } y.2.1 y.2.2)) := rfl
    rw [hread, xmlText, if_pos ⟨hc, rfl⟩, hgettok, ok_bind]
    dsimp only
    by_cases hblank : xmlIsWhitespace (c :: w)
    · have hsame : readNodeText data (some (c :: w)) = .ok data :=
        readNodeText_blank hparent (blank_of_isWhitespace hblank)
      obtain rfl := Except.ok.inj (hsame.symm.trans htext)
      rw [if_pos hblank, ok_bind]
      exact reaches_test (r := ⟨some [], false, false, data⟩) hlen hparent _ hz
    · have hcall : xmlReadNode ⟨attrmap, false, false, data⟩ ⟨.text, some (c :: w), none, none⟩ =
          .ok (true, c :: w, ⟨attrmap, false, false, t'⟩) := by
        show (readNodeText data (some (c :: w)) >>= _) = _
        rw [htext]
        rfl
      rw [if_neg hblank, hcall, ok_bind, ok_bind]
      exact reaches_test (r := ⟨some [], false, false, t'⟩) hlen hparent' _ hz

/-! ## Tags -/

section Tags

variable (hn : IsXmlName n) (hb : Blank b) (hu : ¬u.head?.any isalpha)

include hn hb hu in
theorem readTag_name (he : e = 62 ∨ e = 47) (r : XmlReader XmlTree) : readTag xmlReadNode r (n ++ (b ++ e :: u)) =
    let r := if (tagEndAt u).1 then { r with selfClosing := true, closing := false } else r
    readNodeElement r n r.attrmap >>= fun y => readText xmlReadNode y.2 y.1 (afterSpace (tagEndAt u).2) := by
  rw [readTag, tagAt_name hn hb he hu, readAttrs, ok_bind]
  dsimp only
  generalize (if (tagEndAt u).1 then { r with selfClosing := true, closing := false } else r) = r'
  show (readNodeElement r' n r'.attrmap >>= fun y => _) >>= _ = _
  cases readNodeElement r' n r'.attrmap with
  | error e => rfl
  | ok y => rfl

theorem IsXmlName.zero (hn : IsXmlName n) : 0 ∉ n := fun hmem => hn.free 0 hmem (by decide)

include hn hb hu in
/-- A tag that opens an element, or an empty one. -/
theorem readRound_open (he : e = 62 ∨ e = 47) (ht : Building r.data place) (hattr : r.attrmap = some []) :
    readRound xmlReadNode (.tag r (60 :: (n ++ (b ++ e :: u)))) = readText xmlReadNode
      (if (tagEndAt u).1 then ⟨none, false, true, ({ r.data with ptr := place }).add (openedNode r.data n []) place⟩
        else ⟨none, false, false, openedTree r.data place n []⟩) n (afterSpace (tagEndAt u).2) := by
  obtain ⟨attrmap, closing, selfClosing, data⟩ := r
  obtain rfl : attrmap = some [] := hattr
  obtain ⟨c, n', rfl⟩ := List.exists_cons_of_ne_nil hn.ne_nil
  have hslash : c ≠ 47 := by
    rintro rfl
    exact hn.free 47 List.mem_cons_self (by decide)
  obtain ⟨hbang, hquery⟩ := hn.head c rfl
  rw [readRound_tag (c := c) (u := n' ++ (b ++ e :: u)) rfl, readMarkup, if_neg hslash, if_neg hquery, if_neg hbang]
  rw [← List.cons_append, readTag_name hn hb hu he]
  cases (tagEndAt u).1 with
  | true =>
    have helement := readNodeElement_add (r := ⟨some [], false, true, data⟩) (d := []) ht hn.zero rfl
    simp only [if_true, helement, ok_bind]
  | false =>
    have helement := readNodeElement_add (r := ⟨some [], false, false, data⟩) (d := []) ht hn.zero rfl
    simp only [Bool.false_eq_true, if_false, helement, ok_bind]

include hn hb hu in
/-- A tag that closes the element that was opened last. -/
theorem readRound_close (hslash : (tagEndAt u).1 = false) (ht : Building t place)
    (hK : Grown (openedTree t place w []) (.children t.brk) K r.data) :
    ∃ tag t₁ y f, readRound xmlReadNode (.tag r (60 :: 47 :: (n ++ (b ++ 62 :: u)))) =
      readText xmlReadNode ⟨none, false, false, t₁⟩ tag (afterSpace (tagEndAt u).2) ∧ Put t place y f t₁ ∧
      y.type = .element ∧ y.name = some w ∧ y.attributes = some [] ∧ HoldsElements t₁.nodes f K := by
  obtain ⟨tag, t₁, y, f, htake, hput⟩ := readNodeElement_take (r := ⟨r.attrmap, true, false, r.data⟩) ht hK rfl rfl n
    r.attrmap
  refine ⟨tag, t₁, y, f, ?_, hput⟩
  rw [readRound_tag (c := 47) (u := n ++ (b ++ 62 :: u)) rfl, readMarkup, if_pos rfl, readTag_name hn hb hu (.inl rfl),
    hslash]
  simp only [Bool.false_eq_true, if_false, htake, ok_bind]

end Tags

/-! ## Contents -/

namespace XmlContent

variable {c kids rest : XmlContent}

/-- The reader goes through a content up to the tag behind it, and puts the elements where the next node goes. -/
def Runs (c : XmlContent) : Prop :=
  ∀ (r : XmlReader XmlTree) (place : XmlSlot) (x : Bytes), Building r.data place → r.attrmap = some [] →
    (place = .children r.data.parent → c.FirstStays) → x ≠ [] →
      ∃ r', r'.attrmap = some [] ∧ Grown r.data place c.elements r'.data ∧
        ∀ z, Reaches (readRound xmlReadNode (.tag r' (60 :: x))) z →
          Reaches (readRound xmlReadNode (.tag r (c.tail ++ 60 :: x))) z

theorem runs_last (text : Bytes) : (last text).Runs :=
  fun r _ _ ht hattr _ _ => ⟨r, hattr, ht.grown, fun _ => id⟩

/-- Behind a text there is a tag. -/
theorem exists_tag (c : XmlContent) (hx : x ≠ []) : ∃ y, y ≠ [] ∧ c.tail ++ 60 :: x = 60 :: y := by
  cases c with
  | last => exact ⟨x, hx, rfl⟩
  | empty => exact ⟨_, List.append_ne_nil_of_right_ne_nil _ (List.cons_ne_nil 60 x), rfl⟩
  | element => exact ⟨_, List.append_ne_nil_of_right_ne_nil _ (List.cons_ne_nil 60 x), rfl⟩

/-- Behind an empty element. -/
theorem Runs.silent {f : Forest Addr} {y : XmlNode} (h : rest.Runs) (ht : Building t place) (hput : Put t place y f t₁)
    (hw : 60 ∉ w) (hx : x ≠ []) (tag : Bytes) :
    ∃ r', r'.attrmap = some [] ∧ Grown t₁ (.next t.brk) rest.elements r'.data ∧
      ∀ z, Reaches (readRound xmlReadNode (.tag r' (60 :: x))) z →
        Reaches (readText xmlReadNode ⟨none, false, true, t₁⟩ tag (w ++ (rest.tail ++ 60 :: x))) z := by
  have ht₁ := hput.building ht
  obtain ⟨r', hattr, hgrown, hrest⟩ := h ⟨some [], false, true, t₁⟩ (.next t.brk) x ht₁ rfl (fun heq => by cases heq) hx
  refine ⟨r', hattr, hgrown, fun z hz => ?_⟩
  obtain ⟨y, hy, htail⟩ := exists_tag rest hx
  have hz := hrest z hz
  rw [htail] at hz ⊢
  exact reaches_silent rfl ht₁.parent hw hy hz

/-- From the opening tag of an element to its closing tag. -/
theorem Runs.opened (h : kids.Runs) (hn : IsXmlName n) (hb : Blank b) (hlead : 60 ∉ kids.lead)
    (hspares : Spares kids.lead) (hfirst : Survives kids.lead ∨ kids.FirstStays) (ht : Building r.data place)
    (hattr : r.attrmap = some []) (hx : x ≠ []) :
    ∃ r', r'.attrmap = some [] ∧
      Grown (openedTree r.data place n []) (.children r.data.brk) kids.elements r'.data ∧
      ∀ z, Reaches (readRound xmlReadNode (.tag r' (60 :: x))) z →
        Reaches (readRound xmlReadNode (.tag r (60 :: (n ++ (b ++ 62 :: (kids.print ++ 60 :: x)))))) z := by
  have hopened := ht.opened (n := n) (d := [])
  have hnode : (openedTree r.data place n []).nodes r.data.brk = some (openedNode r.data n []) :=
    (ht.put_opened (n := n) (d := [])).node
  obtain ⟨t₁, place₁, htext, ht₁, hparent, hsurvives, hgrows⟩ :=
    hopened.text rfl hnode rfl rfl (left kids.lead)
  obtain ⟨r', hattr', hgrown, hrest⟩ := h ⟨some [], false, false, t₁⟩ place₁ x ht₁ rfl
    (fun heq => hfirst.resolve_left fun hne => hne (hsurvives (heq.trans (congrArg _ hparent)))) hx
  refine ⟨r', hattr', hgrows _ _ hgrown, fun z hz => ?_⟩
  obtain ⟨y, hy, htail⟩ := exists_tag kids hx
  have hz := hrest z hz
  have hprint : kids.print ++ 60 :: x = kids.lead ++ 60 :: y := by rw [print_eq, List.append_assoc, htail]
  obtain ⟨hslash, hspace, hleft⟩ := hspares.tag hlead y
  rw [hprint, readRound_open hn hb (hspares.head y) (.inl rfl) ht hattr, hslash, hspace]
  rw [htail] at hz
  exact reaches_text rfl rfl (Option.isSome_of_eq_some hnode) hleft htext ht₁.parent hy hz

/-- From the closing tag of an element on. -/
theorem Runs.closed (h : rest.Runs) (hn : IsXmlName n) (hb : Blank b) (hlead : 60 ∉ rest.lead)
    (hspares : Spares rest.lead)
    (hfirst : place = .children t.parent → ¬Survives rest.lead ∨ rest = last rest.lead) (ht : Building t place)
    (hK : Grown (openedTree t place w []) (.children t.brk) K r.data) (hx : x ≠ []) :
    ∃ r', r'.attrmap = some [] ∧ Grown t place (.node (w, []) K rest.elements) r'.data ∧
      ∀ z, Reaches (readRound xmlReadNode (.tag r' (60 :: x))) z →
        Reaches (readRound xmlReadNode (.tag r (60 :: 47 :: (n ++ (b ++ 62 :: (rest.print ++ 60 :: x)))))) z := by
  obtain ⟨y, hy, htail⟩ := exists_tag rest hx
  have hprint : rest.print ++ 60 :: x = rest.lead ++ 60 :: y := by rw [print_eq, List.append_assoc, htail]
  obtain ⟨hslash, hspace, hleft⟩ := hspares.tag hlead y
  obtain ⟨tag, t₁, node, f, hround, hput, htype, hname, hattrs, hholds⟩ :=
    readRound_close (n := n) hn hb (hspares.head y) hslash ht hK
  have ht₁ := hput.building ht
  rw [hprint, hround, hspace]
  rcases readNodeText_cases ht₁.fresh ht₁.parent (left rest.lead) with hsame | ⟨⟨hne, hptr⟩, text, hadd, hrest⟩
  · obtain ⟨r', hattr, hgrown, hrest⟩ := h ⟨some [], false, false, t₁⟩ (.next t.brk) x ht₁ rfl (fun heq => by cases heq)
      hx
    refine ⟨r', hattr, hput.grown_element htype hname hattrs hholds hgrown, fun z hz => ?_⟩
    have hz := hrest z hz
    rw [htail] at hz
    exact reaches_text rfl rfl ht₁.parent hleft hsame ht₁.parent hy hz
  · -- the text goes in front of the element, and there is no other that would take its place
    obtain ⟨htext, hup, hchildren, hget⟩ := hrest
    rw [hput.ptr, hput.parent] at hptr
    rw [hput.ptr] at hadd hget
    have hlast := (hfirst hptr).resolve_left fun hnot => hnot hne
    have hgrown := hput.grown_element htype hname hattrs hholds ht₁.grown
    have hsplice := hgrown.splice ht hput.ptr htext (hup.trans (congrArg some hput.parent)) hchildren hget
    have hparent : ((t₁.add text place).nodes t₁.parent).isSome := by
      rw [XmlTree.add_below (lt_of_isSome ht₁.fresh ht₁.parent), XmlSlot.put_isSome]
      exact ht₁.parent
    rw [hlast] at htail ⊢
    obtain rfl : x = y := (List.cons.inj htail).2
    exact ⟨⟨some [], false, false, t₁.add text place⟩, rfl, hsplice,
      fun z hz => reaches_text rfl rfl ht₁.parent hleft hadd hparent hx hz⟩

/-- From an empty tag on, or from an opening tag that is taken for one. -/
theorem Runs.single {d : UInt8} (h : rest.Runs) (hn : IsXmlName n) (hb : Blank b) (he : e = 62 ∨ e = 47)
    (hd : isalpha d = false) (hslash : (tagEndAt (d :: u ++ [60])).1 = true) (hleaves : Leaves (d :: u)) (hu : 60 ∉ u)
    (ht : Building r.data place) (hattr : r.attrmap = some []) (hx : x ≠ []) :
    ∃ r', r'.attrmap = some [] ∧ Grown r.data place (.node (n, []) .nil rest.elements) r'.data ∧
      ∀ z, Reaches (readRound xmlReadNode (.tag r' (60 :: x))) z →
        Reaches (readRound xmlReadNode (.tag r (60 :: (n ++ (b ++ e :: (d :: u ++ (rest.tail ++ 60 :: x))))))) z := by
  have hput := ht.put_opened (n := n) (d := [])
  obtain ⟨r', hattr', hgrown, hrest⟩ := h.silent ht hput (left_eq hleaves hu).2 hx n
  refine ⟨r', hattr', hput.grown_element rfl rfl rfl .nil hgrown, fun z hz => ?_⟩
  obtain ⟨y, hy, htail⟩ := exists_tag rest hx
  have hz := hrest z hz
  obtain ⟨hend, hspace⟩ := afterSpace_left hleaves hu y
  have hhead : ¬(d :: u ++ 60 :: y).head?.any isalpha := head_any hd _
  rw [htail] at hz ⊢
  rw [readRound_open hn hb hhead he ht hattr, hend, hslash, if_pos rfl, hspace]
  exact hz

/-- By induction on the content: all its elements are put into the tree. -/
theorem runs (hwf : c.WellFormed) (hkept : c.Kept) : c.Runs := by
  induction c with
  | last text => exact runs_last text
  | empty text tag rest ih =>
    intro r place x ht hattr _ hx
    obtain ⟨-, htag, hrest⟩ := hwf
    obtain ⟨hattrs, hspares, hkept⟩ := hkept
    rw [elements, tail, XmlStart.print_eq hattrs, XmlStart.dict_eq hattrs]
    obtain ⟨r', hattr', hgrown, hreads⟩ := (ih hrest hkept).single htag.name htag.blank (.inr rfl) (by decide)
      hspares.slash hspares.leaves hrest.lead ht hattr hx
    refine ⟨r', hattr', hgrown, fun z hz => ?_⟩
    have hz := hreads z hz
    rw [print_eq]
    simpa using hz
  | element text tag kids blank rest ihk ihr =>
    intro r place x ht hattr hfirst hx
    obtain ⟨-, htag, hkids, hblank, hrest⟩ := hwf
    obtain ⟨hattrs, hkept, hkids'⟩ := hkept
    rw [elements, tail, XmlStart.print_eq hattrs, XmlStart.dict_eq hattrs]
    rcases hkids' with ⟨rfl, hleaves⟩ | ⟨hspares, hkspares, hkfirst, hkkept⟩
    · -- the slash of the closing tag is taken for that of the opening one
      obtain ⟨r', hattr', hgrown, hreads⟩ := (ihr hrest hkept).single htag.name htag.blank (.inl rfl) (by decide) rfl
        hleaves (notMem_close htag.name hblank hrest.lead) ht hattr hx
      refine ⟨r', hattr', hgrown, fun z hz => ?_⟩
      have hz := hreads z hz
      rw [print_eq rest]
      simpa [print] using hz
    · obtain ⟨r₁, hattr₁, hgrown₁, hopened⟩ := (ihk hkids hkkept).opened (x := 47 :: (tag.name ++ (blank ++ 62 ::
        (rest.print ++ 60 :: x)))) htag.name htag.blank hkids.lead hkspares hkfirst ht hattr (List.cons_ne_nil _ _)
      have hstays (hplace : place = .children r.data.parent) : ¬Survives rest.lead ∨ rest = last rest.lead := by
        rcases hfirst hplace with rfl | hrest
        · exact absurd rfl hkspares.leaves
        · exact hrest
      obtain ⟨r₂, hattr₂, hgrown₂, hclosed⟩ := (ihr hrest hkept).closed htag.name hblank hrest.lead hspares hstays ht
        hgrown₁ hx
      refine ⟨r₂, hattr₂, hgrown₂, fun z hz => ?_⟩
      have hz := hopened z (hclosed z hz)
      simpa using hz

end XmlContent

/-! ## Documents -/

/-- The tree of a document that has been read, whatever the reader points to. -/
theorem Grown.root {E : Forest (Bytes × Dict Bytes Bytes)} (h : Grown xmlReader.data (.children 0) E t') :
    ∃ f, (treeLinks t'.nodes).Linked (some 0) ((treeLinks t'.nodes).children 0) f ∧ HoldsElements t'.nodes f E := by
  obtain ⟨head, f, hbelow, hlinked, -, hholds⟩ := h.tree
  have hroot : (treeLinks t'.nodes).children 0 = head := by
    show (t'.nodes 0).bind XmlNode.children = head
    rw [hbelow 0 (Nat.lt_succ_self 0)]
    rfl
  exact ⟨f, by rw [hroot]; exact hlinked, hholds⟩

theorem building_xmlReader : Building xmlReader.data (.children 0) where
  fresh c hc := by
    have hne : c ≠ 0 := Nat.ne_of_gt hc
    rw [xmlReader]
    dsimp only
    rw [Function.update_of_ne hne]
  parent := rfl
  ptr := rfl
  there := rfl
  empty := rfl
  next := rfl

/-- Where there is no other tag the reading is over. -/
theorem reaches_ended (hself : r.selfClosing = true) (hparent : (r.data.nodes r.data.parent).isSome) (hu : 60 ∉ u)
    (tag : Bytes) : ∃ r', r'.data = r.data ∧ Reaches (readText xmlReadNode r tag u) (.ok (.ended, r')) := by
  cases u with
  | nil => exact ⟨r, rfl, .done⟩
  | cons c s =>
    refine ⟨{ r with attrmap := some [] }, rfl, ?_⟩
    rw [readText_silent hself]
    by_cases hlen : (c :: s).length ≤ 1
    · apply ComesTo.next
      have hround : readRound xmlReadNode (.test { r with attrmap := some [] } tag (c :: s)) =
          .ok (.inr (.ended, { r with attrmap := some [] })) := if_pos hlen
      rw [hround]
      exact .done
    · refine reaches_test (r := { r with attrmap := some [] }) (Nat.lt_of_not_le hlen) hparent tag ?_
      rw [readRound, if_neg hu]
      exact .done

section Root

variable (hn : IsXmlName n) (hb : Blank b) (ht : Building r.data place) (hattr : r.attrmap = some []) (hu : Blank u)

include hn hb ht hattr hu in
/-- `<n/>` as the root is read as an opening tag, and the text ends before it is closed. -/
theorem exists_root_empty : ∃ r' t', Reaches (readRound xmlReadNode (.tag r (60 :: (n ++ (b ++ 47 :: 62 :: u)))))
    (.ok (.ended, r')) ∧ r'.data.nodes = t'.nodes ∧ Grown r.data place (.node (n, []) .nil .nil) t' := by
  have hput := ht.put_opened (n := n) (d := [])
  have hround := readRound_open hn hb (head_any (d := 62) (by decide) u) (.inr rfl) ht hattr
  rw [tagEndAt_single hu, if_neg Bool.false_ne_true] at hround
  refine ⟨⟨none, false, false, openedTree r.data place n []⟩,
    ({ r.data with ptr := place }).add (openedNode r.data n []) place, ?_, rfl,
    hput.grown_element rfl rfl rfl .nil (hput.building ht).grown⟩
  rw [hround]
  exact .done

include hn hb ht hattr hu in
/-- In `<n></n>` the slash of the closing tag is taken for that of the opening one. -/
theorem exists_root_nothing {blank : Bytes} (hblank : Blank blank) :
    ∃ r' t', Reaches (readRound xmlReadNode (.tag r (60 :: (n ++ (b ++ 62 :: 60 :: 47 :: (n ++ blank ++ 62 :: u))))))
      (.ok (.ended, r')) ∧ r'.data.nodes = t'.nodes ∧ Grown r.data place (.node (n, []) .nil .nil) t' := by
  have hput := ht.put_opened (n := n) (d := [])
  have hround := readRound_open hn hb (u := 60 :: 47 :: (n ++ blank ++ 62 :: u)) (head_any (by decide) _) (.inl rfl) ht
    hattr
  have hsuffix := ((afterSpace_suffix _).trans (List.tail_suffix _)).trans
    (tagEndAt_suffix (60 :: 47 :: (n ++ blank ++ 62 :: u)))
  have hnot := notMem_close hn hblank hu.notMem
  obtain ⟨r', hdata, hended⟩ := reaches_ended
    (r := ⟨none, false, true, ({ r.data with ptr := place }).add (openedNode r.data n []) place⟩) rfl
    (hput.building ht).parent (fun hmem => hnot (hsuffix.subset hmem)) n
  refine ⟨r', _, ?_, congrArg XmlTree.nodes hdata, hput.grown_element rfl rfl rfl .nil (hput.building ht).grown⟩
  rw [hround]
  exact hended

include hn hb ht hattr hu in
theorem exists_root_kids {blank : Bytes} {kids : XmlContent} (hkids : kids.Runs) (hlead : 60 ∉ kids.lead)
    (hspares : Spares kids.lead) (hfirst : Survives kids.lead ∨ kids.FirstStays) (hblank : Blank blank) :
    ∃ r' t', Reaches (readRound xmlReadNode
        (.tag r (60 :: (n ++ (b ++ 62 :: (kids.print ++ 60 :: 47 :: (n ++ (blank ++ 62 :: u))))))))
      (.ok (.ended, r')) ∧ r'.data.nodes = t'.nodes ∧ Grown r.data place (.node (n, []) kids.elements .nil) t' := by
  obtain ⟨r₁, hattr₁, hgrown, hopened⟩ :=
    hkids.opened hn hb hlead hspares hfirst ht hattr (List.cons_ne_nil 47 (n ++ (blank ++ 62 :: u)))
  obtain ⟨closing, t₁, node, f, hround, hput, htype, hname, hattrs, hholds⟩ :=
    readRound_close hn hblank hu.head.1 (congrArg Prod.fst (tagEndAt_blank hu)) ht hgrown
  refine ⟨⟨none, false, false, t₁⟩, t₁, hopened _ ?_, rfl,
    hput.grown_element htype hname hattrs hholds (hput.building ht).grown⟩
  rw [hround, tagEndAt_blank hu]
  exact .done

end Root

/-- The root of a document goes where the next node is to go. -/
theorem XmlContent.exists_document {c : XmlContent} (hwf : c.WellFormed) (hdoc : c.IsDocument) (hroot : c.RootKept)
    (ht : Building r.data place) (hattr : r.attrmap = some []) :
    ∃ r' t', Reaches (readRound xmlReadNode (.tag r c.print)) (.ok (.ended, r')) ∧ r'.data.nodes = t'.nodes ∧
      Grown r.data place c.elements t' := by
  cases c with
  | last => exact hdoc.elim
  | empty before tag rest =>
    cases rest with
    | empty => exact hdoc.elim
    | element => exact hdoc.elim
    | last after =>
      obtain ⟨hbefore, hafter⟩ := hdoc
      obtain ⟨-, htag, -⟩ := hwf
      have hattrs : tag.attrs = [] := hroot
      have hne := List.append_ne_nil_of_left_ne_nil htag.name.ne_nil (tag.blank ++ 47 :: 62 :: after)
      rw [elements, elements, XmlStart.dict_eq hattrs, print, print, XmlStart.print_eq hattrs, List.append_assoc,
        readRound_before hbefore.notMem hne]
      exact exists_root_empty htag.name htag.blank ht hattr hafter
  | element before tag kids blank rest =>
    cases rest with
    | empty => exact hdoc.elim
    | element => exact hdoc.elim
    | last after =>
      obtain ⟨hbefore, hafter⟩ := hdoc
      obtain ⟨-, htag, hkids, hblank, -⟩ := hwf
      obtain ⟨hattrs, hkept⟩ := hroot
      have hne := List.append_ne_nil_of_left_ne_nil htag.name.ne_nil
        (tag.blank ++ 62 :: (kids.print ++ 60 :: 47 :: (tag.name ++ blank ++ 62 :: after)))
      rw [elements, elements, XmlStart.dict_eq hattrs, print, print, XmlStart.print_eq hattrs, List.append_assoc,
        readRound_before hbefore.notMem hne]
      rcases hkept with rfl | ⟨hspares, hfirst, hkept⟩
      · exact exists_root_nothing htag.name htag.blank ht hattr hafter hblank
      · rw [List.append_assoc]
        exact exists_root_kids htag.name htag.blank ht hattr hafter (runs hkids hkept) hkids.lead hspares hfirst hblank

/-- The tree has exactly the elements of the document, each at its place and with its attributes. -/
theorem xmlReadTree_elements (sched : Schedule) {c : XmlContent} (hwf : c.WellFormed) (hdoc : c.IsDocument)
    (hroot : c.RootKept) : ∃ r f, Returns (fun m => xmlReadTree sched m (bufferWhole c.print)) (.ended, r) ∧
      (treeLinks r.data.nodes).Linked (some 0) ((treeLinks r.data.nodes).children 0) f ∧
      HoldsElements r.data.nodes f c.elements := by
  have ht : Building (XmlReader.data { xmlReader with attrmap := some [] }) (.children 0) := building_xmlReader
  obtain ⟨r, t, hreads, hnodes, hgrown⟩ := XmlContent.exists_document hwf hdoc hroot ht rfl
  obtain ⟨f, hlinked, hholds⟩ := hgrown.root
  rw [← hnodes] at hlinked hholds
  exact ⟨r, f, settles_xmlReadTree sched hreads, hlinked, hholds⟩

/-- `<r>123<b>456</b>789<cc></cc></r>` -/
theorem xmlReadTree_elements_nested :
    let c := XmlContent.element [] ⟨[114], [], []⟩ (.element [49, 50, 51] ⟨[98], [], []⟩ (.last [52, 53, 54]) []
      (.element [55, 56, 57] ⟨[99, 99], [], []⟩ (.last []) [] (.last []))) [] (.last [])
    ∃ r f, Returns (fun m => xmlReadTree (fun _ => 1) m (bufferWhole c.print)) (.ended, r) ∧
      (treeLinks r.data.nodes).Linked (some 0) ((treeLinks r.data.nodes).children 0) f ∧
      HoldsElements r.data.nodes f c.elements := by
  have hname {n : Bytes} (hn : n ∈ [[114], [98], [99, 99]]) : IsXmlName n := by
    simp only [List.mem_cons, List.not_mem_nil, or_false] at hn
    rcases hn with rfl | rfl | rfl <;> exact ⟨by decide, by decide, by simp⟩
  have htag {n : Bytes} (hn : n ∈ [[114], [98], [99, 99]]) : XmlStart.WellFormed ⟨n, [], []⟩ :=
    ⟨hname hn, by simp [Blank], by simp, List.nodup_nil⟩
  have hspares {u : Bytes} (hu : u ∈ [[49, 50, 51], [52, 53, 54], [55, 56, 57]]) : Spares u := by
    simp only [List.mem_cons, List.not_mem_nil, or_false] at hu
    rcases hu with rfl | rfl | rfl <;> exact ⟨by decide, by decide, by show afterSpace _ ≠ []; decide⟩
  have hblank : Blank [] := by simp [Blank]
  refine xmlReadTree_elements (fun _ => 1) ?_ ⟨hblank, hblank⟩ ?_
  · refine ⟨by decide, htag (by decide), ⟨by decide, htag (by decide), ?_, hblank, ?_⟩, hblank, ?_⟩
    · show 60 ∉ [52, 53, 54]
      decide
    · exact ⟨by decide, htag (by decide), List.not_mem_nil, hblank, List.not_mem_nil⟩
    · exact List.not_mem_nil
  · refine ⟨rfl, .inr ⟨hspares (by decide), .inr (.inr (.inl ?_)), rfl, ⟨rfl, trivial, .inl ⟨rfl, ?_⟩⟩, .inr
      ⟨hspares (by decide), hspares (by decide), .inr trivial, trivial⟩⟩⟩
    · show ¬List.drop _ _ ≠ []
      decide
    · show afterSpace _ ≠ []
      decide

/-- `<a><b/></a>` -/
theorem xmlReadTree_loses_element : ¬∀ (sched : Schedule) (c : XmlContent), c.WellFormed → c.IsDocument →
    ∃ r f, Returns (fun m => xmlReadTree sched m (bufferWhole c.print)) (.ended, r) ∧
      (treeLinks r.data.nodes).Linked (some 0) ((treeLinks r.data.nodes).children 0) f ∧
      HoldsElements r.data.nodes f c.elements := by
  intro h
  have hblank : Blank [] := by simp [Blank]
  have htag {n : Bytes} (hn : n ∈ [[97], [98]]) : XmlStart.WellFormed ⟨n, [], []⟩ := by
    simp only [List.mem_cons, List.not_mem_nil, or_false] at hn
    rcases hn with rfl | rfl <;> exact ⟨⟨by decide, by decide, by simp⟩, hblank, by simp, List.nodup_nil⟩
  obtain ⟨r, f, ⟨N, hN⟩, hlinked, hholds⟩ := h (fun _ => 1)
    (.element [] ⟨[97], [], []⟩ (.empty [] ⟨[98], [], []⟩ (.last [])) [] (.last []))
    ⟨List.not_mem_nil, htag (by decide), ⟨List.not_mem_nil, htag (by decide), List.not_mem_nil⟩, hblank,
      List.not_mem_nil⟩ ⟨hblank, hblank⟩
  let view (x : XmlEnd × XmlReader XmlTree) : List (Option XmlNode) := [0, 1, 2].map x.2.data.nodes
  have hview : (xmlReadTree (fun _ => 1) (N + 20) (bufferWhole [60, 97, 62, 60, 98, 47, 62, 60, 47, 97, 62])).map view =
      .ok [some { xmlNewnode .document with children := some 1 },
        some ⟨.element, some [97], some [], some 2, none, some 0⟩, some ⟨.text, some [62], none, none, none, some 1⟩] :=
    rfl
  have hread : view (.ended, r) = _ := Except.ok.inj
    ((congrArg (Except.map view) (hN (N + 20) (Nat.le_add_right N 20))).symm.trans hview)
  obtain ⟨hzero, hone, htwo⟩ : r.data.nodes 0 = _ ∧ r.data.nodes 1 = _ ∧ r.data.nodes 2 = _ := by
    simpa only [view, List.map_cons, List.map_nil, List.cons.injEq, and_true] using hread
  have hroot : (treeLinks r.data.nodes).children 0 = some 1 := by simp only [treeLinks, hzero, Option.bind_some]
  have hfirst : (treeLinks r.data.nodes).children 1 = some 2 := by simp only [treeLinks, hone, Option.bind_some]
  have hlast : (treeLinks r.data.nodes).next 2 = none := by simp only [treeLinks, htwo, Option.bind_some]
  rw [hroot] at hlinked
  cases hlinked with
  | @node _ _ kids _ _ hkids _ =>
    have hinside : HoldsElements r.data.nodes kids (.node ([98], []) .nil .nil) := by
      cases hholds with
      | text hx htype _ =>
        obtain rfl := Option.some.inj (hone.symm.trans hx)
        cases htype
      | element _ _ _ _ hkids' _ => exact hkids'
    -- what is in `a` is a text, and nothing follows it
    rw [hfirst] at hkids
    cases hkids with
    | node _ _ hrest =>
      rw [hlast] at hrest
      obtain rfl := hrest.eq_nil
      cases hinside with
      | text _ _ hnothing => cases hnothing
      | element hx htype _ _ _ _ =>
        obtain rfl := Option.some.inj (htwo.symm.trans hx)
        cases htype

end Dirlist
