import Dirlist.Lib.Forest
import Dirlist.Xml.Tree

/-! Documents of nested elements, and what `buffer_skipspace` takes from the text behind their tags: it consumes the
byte behind the blanks too, and is called four times for each tag. -/

namespace Dirlist
open Run Nodes

structure XmlAttrText where
  blank : Bytes
  name : Bytes
  quote : UInt8
  value : Bytes
deriving DecidableEq, Repr

/-- A tag that opens an element, with the blanks in front of its end. -/
structure XmlStart where
  name : Bytes
  attrs : List XmlAttrText
  blank : Bytes
deriving DecidableEq, Repr

/-- What is between two tags: a text, or a text with an element behind it and what follows that. -/
inductive XmlContent
  | last (text : Bytes)
  | empty (text : Bytes) (tag : XmlStart) (rest : XmlContent)
  | element (text : Bytes) (tag : XmlStart) (kids : XmlContent) (blank : Bytes) (rest : XmlContent)
deriving DecidableEq, Repr

def XmlAttrText.print (a : XmlAttrText) : Bytes := a.blank ++ a.name ++ 61 :: a.quote :: a.value ++ [a.quote]

namespace XmlStart

def print (tag : XmlStart) : Bytes := tag.name ++ tag.attrs.flatMap XmlAttrText.print ++ tag.blank

def dict (tag : XmlStart) : Dict Bytes Bytes := tag.attrs.foldl (fun d a => d.set a.name a.value) []

theorem print_eq {tag : XmlStart} (h : tag.attrs = []) : tag.print = tag.name ++ tag.blank := by
  rw [print, h, List.flatMap_nil, List.append_nil]

theorem dict_eq {tag : XmlStart} (h : tag.attrs = []) : tag.dict = [] := by
  rw [dict, h, List.foldl_nil]

end XmlStart

def Blank (s : Bytes) : Prop := ∀ c ∈ s, c ∈ [32, 9, 10, 13]

theorem Blank.notMem {s : Bytes} (h : Blank s) : 60 ∉ s := fun hmem => absurd (h 60 hmem) (by decide)

structure IsXmlName (n : Bytes) : Prop where
  ne_nil : n ≠ []
  free : ∀ c ∈ n, c ∉ [32, 10, 9, 13, 11, 47, 62, 60, 61, 0]
  head : ∀ c ∈ n.head?, c ≠ 33 ∧ c ≠ 63

structure XmlAttrText.WellFormed (a : XmlAttrText) : Prop where
  blank : a.blank ≠ [] ∧ Blank a.blank
  name : IsXmlName a.name
  quote : a.quote = 34 ∨ a.quote = 39
  value : a.quote ∉ a.value ∧ 60 ∉ a.value

structure XmlStart.WellFormed (tag : XmlStart) : Prop where
  name : IsXmlName tag.name
  blank : Blank tag.blank
  attrs : ∀ a ∈ tag.attrs, a.WellFormed
  nodup : (tag.attrs.map XmlAttrText.name).Nodup

namespace XmlContent

def print : XmlContent → Bytes
  | last text => text
  | empty text tag rest => text ++ 60 :: (tag.print ++ 47 :: 62 :: rest.print)
  | element text tag kids blank rest =>
    text ++ 60 :: (tag.print ++ 62 :: (kids.print ++ 60 :: 47 :: (tag.name ++ blank ++ 62 :: rest.print)))

/-- The elements, with their names and attributes. -/
def elements : XmlContent → Forest (Bytes × Dict Bytes Bytes)
  | last _ => .nil
  | empty _ tag rest => .node (tag.name, tag.dict) .nil rest.elements
  | element _ tag kids _ rest => .node (tag.name, tag.dict) kids.elements rest.elements

def WellFormed : XmlContent → Prop
  | last text => 60 ∉ text
  | empty text tag rest => 60 ∉ text ∧ tag.WellFormed ∧ rest.WellFormed
  | element text tag kids blank rest =>
    60 ∉ text ∧ tag.WellFormed ∧ kids.WellFormed ∧ Blank blank ∧ rest.WellFormed

/-- The text in front of the first tag. -/
def lead : XmlContent → Bytes
  | last text => text
  | empty text .. => text
  | element text .. => text

/-- From the first tag on. -/
def tail : XmlContent → Bytes
  | last _ => []
  | empty _ tag rest => 60 :: (tag.print ++ 47 :: 62 :: rest.print)
  | element _ tag kids blank rest =>
    60 :: (tag.print ++ 62 :: (kids.print ++ 60 :: 47 :: (tag.name ++ blank ++ 62 :: rest.print)))

theorem print_eq (c : XmlContent) : c.print = c.lead ++ c.tail := by
  cases c with
  | last text => exact (List.append_nil text).symm
  | empty => rfl
  | element => rfl

theorem WellFormed.lead {c : XmlContent} (h : c.WellFormed) : 60 ∉ c.lead := by
  cases c with
  | last => exact h
  | empty => exact h.1
  | element => exact h.1

end XmlContent

/-! ## What is left of a text -/

/-- What the end of a tag leaves of `u`, which is up to the next tag, and that it does not take the `<` of that tag. -/
def left (u : Bytes) : Bytes := (afterSpace (tagEndAt (u ++ [60])).2).dropLast

def Leaves (u : Bytes) : Prop := afterSpace (tagEndAt (u ++ [60])).2 ≠ []

/-- The text behind `<name>` or `</name>` is enough, and is not taken for attributes or for the `/` of a tag. -/
structure Spares (text : Bytes) : Prop where
  alpha : ¬text.head?.any isalpha
  slash : (tagEndAt (text ++ [60])).1 = false
  leaves : Leaves text

/-- The text behind `<name/>` is enough, and its first byte is taken for the `/`. -/
structure SparesEmpty (text : Bytes) : Prop where
  slash : (tagEndAt (62 :: text ++ [60])).1 = true
  leaves : Leaves (62 :: text)

/-- There is still a text when the blanks are skipped. -/
def Survives (text : Bytes) : Prop := (left text).drop (scanWhitenskip (left text)) ≠ []

namespace XmlContent

/-- Nothing is lost that is in front. Where no text is left in front of the first element, text that is left behind its
closing tag goes in front of it, and the next element takes its place. -/
def FirstStays : XmlContent → Prop
  | element _ _ kids _ rest => kids = last [] ∨ ¬Survives rest.lead ∨ rest = last rest.lead
  | _ => True

/-- No element has attributes, and behind each tag there is enough text. A closing tag is taken for the end of the
opening one if there is nothing between them. -/
def Kept : XmlContent → Prop
  | last _ => True
  | empty _ tag rest => tag.attrs = [] ∧ SparesEmpty rest.lead ∧ rest.Kept
  | element _ tag kids blank rest => tag.attrs = [] ∧ rest.Kept ∧
    (kids = last [] ∧ Leaves (60 :: 47 :: (tag.name ++ blank ++ 62 :: rest.lead)) ∨
      Spares rest.lead ∧ Spares kids.lead ∧ (Survives kids.lead ∨ kids.FirstStays) ∧ kids.Kept)

/-- One element, with blanks around it. -/
def IsDocument : XmlContent → Prop
  | empty before _ (last after) => Blank before ∧ Blank after
  | element before _ _ _ (last after) => Blank before ∧ Blank after
  | _ => False

/-- Behind the last tag there is nothing to be taken. -/
def RootKept : XmlContent → Prop
  | last _ => True
  | empty _ tag _ => tag.attrs = []
  | element _ tag kids _ _ => tag.attrs = [] ∧
    (kids = last [] ∨ Spares kids.lead ∧ (Survives kids.lead ∨ kids.FirstStays) ∧ kids.Kept)

end XmlContent

theorem afterSpace_suffix (u : Bytes) : afterSpace u <:+ u.tail := by
  cases u with
  | nil => exact List.suffix_refl _
  | cons c u =>
    rw [afterSpace, List.tail_cons]
    by_cases hc : c ∈ [32, 9, 11, 13, 10, 0]
    · have hdrop : (c :: u).dropWhile (· ∈ [32, 9, 11, 13, 10, 0]) = u.dropWhile (· ∈ [32, 9, 11, 13, 10, 0]) :=
        List.dropWhile_cons_of_pos (decide_eq_true hc)
      rw [hdrop]
      exact (List.tail_suffix _).trans (List.dropWhile_suffix _)
    · have hdrop : (c :: u).dropWhile (· ∈ [32, 9, 11, 13, 10, 0]) = c :: u :=
        List.dropWhile_cons_of_neg (by simpa using hc)
      rw [hdrop]
      exact List.suffix_refl u

theorem skipIf_suffix (u : Bytes) (b : Prop) [Decidable b] : (if b then u.tail else u) <:+ u := by
  split_ifs
  · exact List.tail_suffix u
  · exact List.suffix_refl u

theorem tagEndAt_suffix (u : Bytes) : (tagEndAt u).2 <:+ u.tail :=
  (skipIf_suffix _ _).trans (((afterSpace_suffix _).trans (List.tail_suffix _)).trans
    ((skipIf_suffix _ _).trans (afterSpace_suffix u)))

/-- What is left of a text is the end of it. -/
theorem left_eq {u : Bytes} (h : Leaves u) (hu : 60 ∉ u.tail) :
    afterSpace (tagEndAt (u ++ [60])).2 = left u ++ [60] ∧ 60 ∉ left u := by
  have hsuffix : afterSpace (tagEndAt (u ++ [60])).2 <:+ (u ++ [60]).tail :=
    ((afterSpace_suffix _).trans (List.tail_suffix _)).trans (tagEndAt_suffix _)
  have hne : u ≠ [] := by
    rintro rfl
    exact h (List.suffix_nil.mp hsuffix)
  rw [List.tail_append_of_ne_nil hne, List.suffix_concat_iff] at hsuffix
  obtain ⟨w, heq, hw⟩ := hsuffix.resolve_left h
  rw [left, heq, List.dropLast_concat]
  exact ⟨rfl, fun hmem => hu (hw.subset hmem)⟩

/-- Behind the tag the next one follows. -/
theorem afterSpace_left {u : Bytes} (h : Leaves u) (hu : 60 ∉ u.tail) (x : Bytes) :
    (tagEndAt (u ++ 60 :: x)).1 = (tagEndAt (u ++ [60])).1 ∧
      afterSpace (tagEndAt (u ++ 60 :: x)).2 = left u ++ 60 :: x := by
  have hcons : u ++ 60 :: x = u ++ [60] ++ x := by simp
  have hend : (tagEndAt (u ++ [60])).2 ≠ [] := by
    intro hnil
    exact h (by rw [hnil]; rfl)
  rw [hcons, tagEndAt_append hend, afterSpace_append h, (left_eq h hu).1]
  refine ⟨rfl, ?_⟩
  simp

theorem head_any {d : UInt8} (hd : isalpha d = false) (u : Bytes) : ¬(d :: u).head?.any isalpha := by
  rw [List.head?_cons, Option.any_some, hd]
  exact Bool.false_ne_true

theorem Spares.head {u : Bytes} (h : Spares u) (x : Bytes) : ¬(u ++ 60 :: x).head?.any isalpha := by
  cases u with
  | nil => exact head_any (by decide) x
  | cons c u => exact h.alpha

/-- The end of a tag that is spared by the text behind it. -/
theorem Spares.tag {u : Bytes} (h : Spares u) (hu : 60 ∉ u) (x : Bytes) :
    (tagEndAt (u ++ 60 :: x)).1 = false ∧ afterSpace (tagEndAt (u ++ 60 :: x)).2 = left u ++ 60 :: x ∧ 60 ∉ left u := by
  have htail : 60 ∉ u.tail := fun hmem => hu (List.mem_of_mem_tail hmem)
  obtain ⟨hend, hspace⟩ := afterSpace_left h.leaves htail x
  exact ⟨hend.trans h.slash, hspace, (left_eq h.leaves htail).2⟩

/-! ## The text of a tag -/

variable {n b u : Bytes} {e : UInt8}

theorem IsXmlName.stop (hn : IsXmlName n) : ∀ c ∈ n, decide (c ∉ [32, 10, 9, 13, 11, 47, 62]) = true := by
  intro c hc
  apply decide_eq_true
  intro hmem
  apply hn.free c hc
  simp only [List.mem_cons] at hmem ⊢
  tauto

theorem afterSpace_blank (hb : Blank b) (he : e = 62 ∨ e = 47) : afterSpace (b ++ e :: u) = u := by
  have hblank : ∀ c ∈ b, decide (c ∈ [32, 9, 11, 13, 10, 0]) = true := by
    intro c hc
    have hmem := hb c hc
    simp only [List.mem_cons, decide_eq_true_iff] at hmem ⊢
    tauto
  have hend : (e :: u).dropWhile (· ∈ [32, 9, 11, 13, 10, 0]) = e :: u := by
    rcases he with rfl | rfl <;> exact List.dropWhile_cons_of_neg (by decide)
  rw [afterSpace, List.dropWhile_append_of_pos hblank, hend, List.tail_cons]

/-- A name ends where the blanks or the end of the tag begin. -/
theorem exists_stop (hb : Blank b) (he : e = 62 ∨ e = 47) :
    ∃ d v, d ∈ [32, 10, 9, 13, 11, 47, 62] ∧ b ++ e :: u = d :: v := by
  cases b with
  | nil =>
    refine ⟨e, u, ?_, rfl⟩
    rcases he with rfl | rfl <;> decide
  | cons d b =>
    refine ⟨d, b ++ e :: u, ?_, rfl⟩
    have hmem := hb d List.mem_cons_self
    simp only [List.mem_cons] at hmem ⊢
    tauto

/-- A tag without attributes, from its name on. -/
theorem tagAt_name (hn : IsXmlName n) (hb : Blank b) (he : e = 62 ∨ e = 47) (hu : ¬u.head?.any isalpha) :
    tagAt (n ++ (b ++ e :: u)) = (⟨n, [], .ended, (tagEndAt u).1⟩, (tagEndAt u).2) := by
  obtain ⟨d, v, hd, heq⟩ := @exists_stop b u e hb he
  have hstop : ¬decide (d ∉ [32, 10, 9, 13, 11, 47, 62]) = true := by
    rw [decide_eq_true_iff, not_not]
    exact hd
  have hdrop : (b ++ e :: u).dropWhile (· ∉ [32, 10, 9, 13, 11, 47, 62]) = b ++ e :: u := by
    rw [heq]
    exact List.dropWhile_cons_of_neg hstop
  have hname : (n ++ (b ++ e :: u)).takeWhile (· ∉ [32, 10, 9, 13, 11, 47, 62]) = n := by
    refine takeWhile_stop hn.stop fun c hc => ?_
    rw [heq, List.head?_cons, Option.mem_some_iff] at hc
    exact hc ▸ Bool.eq_false_iff.mpr hstop
  have hattrs : tagAttrs (n ++ (b ++ e :: u)) = ([], .ended, u) := by
    rw [tagAttrs, List.dropWhile_append_of_pos hn.stop, hdrop, afterSpace_blank hb he, attrsAt, if_neg hu]
  rw [tagAt, hattrs, hname]

/-- What a closing tag leaves, from behind its first byte on, holds no other tag. -/
theorem notMem_close (hn : IsXmlName n) (hb : Blank b) (hu : 60 ∉ u) : 60 ∉ 47 :: (n ++ b ++ 62 :: u) := by
  have hname : 60 ∉ n := fun hmem => hn.free 60 hmem (by decide)
  simp [hname, hb.notMem, hu]

theorem afterSpace_of_blank (h : Blank u) : afterSpace u = [] := by
  have hall : u.dropWhile (· ∈ [32, 9, 11, 13, 10, 0]) = [] := by
    rw [List.dropWhile_eq_nil_iff]
    intro c hc
    have hmem := h c hc
    simp only [List.mem_cons, decide_eq_true_iff] at hmem ⊢
    tauto
  rw [afterSpace, hall, List.tail_nil]

theorem Blank.head (h : Blank u) : ¬u.head?.any isalpha ∧ u.head? ≠ some 47 ∧ u.head? ≠ some 63 := by
  cases u with
  | nil => simp
  | cons c u =>
    have hc := h c List.mem_cons_self
    simp only [List.mem_cons, List.not_mem_nil, or_false] at hc
    rw [List.head?_cons]
    rcases hc with rfl | rfl | rfl | rfl <;> decide

/-- Behind the last tag there is nothing left. -/
theorem tagEndAt_blank (h : Blank u) : tagEndAt u = (false, []) := by
  rw [tagEndAt, afterSpace_of_blank h]
  rfl

/-- The end of an empty tag is skipped, and the slash in front of it has been. -/
theorem tagEndAt_single (h : Blank u) : tagEndAt (62 :: u) = (false, []) := by
  have hspace : afterSpace (62 :: u) = u := rfl
  obtain ⟨-, hslash, hquery⟩ := h.head
  have hnone : ¬(u.head? = some 47 ∨ u.head? = some 63) := not_or.mpr ⟨hslash, hquery⟩
  rw [tagEndAt, hspace, decide_eq_false hnone, if_neg Bool.false_ne_true, afterSpace_of_blank h]
  rfl

end Dirlist
