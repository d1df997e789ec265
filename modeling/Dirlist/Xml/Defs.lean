import Dirlist.Buffer.Defs
import Dirlist.Hmap.Defs
import Dirlist.Lib.Dict
import Dirlist.Mainscan.Defs

/-! `xml_read_callback`: the reader of lib/xml that hands what it comes across to a callback. It uses
its buffer through a few calls, which are a parameter here: they are those of a buffer, or of a text
that is there as a whole. -/

namespace Dirlist
open Run

/-- What the reader does with its buffer. -/
structure XmlInput (β : Type) where
  peek : Nat → β → Exec (Option UInt8 × β)
  skipc : β → β
  skipUntil : Bytes → Nat → β → Exec (Nat × β)
  skipspace : Nat → β → Exec (Nat × β)
  gettok : Bytes → Nat → β → Exec (Bytes × β)
  /-- `n - p`, the bytes that are in the buffer -/
  ahead : β → Nat

def bufferInput (sched : Schedule) : XmlInput Buffer where
  peek := bufferPeek sched
  skipc b := (bufferSkipc sched b).2
  skipUntil := bufferSkipUntil sched
  skipspace := bufferSkipspace sched
  gettok := bufferGettokSa sched
  ahead b := b.window.length

inductive XmlNodeId
  | document
  | element
  | attribute
  | text
deriving DecidableEq, Repr

/-- The fields of a reader that the loop uses, with the data of the callback. -/
structure XmlReader (σ : Type) where
  attrmap : Option (Dict Bytes Bytes)
  closing : Bool
  selfClosing : Bool
  data : σ

/-- The arguments of a callback. -/
structure XmlEvent where
  id : XmlNodeId
  name : Option Bytes
  value : Option Bytes
  attrs : Option (Dict Bytes Bytes)
deriving DecidableEq

/-- A callback says whether to go on, and may change its `name` and the reader. -/
abbrev XmlCallback (σ : Type) := XmlReader σ → XmlEvent → Exec (Bool × Bytes × XmlReader σ)

/-- `is_whitespace` -/
def xmlIsWhitespace (x : Bytes) : Bool := x.all (· ∈ [32, 9, 11, 13, 10])

/-- `hmap_set` on the map of attributes: a tuple has room for shorter keys. -/
def xmlAttrSet (attrmap : Option (Dict Bytes Bytes)) (attr val : Bytes) : Exec (Dict Bytes Bytes) :=
  match attrmap with
  | none => .error .null
  | some d =>
    if attr = [] then .ok d else if attr.length < maxSizeKey then .ok (d.set attr val) else .error .bounds

/-- How a reading ends: it is over, or the byte behind the end is looked at through a null pointer. -/
inductive XmlEnd
  | ended
  | null
deriving DecidableEq, Repr

variable {β σ : Type} (I : XmlInput β) (fn : XmlCallback σ)

/-- One attribute, behind the test for its first byte. There is no value where the text ends. -/
def xmlAttr (m : Nat) (b : β) : Exec (Option (Bytes × Bytes) × β) := do
  let (attr, b) ← I.gettok [61] m b
  let (ch, b) ← I.peek m (I.skipc b)
  match ch with
  | none => .ok (none, b)
  | some ch =>
    if ch = 34 ∨ ch = 39 then
      let (val, b) ← I.gettok [ch] m (I.skipc b)
      .ok (some (attr, val), I.skipc b)
    else
      let (val, b) ← I.gettok [47, 62, 32, 9, 13, 10, 11] m b
      .ok (some (attr, val), b)

/-- One round of the loop over the attributes. -/
def xmlAttrRound (m : Nat) : XmlReader σ × β → Exec (XmlReader σ × β ⊕ XmlEnd × XmlReader σ × β)
  | (r, b) => do
    let (s, b) ← I.peek m b
    match s.filter isalpha with
    | none => .ok (.inr (.ended, r, b))
    | some _ =>
      let (av, b) ← xmlAttr I m b
      match av with
      | none => .ok (.inr (.null, r, b))
      | some (attr, val) =>
        let attrmap ← xmlAttrSet r.attrmap attr val
        let (go, _, r) ← fn { r with attrmap := some attrmap } ⟨.attribute, some attr, some val, none⟩
        if go then
          let (_, b) ← I.skipspace m b
          .ok (.inl (r, b))
        else .ok (.inr (.ended, r, b))

/-- From the attributes to the end of a tag: `/` or `?`, and `>`. -/
def xmlTagEnd (m : Nat) (r : XmlReader σ) (b : β) : Exec (XmlReader σ × β) := do
  let (_, b) ← I.skipspace m b
  let (s, b) ← I.peek m b
  let slash : Bool := s = some 47 ∨ s = some 63
  let r := if slash then { r with selfClosing := true, closing := false } else r
  let (_, b) ← I.skipspace m (if slash then I.skipc b else b)
  let (s, b) ← I.peek m b
  .ok (r, if s = some 62 then I.skipc b else b)

/-- Text behind a tag that opens an element. The `tag` is what the string holds in the end. -/
def xmlText (m : Nat) (r : XmlReader σ) (tag : Bytes) (c : UInt8) (b : β) :
    Exec (XmlReader σ × Bytes × β) :=
  if c ≠ 60 ∧ (r.closing || r.selfClosing) = false then do
    let (tag, b) ← I.gettok [60] m b
    if xmlIsWhitespace tag then .ok (r, tag, b)
    else
      let (_, tag, r) ← fn r ⟨.text, some tag, none, none⟩
      .ok (r, tag, b)
  else .ok (r, tag, b)

/-- Where the loop stands: in front of a tag, or at the test behind one. -/
inductive XmlPhase (β σ : Type)
  | tag (r : XmlReader σ) (b : β)
  | test (r : XmlReader σ) (tag : Bytes) (b : β)

/-- A tag from its name on, and the text behind it. -/
def xmlTag (m : Nat) (r : XmlReader σ) (b : β) : Exec (XmlPhase β σ ⊕ XmlEnd × XmlReader σ) := do
  let (tag, b) ← I.gettok [32, 10, 9, 13, 11, 47, 62] m b
  let (_, b) ← I.skipspace m b
  let (e, r, b) ← loop (xmlAttrRound I fn) m (r, b)
  match e with
  | .null => .ok (.inr (.null, r))
  | .ended =>
    let (r, b) ← xmlTagEnd I m r b
    let (_, tag, r) ← fn r ⟨.element, some tag, none, r.attrmap⟩
    let (_, b) ← I.skipspace m b
    let (s, b) ← I.peek m b
    match s with
    | none => .ok (.inr (.ended, r))
    | some c =>
      let (r, tag, b) ← xmlText I fn m r tag c b
      .ok (.inl (.test { r with attrmap := some [] } tag b))

/-- Behind a `<`. -/
def xmlMarkup (m : Nat) (r : XmlReader σ) (c : UInt8) (b : β) :
    Exec (XmlPhase β σ ⊕ XmlEnd × XmlReader σ) :=
  if c = 47 then xmlTag I fn m { r with closing := true } (I.skipc b)
  else if c = 63 then xmlTag I fn m { r with selfClosing := true } b
  else if c = 33 then do
    let (n, b) ← I.skipUntil [62] m b
    if n = 0 then .ok (.inr (.ended, r)) else .ok (.inl (.tag r b))
  else xmlTag I fn m r b

/-- One round of the loop of `xml_read_callback`, which is cut in two where it looks at the size of
what is in the buffer. -/
def xmlRound (m : Nat) : XmlPhase β σ → Exec (XmlPhase β σ ⊕ XmlEnd × XmlReader σ)
  | .tag r b => do
    let (n, b) ← I.skipUntil [60] m b
    if n = 0 then .ok (.inr (.ended, r))
    else
      let r := { r with closing := false, selfClosing := false }
      let (s, b) ← I.peek m b
      match s with
      | none => .ok (.inr (.null, r))
      | some c => xmlMarkup I fn m r c b
  | .test r tag b =>
    if I.ahead b ≤ 1 then .ok (.inr (.ended, r))
    else do
      let (_, b) ← I.peek m b
      if xmlIsWhitespace tag then .ok (.inl (.tag r b))
      else
        let (go, _, r) ← fn r ⟨.text, none, some tag, none⟩
        if go then .ok (.inl (.tag r b)) else .ok (.inr (.ended, r))

/-- `xml_read_callback` -/
def xmlReadCallback (m : Nat) (r : XmlReader σ) (b : β) : Exec (XmlEnd × XmlReader σ) :=
  loop (xmlRound I fn) m (.tag { r with attrmap := some [] } b)

end Dirlist
