import Dirlist.Lib.Ring
import Dirlist.Xml.Escape
import Dirlist.Xml.Tags

/-! `xml_read_tree`: the callback that builds a tree out of what the reader comes across. An element that
is opened saves the reader on a stack, from where the closing tag takes it back as it was. -/

namespace Dirlist
open Run Ring

structure XmlNode where
  type : XmlNodeId
  name : Option Bytes
  attributes : Option (Dict Bytes Bytes)
  children : Option Addr
  next : Option Addr
  parent : Option Addr
deriving DecidableEq

/-- `xml_newnode` -/
def xmlNewnode (type : XmlNodeId) : XmlNode := ⟨type, none, none, none, none, none⟩

/-- An `xmlnode**`: the place in a node that holds a pointer. -/
inductive XmlSlot
  | children (a : Addr)
  | next (a : Addr)
deriving DecidableEq, Repr

/-- A reader that was saved. Those below it on the stack are the rest of the list. -/
structure XmlSaved where
  parent : Addr
  ptr : XmlSlot
  attrmap : Option (Dict Bytes Bytes)
  closing : Bool
  selfClosing : Bool

/-- The fields of a reader that only the tree uses, and the nodes. -/
structure XmlTree where
  nodes : Heap XmlNode
  brk : Addr
  parent : Addr
  ptr : XmlSlot
  stack : List XmlSaved

/-- `*ptr` -/
def XmlSlot.get (nodes : Heap XmlNode) : XmlSlot → Exec (Option Addr)
  | .children a => do
    let x ← load nodes a
    .ok x.children
  | .next a => do
    let x ← load nodes a
    .ok x.next

/-- `*ptr = p` -/
def XmlSlot.set (nodes : Heap XmlNode) (p : Option Addr) : XmlSlot → Exec (Heap XmlNode)
  | .children a => modify nodes a fun x => { x with children := p }
  | .next a => modify nodes a fun x => { x with next := p }

/-- A new node, in a place of its own. -/
def XmlTree.alloc (t : XmlTree) (x : XmlNode) : XmlTree :=
  { t with nodes := Function.update t.nodes t.brk (some x), brk := t.brk + 1 }

/-- `xmlreader_push` -/
def xmlreaderPush (r : XmlReader XmlTree) (parent : Addr) : XmlReader XmlTree :=
  let t := r.data
  { r with data := { t with
      stack := ⟨t.parent, t.ptr, r.attrmap, r.closing, r.selfClosing⟩ :: t.stack
      parent := parent
      ptr := .children parent } }

/-- `xmlreader_pop` -/
def xmlreaderPop (r : XmlReader XmlTree) : Exec (XmlReader XmlTree) :=
  match r.data.stack with
  | [] => .error .assert
  | f :: stack =>
    .ok ⟨f.attrmap, f.closing, f.selfClosing, { r.data with stack := stack, parent := f.parent, ptr := f.ptr }⟩

/-- `XML_TEXT`. The name ends with a zero byte, which the scanner may look at. -/
def readNodeText (t : XmlTree) (name : Option Bytes) : Exec XmlTree := do
  let x := name.getD []
  let x := x.drop (scanWhitenskip x)
  let pnode ← load t.nodes t.parent
  if x ≠ [] ∧ pnode.type = .element ∧ t.ptr = .children t.parent then
    let text ← xmlUnescape (x.length + 1) (x ++ [0]) x.length
    let next ← t.ptr.get t.nodes
    let t' := t.alloc { xmlNewnode .text with name := some text, parent := some t.parent, next := next }
    let nodes ← t.ptr.set t'.nodes (some t.brk)
    .ok { t' with nodes := nodes }
  else .ok t

/-- To the end of the list that `ptr` is in. -/
def readNodeNext (t : XmlTree) : Exec XmlTree := do
  match ← t.ptr.get t.nodes with
  | none => .ok t
  | some a => .ok { t with ptr := .next a }

/-- `XML_ELEMENT`, with its name, which gets a slash in front if the tag is a closing one. -/
def readNodeElement (r : XmlReader XmlTree) (name : Bytes) (attrs : Option (Dict Bytes Bytes)) :
    Exec (Bytes × XmlReader XmlTree) := do
  let t ← readNodeNext r.data
  let name := if r.closing then 47 :: name else name
  if r.closing = false ∨ r.selfClosing = true then
    let t' := t.alloc { xmlNewnode .element with
      name := some (name.takeWhile (· ≠ 0)), parent := some t.parent, attributes := attrs }
    let nodes ← t.ptr.set t'.nodes (some t.brk)
    let r := { r with attrmap := none, data := { t' with nodes := nodes } }
    .ok (name, if r.closing = false ∧ r.selfClosing = false then xmlreaderPush r t.brk else r)
  else do
    let r ← xmlreaderPop { r with data := t }
    .ok (name, r)

/-- `xml_read_node` -/
def xmlReadNode : XmlCallback XmlTree := fun r e =>
  match e.id with
  | .attribute => .ok (true, e.name.getD [], r)
  | .text => do
    let t ← readNodeText r.data e.name
    .ok (true, e.name.getD [], { r with data := t })
  | _ => do
    let (name, r) ← readNodeElement r (e.name.getD []) e.attrs
    .ok (true, name, r)

/-- `xml_reader`: the document is the node 0. -/
def xmlReader : XmlReader XmlTree where
  attrmap := none
  closing := false
  selfClosing := false
  data := {
    nodes := Function.update (fun _ => none) 0 (some (xmlNewnode .document))
    brk := 1
    parent := 0
    ptr := .children 0
    stack := [] }

/-- `xml_read_tree` -/
def xmlReadTree (sched : Schedule) (m : Nat) (b : Buffer) : Exec (XmlEnd × XmlReader XmlTree) :=
  xmlReadCallback (bufferInput sched) xmlReadNode m xmlReader b

end Dirlist
