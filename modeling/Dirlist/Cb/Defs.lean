import Dirlist.Cb.Bits
import Dirlist.Lib.Run

/-! The crit-bit trees of lib/cb. A pointer with its lowest bit set is an external node, which holds a key; the
others are internal nodes. `None` is the null root. Allocations are taken to succeed. -/

namespace Dirlist
open Run Critbit

structure CritbitNode where
  byte : Nat
  mask : UInt8
deriving DecidableEq, Repr

abbrev CritbitTree := Tree CritbitNode Bytes

/-- `CB_SUCCESS`, `CB_EXISTS` and `CB_NOTFOUND` -/
inductive CbStatus
  | success
  | duplicate
  | notfound
deriving DecidableEq, Repr

def cbLess (a b : CritbitNode) : Bool := a.byte < b.byte || (a.byte = b.byte && a.mask < b.mask)

/-- `(keylen <= node->byte) ? 0 : ((1 + ((bytes[node->byte] | node->mask) & 0xFF)) >> 8)` -/
def cbBranch (key : Bytes) (node : CritbitNode) : Bool :=
  if key.length ≤ node.byte then false else branchBit node.mask (key.getD node.byte 0)

/-- `prev`, the last internal node on the way to the key. -/
def cbPrev (key : Bytes) (prev : Option CritbitNode) : CritbitTree → Option CritbitNode
  | .leaf _ => prev
  | .node node zero one => if cbBranch key node then cbPrev key (some node) one else cbPrev key (some node) zero

/-- How far two keys are the same, and what is left of them there. `byte` is 32 bits wide. -/
def cbCommon (keylen len : Nat) (byte : Nat) : Bytes → Bytes → Exec (Nat × Bytes × Bytes)
  | a :: ikey, b :: iptr =>
    if byte < keylen && byte < len then
      if a = b then cbCommon keylen len ((byte + 1) % 2 ^ 32) ikey iptr else .ok (byte, a :: ikey, b :: iptr)
    else .ok (byte, a :: ikey, b :: iptr)
  | ikey, iptr => if byte < keylen && byte < len then .error .bounds else .ok (byte, ikey, iptr)

/-- The walk to the place of the new node, which takes over what is there. -/
def cbPlace (key : Bytes) (node : CritbitNode) (graft : CritbitTree → CritbitTree) : CritbitTree → Exec CritbitTree
  | .leaf _ => .error .assert -- "should never get here"
  | .node next zero one =>
    if cbLess next node then
      if key.length ≤ next.byte then .error .bounds
      else if branchBit next.mask (key.getD next.byte 0) then do .ok (.node next zero (← cbPlace key node graft one))
      else do .ok (.node next (← cbPlace key node graft zero) one)
    else .ok (graft (.node next zero one))

/-- `make_external_node` -/
def makeExternalNode (key : Bytes) : Exec CritbitTree := if key.length = 0 then .error .assert else .ok (.leaf key)

def cbInsert (key : Bytes) : Option CritbitTree → Exec (CbStatus × Option CritbitTree)
  | none => do .ok (.success, some (← makeExternalNode key))
  | some root => do
    let str := root.nearest (cbBranch key)
    let (byte, ikey, iptr) ← cbCommon key.length str.length 0 key str
    if byte = key.length && byte = str.length then .ok (.duplicate, some root)
    else
      match ikey, iptr with
      | a :: _, b :: _ =>
        let node := { byte, mask := otherBits (a ^^^ b) }
        let new ← makeExternalNode key
        let graft := Tree.branch node (branchBit node.mask a) new
        -- iff the bit of `prev` is later in the string than the new one, the place is further up
        if (cbPrev key none root).any (cbLess node) then do .ok (.success, some (← cbPlace key node graft root))
        else .ok (.success, some (root.insert (cbBranch key) (fun _ => true) graft))
      | _, _ => .error .bounds

/-- Whether the key of an external node begins with `key`. -/
def cbMatches (key str : Bytes) : Bool := str.length ≥ key.length && byteDiff key str = 0

def cbFind (key : Bytes) : Option CritbitTree → Option Bytes
  | none => none
  | some root =>
    let str := root.nearest (cbBranch key)
    if cbMatches key str then some str else none

def cbErase (key : Bytes) : Option CritbitTree → CbStatus × Option CritbitTree
  | none => (.notfound, none)
  | some root =>
    let str := root.nearest (cbBranch key)
    if str.length = key.length && byteDiff key str = 0 then (.success, root.erase (cbBranch key))
    else (.notfound, some root)

def cbClear (_root : Option CritbitTree) : Option CritbitTree := none

/-- The loop of `cb_find_top_i`: `top` is the node before `ptr`. -/
def cbFindTopI (key : Bytes) (top : CritbitTree) : CritbitTree → CritbitTree
  | .leaf str => .leaf str
  | .node node zero one =>
    if key.length ≤ node.byte then top
    else if branchBit node.mask (key.getD node.byte 0) then cbFindTopI key (.node node zero one) one
    else cbFindTopI key (.node node zero one) zero

/-- The results that are there and the offset that is left. The next result goes behind them. -/
def cbFindPrefixI (key : Bytes) (numresults : Int) : CritbitTree → List Bytes × Int → Exec (List Bytes × Int)
  | .leaf str, (results, offset) =>
    if numresults < results.length then .error .assert
    else if results.length = numresults then .ok (results, offset)
    else if cbMatches key str then
      if offset > 0 then .ok (results, offset - 1) else .ok (results ++ [str], offset)
    else .ok (results, offset)
  | .node _ zero one, (results, offset) =>
    if numresults < results.length then .error .assert
    else if results.length = numresults then .ok (results, offset)
    else do
      let (results, offset) ← cbFindPrefixI key numresults zero (results, offset)
      if numresults > results.length then cbFindPrefixI key numresults one (results, offset) else .ok (results, offset)

def cbFindPrefix (key : Bytes) (numresults offset : Int) : Option CritbitTree → Exec (List Bytes)
  | none => .ok []
  | some root =>
    if numresults > 0 then do
      let (results, _) ← cbFindPrefixI key numresults (cbFindTopI key root root) ([], offset)
      .ok results
    else .ok []

section
variable {σ : Type} (matchCb : Bytes → σ → Int × σ)

/-- `data` is what the callback works on. -/
def cbForeachI (key : Bytes) : CritbitTree → σ → Int × σ
  | .leaf str, data => if cbMatches key str then matchCb str data else (0, data)
  | .node _ zero one, data =>
    let (result, data) := cbForeachI key zero data
    if result = 0 then cbForeachI key one data else (result, data)

def cbForeach (key : Bytes) (root : Option CritbitTree) (data : σ) : Int × σ :=
  match root with
  | none => (0, data)
  | some root => cbForeachI matchCb key (cbFindTopI key root root) data
end

/-! ## Runs -/

inductive CbOp
  | insert (key : Bytes)
  | erase (key : Bytes)
  | find (key : Bytes)
  | findPrefix (key : Bytes) (numresults offset : Int)
  | clear
deriving DecidableEq, Repr

/-- What a call gives back. -/
inductive CbResult
  | status (s : CbStatus)
  | found (key : Option Bytes)
  | results (keys : List Bytes)
  | none
deriving DecidableEq, Repr

def cbStep (op : CbOp) (root : Option CritbitTree) : Exec (CbResult × Option CritbitTree) :=
  match op with
  | .insert key => do
    let (s, root) ← cbInsert key root
    .ok (.status s, root)
  | .erase key => .ok (.status (cbErase key root).1, (cbErase key root).2)
  | .find key => .ok (.found (cbFind key root), root)
  | .findPrefix key numresults offset => do .ok (.results (← cbFindPrefix key numresults offset root), root)
  | .clear => .ok (.none, cbClear root)

def cbRun : List CbOp → Option CritbitTree → Exec (List CbResult × Option CritbitTree)
  | [], root => .ok ([], root)
  | op :: ops, root => do
    let (r, root) ← cbStep op root
    let (rs, root) ← cbRun ops root
    .ok (r :: rs, root)

end Dirlist
