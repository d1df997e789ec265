import Dirlist.Cb.Bits
import Dirlist.Lib.Run

/-! The crit-bit maps of lib/cbmap. Here a pointer with its lowest bit set is an internal node. Allocations are taken
to succeed, and the allocators to copy keys and values. -/

namespace Dirlist
open Run Critbit

structure CbmapInternalNode where
  byte : Nat
  otherbits : UInt8
deriving DecidableEq, Repr

structure CbmapDataNode where
  key : Bytes
  value : Bytes
deriving DecidableEq, Repr

abbrev CbmapTree := Tree CbmapInternalNode CbmapDataNode

structure Cbmap where
  root : Option CbmapTree
  count : Nat

def cbmapNew : Cbmap where
  root := none
  count := 0

/-- `direction = (1 + (q->otherbits | c)) >> 8`, where `c` is zero behind the end of the key. -/
def cbmapDirection (key : Bytes) (q : CbmapInternalNode) : Bool :=
  branchBit q.otherbits (if q.byte < key.length then key.getD q.byte 0 else 0)

/-- `cbmap_data_node_update_value` -/
def cbmapDataNodeUpdateValue (value : Bytes) (data : CbmapDataNode) : CbmapDataNode :=
  if data.value.length = value.length && byteDiff data.value value = 0 then data else { data with value }

/-- The loop over `newbyte`: where the key differs from the one of the data node, and the byte that has there. As
`newbyte` is 32 bits wide, a loop of `2 ^ 32` rounds starts over. -/
def cbmapNewbyte (newbyte : Nat) (dataKey keyBytes : Bytes) : Exec (Option (Nat × UInt8 × UInt8)) :=
  if newbyte = 2 ^ 32 then .error .fuel
  else
    match dataKey, keyBytes with
    | _, [] => .ok none
    | [], _ :: _ => .error .bounds
    | c :: dataKey, k :: keyBytes =>
      if c ≠ k then .ok (some (newbyte, c, k)) else cbmapNewbyte (newbyte + 1) dataKey keyBytes
termination_by structural keyBytes

/-- The second walk goes on through the nodes that are not behind the new one. -/
def cbmapBelow (newnode q : CbmapInternalNode) : Bool :=
  !(q.byte > newnode.byte || (q.byte = newnode.byte && q.otherbits > newnode.otherbits))

def cbmapInsert (map : Cbmap) (key value : Bytes) : Exec (Int × Cbmap) :=
  match map.root with
  | none => .ok (1, { root := some (.leaf { key, value }), count := map.count + 1 })
  | some root => do
    match ← cbmapNewbyte 0 (root.nearest (cbmapDirection key)).key key with
    | none =>
      .ok (2, { map with root := some (root.update (cbmapDirection key) (cbmapDataNodeUpdateValue value)) })
    | some (newbyte, c, k) =>
      let newnode := { byte := newbyte, otherbits := otherBits (c ^^^ k) }
      let newdirection := branchBit newnode.otherbits c
      let graft := Tree.branch newnode (!newdirection) (.leaf { key, value })
      .ok (1, { root := some (root.insert (cbmapDirection key) (cbmapBelow newnode) graft), count := map.count + 1 })

def cbmapGet (map : Cbmap) (key : Bytes) : Option Bytes :=
  match map.root with
  | none => none
  | some root =>
    let data := root.nearest (cbmapDirection key)
    if data.key.length = key.length && byteDiff data.key key = 0 then some data.value else none

def cbmapDelete (map : Cbmap) (key : Bytes) : Int × Cbmap :=
  match map.root with
  | none => (0, map)
  | some root =>
    let data := root.nearest (cbmapDirection key)
    if data.key.length ≠ key.length || byteDiff data.key key ≠ 0 then (0, map)
    else (1, { root := root.erase (cbmapDirection key), count := map.count - 1 })

section
variable {σ : Type} (visitorFn : Bytes → Bytes → σ → Int × σ)

/-- `userData` is what the visitor works on. -/
def cbmapVisit : CbmapTree → σ → Int × σ
  | .leaf data, userData => visitorFn data.key data.value userData
  | .node _ zero one, userData =>
    let (r, userData) := cbmapVisit zero userData
    if r ≠ 1 then (0, userData)
    else
      let (r, userData) := cbmapVisit one userData
      if r ≠ 1 then (0, userData) else (1, userData)

/-- The walk to a data node, and the node where the prefix ended. -/
def cbmapTop (keyPrefix : Bytes) (top : CbmapTree) : CbmapTree → CbmapTree × CbmapDataNode
  | .leaf data => (top, data)
  | .node q zero one =>
    if cbmapDirection keyPrefix q then cbmapTop keyPrefix (if q.byte < keyPrefix.length then one else top) one
    else cbmapTop keyPrefix (if q.byte < keyPrefix.length then zero else top) zero

/-- Whether the key begins with the prefix, whose length alone ends the loop. -/
def cbmapBegins : Bytes → Bytes → Exec Bool
  | _, [] => .ok true
  | [], _ :: _ => .error .bounds
  | c :: dataKey, k :: keyPrefix => if c ≠ k then .ok false else cbmapBegins dataKey keyPrefix

def cbmapVisitPrefix (map : Cbmap) (keyPrefix : Bytes) (userData : σ) : Exec (Int × σ) :=
  match map.root with
  | none => .ok (1, userData)
  | some root => do
    let (top, data) := cbmapTop keyPrefix root root
    if ← cbmapBegins data.key keyPrefix then .ok (cbmapVisit visitorFn top userData) else .ok (1, userData)

def cbmapVisitAll (map : Cbmap) (userData : σ) : Exec (Int × σ) := cbmapVisitPrefix visitorFn map [] userData
end

/-! ## Runs -/

inductive CbmapOp
  | insert (key value : Bytes)
  | get (key : Bytes)
  | delete (key : Bytes)
  | count
deriving DecidableEq, Repr

inductive CbmapResult
  | code (r : Int)
  | value (v : Option Bytes)
  | number (n : Nat)
deriving DecidableEq, Repr

def cbmapStep (op : CbmapOp) (map : Cbmap) : Exec (CbmapResult × Cbmap) :=
  match op with
  | .insert key value => do
    let (r, map) ← cbmapInsert map key value
    .ok (.code r, map)
  | .get key => .ok (.value (cbmapGet map key), map)
  | .delete key => .ok (.code (cbmapDelete map key).1, (cbmapDelete map key).2)
  | .count => .ok (.number map.count, map)

def cbmapRun : List CbmapOp → Cbmap → Exec (List CbmapResult × Cbmap)
  | [], map => .ok ([], map)
  | op :: ops, map => do
    let (r, map) ← cbmapStep op map
    let (rs, map) ← cbmapRun ops map
    .ok (r :: rs, map)

end Dirlist
