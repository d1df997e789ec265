import Dirlist.Byte
import Dirlist.Lib.Ring

/-! The hash table of lib/hmap. The bucket array is the tuples at the addresses below
`bucketSize`, its root slots; tuples allocated later live above them. Every tuple carries
two pairs of links: `next` and `prev` thread all stored tuples in insertion order,
`hashNext` and `hashPrev` thread the tuples of one bucket. Allocation never fails here. -/

namespace Dirlist
open Run Ring

def maxSizeKey : Nat := 1024

inductive HmapError
  | success
  | failed
  | allocatedError
  | createDbError
  | createTupulError
  | dbEmpty
  | tupulEmpty
  | keyEmpty
  | tupleNotFound
  | tupleDuplicate
  | tupleAlreadyExist
  | dataTypeInvalid
  | all
deriving DecidableEq, Repr

inductive HmapTupleType
  | primary
  | secondary
deriving DecidableEq, Repr

inductive HmapDataType
  | int
  | uint
  | int64
  | uint64
  | double
  | chars
  | custom
  | tuple
deriving DecidableEq, Repr

/-- The `vals` union, as the member written last. A double is its bit pattern, and the
buffer behind `val_chars` is part of the value. -/
inductive HmapVals
  | int (v : Int32)
  | uint (v : UInt32)
  | longlong (v : Int64)
  | ulonglong (v : UInt64)
  | double (v : UInt64)
  | chars (v : Option Bytes)
  | custom (v : Option Addr)
deriving DecidableEq, Repr

structure Tuple where
  next : Option Addr
  prev : Option Addr
  hashNext : Option Addr
  hashPrev : Option Addr
  key : Bytes
  type : HmapTupleType
  index : Nat
  dataLen : Nat
  data : Option Addr
  dataType : HmapDataType
  vals : HmapVals
deriving DecidableEq, Repr

/-- A tuple as `calloc` or `byte_zero` leaves it. -/
def Tuple.zero : Tuple where
  next := none
  prev := none
  hashNext := none
  hashPrev := none
  key := []
  type := .primary
  index := 0
  dataLen := 0
  data := none
  dataType := .int
  vals := .int 0

structure HmapDb where
  tupleCount : Int
  secondaryTupleCount : Int
  bucketSize : Nat
  listTuple : Option Addr
  cells : Heap Tuple
  brk : Addr

/-- The data type and the variable arguments of one `hmap_add` call. `tuple` stands for
the data types the switch of `HMAP_SET_DATA` has no case for. -/
inductive HmapArg
  | int (v : Int32)
  | uint (v : UInt32)
  | int64 (v : Int64)
  | uint64 (v : UInt64)
  | double (v : UInt64)
  | chars (data : Bytes)
  | custom (v : Option Addr)
  | tuple
deriving DecidableEq, Repr

def HmapArg.dataType : HmapArg → HmapDataType
  | .int _ => .int
  | .uint _ => .uint
  | .int64 _ => .int64
  | .uint64 _ => .uint64
  | .double _ => .double
  | .chars _ => .chars
  | .custom _ => .custom
  | .tuple => .tuple

def HmapArg.vals? : HmapArg → Option HmapVals
  | .int v => some (.int v)
  | .uint v => some (.uint v)
  | .int64 v => some (.longlong v)
  | .uint64 v => some (.ulonglong v)
  | .double v => some (.double v)
  | .chars data => some (.chars (some data))
  | .custom v => some (.custom v)
  | .tuple => none

def listLinks : Links Tuple where
  next := Tuple.next
  prev := Tuple.prev
  setNext t p := { t with next := p }
  setPrev t p := { t with prev := p }
  rest t := { t with next := none, prev := none }
  next_setNext _ _ := rfl
  next_setPrev _ _ := rfl
  prev_setNext _ _ := rfl
  prev_setPrev _ _ := rfl
  rest_setNext _ _ := rfl
  rest_setPrev _ _ := rfl

def hashLinks : Links Tuple where
  next := Tuple.hashNext
  prev := Tuple.hashPrev
  setNext t p := { t with hashNext := p }
  setPrev t p := { t with hashPrev := p }
  rest t := { t with hashNext := none, hashPrev := none }
  next_setNext _ _ := rfl
  next_setPrev _ _ := rfl
  prev_setNext _ _ := rfl
  prev_setPrev _ _ := rfl
  rest_setNext _ _ := rfl
  rest_setPrev _ _ := rfl

/-! `HDB_LIST_APPEND`, `HDB_LIST_REMOVE`, `HDB_HASH_APPEND` and `HDB_HASH_REMOVE`. -/

def hdbListAppend := listLinks.append

def hdbListRemove := listLinks.remove

def hdbHashAppend := hashLinks.append

def hdbHashRemove := hashLinks.remove

def hmapHash (key : Bytes) : UInt32 :=
  let h := key.foldl (fun (h : UInt32) (c : UInt8) =>
    let h := h + c.toUInt32
    let h := h + (h <<< 10)
    h ^^^ (h >>> 6)) 0
  let h := h + (h <<< 3)
  let h := h ^^^ (h >>> 11)
  let h := h + (h <<< 15)
  h &&& 0x7FFFFFFF

def hmapCmp (v1 v2 : Bytes) : Int := if v1.length ≠ v2.length then -1 else byteDiff v1 v2

def hmapInit (bucketSize : Nat) : HmapDb where
  tupleCount := 0
  secondaryTupleCount := 0
  bucketSize := bucketSize
  listTuple := none
  cells := fun a => if a < bucketSize then some .zero else none
  brk := bucketSize

def HmapDb.indexOf (db : HmapDb) (key : Bytes) : Addr := (hmapHash key).toNat % db.bucketSize

/-- One round of the inner loop of `hmap_search`, which goes round the ring from `itr`. -/
def searchRing (cells : Heap Tuple) (key : Bytes) (itr : Addr) (_ : Nat) :
    Option Addr → Exec (Option Addr ⊕ Option Addr)
  | none => .ok (.inr none)
  | some p => do
    let t ← load cells p
    if hmapCmp t.key key = 0 then .ok (.inr (some p))
    else if t.hashNext = some itr then .ok (.inr none)
    else .ok (.inl t.hashNext)

/-- One round of the outer loop, which starts the inner loop from every node in turn. -/
def searchFrom (cells : Heap Tuple) (key : Bytes) (root : Addr) (n : Nat) :
    Option Addr → Exec (Option Addr ⊕ Option Addr)
  | none => .ok (.inr none)
  | some itr => do
    match ← loop (searchRing cells key itr) n (some itr) with
    | some p => .ok (.inr (some p))
    | none =>
      let t ← load cells itr
      if t.hashNext = some root then .ok (.inr none) else .ok (.inl t.hashNext)

def hmapSearch (n : Nat) (db : HmapDb) (key : Bytes) : Exec (HmapError × Option Addr) := do
  let index := db.indexOf key
  if key = [] then .ok (.keyEmpty, none)
  else
    match ← loop (searchFrom db.cells key index) n (some index) with
    | some p => .ok (.success, some p)
    | none => .ok (.tupleNotFound, none)

/-- `HMAP_SET_DATA`. -/
def hmapSetData (t : Tuple) : HmapArg → Except HmapError Tuple
  | .int v => .ok { t with vals := .int v }
  | .uint v => .ok { t with vals := .uint v }
  | .int64 v => .ok { t with vals := .longlong v }
  | .uint64 v => .ok { t with vals := .ulonglong v }
  | .double v => .ok { t with vals := .double v }
  | .chars data => .ok { t with vals := .chars (some data), dataLen := data.length }
  | .custom v => .ok { t with vals := .custom v }
  | .tuple => .error .dataTypeInvalid

/-- Copy the key with its terminating zero into the array of `MAX_SIZE_KEY` bytes. -/
def hmapSetKey (t : Tuple) (key : Bytes) : Exec Tuple :=
  if key.length < maxSizeKey then .ok { t with key := key } else .error .bounds

/-- Give a root slot its hash links: a ring of its own, or a place on the ring it is on. -/
def hmapLinkRoot (cells : Heap Tuple) (index : Addr) (t : Tuple) : Exec (Heap Tuple) :=
  if t.hashNext = none ∧ t.hashPrev = none then
    .ok (upd cells index fun t => { t with hashNext := some index, hashPrev := some index })
  else do
    let (cells, _) ← hdbHashAppend cells (some index) index
    .ok cells

/-- The branch of `hmap_add` that stores into an empty root slot. -/
def hmapReuseRoot (db : HmapDb) (index : Addr) (root : Tuple) (key : Bytes) (arg : HmapArg) :
    Exec (Except HmapError Nat × HmapDb) :=
  match hmapSetData root arg with
  | .error e => .ok (.error e, db)
  | .ok t => do
    let t ← hmapSetKey t key
    let t := { t with index := index, type := .primary, dataType := arg.dataType }
    let cells ← hmapLinkRoot (upd db.cells index fun _ => t) index t
    let (cells, listTuple) ← hdbListAppend cells db.listTuple index
    .ok (.ok index, { db with cells, listTuple, tupleCount := db.tupleCount + 1 })

/-- The branch of `hmap_add` that allocates a tuple and chains it to the root slot. -/
def hmapAddSecondary (db : HmapDb) (index : Addr) (key : Bytes) (arg : HmapArg) :
    Exec (Except HmapError Nat × HmapDb) :=
  match hmapSetData .zero arg with
  | .error e => .ok (.error e, db)
  | .ok t => do
    let t ← hmapSetKey t key
    let t := { t with
      index := index, hashNext := none, hashPrev := none, next := none, prev := none,
      type := .secondary, dataType := arg.dataType }
    let p := db.brk
    let cells := Function.update db.cells p (some t)
    let (cells, listTuple) ← hdbListAppend cells db.listTuple p
    let (cells, _) ← hdbHashAppend cells (some index) p
    .ok (.ok index, { db with
      cells, listTuple, brk := p + 1, tupleCount := db.tupleCount + 1,
      secondaryTupleCount := db.secondaryTupleCount + 1 })

/-- `hmap_add`; its `dup_flag` is never read. -/
def hmapAdd (n : Nat) (db : HmapDb) (key : Bytes) (arg : HmapArg) :
    Exec (Except HmapError Nat × HmapDb) := do
  let index := db.indexOf key
  if key = [] then .ok (.error .keyEmpty, db)
  else
    let (r, _) ← hmapSearch n db key
    match r with
    | .success => .ok (.error .tupleAlreadyExist, db)
    | .tupleNotFound =>
      let root ← load db.cells index
      if root.key = [] then hmapReuseRoot db index root key arg
      else hmapAddSecondary db index key arg
    | r => .ok (.error r, db)

def hmapFreeData (t : Tuple) : HmapError × Tuple :=
  match t.dataType with
  | .int => (.success, { t with vals := .int 0 })
  | .uint => (.success, { t with vals := .uint 0 })
  | .int64 => (.success, { t with vals := .longlong 0 })
  | .uint64 => (.success, { t with vals := .ulonglong 0 })
  | .double => (.success, { t with vals := .double 0 })
  | .chars => (.success, { t with vals := .chars none })
  | .custom => (.success, { t with vals := .custom none })
  | .tuple => (.dataTypeInvalid, t)

def hmapSet (n : Nat) (db : HmapDb) (key data : Bytes) : Exec (Option Addr × HmapDb) := do
  if key = [] then .ok (none, db)
  else
    let (r, t) ← hmapSearch n db key
    if r = .success then
      let p ← deref t
      let cells ← modify db.cells p fun t =>
        { (hmapFreeData t).2 with vals := .chars (some data), dataLen := data.length }
      .ok (some p, { db with cells })
    else
      let (_, db) ← hmapAdd n db key (.chars data)
      let (r, t) ← hmapSearch n db key
      .ok (if r = .success then t else none, db)

def hmapDelete (n : Nat) (db : HmapDb) (key : Bytes) : Exec (HmapError × HmapDb) := do
  let (r, ptr) ← hmapSearch n db key
  if key = [] then .ok (.keyEmpty, db)
  else if r = .success then
    let p ← deref ptr
    let (cells, listTuple) ← hdbListRemove db.cells db.listTuple p
    let t ← load cells p
    let db := { db with listTuple, tupleCount := db.tupleCount - 1 }
    if t.index = p then
      let cells ← modify cells p fun t =>
        { (hmapFreeData { t with key := [] }).2 with data := none, dataLen := 0 }
      .ok (r, { db with cells })
    else
      let (cells, _) ← hdbHashRemove cells (some t.index) p
      .ok (r, { db with
        cells := Function.update cells p none
        secondaryTupleCount := db.secondaryTupleCount - 1 })
  else .ok (r, db)

/-! Runs of the three updating operations. -/

inductive HmapOp
  | add (key : Bytes) (arg : HmapArg)
  | set (key data : Bytes)
  | delete (key : Bytes)
deriving DecidableEq, Repr

def HmapOp.key : HmapOp → Bytes
  | .add key _ => key
  | .set key _ => key
  | .delete key => key

def hmapStep (n : Nat) (db : HmapDb) : HmapOp → Exec HmapDb
  | .add key arg => do
    let (_, db) ← hmapAdd n db key arg
    .ok db
  | .set key data => do
    let (_, db) ← hmapSet n db key data
    .ok db
  | .delete key => do
    let (_, db) ← hmapDelete n db key
    .ok db

def hmapRun (n : Nat) (db : HmapDb) : List HmapOp → Exec HmapDb
  | [] => .ok db
  | op :: ops => do
    let db ← hmapStep n db op
    hmapRun n db ops

end Dirlist
