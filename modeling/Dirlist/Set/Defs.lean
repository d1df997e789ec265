import Dirlist.Byte
import Dirlist.Lib.Run

/-! The hash set of lib/set. The array holds the first bucket of every chain itself, so an
empty slot is a bucket without a value; later buckets are allocated one by one. Counters
are 32 bits wide. A table of `2 ^ 31` buckets or more is taken not to be allocated, and the
assertion on the allocation to fail. -/

namespace Dirlist
open Run

structure Bucket where
  value : Bytes
  hash : UInt32
deriving DecidableEq, Repr

/-- An array element: its own value, if any, and the chain of buckets behind it. -/
structure SetSlot where
  head : Option Bucket
  next : List Bucket
deriving DecidableEq, Repr

structure SetT where
  entries : Nat
  overflow : Nat
  len : Nat
  hashFp : Bytes → UInt32
  array : Nat → SetSlot

def emptySlot : SetSlot where
  head := none
  next := []

/-- The buckets a walk over a slot visits: it stops at the first one without a value. -/
def SetSlot.walk (b : SetSlot) : List Bucket :=
  match b.head with
  | none => []
  | some e => e :: b.next

/-- A set over an array as `calloc` returns it. -/
def emptySet (hashFp : Bytes → UInt32) (len : Nat) : SetT where
  entries := 0
  overflow := 0
  len := len
  hashFp := hashFp
  array := fun _ => emptySlot

def baseSize : Nat := 1024

def setInit (hashFp : Bytes → UInt32) : SetT := emptySet hashFp baseSize

def setHas (s : SetT) (val : Bytes) : Exec Bool :=
  let hash := s.hashFp val
  if s.len = 0 then .error .bounds
  else .ok ((s.array (hash.toNat % s.len)).walk.any fun b =>
    val.length = b.value.length ∧ b.hash = hash ∧ b.value = val)

/-- All values, slot by slot, in the order the loops over the array meet them. -/
def setValues (s : SetT) : List Bytes :=
  (List.range s.len).flatMap fun i => (s.array i).walk.map Bucket.value

/-- Put a value that is not there into its slot or at the end of the slot's chain. -/
def setInsert (s : SetT) (val : Bytes) : SetT :=
  let hash := s.hashFp val
  let index := hash.toNat &&& (s.len - 1)
  let b := s.array index
  match b.head with
  | none =>
    { s with
      array := Function.update s.array index { b with head := some ⟨val, hash⟩ }
      entries := (s.entries + 1) % 2 ^ 32 }
  | some _ =>
    { s with
      array := Function.update s.array index { b with next := b.next ++ [⟨val, hash⟩] }
      overflow := (s.overflow + 1) % 2 ^ 32
      entries := (s.entries + 1) % 2 ^ 32 }

/-- `set_realloc`, with the `set_add` it calls for every value as a parameter. -/
def setRealloc (add : SetT → Bytes → Exec (Nat × SetT)) (s : SetT) : Exec SetT :=
  let len := s.len * 2 % 2 ^ 32
  if 2 ^ 31 ≤ len then .error .assert
  else
    (setValues s).foldlM (fun t val => do
      let (_, t) ← add t val
      .ok t) (emptySet s.hashFp len)

/-- `set_add` on an initialised set. The bound `len * .75` is exact, `len` being a multiple
of four. -/
def setAdd : Nat → SetT → Bytes → Exec (Nat × SetT)
  | 0, _, _ => .error .fuel
  | n + 1, s, val => do
    if ← setHas s val then .ok (2, s)
    else
      let s ← if 4 * ((s.entries + (2 ^ 32 - s.overflow)) % 2 ^ 32) > 3 * s.len then
        setRealloc (setAdd n) s else .ok s
      .ok (1, setInsert s val)

def setRun (n : Nat) (s : SetT) : List Bytes → Exec SetT
  | [] => .ok s
  | val :: vals => do
    let (_, s) ← setAdd n s val
    setRun n s vals

/-! Iterators. A position in a chain is the bucket there with the buckets behind it. -/

structure SetIterator where
  index : Nat
  current : Option (Bucket × List Bucket)
deriving DecidableEq, Repr

/-- The first slot with a value from `index` on, `left` slots being left. -/
def nextSlot (s : SetT) (index : Nat) : Nat → Option SetIterator
  | 0 => none
  | left + 1 =>
    match (s.array index).head with
    | some e => some ⟨index, some (e, (s.array index).next)⟩
    | none => nextSlot s (index + 1) left

def setIteratorInit (s : SetT) : SetIterator × Nat :=
  match nextSlot s 0 s.len with
  | some it => (it, 1)
  | none => (⟨0, none⟩, 0)

def setIteratorNext (s : SetT) (it : SetIterator) : SetIterator × Nat :=
  match it.current with
  | none => (it, 0)
  | some (_, b :: next) => ({ it with current := some (b, next) }, 1)
  | some (_, []) =>
    match nextSlot s (it.index + 1) (s.len - (it.index + 1)) with
    | some it => (it, 1)
    | none => ({ it with current := none }, 3)

/-- One round of `set_foreach`, with the values met so far. -/
def setForeach (s : SetT) (_ : Nat) :
    SetIterator × List Bytes → Exec (SetIterator × List Bytes ⊕ List Bytes)
  | (it, vals) =>
    match it.current with
    | none => .ok (.inr vals)
    | some (b, _) => .ok (.inl ((setIteratorNext s it).1, vals ++ [b.value]))

/-- The values an iterator meets from `set_iterator_init` to its end. -/
def setIterate (n : Nat) (s : SetT) : Exec (List Bytes) :=
  loop (setForeach s) n ((setIteratorInit s).1, [])

/-! `set_toarray` allocates `entries + 1` pointers and writes them one by one. -/

def arrayPut (array : List (Option Bytes)) (i : Nat) (val : Option Bytes) :
    Exec (List (Option Bytes)) :=
  if i < array.length then .ok (array.set i val) else .error .bounds

def setToarray (s : SetT) : Exec (List (Option Bytes)) := do
  let array := List.replicate ((s.entries + 1) % 2 ^ 32) none
  let (array, _) ← (setValues s).foldlM (fun (array, i) val => do
    let array ← arrayPut array i (some val)
    .ok (array, i + 1)) (array, 0)
  arrayPut array s.entries none

end Dirlist
