import Dirlist.Lib.Run

/-! The hash map of lib/hashmap: a table of lists, and the keys in the order they were put in. A list stands behind a
sentinel, and its nodes and their data are one here. -/

namespace Dirlist
open Run

/-- What a map is set up with. -/
structure HashmapFuncs (κ : Type) where
  comparator : κ → κ → Int
  hashFunc : κ → Nat → Nat
  keyDup : κ → κ

structure HashmapPair (κ υ : Type) where
  key : κ
  value : υ
deriving DecidableEq, Repr

structure Hashmap (κ υ : Type) where
  capacity : Nat
  size : Nat
  table : Nat → Option (List (HashmapPair κ υ))
  keys : List κ

/-- The difference of two `unsigned long`, cut to an `int`. -/
def hashmapDefaultComparator (l r : UInt64) : Int := ((l - r).toBitVec.truncate 32).toInt

def hashmapDefaultHashFunc (key : UInt64) (capacity : Nat) : Nat := key.toNat % capacity

def hashmapDefault : HashmapFuncs UInt64 where
  comparator := hashmapDefaultComparator
  hashFunc := hashmapDefaultHashFunc
  keyDup := id

variable {κ υ : Type} (f : HashmapFuncs κ)

def hashmapInit (capacity : Nat) : Hashmap κ υ where
  capacity := capacity
  size := 0
  table := fun _ => none
  keys := []

/-- `map->hash_func(key, map->capacity)`, as an index of the table -/
def hashmapOffset (m : Hashmap κ υ) (key : κ) : Exec Nat :=
  if f.hashFunc key m.capacity < m.capacity then .ok (f.hashFunc key m.capacity) else .error .bounds

/-- The walk of `hashmap_search`, `hashmap_contains_key` and `hashmap_put`. -/
def searchList (key : κ) (list : List (HashmapPair κ υ)) : Option (HashmapPair κ υ) :=
  list.find? fun pair => f.comparator pair.key key = 0

def hashmapSearch (m : Hashmap κ υ) (key : κ) : Exec (Option (HashmapPair κ υ)) := do
  let offset ← hashmapOffset f m key
  .ok ((m.table offset).bind (searchList f key))

/-- `node ? node->data : NULL` -/
def hashmapFind (m : Hashmap κ υ) (key : κ) : Exec (Option (HashmapPair κ υ)) := hashmapSearch f m key

def hashmapGet (m : Hashmap κ υ) (key : κ) : Exec (Option υ) := do
  let pair ← hashmapSearch f m key
  .ok (pair.map HashmapPair.value)

def hashmapContainsKey (m : Hashmap κ υ) (key : κ) : Exec Bool := do
  let offset ← hashmapOffset f m key
  match m.table offset with
  | none => .ok false
  | some list => .ok (searchList f key list).isSome

/-- `pair->value = value`, at the first pair of this key -/
def assignList (key : κ) (value : υ) : List (HashmapPair κ υ) → List (HashmapPair κ υ)
  | [] => []
  | pair :: rest =>
    if f.comparator pair.key key = 0 then { pair with value := value } :: rest
    else pair :: assignList key value rest

/-- The pair of the node that comes back, and the map. -/
def hashmapPut (m : Hashmap κ υ) (key : κ) (value : υ) : Exec (HashmapPair κ υ × Hashmap κ υ) := do
  let offset ← hashmapOffset f m key
  let list := (m.table offset).getD []
  match searchList f key list with
  | some pair =>
    .ok ({ pair with value := value },
      { m with table := Function.update m.table offset (some (assignList f key value list)) })
  | none =>
    let pair := { key := f.keyDup key, value := value }
    .ok (pair, { m with
      size := m.size + 1
      table := Function.update m.table offset (some (pair :: list))
      keys := m.keys ++ [pair.key] })

/-- The loop of `hashmap_remove` from `current_node` on: what is left when the key is met. -/
def removeLoop (key : κ) : List (HashmapPair κ υ) → Exec (Option (List (HashmapPair κ υ)))
  | [] => .error .null
  | pair :: rest =>
    if f.comparator pair.key key = 0 then .ok (some rest)
    else if rest.isEmpty then .ok none
    else do
      let left ← removeLoop key rest
      .ok (left.map (pair :: ·))

def hashmapRemove (m : Hashmap κ υ) (key : κ) : Exec (Hashmap κ υ) := do
  let offset ← hashmapOffset f m key
  match m.table offset with
  | none => .ok m
  | some list =>
    match ← removeLoop f key list with
    | none => .ok m
    | some left => .ok { m with size := m.size - 1, table := Function.update m.table offset (some left) }

def hashmapClear (m : Hashmap κ υ) : Hashmap κ υ := { m with size := 0, table := fun _ => none }

inductive HashmapOp (κ υ : Type)
  | put (key : κ) (value : υ)
  | find (key : κ)
  | get (key : κ)
  | containsKey (key : κ)
  | remove (key : κ)
  | size
  | keys
  | clear

inductive HashmapOut (κ υ : Type)
  | none
  | pair (p : Option (HashmapPair κ υ))
  | value (v : Option υ)
  | flag (b : Bool)
  | number (n : Nat)
  | keys (ks : List κ)
deriving DecidableEq, Repr

def hashmapStep (op : HashmapOp κ υ) (m : Hashmap κ υ) : Exec (HashmapOut κ υ × Hashmap κ υ) :=
  match op with
  | .put key value => do
    let (pair, m) ← hashmapPut f m key value
    .ok (.pair (some pair), m)
  | .find key => do .ok (.pair (← hashmapFind f m key), m)
  | .get key => do .ok (.value (← hashmapGet f m key), m)
  | .containsKey key => do .ok (.flag (← hashmapContainsKey f m key), m)
  | .remove key => do .ok (.none, ← hashmapRemove f m key)
  | .size => .ok (.number m.size, m)
  | .keys => .ok (.keys m.keys, m)
  | .clear => .ok (.none, hashmapClear m)

def hashmapRun : List (HashmapOp κ υ) → Hashmap κ υ → Exec (List (HashmapOut κ υ) × Hashmap κ υ)
  | [], m => .ok ([], m)
  | op :: ops, m => do
    let (out, m) ← hashmapStep f op m
    let (outs, m) ← hashmapRun ops m
    .ok (out :: outs, m)

end Dirlist
