import Dirlist.Scan

/-! The string lists of lib/strlist: one byte buffer with a separator between the elements,
which every operation scans anew. A scan that goes from separator to separator makes at most
as many rounds as there are bytes. -/

namespace Dirlist
open Run

structure Strlist where
  sa : Bytes
  /-- whether `sa.s` was ever allocated -/
  ready : Bool
  sep : UInt8
deriving DecidableEq, Repr

def strlistInit (sep : UInt8) : Strlist where
  sa := []
  ready := false
  sep := sep

/-! ## Reading -/

/-- `strlist_foreach`: it stops at the end or at an empty element. -/
def foreachFrom (sep : UInt8) : Nat → Bytes → List Bytes
  | 0, _ => []
  | k + 1, s =>
    if s = [] then []
    else
      let n := byteChr sep s
      if n > 0 then s.take n :: foreachFrom sep k (s.drop (n + 1)) else []

def strlistForeach (sl : Strlist) : List Bytes := foreachFrom sl.sep sl.sa.length sl.sa

/-- The loop of `strlist_count` over the bytes that are left. -/
def countFrom (sep : UInt8) (l : Nat) : Nat → Bytes → Nat
  | 0, _ => l
  | k + 1, x =>
    if x = [] then l
    else
      let p := byteChr sep x
      if p = x.length then l
      else if p + 1 = x.length then l
      else countFrom sep (l + 1) k (x.drop (p + 1))

def strlistCount (sl : Strlist) : Nat :=
  if sl.sa.length = 0 then 0 else countFrom sl.sep 1 sl.sa.length sl.sa

/-- The loop of `strlist_at_n` at the byte `p`, behind `l` separators: where the element
starts and how long it is. -/
def atNFrom (sep : UInt8) (i : Nat) (l p : Nat) : Bytes → Option (Nat × Nat)
  | [] => none
  | c :: s =>
    if l = i then some (p, byteChr sep (c :: s))
    else atNFrom sep i (if c = sep then l + 1 else l) (p + 1) s

def strlistAtN (sl : Strlist) (i : Nat) : Option (Nat × Nat) := atNFrom sl.sep i 0 0 sl.sa

/-- The loop of `strlist_at`, which also looks at the byte behind the last one. -/
def atFrom (sep : UInt8) (i : Nat) (l p : Nat) : Bytes → Option Nat
  | [] => if l = i then some p else none
  | c :: s => if l = i then some p else atFrom sep i (if c = sep then l + 1 else l) (p + 1) s

def strlistAt (sl : Strlist) (i : Nat) : Option Nat :=
  if sl.ready then atFrom sl.sep i 0 0 sl.sa else none

def containsFrom (sep : UInt8) (x : Bytes) : Nat → Bytes → Bool
  | 0, _ => false
  | k + 1, s =>
    if s = [] then false
    else
      let n := byteChr sep s
      if n = x.length ∧ byteEqual (s.take n) x then true
      else containsFrom sep x k (s.drop (n + 1))

def strlistContainsb (sl : Strlist) (x : Bytes) : Bool :=
  containsFrom sl.sep x sl.sa.length sl.sa

/-- The loop of `strlist_indexofb` at the byte `p`. -/
def indexofFrom (sep : UInt8) (x : Bytes) (p : Nat) : Nat → Bytes → Int
  | 0, _ => -1
  | k + 1, s =>
    if s = [] then -1
    else
      let l := byteChr sep s
      if l = 0 ∧ s.length = 1 then -1
      else if x.length = l ∧ byteEqual (s.take l) x then p
      else indexofFrom sep x (p + (l + 1)) k (s.drop (l + 1))

def strlistIndexofb (sl : Strlist) (x : Bytes) : Int :=
  indexofFrom sl.sep x 0 sl.sa.length sl.sa

/-- `strlist_join` onto `sa` -/
def strlistJoin (sl : Strlist) (sa : Bytes) (delim : UInt8) : Bytes :=
  ((strlistForeach sl).foldl (fun (sa, i) x =>
    ((if i > 0 then sa ++ [delim] else sa) ++ x, i + 1)) (sa, 0)).1

/-! ## Growing -/

def strlistPushb (sl : Strlist) (x : Bytes) : Strlist :=
  { sl with
    sa := (if sl.sa.length > 0 then sl.sa ++ [sl.sep] else sl.sa) ++ x
    ready := sl.ready ∨ sl.sa.length > 0 ∨ x.length > 0 }

/-- `strlist_push`: unlike `strlist_pushb` it adds no second separator. -/
def strlistPush (sl : Strlist) (x : Bytes) : Strlist :=
  { sl with
    sa := (if sl.sa.length > 0 ∧ sl.sa.getLast? ≠ some sl.sep then sl.sa ++ [sl.sep] else sl.sa) ++ x
    ready := sl.ready ∨ sl.sa.length > 0 ∨ x.length > 0 }

def strlistPrependb (sl : Strlist) (x : Bytes) : Strlist :=
  { sl with
    sa := x ++ sl.sep :: sl.sa
    ready := true }

/-- The loop of `strlist_fromb`. -/
def frombFrom (delim : Bytes) : Nat → Strlist → Bytes → Strlist
  | 0, sl, _ => sl
  | k + 1, sl, x =>
    if x = [] then sl
    else
      let i := byteFindb delim x
      let sl := strlistPushb sl (x.take i)
      if i + delim.length > x.length then sl else frombFrom delim k sl (x.drop (i + delim.length))

def strlistFromb (sl : Strlist) (x delim : Bytes) : Strlist := frombFrom delim x.length sl x

/-- Only the bytes from the old end on have their separators exchanged. -/
def strlistCat (sl l : Strlist) : Strlist :=
  let n := sl.sa.length
  let sa := (if n > 0 ∧ sl.sa.getLast? ≠ some sl.sep then sl.sa ++ [sl.sep] else sl.sa) ++ l.sa
  { sl with
    sa := sa.take n ++ (sa.drop n).map fun c => if c = l.sep then sl.sep else c
    ready := true }

/-! ## Removing -/

def strallocRemove (sa : Bytes) (pos n : Nat) : Bytes :=
  if pos + 1 > sa.length then sa
  else if pos + n ≥ sa.length then sa.take pos
  else sa.take pos ++ sa.drop (pos + n)

/-- The separator behind the element goes with it. -/
def strlistRemoveb (l : Strlist) (x : Bytes) : Nat × Strlist :=
  let i := strlistIndexofb l x
  if i ≠ -1 then
    let i := i.toNat
    let n := if i + x.length < l.sa.length ∧ l.sa[i + x.length]? = some l.sep then x.length + 1
      else x.length
    (1, { l with sa := strallocRemove l.sa i n })
  else (0, l)

/-- The index `n` is also taken for the length of the element. -/
def strlistRemoveAt (l : Strlist) (n : Nat) : Nat × Strlist :=
  match strlistAt l n with
  | none => (0, l)
  | some i =>
    let (i, n) :=
      if i + n < l.sa.length then (i, if l.sa[i + n]? = some l.sep then n + 1 else n)
      else if i > 0 ∧ l.sa[i - 1]? = some l.sep then (i - 1, n + 1)
      else (i, n)
    (1, { l with sa := strallocRemove l.sa i n })

def strlistSub (l o : Strlist) : Nat × Strlist :=
  (strlistForeach o).foldl (fun (r, l) x =>
    let (removed, l) := strlistRemoveb l x
    (if removed > 0 then r + 1 else r, l)) (0, l)

def strlistRemoveAll (sl remove : Strlist) : Nat × Strlist :=
  (strlistForeach remove).foldl (fun (count, sl) x =>
    if strlistContainsb sl x then (count + 1, (strlistRemoveb sl x).2) else (count, sl)) (0, sl)

/-- Where the last separator of a buffer is. -/
def lastSep (sep : UInt8) : Bytes → Option Nat
  | [] => none
  | c :: s =>
    match lastSep sep s with
    | some i => some (i + 1)
    | none => if c = sep then some 0 else none

/-- `strlist_pop`, where it returns 1. Without a separator it looks at the byte before the buffer. -/
def strlistPop (sl : Strlist) : Exec Strlist :=
  match lastSep sl.sep sl.sa with
  | none => .error .bounds
  | some i => .ok { sl with sa := sl.sa.take i }

end Dirlist
