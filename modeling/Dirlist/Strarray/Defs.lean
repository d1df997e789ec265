import Dirlist.Lib.Move
import Dirlist.Lib.Ring
import Dirlist.Str
import Dirlist.Strlist.Sort

/-! The arrays of lib/array the way lib/strarray uses them: the members are pointers to strings and eight bytes
wide. A cell without a string is a null pointer or one to a string that was freed. Memory runs out only for
objects of `2 ^ 63` bytes and more. -/

namespace Dirlist
open Run Ring

/-- `cells` is what `p` leads to. Both other fields count bytes. -/
structure Strarray where
  cells : List (Option CStr)
  allocated : Int
  initialized : Nat
deriving DecidableEq, Repr

def arrayInit : Strarray where
  cells := []
  allocated := 0
  initialized := 0

def sizeofPtr : Nat := 8

/-- `array_allocate`; the result is the offset of member `pos`, as a count of bytes. -/
def arrayAllocate (x : Strarray) (membersize pos : Nat) : Option Nat × Strarray :=
  let wanted := membersize * (pos + 1)
  if x.allocated < 0 ∨ 2 ^ 63 ≤ pos + 1 ∨ 2 ^ 64 ≤ wanted then (none, x)
  else if x.initialized < wanted then
    if x.allocated ≤ wanted then
      let unit := if membersize < 8 then 128 else 4096
      let rounded := (wanted + (unit - 1)) / unit * unit
      if 2 ^ 63 ≤ rounded then (none, x)
      else
        let kept := x.cells.take (x.initialized / sizeofPtr)
        (some (pos * membersize), {
          cells := kept ++ List.replicate (rounded / sizeofPtr - x.initialized / sizeofPtr) none
          allocated := rounded
          initialized := (pos + 1) * membersize })
    else (some (pos * membersize), { x with initialized := (pos + 1) * membersize })
  else (some (pos * membersize), x)

/-- `array_get`, with the number of the cell as its result. -/
def arrayGet (x : Strarray) (pos : Nat) : Option Nat :=
  let wanted := sizeofPtr * pos
  if 2 ^ 63 ≤ pos + 1 ∨ 2 ^ 64 ≤ wanted ∨ x.allocated ≤ wanted ∨ x.initialized ≤ wanted then none else some pos

def arrayTruncate (x : Strarray) (len : Nat) : Strarray :=
  let wanted := sizeofPtr * len
  if 2 ^ 63 ≤ len ∨ 2 ^ 64 ≤ wanted ∨ x.initialized < wanted then x else { x with initialized := wanted }

def arrayTrunc (x : Strarray) : Strarray := { x with initialized := 0 }

def arrayFail (_ : Strarray) : Strarray where
  cells := []
  allocated := -1
  initialized := 0

def strarraySize (x : Strarray) : Nat := if x.allocated < 0 then 2 ^ 64 - 1 else x.initialized / sizeofPtr

/-- The string that a member points to. -/
def strarrayAt (x : Strarray) (i : Nat) : Exec CStr := do
  if i < strarraySize x then
    match ← readCell x.cells i with
    | some s => .ok s
    | none => .error .null
  else .error .bounds

/-- `strarray_push`, which is `array_catb` of one pointer. -/
def strarrayPush (x : Strarray) (s : CStr) : Exec Strarray :=
  if 2 ^ 64 ≤ x.initialized + sizeofPtr then .ok (arrayFail x)
  else
    match arrayAllocate x 1 (x.initialized + sizeofPtr - 1) with
    | (none, x) => .ok (arrayFail x)
    | (some _, y) => do
      let cells ← copyIn y.cells (x.initialized / sizeofPtr) [some s]
      .ok { y with cells }

/-! ## Two arrays -/

/-- One round of `strarray_intersection`, at `i` in the first and `j` in the second array. -/
def intersectionRound (s1 s2 : Strarray) (_ : Nat) :
    Nat × Nat × Strarray → Exec (Nat × Nat × Strarray ⊕ Strarray)
  | (i, j, out) => do
    if i < strarraySize s1 ∧ j < strarraySize s2 then
      let a ← strarrayAt s1 i
      let b ← strarrayAt s2 j
      let delta := strDiff a b
      if delta < 0 then .ok (.inl (i + 1, j, out))
      else if delta > 0 then .ok (.inl (i, j + 1, out))
      else
        let out ← strarrayPush out a
        .ok (.inl (i + 1, j + 1, out))
    else .ok (.inr out)

def strarrayIntersection (n : Nat) (s1 s2 out : Strarray) : Exec Strarray :=
  loop (intersectionRound s1 s2) n (0, 0, out)

/-- What the loop of `strarray_union` changes. -/
structure Union where
  k : Nat
  i : Nat
  j : Nat
  common : Nat
  cells : List (Option CStr)

/-- One round of `strarray_union`. Both members are read and compared before `i` and `j` are looked at. -/
def unionRound (s1 s2 : Strarray) (u : Union) : Exec Union := do
  let a ← strarrayAt s1 u.i
  let b ← strarrayAt s2 u.j
  let delta := strDiff a b
  if strarraySize s1 ≤ u.i then
    let cells ← writeCell u.cells u.k (some b)
    .ok { u with cells, k := u.k + 1, j := u.j + 1 }
  else if strarraySize s2 ≤ u.j ∨ delta < 0 then
    let cells ← writeCell u.cells u.k (some a)
    .ok { u with cells, k := u.k + 1, i := u.i + 1 }
  else if delta > 0 then
    let cells ← writeCell u.cells u.k (some b)
    .ok { u with cells, k := u.k + 1, j := u.j + 1 }
  else
    let cells ← writeCell u.cells u.k (some a)
    .ok { u with cells, k := u.k + 1, i := u.i + 1, j := u.j + 1, common := u.common + 1 }

def unionRounds (s1 s2 : Strarray) : Nat → Union → Exec Union
  | 0, u => .ok u
  | left + 1, u => do
    let u ← unionRound s1 s2 u
    unionRounds s1 s2 left u

def strarrayUnion (s1 s2 out : Strarray) : Exec Strarray := do
  let total := strarraySize s1 + strarraySize s2
  let out := (arrayAllocate out sizeofPtr ((total + (2 ^ 64 - 1)) % 2 ^ 64)).2
  let u ← unionRounds s1 s2 total { k := 0, i := 0, j := 0, common := 0, cells := out.cells }
  .ok (arrayTruncate { out with cells := u.cells } (u.k - u.common))

/-! ## Splicing -/

/-- `alloc_free` of `del` members from the pointer `s` on. -/
def freeMembers (cells : List (Option CStr)) (s : Option Nat) (del : Nat) : Exec (List (Option CStr)) := do
  if del = 0 then .ok cells
  else
    let s ← deref s
    copyIn cells s (List.replicate del none)

/-- The tail behind the deleted members, moved to where it belongs; `s` is the pointer behind `start`. -/
def spliceTail (a : Strarray) (s : Option Nat) (len start del insert newlen : Nat) :
    Exec (Option Nat × Strarray) := do
  if insert ≠ del then
    let nmove := len - (start + del)
    let movepos := s.map (· + del)
    let (s, a) :=
      if insert > del then
        let (last, a) := arrayAllocate a sizeofPtr newlen
        (last.map fun last => last / sizeofPtr - newlen + start, a)
      else (s, a)
    if nmove ≠ 0 then
      let s' ← deref s
      let src ← deref (movepos.bind (arrayGet a))
      let cells ← (if insert > del then copyDown else copyUp) a.cells (s' + insert) src nmove
      .ok (s, { a with cells })
    else .ok (s, a)
  else .ok (s, a)

/-- `strarray_splice`, where `x` is the `insert` strings. -/
def strarraySplice (a : Strarray) (start del : Nat) (x : List CStr) : Exec (Nat × Strarray) := do
  let a := if a.cells = [] then arrayTrunc (arrayAllocate a sizeofPtr 0).2 else a
  let s := arrayGet a start
  let len := strarraySize a
  let del := if (start + del) % 2 ^ 64 > len then len - start else del
  let cells ← freeMembers a.cells s del
  let newlen := len - del + x.length
  let (s, a) ← spliceTail { a with cells } s len start del x.length newlen
  if x = [] then .ok (newlen, arrayTruncate a newlen)
  else
    let s ← deref s
    let cells ← copyIn a.cells s (x.map some)
    .ok (newlen, arrayTruncate { a with cells } newlen)

end Dirlist
