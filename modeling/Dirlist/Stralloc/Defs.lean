import Dirlist.Lib.Move
import Dirlist.Scan

/-! The parts of lib/stralloc that replace one text by another, on the block of memory that a string has. Memory
can be had for objects below `2 ^ 63` bytes. -/

namespace Dirlist
open Run

/-- `cells` is the block that `s` points to, `a` bytes long; there is none for a null pointer. -/
structure Stralloc where
  cells : Bytes
  len : Nat
deriving DecidableEq, Repr

def strallocInit : Stralloc where
  cells := []
  len := 0

namespace Stralloc

/-- `stralloc_ready`. What a larger block has beyond the old bytes is taken as zeros. -/
def ready (sa : Stralloc) (len : Nat) : Option Stralloc :=
  let wanted := (len + len / 8 + 30) % 2 ^ 64
  if sa.cells ≠ [] ∧ len ≤ sa.cells.length then some sa
  else if 2 ^ 63 ≤ wanted then none
  else some { sa with cells := sa.cells.take wanted ++ List.replicate (wanted - sa.cells.length) 0 }

def readyplus (sa : Stralloc) (len : Nat) : Option Stralloc :=
  if sa.cells ≠ [] then
    if 2 ^ 64 ≤ sa.len + len then none else sa.ready (sa.len + len)
  else sa.ready len

/-- `stralloc_catb`, with its result; `stralloc_cats` and `stralloc_append` come to the same. -/
def catb (sa : Stralloc) (buf : Bytes) : Exec (Nat × Stralloc) :=
  match sa.readyplus buf.length with
  | some sa => do
    let cells ← copyIn sa.cells sa.len buf
    .ok (1, { cells, len := sa.len + buf.length })
  | none => .ok (0, sa)

/-- One round of `stralloc_subst`, at byte `i` of `b`. -/
def substRound (b from_ to_ : Bytes) (_ : Nat) : Nat × Stralloc → Exec (Nat × Stralloc ⊕ Nat × Stralloc)
  | (i, out) => do
    if i < b.length then
      if i + from_.length ≤ b.length ∧ byteEqual from_ ((b.drop i).take from_.length) then
        let (r, out) ← out.catb to_
        if r = 0 then .ok (.inr (0, out)) else .ok (.inl (i + from_.length, out))
      else
        let c ← readCell b i
        let (r, out) ← out.catb [c]
        if r = 0 then .ok (.inr (0, out)) else .ok (.inl (i + 1, out))
    else .ok (.inr (1, out))

def subst (n : Nat) (out : Stralloc) (b from_ to_ : Bytes) : Exec (Nat × Stralloc) :=
  loop (substRound b from_ to_) n (0, out)

/-- The tail behind an occurrence at `p`, moved to where it will stand. -/
def moveTail (sa : Stralloc) (p flen tlen : Nat) : Exec Stralloc := do
  if flen < tlen then
    let cells ← copyDown sa.cells (p + tlen) (p + flen) (sa.len - p - flen)
    .ok { cells, len := sa.len + (tlen - flen) }
  else if flen > tlen then
    let cells ← copyUp sa.cells (p + tlen) (p + flen) (sa.len - p - flen)
    .ok { cells, len := sa.len - (flen - tlen) }
  else .ok sa

/-- One round of `stralloc_replaces`, which searches from `p` on. -/
def replacesRound (from_ to_ : Bytes) (_ : Nat) : Nat × Stralloc → Exec (Nat × Stralloc ⊕ Nat × Stralloc)
  | (p, sa) => do
    if p < sa.len then
      let rest ← readCells sa.cells p (sa.len - p)
      let p := p + byteFindb from_ rest
      if p = sa.len then .ok (.inr (1, sa))
      else
        match if to_.length > from_.length then sa.readyplus (to_.length - from_.length) else some sa with
        | some sa => do
          let sa ← sa.moveTail p from_.length to_.length
          let cells ← copyIn sa.cells p to_
          .ok (.inl (p + to_.length, { sa with cells }))
        | none => .ok (.inr (0, sa))
    else .ok (.inr (1, sa))

def replaces (n : Nat) (sa : Stralloc) (from_ to_ : Bytes) : Exec (Nat × Stralloc) :=
  loop (replacesRound from_ to_) n (0, sa)

end Stralloc

end Dirlist
