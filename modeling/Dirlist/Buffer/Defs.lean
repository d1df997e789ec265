import Dirlist.Charbuf.Defs

/-! The input side of lib/buffer: a window over a byte source that gives its bytes in pieces of any
size and never fails. -/

namespace Dirlist
open Run

structure Buffer where
  /-- the unread bytes `x[p]` to `x[n - 1]` -/
  window : Bytes
  p : Nat
  a : Nat
  /-- the bytes are those of a mapped file, which are never moved -/
  mapped : Bool
  /-- what the source still holds, and how often it was read -/
  source : Bytes
  reads : Nat
deriving DecidableEq, Repr

/-- An empty buffer of `a` bytes over a source. -/
def bufferInit (a : Nat) (source : Bytes) : Buffer where
  window := []
  p := 0
  a := a
  mapped := false
  source := source
  reads := 0

/-- All bytes are in the buffer. -/
def bufferWhole (text : Bytes) : Buffer where
  window := text
  p := 0
  a := text.length
  mapped := true
  source := []
  reads := 0

/-- One call of the read operation for at most `len` bytes. -/
def bufferOp (sched : Schedule) (b : Buffer) (len : Nat) : Bytes :=
  b.source.take (min len (max 1 (sched b.reads)))

/-- `buffer_stubborn_read`; the bytes go to the end of the window. -/
def bufferStubbornRead (sched : Schedule) (b : Buffer) (len : Nat) : Nat × Buffer :=
  let got := bufferOp sched b len
  (got.length, { b with
    window := b.window ++ got
    source := b.source.drop got.length
    reads := b.reads + 1 })

def bufferFeed (sched : Schedule) (b : Buffer) : Nat × Buffer :=
  let b := if b.window = [] then (bufferStubbornRead sched { b with p := 0 } b.a).2 else b
  (b.window.length, b)

/-- One round of the loop of `buffer_prefetch`. -/
def prefetchRound (sched : Schedule) (n : Nat) (_ : Nat) (b : Buffer) : Exec (Buffer ⊕ Int × Buffer) :=
  if b.window.length < n then
    let (w, b) := bufferStubbornRead sched b (b.a - (b.p + b.window.length))
    if w = 0 then .ok (.inr (b.window.length, b)) else .ok (.inl b)
  else .ok (.inr (b.window.length, b))

def bufferPrefetch (sched : Schedule) (m : Nat) (b : Buffer) (n : Nat) : Exec (Int × Buffer) :=
  if b.p ≠ 0 ∧ b.p + n ≥ b.a ∧ b.mapped then .ok (b.window.length, b)
  else
    let b := if b.p ≠ 0 ∧ b.p + n ≥ b.a then { b with p := 0 } else b
    let n := if b.p + n ≥ b.a then b.a - b.p else n
    if n = 0 then .ok (-1, b) else loop (prefetchRound sched n) m b

/-- `buffer_peek` and `buffer_peekc`: the byte, or nothing. -/
def bufferPeek (sched : Schedule) (m : Nat) (b : Buffer) : Exec (Option UInt8 × Buffer) := do
  let (r, b) ← bufferPrefetch sched m b 1
  if r ≤ 0 then .ok (none, b) else .ok (b.window.head?, b)

def bufferSkipc (sched : Schedule) (b : Buffer) : Nat × Buffer :=
  let (r, b) := if b.window = [] then bufferFeed sched b else (b.window.length, b)
  if r = 0 then (0, b) else (1, { b with window := b.window.tail, p := b.p + 1 })

/-- One round of `buffer_skip_pred` and `buffer_skip_until`, with the bytes skipped so far. The byte
that ends the loop is skipped too. -/
def skipPredRound (sched : Schedule) (pred : UInt8 → Bool) (_ : Nat) :
    Nat × Buffer → Exec (Nat × Buffer ⊕ Nat × Buffer)
  | (n, b) =>
    let (r, b) := if b.window = [] then bufferFeed sched b else (b.window.length, b)
    match b.window with
    | [] => .ok (.inr (r, b))
    | c :: window =>
      let b := { b with window := window, p := b.p + 1 }
      if pred c then .ok (.inl (n + 1, b)) else .ok (.inr (n + 1, b))

def bufferSkipPred (sched : Schedule) (pred : UInt8 → Bool) (m : Nat) (b : Buffer) : Exec (Nat × Buffer) :=
  loop (skipPredRound sched pred) m (0, b)

def bufferSkipUntil (sched : Schedule) (charset : Bytes) (m : Nat) (b : Buffer) : Exec (Nat × Buffer) :=
  bufferSkipPred sched (· ∉ charset) m b

/-- A zero byte counts as a blank. -/
def bufferSkipspace (sched : Schedule) (m : Nat) (b : Buffer) : Exec (Nat × Buffer) :=
  bufferSkipPred sched (· ∈ [32, 9, 11, 13, 10, 0]) m b

/-- One round of `buffer_gettok_sa`. -/
def gettokRound (sched : Schedule) (charset : Bytes) (m : Nat) :
    Bytes × Buffer → Exec (Bytes × Buffer ⊕ Bytes × Buffer)
  | (sa, b) => do
    let (c, b) ← bufferPeek sched m b
    match c with
    | none => .ok (.inr (sa, b))
    | some c =>
      if c ∈ charset then .ok (.inr (sa, b))
      else
        let (r, b) := bufferSkipc sched b
        if r = 0 then .ok (.inr (sa ++ [c], b)) else .ok (.inl (sa ++ [c], b))

/-- `buffer_gettok_sa` into an empty string. -/
def bufferGettokSa (sched : Schedule) (charset : Bytes) (m : Nat) (b : Buffer) : Exec (Bytes × Buffer) :=
  loop (gettokRound sched charset) m ([], b)

end Dirlist
