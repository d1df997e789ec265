import Dirlist.Byte
import Dirlist.Lib.Run

/-! The character buffer of lib/charbuf: a small window over a byte source, with as many
bytes read ahead as a caller asked for. The source gives its bytes in pieces of any size,
never fails, and answers a read of no bytes as it answers the end. -/

namespace Dirlist
open Run

/-- How many bytes the `k`th read would give, were there enough bytes and room. -/
abbrev Schedule := Nat → Nat

structure Charbuf where
  /-- the bytes `chrs[0]` to `chrs[p - 1]` -/
  window : Bytes
  a : Nat
  eof : Bool
  line : Nat
  column : Nat
  offset : Nat
  /-- what the source still holds, and how often it was read -/
  source : Bytes
  reads : Nat
deriving DecidableEq, Repr

/-- The allocated size is kept in a field of 12 bits. -/
def charbufInit (source : Bytes) (lookahead : Nat) : Charbuf where
  window := []
  a := (lookahead + 7) % 2 ^ 32 / 8 * 8 % 2 ^ 12
  eof := false
  line := 0
  column := 0
  offset := 0
  source := source
  reads := 0

/-- One call of the read callback for at most `len` bytes. -/
def charbufOp (sched : Schedule) (b : Charbuf) (len : Nat) : Bytes :=
  b.source.take (min len (max 1 (sched b.reads)))

/-- `charbuf_stubborn_read`; the bytes go to the end of the window. -/
def charbufStubbornRead (sched : Schedule) (b : Charbuf) (max : Nat) : Nat × Charbuf :=
  if b.eof then (0, b)
  else
    let n := min (b.a - b.window.length) max
    let got := charbufOp sched b n
    (got.length, { b with
      window := b.window ++ got
      eof := got.length = 0
      source := b.source.drop got.length
      reads := b.reads + 1 })

/-- One round of the loop of `charbuf_peekn`. What is still wanted is an unsigned
difference. -/
def peeknRound (sched : Schedule) (n : Nat) (_ : Nat) (b : Charbuf) :
    Exec (Charbuf ⊕ Option Bytes × Charbuf) :=
  if b.window.length = n then .ok (.inr (some (b.window.take n), b))
  else
    let (r, b) := charbufStubbornRead sched b ((n + (2 ^ 32 - b.window.length)) % 2 ^ 32)
    if r > 0 then .ok (.inl b) else .ok (.inr (none, b))

def charbufPeekn (sched : Schedule) (m : Nat) (b : Charbuf) (n : Nat) :
    Exec (Option Bytes × Charbuf) :=
  if n < b.a then loop (peeknRound sched n) m b else .error .assert

/-- `charbuf_peekc`: the byte, or nothing where the source returns 0. -/
def charbufPeekc (sched : Schedule) (b : Charbuf) : Option UInt8 × Charbuf :=
  match b.window with
  | c :: _ => (some c, b)
  | [] =>
    let (_, b) := charbufStubbornRead sched b 1
    (b.window.head?, b)

/-- Count a byte that leaves the window. -/
def charbufCount (b : Charbuf) (c : UInt8) : Charbuf :=
  if c = 10 then
    { b with column := 0, line := (b.line + 1) % 2 ^ 32, offset := (b.offset + 1) % 2 ^ 64 }
  else { b with column := (b.column + 1) % 2 ^ 32, offset := (b.offset + 1) % 2 ^ 64 }

def charbufSkipc (sched : Schedule) (b : Charbuf) : Option UInt8 × Charbuf :=
  let (c, b) := charbufPeekc sched b
  match c with
  | some c => (some c, { charbufCount b c with window := b.window.tail })
  | none => (none, b)

/-- `charbuf_skip` returns the byte, so a byte of zero is taken for the end. -/
def charbufSkip (sched : Schedule) (b : Charbuf) : Nat × Charbuf :=
  let (c, b) := charbufSkipc sched b
  match c with
  | some c => (c.toNat, b)
  | none => (0, b)

/-- `charbuf_peek`, likewise -/
def charbufPeek (sched : Schedule) (b : Charbuf) : Nat × Charbuf :=
  match charbufPeekc sched b with
  | (some c, b) => (c.toNat, b)
  | (none, b) => (0, b)

def charbufGet (sched : Schedule) (b : Charbuf) : Nat × Charbuf :=
  let (r, b) := charbufPeek sched b
  if r > 0 then charbufSkip sched b else (r, b)

def charbufGetc (sched : Schedule) (b : Charbuf) : Option UInt8 × Charbuf :=
  let (c, b) := charbufPeekc sched b
  match c with
  | some c => (some c, (charbufSkip sched b).2)
  | none => (none, b)

def charbufNextc (sched : Schedule) (b : Charbuf) : Option UInt8 × Charbuf :=
  let (r, b) := charbufSkip sched b
  if r > 0 then charbufPeekc sched b else (none, b)

/-- One round of `charbuf_pred_skip` with the bytes skipped so far. -/
def predSkipRound (sched : Schedule) (pred : UInt8 → Nat → Bool) (_ : Nat) :
    Charbuf × Nat → Exec (Charbuf × Nat ⊕ Nat × Charbuf)
  | (b, n) =>
    let (c, b) := charbufPeekc sched b
    match c with
    | none => .ok (.inr (0, b))
    | some c =>
      if pred c n then
        let (r, b) := charbufSkip sched b
        if r > 0 then .ok (.inl (b, n + 1)) else .ok (.inr (n + 1, b))
      else .ok (.inr (n, b))

def charbufPredSkip (sched : Schedule) (m : Nat) (b : Charbuf) (pred : UInt8 → Nat → Bool) :
    Exec (Nat × Charbuf) := loop (predSkipRound sched pred) m (b, 0)

/-- One round of `charbuf_pred_lookahead` with the bytes accepted so far. -/
def predLookaheadRound (sched : Schedule) (pred : UInt8 → Nat → Bool) (m : Nat) :
    Charbuf × Nat → Exec (Charbuf × Nat ⊕ Nat × Charbuf)
  | (b, n) => do
    let (v, b) ← charbufPeekn sched m b (n + 1)
    match v.bind fun v => v[n]? with
    | some c => if pred c n then .ok (.inl (b, n + 1)) else .ok (.inr (n, b))
    | none => .ok (.inr (n, b))

def charbufPredLookahead (sched : Schedule) (m : Nat) (b : Charbuf) (pred : UInt8 → Nat → Bool) :
    Exec (Nat × Charbuf) := loop (predLookaheadRound sched pred) m (b, 0)

/-- One round of `charbuf_skip_until` with the bytes skipped so far. -/
def skipUntilRound (sched : Schedule) (c : UInt8) (_ : Nat) :
    Charbuf × Nat → Exec (Charbuf × Nat ⊕ Nat × Charbuf)
  | (b, n) =>
    let (d, b) := charbufPeekc sched b
    match d with
    | none => .ok (.inr (0, b))
    | some d =>
      if d = 0 then .ok (.inr (0, b))
      else if d = c then .ok (.inr (n, b))
      else
        let (r, b) := charbufSkip sched b
        if r > 0 then .ok (.inl (b, n + 1)) else .ok (.inr (0, b))

def charbufSkipUntil (sched : Schedule) (m : Nat) (b : Charbuf) (c : UInt8) :
    Exec (Nat × Charbuf) := loop (skipUntilRound sched c) m (b, 0)

/-! ## Shorthands of charbuf.h -/

def charbufSkipWs (sched : Schedule) (m : Nat) (b : Charbuf) : Exec (Nat × Charbuf) :=
  charbufPredSkip sched m b fun c _ => isspace c

/-- `charbuf_is_samechar` -/
def isSamechar (other : UInt8) (c : UInt8) (pos : Nat) : Bool := pos = 0 && c = other

/-- `charbuf_skip_ifeq`; at the end of the stream the byte is skipped and 0 returned. -/
def charbufSkipIfeq (sched : Schedule) (m : Nat) (b : Charbuf) (c : UInt8) : Exec (Nat × Charbuf) :=
  charbufPredSkip sched m b (isSamechar c)

def charbufSkipIfset (sched : Schedule) (b : Charbuf) (set : Bytes) : Nat × Charbuf :=
  match charbufPeekc sched b with
  | (none, b) => (0, b)
  | (some c, b) => if c ∈ set then charbufSkip sched b else (0, b)

/-- `charbuf_skipn`, without the number of bytes skipped: no caller looks at it. -/
def charbufSkipn (sched : Schedule) : Charbuf → Nat → Charbuf
  | b, 0 => b
  | b, n + 1 =>
    match charbufPeekc sched b with
    | (none, b) => b
    | (some _, b) =>
      let (r, b) := charbufSkip sched b
      if r > 0 then charbufSkipn sched b n else b

end Dirlist
