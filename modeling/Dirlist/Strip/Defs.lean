import Dirlist.Charbuf.Defs

/-! `strip-comments`: a scanner that leaves out comments, and a queue of lines behind it that
squeezes empty ones. What is written to the output is kept as one list. -/

namespace Dirlist
open Run

/-- What `eat_line` returns, the text it leaves and what it writes. -/
def eatLine (x : Bytes) : Nat × Bytes × Bytes :=
  let p := scanNoncharsetnskip x [10, 13]
  if p < x.length then
    let q := scanCharsetnskip (x.drop p) [10, 13]
    if p = 0 ∧ q = x.length then (p, x, [])
    else (p, x.drop (p + q), x.take (p + if q > 2 then 2 else q))
  else (p, x, [])

/-- One round of `consume_output`, with the text left, the length of the line before and the
output. -/
def consumeRound (_ : Nat) : Bytes × Nat × Bytes → Exec (Bytes × Nat × Bytes ⊕ Bytes × Bytes)
  | (s, prevlen, out) =>
    if s = [] then .ok (.inr (s, out))
    else
      let (r, s, put) := eatLine s
      if r = 0 ∧ prevlen ≠ 0 then .ok (.inr (s, out ++ put)) else .ok (.inl (s, r, out ++ put))

/-- The queue and the output afterwards. -/
def consumeOutput (k : Nat) (sa out : Bytes) : Exec (Bytes × Bytes) := do
  let (s, out) ← loop consumeRound k (sa, 2 ^ 64 - 1, out)
  if s.length < sa.length ∧ s ≠ [] then .ok (s, out) else .ok ([], out)

/-- The line as `put_line` cuts it. -/
def cutLine (x : Bytes) : Bytes :=
  if x.length > 1 then
    let x := if x.getLast? = some 10 ∨ x.getLast? = some 13 then x.dropLast else x
    x.rdropWhile isspace
  else x

def putLine (k : Nat) (sa x out : Bytes) : Exec (Bytes × Bytes) :=
  let x := cutLine x
  let sa := sa ++ x ++ [10]
  if x.length > 0 then consumeOutput k sa out else .ok (sa, out)

structure Strip where
  input : Charbuf
  line : Bytes
  queue : Bytes
  out : Bytes

/-- The loop to the end of a `/*` comment. -/
def blockRound (sched : Schedule) (k : Nat) (b : Charbuf) : Exec (Charbuf ⊕ Charbuf) := do
  let (r, b) ← charbufSkipUntil sched k b 42
  if r = 0 then .ok (.inr b)
  else
    let (_, b) := charbufSkip sched b
    let (c2, b) := charbufPeek sched b
    if c2 ≠ 47 then .ok (.inl b) else .ok (.inr b)

/-- A byte that is not left out. -/
def keepByte (k : Nat) (s : Strip) (c : Nat) : Exec Strip :=
  if c = 10 then do
    let (queue, out) ← putLine k s.queue s.line s.out
    .ok { s with line := [], queue := queue, out := out }
  else .ok { s with line := s.line ++ [UInt8.ofNat c] }

def stripRound (sched : Schedule) (k : Nat) (s : Strip) : Exec (Strip ⊕ Strip) :=
  let (c, b) := charbufGet sched s.input
  if c = 0 then .ok (.inr { s with input := b })
  else if c = 47 then
    let (c2, b) := charbufPeek sched b
    if c2 = 47 then do
      let (_, b) ← charbufSkipUntil sched k b 10
      .ok (.inl { s with input := b })
    else if c2 = 42 then do
      let b ← loop (blockRound sched) k (charbufSkip sched b).2
      .ok (.inl { s with input := (charbufSkip sched b).2 })
    else do .ok (.inl (← keepByte k { s with input := b } c))
  else do .ok (.inl (← keepByte k { s with input := b } c))

/-- The end of `strip_comments`: the last line, and what the queue still holds. -/
def flushLine (k : Nat) (sa x out : Bytes) : Exec Bytes := do
  let (sa, out) ← putLine k sa x out
  if sa.length > 0 then do
    let (_, out) ← consumeOutput k sa out
    .ok out
  else .ok out

def stripComments (sched : Schedule) (k : Nat) (input : Charbuf) : Exec Bytes := do
  let s ← loop (stripRound sched) k ⟨input, [], [], []⟩
  flushLine k s.queue s.line s.out

end Dirlist
