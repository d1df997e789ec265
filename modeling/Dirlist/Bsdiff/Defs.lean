import Dirlist.Buffer.Stream
import Dirlist.Lib.Move

/-! `bsdiff_read` of bsdiffcat. The three streams are buffers over what the decompressor delivers, in pieces of any
size. The old file is a mapped one, whose position is set from outside, too. What is printed about the records is
left out. -/

namespace Dirlist
open Run

/-! ## Buffers -/

/-- One round of `buffer_get`, with the bytes that are still wanted and those that came. `feed` is `buffer_feed`, and
`pop` takes bytes that are there. -/
def getRound {β : Type} (feed : β → Int × β) (pop : β → Nat → Exec (Bytes × β)) (_ : Nat) :
    Nat × Bytes × β → Exec (Nat × Bytes × β ⊕ Int × Bytes × β)
  | (len, x, b) => do
    if len = 0 then .ok (.inr (x.length, x, b))
    else
      let (blen, b) := feed b
      if blen < 0 then .ok (.inr (blen, x, b))
      else if blen = 0 then .ok (.inr (x.length, x, b))
      else
        let blen := min blen.toNat len
        let (got, b) ← pop b blen
        .ok (.inl (len - blen, x ++ got, b))

/-- `buffer_get`, with its result, the bytes it copied and the buffer it leaves. -/
def bufferGet {β : Type} (feed : β → Int × β) (pop : β → Nat → Exec (Bytes × β)) (n : Nat) (b : β) (len : Nat) :
    Exec (Int × Bytes × β) :=
  loop (getRound feed pop) n (if 2 ^ 63 ≤ len then 2 ^ 63 - 1 else len, [], b)

def Buffer.pop (b : Buffer) (k : Nat) : Exec (Bytes × Buffer) :=
  .ok (b.window.take k, { b with window := b.window.drop k, p := b.p + k })

def Buffer.feed (sched : Schedule) (b : Buffer) : Int × Buffer :=
  let (blen, b) := bufferFeed sched b
  (blen, b)

def Buffer.get (sched : Schedule) (n : Nat) (b : Buffer) (len : Nat) : Exec (Int × Bytes × Buffer) :=
  bufferGet (Buffer.feed sched) Buffer.pop n b len

/-- The buffer of a mapped file; `p` and `n` are of type `size_t`. -/
structure Mapped where
  x : Bytes
  p : Nat
  n : Nat
deriving DecidableEq, Repr

namespace Mapped

/-- `buffer_mmapread` -/
def read (file : Bytes) : Mapped where
  x := file
  p := 0
  n := file.length

/-- `buffer_feed`. At the end nothing is read, and the buffer is empty from then on. -/
def feed (b : Mapped) : Int × Mapped :=
  let b := if b.p = b.n then { b with n := 0, p := 0 } else b
  (((b.n : Int) - b.p).bmod (2 ^ 64), b)

def pop (b : Mapped) (k : Nat) : Exec (Bytes × Mapped) := do
  let got ← readCells b.x b.p k
  .ok (got, { b with p := b.p + k })

def get (n : Nat) (b : Mapped) (len : Nat) : Exec (Int × Bytes × Mapped) := bufferGet feed pop n b len

/-- `b.p += off` -/
def seek (b : Mapped) (off : Int) : Mapped := { b with p := ((b.p + off) % 2 ^ 64).toNat }

end Mapped

/-- A buffer that writes: the bytes `x[0]` to `x[p - 1]`, and what was given to `write`, which takes all in the end. -/
structure Sink where
  a : Nat
  x : Bytes
  written : Bytes
deriving DecidableEq, Repr

namespace Sink

/-- `buffer_flush` -/
def flush (b : Sink) : Sink := { b with x := [], written := b.written ++ b.x }

/-- `buffer_put` -/
def put (b : Sink) (buf : Bytes) : Sink :=
  if b.a - b.x.length < buf.length then
    let b := b.flush
    if b.a < buf.length then { b with written := b.written ++ buf } else { b with x := b.x ++ buf }
  else { b with x := b.x ++ buf }

end Sink

/-! ## Control records -/

/-- `uint64_unpack`, of eight bytes. -/
def uint64Unpack : Bytes → Nat
  | [] => 0
  | c :: x => c.toNat + 256 * uint64Unpack x

structure BsdiffControl where
  addLen : Int
  extraLen : Int
  seekOff : Int
deriving DecidableEq, Repr

/-- `buffer_getint64`; there is no value where it fails. -/
def bufferGetint64 (sched : Schedule) (n : Nat) (b : Buffer) : Exec (Option Int × Buffer) := do
  let (r, buffer, b) ← b.get sched n 8
  if r ≠ 8 then .ok (none, b)
  else
    let u := uint64Unpack buffer
    let i : Int := (u % 2 ^ 63 : Nat)
    .ok (some (if 2 ^ 63 ≤ u then -i else i), b)

def bsdiffReadCtrl (sched : Schedule) (n : Nat) (b : Buffer) : Exec (Option BsdiffControl × Buffer) := do
  let (addLen, b) ← bufferGetint64 sched n b
  match addLen with
  | none => .ok (none, b)
  | some addLen => do
    let (extraLen, b) ← bufferGetint64 sched n b
    match extraLen with
    | none => .ok (none, b)
    | some extraLen => do
      let (seekOff, b) ← bufferGetint64 sched n b
      match seekOff with
      | none => .ok (none, b)
      | some seekOff => .ok (some { addLen, extraLen, seekOff }, b)

/-! ## Patching -/

/-- `old` and `new` are missing where their `x` is null. -/
structure Bsdiff where
  ctrl : Buffer
  data : Buffer
  extra : Buffer
  old : Option Mapped
  new : Option Sink
  r : Int
  w : Int

/-- The difference bytes of a record; the loop goes on or ends. No memory can be had for a negative length. -/
def bsdiffAdd (sched : Schedule) (n : Nat) (s : Bsdiff) (len : Int) : Exec (Bool × Bsdiff) := do
  if len = 0 then .ok (true, s)
  else if len < 0 then .error .null
  else
    let (got, add, data) ← s.data.get sched n len.toNat
    if got ≠ len then .ok (false, { s with data })
    else
      let after := { s with data, r := (s.r + len).bmod (2 ^ 64), w := (s.w + len).bmod (2 ^ 64) }
      match s.old with
      | none => .ok (true, after)
      | some old => do
        let (got, src, old) ← old.get n len.toNat
        if got ≠ len then .ok (false, { s with data, old := some old })
        else
          let add := List.zipWith (· + ·) add src
          .ok (true, { after with old := some old, new := s.new.map fun new => new.put add })

/-- The extra bytes of a record. -/
def bsdiffExtra (sched : Schedule) (n : Nat) (s : Bsdiff) (len : Int) : Exec (Bool × Bsdiff) := do
  if len = 0 then .ok (true, s)
  else if len < 0 then .error .null
  else
    let (got, extra, left) ← s.extra.get sched n len.toNat
    if got ≠ len then .ok (false, { s with extra := left })
    else
      .ok (true, { s with
        extra := left
        new := s.new.map fun new => new.put extra
        w := (s.w + len).bmod (2 ^ 64) })

def bsdiffRound (sched : Schedule) (n : Nat) (s : Bsdiff) : Exec (Bsdiff ⊕ Bsdiff) := do
  let (rec, ctrl) ← bsdiffReadCtrl sched n s.ctrl
  match rec with
  | none => .ok (.inr { s with ctrl })
  | some rec => do
    let (more, s) ← bsdiffAdd sched n { s with ctrl } rec.addLen
    if more then
      let (more, s) ← bsdiffExtra sched n s rec.extraLen
      if more then
        .ok (.inl { s with
          r := (s.r + rec.seekOff).bmod (2 ^ 64)
          old := s.old.map fun old => old.seek rec.seekOff })
      else .ok (.inr s)
    else .ok (.inr s)

/-- `bsdiff_read`, which closes both files in the end. The new one is flushed if there is an old one. -/
def bsdiffRead (sched : Schedule) (n : Nat) (ctrl data extra : Buffer) (old : Option Mapped) (new : Option Sink) :
    Exec Bsdiff := do
  let s ← loop (bsdiffRound sched) n { ctrl, data, extra, old, new, r := 0, w := 0 }
  match s.old with
  | none => .ok s
  | some _ => .ok { s with new := s.new.map Sink.flush }

end Dirlist
