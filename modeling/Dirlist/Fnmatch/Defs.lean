import Dirlist.Path.Defs

/-! `path_fnmatch`. A read behind the end of the pattern or before the string is a fault, and each
such read comes before a length could wrap, so the lists that are left stand for pointers and
lengths. -/

namespace Dirlist
open Run

structure FnmFlags where
  pathname : Bool
  noescape : Bool
  period : Bool
deriving DecidableEq, Repr

/-- What is left of pattern and string, with the byte before the string and whether `NOTFIRST` is
still unset. -/
structure FnmState where
  first : Bool
  prev : Option UInt8
  pattern : Bytes
  string : Bytes

/-- Bytes are compared as `char`, which is signed. -/
def charLe (a b : UInt8) : Bool := a.toInt8 ≤ b.toInt8

/-- Behind the next `]`, or at the end. -/
def skipClass (pattern : Bytes) : Bytes := (pattern.dropWhile (· ≠ 93)).drop 1

/-- Whether the pattern is at `[:`. -/
def atPosixClass (pattern : Bytes) : Exec Bool := do
  let a ← byteAt pattern 0
  if a = 91 then
    let b ← byteAt pattern 1
    .ok (b = 58)
  else .ok false

/-- Whether the pattern is at a range. -/
def atRange (pattern : Bytes) : Exec Bool :=
  if pattern.length > 1 then do
    let b ← byteAt pattern 1
    if b = 45 then
      let d ← byteAt pattern 2
      .ok (d ≠ 93)
    else .ok false
  else .ok false

/-- One member: whether the byte `c` is of it, and what is left. A `[:` is not consumed. -/
def classMember (c : UInt8) (pattern : Bytes) : Exec (Bool × Bytes) := do
  let posix ← atPosixClass pattern
  if posix then .ok (false, pattern)
  else
    let range ← atRange pattern
    let a ← byteAt pattern 0
    if range then
      let d ← byteAt pattern 2
      .ok (charLe a c && charLe c d, pattern.drop 3)
    else .ok (a = c, pattern.drop 1)

/-- The loop over the members of a character class: what is left behind it, or `none` where the
byte `c` is not taken. -/
def fnmatchClass (neg : Bool) (c : UInt8) : Nat → Bool → Bytes → Exec (Option Bytes)
  | 0, _, _ => .error .fuel
  | k + 1, start, pattern =>
    if pattern.length = 0 then .ok none
    else do
      let a ← byteAt pattern 0
      if a = 93 ∧ ¬start then .ok none
      else
        let r ← classMember c pattern
        if r.1 ∧ ¬neg then .ok (some (skipClass r.2))
        else if ¬r.1 ∧ neg then
          let b ← byteAt r.2 0
          if b = 93 then .ok (some (skipClass r.2))
          else fnmatchClass neg c k (start ∧ r.2.length = pattern.length) r.2
        else if r.1 ∧ neg then .ok none
        else fnmatchClass neg c k (start ∧ r.2.length = pattern.length) r.2

/-- A `/` that only a `/` matches. -/
def FnmFlags.slash (fl : FnmFlags) (c : UInt8) : Bool := c = 47 && fl.pathname

/-- The test for a leading period at the byte `c`, with `a` at hand in the pattern. -/
def periodBlocks (fl : FnmFlags) (first : Bool) (prev : Option UInt8) (a c : UInt8) : Exec Bool :=
  if c = 46 ∧ a ≠ 46 ∧ fl.period then
    if first then .ok true
    else if fl.pathname then
      match prev with
      | some b => .ok (b = 47)
      | none => .error .bounds
    else .ok false
  else .ok false

/-- The `switch` of `path_fnmatch`, with the call and the jumps to `start` given by `call`. -/
def fnmItem (fl : FnmFlags) (k : Nat) (call : FnmState → Exec Nat) (prev : Option UInt8) (a c : UInt8)
    (pattern string : Bytes) : Exec Nat :=
  if a = 91 then
    if fl.slash c then .ok 1
    else do
      let b ← byteAt pattern 0
      let neg := b = 33
      let r ← fnmatchClass neg c k true (if neg then pattern.drop 1 else pattern)
      match r with
      | some pattern => call ⟨false, some c, pattern, string⟩
      | none => .ok 1
  else if a = 92 ∧ ¬fl.noescape then
    match pattern with
    | [] => .ok 1
    | b :: pattern => if b = c then call ⟨false, some c, pattern, string⟩ else .ok 1
  else if a = 42 then
    if fl.slash c then call ⟨false, prev, pattern, c :: string⟩
    else do
      let r ← call ⟨false, some c, a :: pattern, string⟩
      if r ≠ 0 then call ⟨false, prev, pattern, c :: string⟩ else .ok 0
  else if a = 63 then
    if fl.slash c then .ok 1 else call ⟨false, some c, pattern, string⟩
  else if a = c then call ⟨false, some c, pattern, string⟩
  else .ok 1

/-- `path_fnmatch` -/
def pathFnmatch (fl : FnmFlags) : Nat → FnmState → Exec Nat
  | 0, _ => .error .fuel
  | k + 1, st =>
    match st.string, st.pattern with
    | [], pattern => .ok (if (pattern.dropWhile (· = 42)).length = 0 then 0 else 1)
    | _ :: _, [] => .ok 1
    | c :: string, a :: pattern => do
      let blocked ← periodBlocks fl st.first st.prev a c
      if blocked then .ok 1 else fnmItem fl k (pathFnmatch fl k) st.prev a c pattern string

/-- The state of the first call. -/
def fnmStart (pattern string : Bytes) : FnmState := ⟨true, none, pattern, string⟩

end Dirlist
