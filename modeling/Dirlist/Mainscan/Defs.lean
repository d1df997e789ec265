import Dirlist.Path.Defs
import Dirlist.Scan

/-! `main_scan` of genmakefile: whether a source text has a `main` function. A pointer is the
bytes from it to the end of the text. The searches for the end of a comment are told the length
of the whole text, so their accesses are checked against the bytes that are left. -/

namespace Dirlist
open Run

/-- `isalpha` in the C locale. -/
def isalpha (c : UInt8) : Bool := (65 ≤ c && c ≤ 90) || (97 ≤ c && c ≤ 122)

/-- `main` -/
def mainName : Bytes := [109, 97, 105, 110]

/-- `byte_equal`, which stops at the first difference. -/
def byteEqualChecked : Bytes → Bytes → Exec Bool
  | _, [] => .ok true
  | [], _ :: _ => .error .bounds
  | b :: s, w :: what => if b = w then byteEqualChecked s what else .ok false

/-- The rounds of `byte_findb`; there is no value where none of them finds `what`. -/
def findbRounds (what : Bytes) : Nat → Nat → Bytes → Exec (Option Nat)
  | 0, _, _ => .ok none
  | rounds + 1, i, s => do
    if ← byteEqualChecked s what then .ok (some i) else findbRounds what rounds (i + 1) s.tail

def byteFindbChecked (what : Bytes) (hlen : Nat) (s : Bytes) : Exec Nat :=
  if hlen < what.length then .ok hlen
  else do
    let i ← findbRounds what (hlen - what.length + 1) 0 s
    .ok (i.getD hlen)

/-- `skip_comment` -/
def skipComment (p : Bytes) (len : Nat) : Exec Nat := byteFindbChecked [42, 47] len p

/-- Behind the word `main`. -/
def mainWord (x : Bytes) : Exec (Bytes ⊕ Nat) :=
  if x.length ≤ 5 then .ok (.inr 0)
  else
    let x := x.drop 5
    let i := scanWhitenskip x
    if i ≥ x.length then .ok (.inr 0)
    else
      let x := x.drop i
      if 1 < x.length ∧ x.head? = some 40 then .ok (.inr 1) else .ok (.inl (x.drop 1))

/-- At a slash, which may open a comment. -/
def mainSlash (n : Nat) (x : Bytes) : Exec (Bytes ⊕ Nat) := do
  let d ← byteAt x 1
  if d = 42 then
    let i ← skipComment x n
    .ok (.inl (x.drop i))
  else if d = 47 then
    let i ← byteChrChecked 10 n x
    .ok (.inl (x.drop (i + 1 + 1)))
  else .ok (.inl (x.drop 1))

/-- One round of the loop, on a text of `n` bytes. -/
def mainRound (n : Nat) (_ : Nat) (x : Bytes) : Exec (Bytes ⊕ Nat) :=
  if 5 < x.length then do
    let c ← byteAt x 0
    if c = 47 then mainSlash n x
    else if isalpha c = false ∧ c ≠ 95 then
      if ← byteEqualChecked (x.drop 1) mainName then mainWord x else .ok (.inl (x.drop 1))
    else .ok (.inl (x.drop 1))
  else .ok (.inr 0)

/-- `main_scan` -/
def mainScan (fuel : Nat) (p : Bytes) : Exec Nat := loop (mainRound p.length) fuel p

/-! ## What the scan is for -/

def isIdent (c : UInt8) : Bool := isalpha c || isdigit c || c = 95

/-- A text begins with `main`, blanks, and a parenthesis that something follows. -/
def mainCall (l : Bytes) : Bool :=
  l.take 4 = mainName ∧ (((l.drop 4).dropWhile isspace).head? = some 40 ∧
    1 < ((l.drop 4).dropWhile isspace).length)

/-- What the next byte of a source text belongs to: to the code, with whether the byte before it
is part of an identifier; to a comment; or to the second byte of what opens or closes a block. -/
inductive Lexis
  | code (ident : Bool)
  | line
  | opening
  | block
  | closing
deriving DecidableEq, Repr

/-- Outside comments, the identifier `main` is there and is called or defined. -/
def hasMain : Lexis → Bytes → Bool
  | _, [] => false
  | .code ident, c :: l =>
    if c = 47 ∧ l.head? = some 42 then hasMain .opening l
    else if c = 47 ∧ l.head? = some 47 then hasMain .line l
    else (!ident && mainCall (c :: l)) || hasMain (.code (isIdent c)) l
  | .line, c :: l => if c = 10 then hasMain (.code false) l else hasMain .line l
  | .opening, _ :: l => hasMain .block l
  | .block, c :: l => if c = 42 ∧ l.head? = some 47 then hasMain .closing l else hasMain .block l
  | .closing, _ :: l => hasMain (.code false) l

end Dirlist
