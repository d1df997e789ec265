import Dirlist.Byte
import Dirlist.Lib.Run

/-! `includes_extract` of genmakefile: the names of the files that a source text includes. A
pointer and the number of bytes behind it are the bytes that are left; a list stands for the
names in the order they are pushed. -/

namespace Dirlist
open Run

/-- `include` -/
def includeWord : Bytes := [105, 110, 99, 108, 117, 100, 101]

/-- The closing character of a name. -/
def closeQuote (quote : UInt8) : UInt8 := if quote = 60 then 62 else 34

/-- What a round does behind the word `include`. There is no value where the loop is left. -/
def includeQuote (sys : Bool) (x : Bytes) (includes : List Bytes) : Option (Bytes × List Bytes) :=
  let i := scanCharsetnskip x [32, 9, 13] + 1
  if i ≥ x.length then none
  else
    let quote := x.getD (i - 1) 0
    let x := x.drop i
    if (sys = true ∧ quote = 60) ∨ quote = 34 then
      let i := scanNoncharsetnskip x [closeQuote quote, 10]
      if i ≥ x.length then none else some (x.drop (i + 1), includes ++ [x.take i])
    else some (x, includes)

/-- What it does at the first byte of a line that is no blank. -/
def includeDirective (sys : Bool) (x : Bytes) (includes : List Bytes) : Option (Bytes × List Bytes) :=
  if x.head? ≠ some 35 then some (x, includes)
  else
    let x := x.drop 1
    let i := scanCharsetnskip x [32, 9, 13] + 7
    if i ≥ x.length then none
    else if (x.drop (i - 7)).take 7 ≠ includeWord then some (x.drop i, includes)
    else includeQuote sys (x.drop i) includes

/-- The next line end, where a round goes on to. -/
def nextLine (x : Bytes) : Option Bytes :=
  let i := byteChr 10 x
  if i ≥ x.length then none else some (x.drop i)

def includesRound (sys : Bool) (_ : Nat) :
    Bytes × List Bytes → Exec (Bytes × List Bytes ⊕ List Bytes)
  | (x, includes) =>
    let i := scanCharsetnskip x [32, 9, 13, 10]
    if i = x.length then .ok (.inr includes)
    else
      match includeDirective sys (x.drop i) includes with
      | none => .ok (.inr includes)
      | some (x, includes) =>
        match nextLine x with
        | none => .ok (.inr includes)
        | some x => .ok (.inl (x, includes))

def includesExtract (sys : Bool) (k : Nat) (x : Bytes) (includes : List Bytes) : Exec (List Bytes) :=
  loop (includesRound sys) k (x, includes)

end Dirlist
