import Dirlist.Scan
import Dirlist.Strlist.Defs

/-! `pkg_conf` of pkgcfg: it goes through a list of modules that grows by what they require, and
prints a field. A module is a bare name, without a version condition, and the options that print
only some of the flags are not set. -/

namespace Dirlist
open Run

/-- A package file. The maps are what `MAP_GET` finds in them. -/
structure Pkg where
  name : Bytes
  vars : Bytes → Option Bytes
  fields : Bytes → Option Bytes

/-! ## Expanding -/

/-- `${` -/
def varOpen : Bytes := [36, 123]

/-- `wordexp_sa`. An unknown variable gives a null pointer, and behind a variable that is not closed
the scan goes on after the end of the string. -/
def wordexpFrom (vars : Bytes → Option Bytes) : Nat → Bytes → Exec Bytes
  | 0, _ => .ok []
  | k + 1, x =>
    if x = [] then .ok []
    else
      let i := byteFindb varOpen x
      if i = x.length then .ok x
      else
        let y := x.drop (i + 2)
        let n := byteChr 125 y
        match vars (y.take n) with
        | none => .error .null
        | some v =>
          if n = y.length then .error .bounds
          else do .ok (x.take i ++ (v ++ (← wordexpFrom vars k (y.drop (n + 1)))))

def wordexpSa (vars : Bytes → Option Bytes) (s : Bytes) : Exec Bytes := wordexpFrom vars s.length s

/-- One round of `pkg_expand`, with the text to expand. -/
def expandRound (vars : Bytes → Option Bytes) (_ : Nat) (v : Bytes) : Exec (Bytes ⊕ Bytes) := do
  let out ← wordexpSa vars v
  if byteFindb varOpen out = out.length then .ok (.inr out) else .ok (.inl out)

/-- `isupper` in the C locale. -/
def isupper (c : UInt8) : Bool := 65 ≤ c && c ≤ 90

def pkgGet (pf : Pkg) (key : Bytes) : Option Bytes :=
  if isupper (key.headD 0) then pf.fields key else pf.vars key

/-- `pkg_expand` into an empty string. A field that is not there leaves it empty. -/
def pkgExpand (k : Nat) (pf : Pkg) (key : Bytes) : Exec Bytes :=
  match pkgGet pf key with
  | none => .ok []
  | some s => loop (expandRound pf.vars) k s

/-! ## Modules -/

def strarrayPushbUnique (arr : List Bytes) (b : Bytes) : List Bytes :=
  if arr.contains b then arr else arr ++ [b]

/-- `Requires` -/
def requiresKey : Bytes := [82, 101, 113, 117, 105, 114, 101, 115]

/-- The delimiters `pkg_conf` gives, as one string. -/
def requireDelim : Bytes := [32, 44, 13, 10, 9]

/-- The names that are taken from a text of requirements. -/
def required (value : Bytes) : List Bytes :=
  strlistForeach (strlistFromb (strlistInit 32) value requireDelim)

inductive PrintCode
  | version
  | cflags
  | libs
  | requires
  | path

/-- `field_names` at `get_field_index` -/
def PrintCode.field : PrintCode → Option Bytes
  | .version => some [86, 101, 114, 115, 105, 111, 110]
  | .cflags => some [67, 102, 108, 97, 103, 115]
  | .libs => some [76, 105, 98, 115]
  | .requires => some requiresKey
  | .path => none

/-- One round of `pkg_conf`, with the number of the module, the modules and `value`. A result is what
is returned, the modules and what was printed before the line end. -/
def confRound (pkgOpen : Bytes → Option Pkg) (code : PrintCode) (checkExists : Bool) (k : Nat) :
    Nat × List Bytes × Bytes → Exec ((Nat × List Bytes × Bytes) ⊕ (Nat × List Bytes × Option Bytes))
  | (i, modules, value) =>
    match modules[i]? with
    | none =>
      if checkExists then .ok (.inr (1, modules, none)) else .ok (.inr (0, modules, some value))
    | some name =>
      match pkgOpen name with
      | none => .ok (.inr (1, modules, none))
      | some pf =>
        if checkExists then .ok (.inr (0, modules, none))
        else do
          let value ← pkgExpand k pf requiresKey
          let modules := (required value).foldl strarrayPushbUnique modules
          match code.field with
          | none =>
            .ok (.inl (i + 1, modules, (if value.length > 0 then value ++ [10] else value) ++ pf.name))
          | some fn => do
            let value ← pkgExpand k pf fn
            .ok (.inl (i + 1, modules, value))

def pkgConf (pkgOpen : Bytes → Option Pkg) (k : Nat) (modules : List Bytes) (code : PrintCode)
    (checkExists : Bool) : Exec (Nat × List Bytes × Option Bytes) :=
  loop (confRound pkgOpen code checkExists) k (0, modules, [])

end Dirlist
