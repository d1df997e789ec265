import Dirlist.Json.Defs

/-! The JSON printer of lib/json with the `default_printer` of jsonpp and its settings as they
are without options: double quotes, compliant, two spaces of indentation and line breaks down
to a depth of three. -/

namespace Dirlist
open Run

structure JsonFmt where
  indent : Bytes
  newline : Bytes
  spacing : Bytes
  separat : Bytes
  depth : Nat

def depthArg : Nat := 3

/-- `default_printer`; the index -2 stands for the closing bracket. -/
def defaultPrinter (depth : Nat) (index : Int) : JsonFmt where
  indent := if depth > depthArg then [] else [32, 32]
  newline := if depth < depthArg then [10] else [32]
  spacing := [32]
  separat := if depth < depthArg then [44, 10] else [44, 32]
  depth := depth - if index = -2 then 1 else 0

/-- `json_print_separator`: a line break is followed by the indentation. -/
def jsonPrintSeparator (s : Bytes) (fmt : JsonFmt) : Bytes :=
  s ++ if 10 ∈ s then (List.replicate fmt.depth fmt.indent).flatten else []

/-- A key goes out as it is, between double quotes. -/
def jsonPrintKey (key : Bytes) : Bytes := 34 :: (key ++ [34])

/-- The bytes of a string: a quote is escaped, and so is a backslash unless a `u` follows. -/
def jsonPrintChars : Bytes → Exec Bytes
  | [] => .ok []
  | c :: s => do
    if c = 0 then .error .assert
    let rest ← jsonPrintChars s
    if c = 34 ∨ (c = 92 ∧ s.head? ≠ some 117) then .ok (92 :: c :: rest) else .ok (c :: rest)

def jsonPrintStr (s : Bytes) : Exec Bytes := do
  let chars ← jsonPrintChars s
  .ok (34 :: (chars ++ [34]))

def fmtLonglong (n : Int) : Bytes :=
  if n < 0 then 45 :: fmtUlonglong (-n).toNat else fmtUlonglong n.toNat

section
-- what goes out for a number that is no integer, or that was never written
variable (putOther : JsonVal → Bytes)

mutual
def jsonPrintVal (depth : Nat) : JsonVal → Exec Bytes
  | .undefined => .ok []
  | .unset double => .ok (putOther (.unset double))
  | .null => .ok nullWord
  | .bool v => .ok (if v then [116, 114, 117, 101] else [102, 97, 108, 115, 101])
  | .int v => .ok (fmtLonglong v)
  | .double text => .ok (putOther (.double text))
  | .string s => jsonPrintStr s
  | .array [] => .ok [91, 93]
  | .array (v :: vs) => do
    let fmt := defaultPrinter (depth + 1) 0
    let body ← jsonPrintItems depth 0 (v :: vs)
    let fmt' := defaultPrinter (depth + 1) (-2)
    .ok (91 :: (jsonPrintSeparator fmt.newline fmt ++
      (body ++ (jsonPrintSeparator fmt'.newline fmt' ++ [93]))))
  | .object members => do
    let body ← jsonPrintMembers depth 0 members
    let fmt := defaultPrinter (depth + 1) (-2)
    .ok (123 :: (body ++ (jsonPrintSeparator fmt.newline fmt ++ [125])))

/-- The loop of `json_print_array` from the item `index` on. -/
def jsonPrintItems (depth index : Nat) : List JsonVal → Exec Bytes
  | [] => .ok []
  | v :: vs => do
    let fmt := defaultPrinter (depth + 1) index
    let text ← jsonPrintVal (depth + 1) v
    let rest ← jsonPrintItems depth (index + 1) vs
    .ok ((if index > 0 then jsonPrintSeparator fmt.separat fmt else []) ++ (text ++ rest))

/-- The loop of `json_print_object` from the member `index` on. -/
def jsonPrintMembers (depth index : Nat) : List (Bytes × JsonVal) → Exec Bytes
  | [] => .ok []
  | (key, v) :: members => do
    let fmt := defaultPrinter (depth + 1) index
    let text ← jsonPrintVal (depth + 1) v
    let rest ← jsonPrintMembers depth (index + 1) members
    .ok (jsonPrintSeparator (if index = 0 then fmt.newline else fmt.separat) fmt ++
      (jsonPrintKey key ++ 58 :: (jsonPrintSeparator fmt.spacing fmt ++ (text ++ rest))))
end

/-- `json_print` -/
def jsonPrint (val : JsonVal) : Exec Bytes := do
  let text ← jsonPrintVal putOther 0 val
  .ok (text ++ (defaultPrinter 0 (-1)).newline)
end

end Dirlist
