import Dirlist.Charbuf.Defs
import Dirlist.Fmt
import Dirlist.Hmap.Defs
import Dirlist.Lib.Dict
import Dirlist.Scan

/-! The JSON reader of lib/json over a character buffer. A stack of `d` nested calls is
available to `json_parse`. The table of an object is the ordered dictionary that the hash
table keeps, and a floating point number is kept as the text that was scanned. -/

namespace Dirlist
open Run

inductive JsonVal
  | undefined
  /-- a number type whose number was never written -/
  | unset (double : Bool)
  | null
  | bool (v : Bool)
  | int (v : Int)
  | double (text : Bytes)
  | string (s : Bytes)
  | array (items : List JsonVal)
  | object (members : List (Bytes × JsonVal))

/-! ## Numbers -/

/-- `scan_longlong` after an optional sign. -/
def scanSigned (neg : Bool) (o : Nat) (s : Bytes) : Nat × Int :=
  let (i, l) := scanUlonglong 0 s
  if i = 0 then (0, 0)
  else
    let (i, l) := if l > 2 ^ 63 - 1 + (if neg then 1 else 0) then (i - 1, l / 10) else (i, l)
    (i + o, if neg then -(l : Int) else l)

def scanLonglong : Bytes → Nat × Int
  | 45 :: s => scanSigned true 1 s
  | 43 :: s => scanSigned false 1 s
  | s => scanSigned false 0 s

def spanDigits (s : Bytes) : Nat := (s.takeWhile isdigit).length

/-- The exponent of `scan_double`: a sign is not accepted, and the whole scan is void. -/
def scanExponent (taken : Nat) : Bytes → Nat
  | e :: s =>
    if e = 101 ∨ e = 69 then
      if s.headD 0 < 48 then 0 else taken + 1 + spanDigits s
    else taken
  | [] => taken

/-- How many bytes `scan_double` takes. -/
def scanDouble (s : Bytes) : Nat :=
  let o := if s.head? = some 45 ∨ s.head? = some 43 then 1 else 0
  let whole := o + spanDigits (s.drop o)
  let frac := if (s.drop whole).head? = some 46 then
    whole + 1 + spanDigits (s.drop (whole + 1)) else whole
  scanExponent frac (s.drop frac)

/-- One round of the loop of `json_parse_number`, with the byte at hand, the text so far
and whether the type is already `JSON_DOUBLE`. -/
def numberRound (sched : Schedule) (_ : Nat) : Charbuf × UInt8 × Bytes × Bool →
    Exec (Charbuf × UInt8 × Bytes × Bool ⊕ Option Bytes × Bool × Charbuf)
  | (b, c, num, double) =>
    match charbufNextc sched b with
    | (none, b) => .ok (.inr (none, double, b))
    | (some c', b) =>
      let mark := c' = 46 ∨ c' = 69 ∨ c' = 101
      if isdigit c' ∨ mark ∨ (double ∧ c' = 45) then
        .ok (.inl (b, c', num ++ [c], double ∨ mark))
      else .ok (.inr (some (num ++ [c]), double, b))

/-- What becomes of the text of a number. One that ran into the end of the stream is given
up. -/
def scanNumber {β : Type} (b : β) (double : Bool) : Option Bytes → Nat × JsonVal × β
  | none => (0, .unset double, b)
  | some num =>
    if double then
      if scanDouble num > 0 then (1, .double num, b) else (0, .unset true, b)
    else
      let (n, v) := scanLonglong num
      if n > 0 then (1, .int v, b) else (0, .unset false, b)

theorem scanNumber_buffer {β : Type} (b : β) (double : Bool) (num : Option Bytes) :
    (scanNumber b double num).2.2 = b := by
  cases num with
  | none => rfl
  | some num =>
    simp only [scanNumber]
    split <;> split <;> rfl

def jsonParseNumber (sched : Schedule) (m : Nat) (val : JsonVal) (b : Charbuf) :
    Exec (Nat × JsonVal × Charbuf) :=
  match charbufPeekc sched b with
  | (none, b) => .ok (0, val, b)
  | (some c, b) =>
    if isdigit c ∨ c = 45 ∨ c = 46 ∨ c = 43 then do
      let (num, double, b) ← loop (numberRound sched) m (b, c, [], false)
      .ok (scanNumber b double num)
    else .ok (0, val, b)

/-! ## What is never written -/

/-- The byte that stands for a sequence that is not valid, whose code point is left unwritten, and the bits of a
number that is no integer. -/
class Unwritten where
  codePoint : Bytes → UInt8
  doubleBits : Bytes → Nat

/-- Memory that happens to be zero. -/
instance zeroed : Unwritten := ⟨fun _ => 0, fun _ => 0⟩

variable [Unwritten]

/-! ## Strings -/

/-- How many leading one bits a byte has that starts a sequence. -/
def leadingOnes (c : UInt8) : Nat :=
  if c < 0x80 then 0 else if c < 0xe0 then 2 else if c < 0xf0 then 3 else if c < 0xf8 then 4
  else if c < 0xfc then 5 else 6

def scanContinuation (i : Nat) : Nat → Bytes → Option Nat
  | k + 1, c :: s =>
    if c / 64 = 2 then scanContinuation (i * 64 + c.toNat % 64) k s else none
  | _, _ => some i

/-- `scan_utf8`: the length of the sequence and its code point, or nothing where 0 is
returned and the code point is left alone. -/
def scanUtf8 : Bytes → Option (Nat × Nat)
  | [] => none
  | c :: s =>
    if c ≥ 0xfe ∨ c / 64 = 2 then none
    else
      let k := leadingOnes c
      if k = 0 then some (1, c.toNat)
      else if k > s.length + 1 then none
      else
        (scanContinuation (c.toNat % 2 ^ (8 - k)) (k - 1) s).bind fun i =>
          if i < 2 ^ (k * 5 - 4 + if k = 2 then 1 else 0) then none else some (k, i)

/-- `stralloc_catxlong0` -/
def catxlong0 (n pad : Nat) : Bytes :=
  let s := fmtFrom 16 n n
  List.replicate (pad - s.length) 48 ++ s

/-- The second loop of `json_parse_stralloc`, with the bytes of a sequence still to pass. -/
def escapeUtf8 : Nat → Bytes → Exec Bytes
  | _, [] => .ok []
  | k + 1, _ :: s => escapeUtf8 k s
  | 0, c :: s =>
    match scanUtf8 (c :: s) with
    | none => do
      let out ← escapeUtf8 0 s
      .ok (Unwritten.codePoint (c :: s) :: out)
    | some (r, n) =>
      if r > 1 then do
        let out ← escapeUtf8 (r - 1) s
        .ok ([92, 117] ++ catxlong0 n (if n > 0xffffff then 8 else if n > 0xffff then 6 else 4) ++ out)
      else do
        let out ← escapeUtf8 0 s
        .ok (UInt8.ofNat n :: out)

/-- One round of the first loop of `json_parse_stralloc`: a backslash is dropped, and the
byte behind it taken as it is. -/
def strallocRound (sched : Schedule) (quoted : Bool) (_ : Nat) : Charbuf × Bytes →
    Exec (Charbuf × Bytes ⊕ Nat × Bytes × Charbuf)
  | (b, sa) =>
    match charbufPeekc sched b with
    | (none, b) => .ok (.inr (0, sa, b))
    | (some ch, b) =>
      if ch = 92 then
        match charbufNextc sched b with
        | (none, b) => .ok (.inr (0, sa, b))
        | (some ch, b) => .ok (.inl ((charbufSkip sched b).2, sa ++ [ch]))
      else if quoted ∧ ch = 34 then .ok (.inr (1, sa, (charbufSkip sched b).2))
      else if ¬quoted ∧ ch = 58 then .ok (.inr (if 0 < sa.length then 1 else 0, sa, b))
      else .ok (.inl ((charbufSkip sched b).2, sa ++ [ch]))

def jsonParseStralloc (sched : Schedule) (m : Nat) (b : Charbuf) (quoted : Bool) :
    Exec (Nat × Bytes × Charbuf) := do
  let (ret, sa, b) ← loop (strallocRound sched quoted) m (b, [])
  let out ← if quoted ∨ 0 < sa.length then escapeUtf8 0 sa else .ok []
  .ok (ret, out, b)

def jsonParseString (sched : Schedule) (m : Nat) (val : JsonVal) (b : Charbuf) :
    Exec (Nat × JsonVal × Charbuf) := do
  let (r, b) ← charbufSkipIfeq sched m b 34
  if r > 0 then
    let (_, s, b) ← jsonParseStralloc sched m b true
    .ok (1, .string s, b)
  else .ok (0, val, b)

/-! ## Words -/

/-- `is_identifier_char` -/
def isIdentifierChar (c : UInt8) : Bool :=
  (65 ≤ c && c ≤ 90) || (97 ≤ c && c ≤ 122) || isdigit c || c = 36 || c = 95

/-- `predicate_identifier`: the word, and one byte behind it that does not carry it on. -/
def predicateIdentifier (str : Bytes) (c : UInt8) (pos : Nat) : Bool :=
  if pos < str.length then str[pos]? = some c
  else if pos = str.length then !isIdentifierChar c else false

/-- `null` -/
def nullWord : Bytes := [110, 117, 108, 108]

def jsonParseNull (sched : Schedule) (m : Nat) (val : JsonVal) (b : Charbuf) :
    Exec (Nat × JsonVal × Charbuf) := do
  let (n, b) ← charbufPredLookahead sched m b (predicateIdentifier nullWord)
  if n ≥ 4 then .ok (1, .null, charbufSkipn sched b 4) else .ok (0, val, b)

/-- Skip the bytes of a word one by one; whether all were there. -/
def skipWord (sched : Schedule) (m : Nat) : Charbuf → Bytes → Exec (Bool × Charbuf)
  | b, [] => .ok (true, b)
  | b, c :: word => do
    let (r, b) ← charbufSkipIfeq sched m b c
    if r > 0 then skipWord sched m b word else .ok (false, b)

/-- `rue` or `alse`, as the second byte says; the first is not looked at again. -/
def jsonParseBoolean (sched : Schedule) (m : Nat) (val : JsonVal) (b : Charbuf) :
    Exec (Nat × JsonVal × Charbuf) := do
  let (r, b) := charbufSkipIfset sched b [116, 102]
  if r > 0 then
    let (c, b) := charbufPeekc sched b
    let v : Bool := c = some 114
    let (all, b) ← skipWord sched m b (if v then [114, 117, 101] else [97, 108, 115, 101])
    if all then .ok (1, .bool v, b) else .ok (0, val, b)
  else .ok (0, val, b)

/-! ## Arrays and objects -/

/-- `json_parse`, as the containers call it. -/
abbrev Parse := Nat → JsonVal → Charbuf → Exec (Nat × JsonVal × Charbuf)

/-- Behind an item: skip a comma or the closing byte and the space after it. The answer is
whether a comma was there. -/
def skipDelimiter (sched : Schedule) (m : Nat) (b : Charbuf) (close : UInt8) :
    Exec (Bool × Charbuf) := do
  let (_, b) ← charbufSkipWs sched m b
  match charbufPeekc sched b with
  | (none, b) => .ok (false, b)
  | (some c, b) =>
    if c = 44 ∨ c = close then
      let (_, b) ← charbufSkipWs sched m (charbufSkip sched b).2
      .ok (c = 44, b)
    else .ok (false, b)

/-- One round of the loop of `json_parse_array`. What `json_parse` returns is not looked at,
and a closing bracket in front of an item is not skipped. -/
def arrayRound (sched : Schedule) (parse : Parse) (m : Nat) : Charbuf × List JsonVal →
    Exec (Charbuf × List JsonVal ⊕ List JsonVal × Charbuf)
  | (b, items) =>
    match charbufPeekc sched b with
    | (none, b) => .ok (.inr (items, b))
    | (some c, b) =>
      if c = 93 then .ok (.inr (items, b))
      else do
        let (_, v, b) ← parse m .undefined b
        let (more, b) ← skipDelimiter sched m b 93
        if more then .ok (.inl (b, items ++ [v])) else .ok (.inr (items ++ [v], b))

def jsonParseArray (sched : Schedule) (parse : Parse) (m : Nat) (val : JsonVal) (b : Charbuf) :
    Exec (Nat × JsonVal × Charbuf) := do
  let (r, b) ← charbufSkipIfeq sched m b 91
  if r > 0 then
    let (_, b) ← charbufSkipWs sched m b
    let (items, b) ← loop (arrayRound sched parse) m (b, [])
    .ok (1, .array items, b)
  else .ok (0, val, b)

/-- `MAP_INSERT`: the table takes no empty key, and a tuple has room for shorter ones. -/
def mapInsert (members : List (Bytes × JsonVal)) (key : Bytes) (v : JsonVal) :
    Exec (List (Bytes × JsonVal)) :=
  if key = [] then .ok members
  else if key.length < maxSizeKey then .ok (Dict.set members key v) else .error .bounds

/-- The key of a member: a string, or else a number written out again. -/
def parseKey (sched : Schedule) (m : Nat) (b : Charbuf) : Exec (Bytes × Charbuf) := do
  let (r, key, b) ← jsonParseString sched m .undefined b
  match r, key with
  | 1, .string s => .ok (s, b)
  | _, key =>
    let (r, key, b) ← jsonParseNumber sched m key b
    match r, key with
    | 1, .int v => .ok (fmtUlonglong (v % 2 ^ 64).toNat, b)
    -- the bits of a double are printed as an integer
    | 1, .double text => .ok (fmtUlonglong (Unwritten.doubleBits text % 2 ^ 64), b)
    | _, _ => .ok ([], b)

/-- One round of the loop of `json_parse_object`. -/
def objectRound (sched : Schedule) (parse : Parse) (m : Nat) : Charbuf × List (Bytes × JsonVal) →
    Exec (Charbuf × List (Bytes × JsonVal) ⊕ List (Bytes × JsonVal) × Charbuf)
  | (b, members) =>
    match charbufPeekc sched b with
    | (none, b) => .ok (.inr (members, b))
    | (some c, b) =>
      if c = 125 then .ok (.inr (members, (charbufNextc sched b).2))
      else do
        let (key, b) ← parseKey sched m b
        let (_, b) ← charbufSkipWs sched m b
        let (r, b) ← charbufSkipIfeq sched m b 58
        if r > 0 then
          let (_, b) ← charbufSkipWs sched m b
          let (r, v, b) ← parse m .undefined b
          if r > 0 then
            let members ← mapInsert members key v
            let (more, b) ← skipDelimiter sched m b 125
            if more then .ok (.inl (b, members)) else .ok (.inr (members, b))
          else .ok (.inr (members, b))
        else .ok (.inr (members, b))

def jsonParseObject (sched : Schedule) (parse : Parse) (m : Nat) (val : JsonVal) (b : Charbuf) :
    Exec (Nat × JsonVal × Charbuf) := do
  let (r, b) ← charbufSkipIfeq sched m b 123
  if r > 0 then
    let (_, b) ← charbufSkipWs sched m b
    let (members, b) ← loop (objectRound sched parse) m (b, [])
    .ok (1, .object members, b)
  else .ok (0, val, b)

/-- Try one parser after the other until one succeeds. -/
def firstOf : List Parse → Parse
  | [], _, j, b => .ok (0, j, b)
  | p :: ps, m, j, b => do
    let (r, j, b) ← p m j b
    if r > 0 then .ok (r, j, b) else firstOf ps m j b

/-- `json_parse`, with at most `d` calls of it on the stack. -/
def jsonParse (sched : Schedule) : Nat → Parse
  | 0, _, _, _ => .error .fuel
  | d + 1, m, j, b => do
    let (_, b) ← charbufSkipWs sched m b
    firstOf [jsonParseObject sched (jsonParse sched d), jsonParseArray sched (jsonParse sched d),
      jsonParseNull sched, jsonParseBoolean sched, jsonParseNumber sched, jsonParseString sched] m j b

end Dirlist
