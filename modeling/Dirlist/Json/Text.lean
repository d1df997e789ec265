import Dirlist.Json.Defs
import Dirlist.Charbuf.Reader

/-! JSON texts as trees of tokens, after RFC 8259: white space wherever it may stand,
integers in the range of `int64`, and strings of ASCII characters. A tree has a text and
denotes a value. -/

namespace Dirlist

/-- White space between tokens. -/
structure Ws where
  text : Bytes
  space : ∀ c ∈ text, isspace c = true

structure IntLit where
  neg : Bool
  digits : Bytes
  nonempty : digits ≠ []
  digit : ∀ c ∈ digits, isdigit c = true
  range : natOf digits ≤ 2 ^ 63 - 1 + if neg then 1 else 0

/-- A byte of a string as it is written: as it stands, or behind a backslash. -/
structure StringChar where
  escaped : Bool
  byte : UInt8
  ascii : 32 ≤ byte ∧ byte < 128
  valid : if escaped then byte = 34 ∨ byte = 92 else byte ≠ 34 ∧ byte ≠ 92

abbrev StringLit := List StringChar

mutual
inductive JsonText
  | null
  | bool (v : Bool)
  | int (lit : IntLit)
  | string (lit : StringLit)
  | emptyArray (w : Ws)
  | array (w : Ws) (items : ItemsText)
  | emptyObject (w : Ws)
  | object (w : Ws) (members : MembersText)

/-- The items up to the closing bracket; white space follows an item and a comma. -/
inductive ItemsText
  | last (t : JsonText) (w : Ws)
  | more (t : JsonText) (w w' : Ws) (next : ItemsText)

/-- The members up to the closing brace; white space follows a key and a colon too. -/
inductive MembersText
  | last (key : StringLit) (wk wc : Ws) (t : JsonText) (w : Ws)
  | more (key : StringLit) (wk wc : Ws) (t : JsonText) (w w' : Ws) (next : MembersText)
end

/-! ## The text -/

def IntLit.text (lit : IntLit) : Bytes := if lit.neg then 45 :: lit.digits else lit.digits

def IntLit.value (lit : IntLit) : Int :=
  if lit.neg then -(natOf lit.digits : Int) else natOf lit.digits

def StringLit.body (lit : StringLit) : Bytes :=
  lit.flatMap fun c => if c.escaped then [92, c.byte] else [c.byte]

def StringLit.text (lit : StringLit) : Bytes := 34 :: (StringLit.body lit ++ [34])

def StringLit.value (lit : StringLit) : Bytes := lit.map StringChar.byte

/-- `true` or `false`, and what follows the first letter -/
def boolTail (v : Bool) : Bytes := if v then [114, 117, 101] else [97, 108, 115, 101]

def boolWord (v : Bool) : Bytes := (if v then 116 else 102) :: boolTail v

mutual
def JsonText.text : JsonText → Bytes
  | .null => nullWord
  | .bool v => boolWord v
  | .int lit => lit.text
  | .string lit => StringLit.text lit
  | .emptyArray w => 91 :: (w.text ++ [93])
  | .array w items => 91 :: (w.text ++ items.text)
  | .emptyObject w => 123 :: (w.text ++ [125])
  | .object w members => 123 :: (w.text ++ members.text)

def ItemsText.text : ItemsText → Bytes
  | .last t w => t.text ++ (w.text ++ [93])
  | .more t w w' next => t.text ++ (w.text ++ 44 :: (w'.text ++ next.text))

def MembersText.text : MembersText → Bytes
  | .last key wk wc t w =>
    StringLit.text key ++ (wk.text ++ 58 :: (wc.text ++ (t.text ++ (w.text ++ [125]))))
  | .more key wk wc t w w' next =>
    StringLit.text key ++ (wk.text ++ 58 :: (wc.text ++ (t.text ++ (w.text ++ 44 ::
      (w'.text ++ next.text)))))
end

/-! ## The value -/

mutual
def JsonText.value : JsonText → JsonVal
  | .null => .null
  | .bool v => .bool v
  | .int lit => .int lit.value
  | .string lit => .string (StringLit.value lit)
  | .emptyArray _ => .array []
  | .array _ items => .array items.values
  | .emptyObject _ => .object []
  | .object _ members => .object members.values

def ItemsText.values : ItemsText → List JsonVal
  | .last t _ => [t.value]
  | .more t _ _ next => t.value :: next.values

def MembersText.values : MembersText → List (Bytes × JsonVal)
  | .last key _ _ t _ => [(StringLit.value key, t.value)]
  | .more key _ _ t _ _ next => (StringLit.value key, t.value) :: next.values
end

/-- What `MAP_INSERT` does with a key that fits. -/
def mapPut (members : List (Bytes × JsonVal)) (key : Bytes) (v : JsonVal) : List (Bytes × JsonVal) :=
  if key = [] then members else Dict.set members key v

mutual
/-- The value with each object put through the table of its members. -/
def JsonText.stored : JsonText → JsonVal
  | .null => .null
  | .bool v => .bool v
  | .int lit => .int lit.value
  | .string lit => .string (StringLit.value lit)
  | .emptyArray _ => .array []
  | .array _ items => .array items.stored
  | .emptyObject _ => .object []
  | .object _ members => .object (members.stored [])

def ItemsText.stored : ItemsText → List JsonVal
  | .last t _ => [t.stored]
  | .more t _ _ next => t.stored :: next.stored

def MembersText.stored (members : List (Bytes × JsonVal)) : MembersText → List (Bytes × JsonVal)
  | .last key _ _ t _ => mapPut members (StringLit.value key) t.stored
  | .more key _ _ t _ _ next => next.stored (mapPut members (StringLit.value key) t.stored)
end

/-! ## Properties of a text -/

mutual
/-- Calls of `json_parse` that reading the text stacks up. -/
def JsonText.depth : JsonText → Nat
  | .array _ items => items.depth + 1
  | .object _ members => members.depth + 1
  | _ => 1

def ItemsText.depth : ItemsText → Nat
  | .last t _ => t.depth
  | .more t _ _ next => max t.depth next.depth

def MembersText.depth : MembersText → Nat
  | .last _ _ _ t _ => t.depth
  | .more _ _ _ t _ _ next => max t.depth next.depth
end

theorem JsonText.depth_pos (t : JsonText) : 1 ≤ t.depth := by
  cases t <;> simp [JsonText.depth]

def MembersText.keys : MembersText → List Bytes
  | .last key _ _ _ _ => [StringLit.value key]
  | .more key _ _ _ _ _ next => StringLit.value key :: next.keys

mutual
/-- Empty arrays stand in the text only if `empty` holds, and the keys of each object
satisfy `keys`. -/
def JsonText.Every (empty : Prop) (keys : List Bytes → Prop) : JsonText → Prop
  | .emptyArray _ => empty
  | .array _ items => items.Every empty keys
  | .object _ members => keys members.keys ∧ members.Every empty keys
  | _ => True

def ItemsText.Every (empty : Prop) (keys : List Bytes → Prop) : ItemsText → Prop
  | .last t _ => t.Every empty keys
  | .more t _ _ next => t.Every empty keys ∧ next.Every empty keys

def MembersText.Every (empty : Prop) (keys : List Bytes → Prop) : MembersText → Prop
  | .last _ _ _ t _ => t.Every empty keys
  | .more _ _ _ t _ _ next => t.Every empty keys ∧ next.Every empty keys
end

/-- Every key fits the table. -/
def ShortKeys (keys : List Bytes) : Prop := ∀ k ∈ keys, k.length < maxSizeKey

/-- The table takes every key and keeps it apart from the others. -/
def DistinctKeys (keys : List Bytes) : Prop := [] ∉ keys ∧ keys.Nodup

end Dirlist
