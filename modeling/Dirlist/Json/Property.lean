import Dirlist.Json.Print

/-! The properties of an object and the items of an array, read and written by name. A name that is not in
the table is looked up through a null pointer, and an item is written at an index that was never scanned. -/

namespace Dirlist
open Run

section
-- what `json_tosa` and `fmt_double` make of a value that is neither undefined, null, an integer nor a string
variable (tosa : JsonVal → Bytes)

def jsonTostring : JsonVal → Bytes
  | .undefined => [117, 110, 100, 101, 102, 105, 110, 101, 100]
  | .null => nullWord
  | .int v => fmtLonglong v
  | .string s => s
  | val => tosa val

def jsonToint (val : JsonVal) : Int :=
  let (n, v) := scanLonglong (jsonTostring tosa val)
  if n = 0 then -1 else v

def jsonLength : JsonVal → Int
  | .string s => s.length
  | .array items => items.length
  | .object members => members.length
  | _ => 0

/-- The loop of `json_property_get_int`. -/
def getIntFrom : List JsonVal → Int → JsonVal
  | [], _ => .undefined
  | v :: items, i => if i = 0 then v else getIntFrom items (i - 1)

def jsonPropertyGetInt (obj : JsonVal) (i : Int) : JsonVal :=
  match obj with
  | .array items => getIntFrom items i
  | _ => .undefined

/-- `length` -/
def lengthWord : Bytes := [108, 101, 110, 103, 116, 104]

def jsonStringCstr : JsonVal → Option Bytes
  | .string s => some (s.takeWhile (· ≠ 0))
  | _ => none

/-- Whether a name is `length`. One that is no string is compared through a null pointer. -/
def isLengthName (name : JsonVal) : Exec Bool :=
  match jsonStringCstr name with
  | some s => .ok (s = lengthWord)
  | none => .error .null

/-- `hmap_get`, which finds nothing under an empty key -/
def mapGet (members : List (Bytes × JsonVal)) (key : Bytes) : Option JsonVal :=
  if key = [] then none else Dict.get? members key

/-- What the table gives is dereferenced without a check. -/
def jsonPropertyGet (obj name : JsonVal) : Exec JsonVal := do
  let named ← match obj with
    | .array _ | .string _ => isLengthName name
    | _ => .ok false
  if named then .ok (.int (jsonLength obj))
  else
    match obj with
    | .object members =>
      match mapGet members (jsonTostring tosa name) with
      | some v => .ok v
      | none => .error .null
    | .array _ => .ok (jsonPropertyGetInt obj (jsonToint tosa name))
    | _ => .ok .undefined
end

/-- The rounds of `json_array_push` that make an array long enough. -/
def pushUndefined : Nat → List JsonVal → List JsonVal
  | 0, items => items
  | k + 1, items => pushUndefined k (items ++ [.undefined])

/-- Whether there is a value to point to, and what becomes of the object or the array. Nothing is ever written
to the index of an item: `i` is what the variable happens to hold. -/
def jsonPropertySetStr (i : Int) (obj : JsonVal) (key : Bytes) (value : JsonVal) : Exec (Bool × JsonVal) :=
  match obj with
  | .object members => do
    let members ← mapInsert members (key.takeWhile (· ≠ 0)) value
    .ok ((mapGet members (key.takeWhile (· ≠ 0))).isSome, .object members)
  | .array items =>
    if items.length ≤ i then
      let items := pushUndefined (i + 1 - items.length).toNat items
      .ok (true, .array (items.set (items.length - 1) value))
    else if items = [] then .error .null
    else .ok (true, .array (items.set i.toNat value))
  | _ => .ok (false, obj)

def jsonPropertySetInt (i : Int) (obj : JsonVal) (index : Int) (value : JsonVal) : Exec (Bool × JsonVal) :=
  jsonPropertySetStr i obj (fmtLonglong index) value

variable {tosa : JsonVal → Bytes} {members : List (Bytes × JsonVal)} {items : List JsonVal} {key other : Bytes}
  {v : JsonVal}

/-! ## Objects -/

/-- Under the name `other` stands what was there in `members`. -/
def Kept (tosa : JsonVal → Bytes) (members : List (Bytes × JsonVal)) (obj : JsonVal) (other : Bytes) : Prop :=
  jsonPropertyGet tosa obj (.string other) = .ok ((mapGet members other).getD .undefined)

theorem propertyGet_object (tosa : JsonVal → Bytes) (members : List (Bytes × JsonVal)) (key : Bytes) :
    jsonPropertyGet tosa (.object members) (.string key) = (mapGet members key).elim (.error .null) .ok := by
  rw [jsonPropertyGet]
  simp only [ok_bind, Bool.false_eq_true, if_false, jsonTostring]
  cases mapGet members key <;> rfl

theorem mapGet_set (hkey : key ≠ []) (other : Bytes) :
    mapGet (Dict.set members key v) other = if key = other then some v else mapGet members other := by
  unfold mapGet
  by_cases hother : other = []
  · rw [if_pos hother, if_pos hother, if_neg fun h => hkey (h.trans hother)]
  · rw [if_neg hother, if_neg hother, Dict.get?_set]

theorem propertySetStr_object (held : Int) (hkey : key ≠ []) (hz : 0 ∉ key) (hlen : key.length < maxSizeKey) :
    jsonPropertySetStr held (.object members) key v = .ok (true, .object (Dict.set members key v)) := by
  have hcstr := takeWhile_free hz
  have hinsert : mapInsert members key v = .ok (Dict.set members key v) := by
    rw [mapInsert, if_neg hkey, if_pos hlen]
  simp only [jsonPropertySetStr, hcstr, hinsert, ok_bind, mapGet_set hkey, if_true, Option.isSome_some]

/-- What was written under a key is read, and another key is read as before exactly if it is in the table. -/
theorem propertySetStr_spec (tosa : JsonVal → Bytes) (held : Int) (hkey : key ≠ []) (hz : 0 ∉ key)
    (hlen : key.length < maxSizeKey) :
    ∃ obj, jsonPropertySetStr held (.object members) key v = .ok (true, obj) ∧
      jsonPropertyGet tosa obj (.string key) = .ok v ∧
      ∀ other, other ≠ key → (Kept tosa members obj other ↔ (mapGet members other).isSome) := by
  refine ⟨_, propertySetStr_object held hkey hz hlen, ?_, fun other hne => ?_⟩
  · rw [propertyGet_object, mapGet_set hkey, if_pos rfl]
    rfl
  · rw [Kept, propertyGet_object, mapGet_set hkey, if_neg hne.symm]
    cases mapGet members other <;> simp

/-! ## Arrays -/

/-- The item `v` at `g`, with `undefined` up to there. -/
def written (items : List JsonVal) (g : Nat) (v : JsonVal) : List JsonVal :=
  (items ++ List.replicate (g + 1 - items.length) JsonVal.undefined).set g v

theorem pushUndefined_eq (k : Nat) (items : List JsonVal) :
    pushUndefined k items = items ++ List.replicate k JsonVal.undefined := by
  induction k generalizing items with
  | zero => simp [pushUndefined]
  | succ k ih => rw [pushUndefined, ih, List.append_assoc, List.replicate_succ, List.singleton_append]

theorem length_written (items : List JsonVal) (g : Nat) (v : JsonVal) :
    (written items g v).length = max items.length (g + 1) := by
  rw [written, List.length_set, List.length_append, List.length_replicate]
  omega

theorem getElem?_written (items : List JsonVal) (g : Nat) (v : JsonVal) (k : Nat) :
    (written items g v)[k]? = if k = g then some v else if k < items.length then items[k]?
      else if k < g then some .undefined else none := by
  rw [written, List.getElem?_set, List.length_append, List.length_replicate]
  by_cases hk : k = g
  · subst hk
    rw [if_pos rfl, if_pos rfl, if_pos (by omega)]
  · rw [if_neg fun h => hk h.symm, if_neg hk]
    by_cases hlt : k < items.length
    · rw [if_pos hlt, List.getElem?_append_left hlt]
    · rw [if_neg hlt, List.getElem?_append_right (Nat.le_of_not_lt hlt), List.getElem?_replicate]
      by_cases hkg : k < g
      · rw [if_pos hkg, if_pos (by omega)]
      · rw [if_neg hkg, if_neg (by omega)]

/-- A negative index goes to the first item, if there is one. -/
theorem propertySetStr_array (held : Int) (items : List JsonVal) (key : Bytes) (v : JsonVal) :
    jsonPropertySetStr held (.array items) key v =
      if items = [] ∧ held < 0 then .error .null else .ok (true, .array (written items held.toNat v)) := by
  rw [jsonPropertySetStr]
  by_cases hlen : (items.length : Int) ≤ held
  · have hneg : ¬(items = [] ∧ held < 0) := fun h => by omega
    have hrounds : (held + 1 - items.length).toNat = held.toNat + 1 - items.length := by omega
    simp only [if_pos hlen, if_neg hneg, pushUndefined_eq, hrounds, written, List.length_append,
      List.length_replicate]
    have hlast : items.length + (held.toNat + 1 - items.length) - 1 = held.toNat := by omega
    rw [hlast]
  · rw [if_neg hlen]
    by_cases hnil : items = []
    · have hneg : held < 0 := by
        subst hnil
        simpa using hlen
      rw [if_pos hnil, if_pos ⟨hnil, hneg⟩]
    · have hpos := List.length_pos_iff.mpr hnil
      have hpad : held.toNat + 1 - items.length = 0 := by omega
      rw [if_neg hnil, if_neg fun h => hnil h.1, written, hpad, List.replicate_zero, List.append_nil]

theorem getIntFrom_eq (items : List JsonVal) (k : Nat) : getIntFrom items k = (items[k]?).getD .undefined := by
  induction items generalizing k with
  | nil => rfl
  | cons v items ih =>
    cases k with
    | zero => rfl
    | succ k =>
      have hne : ((k + 1 : Nat) : Int) ≠ 0 := by omega
      have hpred : ((k + 1 : Nat) : Int) - 1 = k := by omega
      rw [getIntFrom, if_neg hne, hpred, ih, List.getElem?_cons_succ]

/-- The item `v` is read at `i`, the old ones everywhere else, and `undefined` between them. -/
structure ItemSet (items items' : List JsonVal) (i : Nat) (v : JsonVal) : Prop where
  length : items'.length = max items.length (i + 1)
  same : jsonPropertyGetInt (.array items') i = v
  frame : ∀ k : Nat, k < items.length → k ≠ i →
    jsonPropertyGetInt (.array items') k = jsonPropertyGetInt (.array items) k
  between : ∀ k : Nat, items.length ≤ k → k < i → jsonPropertyGetInt (.array items') k = .undefined

theorem itemSet_iff {items' : List JsonVal} {i : Nat} : ItemSet items items' i v ↔ items' = written items i v := by
  have hread (l : List JsonVal) (k : Nat) : jsonPropertyGetInt (.array l) k = (l[k]?).getD .undefined :=
    getIntFrom_eq l k
  constructor
  · intro h
    -- behind the ends of both lists there is nothing to compare
    refine List.ext_getElem? fun k => ?_
    have hlen := h.length
    by_cases hk : k < items'.length
    · have hwritten : k < (written items i v).length := by rwa [length_written, ← hlen]
      have hget (l : List JsonVal) (hl : k < l.length) : l[k]? = some (jsonPropertyGetInt (.array l) k) := by
        rw [hread, List.getElem?_eq_getElem hl, Option.getD_some]
      rw [hget items' hk, hget _ hwritten, Option.some.injEq, hread (written items i v) k, getElem?_written]
      by_cases hi : k = i
      · rw [if_pos hi, hi]
        exact h.same
      · rw [if_neg hi]
        by_cases hold : k < items.length
        · rw [if_pos hold, h.frame k hold hi, hread]
        · rw [if_neg hold, if_pos (by omega)]
          exact h.between k (Nat.le_of_not_lt hold) (by omega)
    · have hwritten : ¬k < (written items i v).length := by rwa [length_written, ← hlen]
      rw [List.getElem?_eq_none (Nat.le_of_not_lt hk), List.getElem?_eq_none (Nat.le_of_not_lt hwritten)]
  · rintro rfl
    refine ⟨length_written items i v, ?_, fun k hk hi => ?_, fun k hk hi => ?_⟩
    · rw [hread, getElem?_written, if_pos rfl, Option.getD_some]
    · rw [hread, hread, getElem?_written, if_neg hi, if_pos hk]
    · rw [hread, getElem?_written, if_neg (Nat.ne_of_lt hi), if_neg (Nat.not_lt.mpr hk), if_pos hi, Option.getD_some]

theorem written_inj_iff {g i : Nat} : written items g v = written items i v ↔
    g = i ∨ (g < items.length ∧ i < items.length ∧ items[g]? = some v ∧ items[i]? = some v) := by
  constructor
  · intro h
    refine or_iff_not_imp_left.mpr fun hne => ?_
    have hlen := congrArg List.length h
    rw [length_written, length_written] at hlen
    have hg : g < items.length := by omega
    have hi : i < items.length := by omega
    have hatg := congrArg (fun l : List JsonVal => l[g]?) h
    have hati := congrArg (fun l : List JsonVal => l[i]?) h
    simp only [getElem?_written, if_true, if_neg hne, if_neg (Ne.symm hne), if_pos hg, if_pos hi] at hatg hati
    exact ⟨hg, hi, hatg.symm, hati⟩
  · rintro (rfl | ⟨hg, hi, hatg, hati⟩)
    · rfl
    · refine List.ext_getElem? fun k => ?_
      rw [getElem?_written, getElem?_written]
      by_cases hkg : k = g
      · subst hkg
        rw [if_pos rfl, if_pos hg, hatg, ite_self]
      · by_cases hki : k = i
        · subst hki
          rw [if_neg hkg, if_pos rfl, if_pos hi, hati]
        · rw [if_neg hkg, if_neg hki]
          by_cases hk : k < items.length
          · rw [if_pos hk, if_pos hk]
          · rw [if_neg hk, if_neg hk, if_neg (by omega), if_neg (by omega)]

/-- The index that is held names the item, or another item that is `v` like the one at the index. -/
def HeldIndex (held : Int) (items : List JsonVal) (i : Nat) (v : JsonVal) : Prop :=
  ¬(items = [] ∧ held < 0) ∧ (held.toNat = i ∨
    (held.toNat < items.length ∧ i < items.length ∧ items[held.toNat]? = some v ∧ items[i]? = some v))

/-- The item at `i` is written. -/
def ItemLaw (held : Int) (items : List JsonVal) (i : Nat) (v : JsonVal) : Prop :=
  ∃ items', jsonPropertySetInt held (.array items) i v = .ok (true, .array items') ∧ ItemSet items items' i v

theorem itemLaw_iff (held : Int) (items : List JsonVal) (i : Nat) (v : JsonVal) :
    ItemLaw held items i v ↔ HeldIndex held items i v := by
  rw [ItemLaw, jsonPropertySetInt, propertySetStr_array, HeldIndex]
  by_cases hnull : items = [] ∧ held < 0
  · refine iff_of_false ?_ fun h => h.1 hnull
    rw [if_pos hnull]
    rintro ⟨items', h, -⟩
    cases h
  · rw [if_neg hnull, and_iff_right hnull, ← written_inj_iff]
    constructor
    · rintro ⟨items', h, hset⟩
      cases h
      exact itemSet_iff.mp hset
    · exact fun h => ⟨_, rfl, itemSet_iff.mpr h⟩

/-! ## The laws -/

/-- A member that is written is read again, and the others as before if they are there. The items follow the
laws exactly if the index that is held happens to be the right one. -/
theorem jsonProperty_laws_iff (tosa : JsonVal → Bytes) (held : Int) :
    (∀ (members : List (Bytes × JsonVal)) (key : Bytes) (v : JsonVal), key ≠ [] → 0 ∉ key →
      key.length < maxSizeKey → ∃ obj, jsonPropertySetStr held (.object members) key v = .ok (true, obj) ∧
        jsonPropertyGet tosa obj (.string key) = .ok v ∧
        ∀ other, other ≠ key → (Kept tosa members obj other ↔ (mapGet members other).isSome)) ∧
    ∀ (items : List JsonVal) (i : Nat) (v : JsonVal), ItemLaw held items i v ↔ HeldIndex held items i v :=
  ⟨fun _ _ _ hkey hz hlen => propertySetStr_spec tosa held hkey hz hlen, itemLaw_iff held⟩

/-- `null` under `a` in an empty object, and as the first item of an empty array. -/
theorem jsonProperty_laws_null :
    (∃ obj, jsonPropertySetStr 0 (.object []) [97] .null = .ok (true, obj) ∧
      jsonPropertyGet (fun _ => []) obj (.string [97]) = .ok .null) ∧ ItemLaw 0 [] 0 .null := by
  obtain ⟨hobject, harray⟩ := jsonProperty_laws_iff (fun _ => []) 0
  obtain ⟨obj, hset, hget, -⟩ := hobject [] [97] .null (by decide) (by decide) (by decide)
  exact ⟨⟨obj, hset, hget⟩, (harray [] 0 .null).mpr ⟨fun h => absurd h.2 (by decide), .inl rfl⟩⟩

/-- Under `b` there is nothing in an object with `a` alone, and where a 1 is held the array gets two items. -/
theorem jsonProperty_laws_not :
    ¬(∃ obj, jsonPropertySetStr 1 (.object []) [97] .null = .ok (true, obj) ∧
      jsonPropertyGet (fun _ => []) obj (.string [97]) = .ok .null ∧
      ∀ other, other ≠ [97] → Kept (fun _ => []) [] obj other) ∧
    ¬ItemLaw 1 [] 0 .null := by
  constructor
  · rintro ⟨obj, hset, -, hkept⟩
    have hobj : jsonPropertySetStr 1 (.object []) [97] .null = .ok (true, .object (Dict.set [] [97] .null)) :=
      propertySetStr_object 1 (by decide) (by decide) (by decide)
    obtain rfl := (Prod.mk.inj (Except.ok.inj (hset.symm.trans hobj))).2
    have h := hkept [98] (by decide)
    rw [Kept, propertyGet_object] at h
    cases h
  · rintro ⟨items', hset, hitems⟩
    cases hset
    exact absurd hitems.length (by decide)

end Dirlist
