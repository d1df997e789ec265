import Dirlist.Lib.Run
import Dirlist.Strlist.Defs

/-! The targets of genmakefile and the functions that follow their dependencies. A target is known
by its address, of any type, and its fields are functions of the address. -/

namespace Dirlist
open Run

variable {α σ : Type} [DecidableEq α]

/-! ## Arrays -/

/-- `array_foreach_t` over the array that `read` finds, from the elements that are left. An array
that was changed meanwhile may have moved, and then the pointer into it is stale. -/
def arrayForeach (read : σ → List α) (body : α → σ → Exec σ) (a : List α) : List α → σ → Exec σ
  | [], s => .ok s
  | x :: xs, s => do
    let s ← body x s
    if read s = a then arrayForeach read body a xs s else .error .bounds

/-- `array_catb` of one element -/
def arrayCatb (deps : α → List α) (t other : α) : α → List α := Function.update deps t (deps t ++ [other])

/-! ## Adding dependencies -/

/-- `rule_add_dep`, with the arrays of all targets. -/
def ruleAddDep : Nat → α → α → (α → List α) → Exec (Nat × (α → List α))
  | 0, _, _, _ => .error .fuel
  | k + 1, t, other, deps =>
    if other ∈ deps t then .ok (0, deps)
    else do
      let deps := arrayCatb deps t other
      let deps ← arrayForeach (fun deps => deps other)
        (fun d deps => do
          let r ← ruleAddDep k t d deps
          .ok r.2) (deps other) (deps other) deps
      .ok (1, deps)

/-! ## Listing dependencies -/

/-- `set_add` and `set_adds`, on the elements of a set. -/
def setAdds (s : List Bytes) (x : Bytes) : List Bytes := if s.contains x then s else s ++ [x]

theorem mem_setAdds {s : List Bytes} {n x : Bytes} : n ∈ setAdds s x ↔ n ∈ s ∨ n = x := by
  unfold setAdds
  by_cases hx : x ∈ s
  · rw [if_pos (by simpa using hx)]
    exact ⟨.inl, fun h => h.elim id fun heq => heq ▸ hx⟩
  · rw [if_neg (by simpa using hx), List.mem_append, List.mem_singleton]

/-- The serials of the targets, the set that is filled and the names on the way. -/
structure DepState (α : Type) where
  serial : α → UInt32
  s : List Bytes
  hier : Strlist

/-- `rule_dep_list_recursive`, at the value `depSerial` of `rule_dep_serial`. -/
def ruleDepListRecursive (deps : α → List α) (name : α → Bytes) (depSerial : UInt32) :
    Nat → α → Int → DepState α → Exec (DepState α)
  | 0, _, _, _ => .error .fuel
  | k + 1, t, depth, st =>
    (deps t).foldlM (fun st ptr =>
      if st.serial t = st.serial ptr then .ok st
      else if strlistContainsb st.hier (name ptr) then .ok st
      else do
        let st ← ruleDepListRecursive deps name depSerial k ptr (depth + 1)
          { st with hier := strlistPush st.hier (name ptr) }
        let hier ← strlistPop st.hier
        .ok { st with hier := hier, s := if depth ≥ 0 then setAdds st.s (name ptr) else st.s })
      { st with serial := Function.update st.serial t depSerial }

/-- The serials of the targets and `rule_dep_serial`. -/
structure DepMarks (α : Type) where
  serial : α → UInt32
  depSerial : UInt32

/-- `rule_dep_list`, with the set it leaves. -/
def ruleDepList (deps : α → List α) (name : α → Bytes) (k : Nat) (t : α) (m : DepMarks α) :
    Exec (DepMarks α × List Bytes) := do
  let depSerial := m.depSerial - 1
  let st ← ruleDepListRecursive deps name depSerial k t 0
    ⟨m.serial, [], strlistPush (strlistInit 0) (name t)⟩
  .ok (⟨st.serial, depSerial⟩, st.s)

/-- `rule_deps_indirect` -/
def ruleDepsIndirect (deps : α → List α) (name : α → Bytes) (k : Nat) (t : α) (s : List Bytes)
    (m : DepMarks α) : Exec (DepMarks α × List Bytes) := do
  let st ← (deps t).foldlM (fun st ptr => ruleDepListRecursive deps name m.depSerial k ptr 0 st)
    ⟨m.serial, setAdds s (name t), strlistPush (strlistInit 0) (name t)⟩
  .ok (⟨st.serial, m.depSerial⟩, st.s)

end Dirlist
