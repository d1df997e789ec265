import Dirlist.Byte
import Dirlist.Lib.Run

/-! The scanners of lib/path, with `/` as the only separator, and the components a path has
for whoever reads it. -/

namespace Dirlist
open Run

/-- A byte that is read by its index. -/
def byteAt (x : Bytes) (i : Nat) : Exec UInt8 :=
  match x[i]? with
  | none => .error .bounds
  | some c => .ok c

theorem byteAt_append (g : Bytes) (c : UInt8) (y : Bytes) : byteAt (g ++ c :: y) g.length = .ok c := by
  simp [byteAt]

def pathSep : UInt8 := 47

def pathDot : UInt8 := 46

def dotName : Bytes := [pathDot]

def upName : Bytes := [pathDot, pathDot]

/-- `path_issep` -/
def pathIssep (c : UInt8) : Bool := c = pathSep

def pathSkipSeparator (s : Bytes) : Nat := (s.takeWhile pathIssep).length

def pathSkipComponent (s : Bytes) : Nat := (s.takeWhile fun c => !pathIssep c).length

/-- A component and the separators behind it; a separator at the very end is not skipped. -/
def pathSkip (s : Bytes) : Nat :=
  let p := pathSkipComponent s
  p + pathSkipSeparator (s.drop p).dropLast

/-! ## Components -/

/-- What stands between separators, where that is anything. -/
def components (s : Bytes) : List Bytes := (s.splitOn pathSep).filter (· ≠ [])

/-- Something a path can name one level with. -/
def IsComponent (x : Bytes) : Prop := x ≠ [] ∧ pathSep ∉ x

variable {x s : Bytes} {cs : List Bytes}

@[simp] theorem components_nil : components [] = [] := rfl

theorem components_append (s t : Bytes) : components (s ++ pathSep :: t) = components s ++ components t := by
  rw [components, List.splitOn_append_cons_self, List.filter_append]
  rfl

@[simp] theorem components_sep (s : Bytes) : components (pathSep :: s) = components s :=
  components_append [] s

theorem components_of_isComponent (hx : IsComponent x) : components x = [x] := by
  rw [components, List.splitOn_eq_singleton hx.2]
  simp [hx.1]

/-- The components, each with a separator in front of it. -/
def rooted (cs : List Bytes) : Bytes := cs.flatMap fun x => pathSep :: x

@[simp] theorem rooted_cons (x : Bytes) (cs : List Bytes) :
    rooted (x :: cs) = pathSep :: (x ++ rooted cs) := by
  simp [rooted]

theorem components_append_rooted (hcs : ∀ x ∈ cs, IsComponent x) (s : Bytes) :
    components (s ++ rooted cs) = components s ++ cs := by
  induction cs generalizing s with
  | nil => simp [rooted]
  | cons x cs ih =>
    have hx := hcs x List.mem_cons_self
    have htail := ih (fun y hy => hcs y (List.mem_cons_of_mem _ hy)) x
    rw [rooted_cons, components_append, htail, components_of_isComponent hx]
    rfl

/-! ## Scanning -/

theorem skipComponent_append (hx : pathSep ∉ x) (hs : s.head? = none ∨ s.head? = some pathSep) :
    pathSkipComponent (x ++ s) = x.length := by
  have hall : ∀ c ∈ x, (!pathIssep c) = true := by
    intro c hc
    have hne : c ≠ pathSep := fun he => hx (he ▸ hc)
    simp [pathIssep, hne]
  rw [pathSkipComponent, List.takeWhile_append_of_pos hall]
  cases s with
  | nil => simp
  | cons c s =>
    obtain rfl : c = pathSep := by simpa using hs
    simp [pathIssep]

theorem rooted_head (cs : List Bytes) : (rooted cs).head? = none ∨ (rooted cs).head? = some pathSep := by
  cases cs with
  | nil => exact .inl rfl
  | cons x cs => exact .inr (by simp)

theorem skipSeparator_component (hx : IsComponent x) (s : Bytes) : pathSkipSeparator (x ++ s) = 0 := by
  obtain ⟨c, x', rfl⟩ := List.exists_cons_of_ne_nil hx.1
  have hc : c ≠ pathSep := fun he => hx.2 (he ▸ List.mem_cons_self)
  simp [pathSkipSeparator, pathIssep, hc]

/-- The byte at the very end is not looked at. -/
theorem skipSeparator_dropLast (hx : IsComponent x) (s : Bytes) :
    pathSkipSeparator (pathSep :: (x ++ s)).dropLast = 1 := by
  obtain ⟨c, x', rfl⟩ := List.exists_cons_of_ne_nil hx.1
  have hc : c ≠ pathSep := fun he => hx.2 (he ▸ List.mem_cons_self)
  rw [List.cons_append, List.dropLast_cons_cons]
  cases hrest : x' ++ s with
  | nil => simp [pathSkipSeparator, pathIssep]
  | cons d t => simp [pathSkipSeparator, pathIssep, hc]

theorem pathSkip_append (hx : pathSep ∉ x) (hs : s.head? = none ∨ s.head? = some pathSep) :
    pathSkip (x ++ s) = x.length + pathSkipSeparator s.dropLast := by
  rw [pathSkip]
  simp only [skipComponent_append hx hs, List.drop_left]

theorem skipSeparator_one (hx : IsComponent x) (s : Bytes) :
    pathSkipSeparator (pathSep :: (x ++ s)) = 1 := by
  have hnone := skipSeparator_component hx s
  rw [pathSkipSeparator] at hnone ⊢
  simp [pathIssep, hnone]

end Dirlist
