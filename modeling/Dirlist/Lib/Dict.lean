import Mathlib

/-! Finite maps that remember the order in which their keys were first put in, as
association lists without repeated keys. -/

abbrev Dict (κ ν : Type) := List (κ × ν)

namespace Dict

variable {κ ν : Type} [DecidableEq κ]

def get? (d : Dict κ ν) (k : κ) : Option ν := (d.find? fun e => e.1 = k).map Prod.snd

/-- Put in a new key; a key that is there already keeps its value. -/
def add (d : Dict κ ν) (k : κ) (v : ν) : Dict κ ν :=
  if (d.get? k).isSome then d else d ++ [(k, v)]

/-- Put in a key, or give it a new value at its old place. -/
def set (d : Dict κ ν) (k : κ) (v : ν) : Dict κ ν :=
  if (d.get? k).isSome then d.map fun e => if e.1 = k then (k, v) else e else d ++ [(k, v)]

def erase (d : Dict κ ν) (k : κ) : Dict κ ν := d.filter fun e => e.1 ≠ k

variable {d : Dict κ ν} {k k' : κ} {v : ν}

@[simp] theorem get?_nil : get? ([] : Dict κ ν) k = none := rfl

theorem get?_cons {e : κ × ν} : get? (e :: d) k = if e.1 = k then some e.2 else get? d k := by
  by_cases h : e.1 = k <;> simp [get?, h]

theorem get?_isSome : (d.get? k).isSome ↔ k ∈ d.map Prod.fst := by
  induction d with
  | nil => simp
  | cons e d ih =>
    rw [get?_cons]
    by_cases h : e.1 = k
    · simp [h]
    · have hne : k ≠ e.1 := fun he => h he.symm
      rw [if_neg h, ih, List.map_cons, List.mem_cons]
      simp [hne]

theorem get?_eq_none : d.get? k = none ↔ k ∉ d.map Prod.fst := by
  rw [← get?_isSome]
  simp

theorem get?_append_singleton : get? (d ++ [(k, v)]) k' =
    if (d.get? k').isSome then d.get? k' else if k = k' then some v else none := by
  induction d with
  | nil => simp [get?_cons]
  | cons e d ih =>
    rw [List.cons_append, get?_cons, get?_cons, ih]
    by_cases h : e.1 = k' <;> simp [h]

theorem add_of_none (h : d.get? k = none) (v : ν) : d.add k v = d ++ [(k, v)] := by
  simp [add, h]

theorem set_of_none (h : d.get? k = none) (v : ν) : d.set k v = d ++ [(k, v)] := by
  simp [set, h]

theorem get?_add : get? (d.add k v) k' =
    if k = k' ∧ d.get? k = none then some v else d.get? k' := by
  unfold add
  by_cases hk : (d.get? k).isSome
  · have hn : d.get? k ≠ none := by
      intro h
      simp [h] at hk
    simp [hk, hn]
  · have hn : d.get? k = none := by simpa using hk
    rw [if_neg hk, get?_append_singleton]
    by_cases he : k = k'
    · subst he
      simp [hn]
    · cases d.get? k' <;> simp [he]

theorem get?_map_replace : get? (d.map fun e => if e.1 = k then (k, v) else e) k' =
    if k = k' ∧ (d.get? k).isSome then some v else d.get? k' := by
  induction d with
  | nil => simp
  | cons e d ih =>
    rw [List.map_cons, get?_cons, ih, get?_cons, get?_cons]
    by_cases h : e.1 = k
    · by_cases he : k = k' <;> simp [h, he]
    · by_cases he : k = k'
      · subst he
        simp [h]
      · simp [h, he]

theorem get?_set : get? (d.set k v) k' = if k = k' then some v else d.get? k' := by
  unfold set
  by_cases hk : (d.get? k).isSome
  · rw [if_pos hk, get?_map_replace]
    simp [hk]
  · have hn : d.get? k = none := by simpa using hk
    rw [if_neg hk, get?_append_singleton]
    by_cases he : k = k'
    · subst he
      simp [hn]
    · cases d.get? k' <;> simp [he]

theorem map_fst_set : (d.set k v).map Prod.fst =
    if (d.get? k).isSome then d.map Prod.fst else d.map Prod.fst ++ [k] := by
  unfold set
  by_cases hk : (d.get? k).isSome
  · rw [if_pos hk, if_pos hk, List.map_map]
    refine List.map_congr_left fun e _ => ?_
    by_cases h : e.1 = k <;> simp [h]
  · rw [if_neg hk, if_neg hk, List.map_append]
    rfl

theorem nodup_set (h : (d.map Prod.fst).Nodup) : ((d.set k v).map Prod.fst).Nodup := by
  rw [map_fst_set]
  by_cases hk : (d.get? k).isSome
  · rwa [if_pos hk]
  · rw [if_neg hk]
    refine List.Nodup.append h (List.nodup_singleton k) fun a ha hak => hk (get?_isSome.mpr ?_)
    rwa [List.mem_singleton.mp hak] at ha

theorem get?_erase : get? (d.erase k) k' = if k = k' then none else d.get? k' := by
  induction d with
  | nil => simp [erase]
  | cons e d ih =>
    unfold erase at ih ⊢
    by_cases h : e.1 = k
    · rw [List.filter_cons_of_neg (by simpa using h), ih, get?_cons, h]
      by_cases he : k = k' <;> simp [he]
    · rw [List.filter_cons_of_pos (by simpa using h), get?_cons, get?_cons, ih]
      by_cases he : k = k'
      · subst he
        simp [h]
      · by_cases h' : e.1 = k' <;> simp [he, h']

end Dict
