import Mathlib

/-! Breadth-first search with a list for the queue. What was visited and what is still to be
visited make up the list of all that was discovered, in the order of discovery. -/

namespace Search

variable {α : Type} [DecidableEq α]

/-- What of a list is new, each once. -/
def fresh (seen : List α) : List α → List α
  | [] => []
  | x :: xs => if x ∈ seen then fresh seen xs else x :: fresh (seen ++ [x]) xs

/-- A search that has visited `done`, goes on through `todo` and ends with `l`. -/
inductive Walk (next : α → List α) : List α → List α → List α → Prop
  | done {done : List α} : Walk next done [] done
  | visit {done todo l : List α} {x : α} :
    Walk next (done ++ [x]) (todo ++ fresh (done ++ x :: todo) (next x)) l → Walk next done (x :: todo) l

variable {next : α → List α} {seen xs done todo l : List α} {x : α}

theorem foldl_fresh (seen xs : List α) :
    xs.foldl (fun seen x => if x ∈ seen then seen else seen ++ [x]) seen = seen ++ fresh seen xs := by
  induction xs generalizing seen with
  | nil => rw [List.foldl_nil, fresh, List.append_nil]
  | cons x xs ih =>
    rw [List.foldl_cons, fresh]
    split
    · rw [ih]
    · rw [ih, List.append_assoc, List.singleton_append]

theorem mem_fresh : x ∈ fresh seen xs ↔ x ∈ xs ∧ x ∉ seen := by
  induction xs generalizing seen with
  | nil => simp [fresh]
  | cons y xs ih =>
    rw [fresh]
    split
    · next hy =>
      rw [ih, List.mem_cons]
      exact ⟨fun h => ⟨.inr h.1, h.2⟩, fun h => ⟨h.1.resolve_left fun heq => h.2 (heq ▸ hy), h.2⟩⟩
    · next hy =>
      rw [List.mem_cons, ih, List.mem_cons, List.mem_append, List.mem_singleton, not_or]
      constructor
      · rintro (rfl | ⟨hmem, hnew, -⟩)
        · exact ⟨.inl rfl, hy⟩
        · exact ⟨.inr hmem, hnew⟩
      · rintro ⟨rfl | hmem, hnew⟩
        · exact .inl rfl
        · by_cases heq : x = y
          · exact .inl heq
          · exact .inr ⟨hmem, hnew, heq⟩

theorem nodup_fresh (xs : List α) (h : seen.Nodup) : (seen ++ fresh seen xs).Nodup := by
  induction xs generalizing seen with
  | nil => simpa [fresh] using h
  | cons y xs ih =>
    rw [fresh]
    split
    · exact ih h
    · next hy =>
      rw [← List.singleton_append, ← List.append_assoc]
      refine ih (List.nodup_append.mpr ⟨h, List.nodup_singleton y, ?_⟩)
      rintro a ha b hb rfl
      exact hy (List.mem_singleton.mp hb ▸ ha)

theorem Walk.unique {l' : List α} (h : Walk next done todo l) (h' : Walk next done todo l') : l = l' := by
  induction h with
  | done =>
    cases h'
    rfl
  | visit _ ih =>
    cases h' with
    | visit h' => exact ih h'

/-- What was discovered comes first. -/
theorem Walk.discovered (h : Walk next done todo l) : done ++ todo <+: l := by
  induction h with
  | done => simp
  | @visit done todo l x _ ih =>
    exact List.IsPrefix.trans ⟨fresh (done ++ x :: todo) (next x), by simp⟩ ih

theorem Walk.congr {next' : α → List α} (h : Walk next done todo l) (heq : ∀ x ∈ l, next x = next' x) :
    Walk next' done todo l := by
  induction h with
  | done => exact .done
  | @visit done todo l x h ih =>
    have hx : x ∈ l := h.discovered.subset (by simp)
    exact .visit (heq x hx ▸ ih heq)

theorem Walk.nodup (h : Walk next done todo l) (hnd : (done ++ todo).Nodup) : l.Nodup := by
  induction h with
  | done => simpa using hnd
  | @visit done todo l x _ ih =>
    apply ih
    have := nodup_fresh (next x) hnd
    simpa using this

/-- Nothing but what can be reached is found. -/
theorem Walk.sound {init : List α} (h : Walk next done todo l)
    (hreach : ∀ x ∈ done ++ todo, ∃ s ∈ init, Relation.ReflTransGen (fun a b => b ∈ next a) s x) :
    ∀ x ∈ l, ∃ s ∈ init, Relation.ReflTransGen (fun a b => b ∈ next a) s x := by
  induction h with
  | done => simpa using hreach
  | @visit done todo l x _ ih =>
    refine ih fun y hy => ?_
    rw [List.append_assoc, List.singleton_append, ← List.cons_append, ← List.append_assoc] at hy
    rcases List.mem_append.mp hy with hy | hy
    · exact hreach y hy
    · obtain ⟨s, hs, hsx⟩ := hreach x (by simp)
      exact ⟨s, hs, hsx.tail (mem_fresh.mp hy).1⟩

/-- All that is found leads to what is found. -/
theorem Walk.closed (h : Walk next done todo l) (hdone : ∀ x ∈ done, ∀ y ∈ next x, y ∈ done ++ todo) :
    ∀ x ∈ l, ∀ y ∈ next x, y ∈ l := by
  induction h with
  | done => simpa using hdone
  | @visit done todo l x _ ih =>
    refine ih fun z hz y hy => ?_
    have hall : y ∈ done ++ x :: todo ∨ y ∈ fresh (done ++ x :: todo) (next x) := by
      rcases List.mem_append.mp hz with hz | hz
      · exact .inl (hdone z hz y hy)
      · obtain rfl := List.mem_singleton.mp hz
        by_cases hmem : y ∈ done ++ z :: todo
        · exact .inl hmem
        · exact .inr (mem_fresh.mpr ⟨hy, hmem⟩)
    simp only [List.mem_append, List.mem_cons, List.not_mem_nil, or_false] at hall ⊢
    tauto

/-- The search finds what can be reached. -/
theorem Walk.mem_iff {init : List α} (h : Walk next [] init l) (x : α) :
    x ∈ l ↔ ∃ s ∈ init, Relation.ReflTransGen (fun a b => b ∈ next a) s x := by
  constructor
  · exact h.sound (fun x hx => ⟨x, hx, .refl⟩) x
  · rintro ⟨s, hs, hsx⟩
    induction hsx with
    | refl => exact h.discovered.subset hs
    | tail _ hxy ih => exact h.closed (by simp) _ ih _ hxy

/-- In a finite space the search ends. -/
theorem exists_walk {univ : List α} (hnext : ∀ x ∈ univ, ∀ y ∈ next x, y ∈ univ)
    (hin : ∀ x ∈ done ++ todo, x ∈ univ) (hnd : (done ++ todo).Nodup) : ∃ l, Walk next done todo l := by
  induction hk : univ.length - done.length using Nat.strongRecOn generalizing done todo with
  | _ k ih =>
    cases todo with
    | nil => exact ⟨done, .done⟩
    | cons x todo =>
      have hlen : (done ++ x :: todo).length ≤ univ.length := (List.subperm_of_subset hnd hin).length_le
      rw [List.length_append, List.length_cons] at hlen
      have hall : ∀ y ∈ done ++ [x] ++ (todo ++ fresh (done ++ x :: todo) (next x)), y ∈ univ := by
        intro y hy
        rw [List.append_assoc, List.singleton_append, ← List.cons_append, ← List.append_assoc] at hy
        rcases List.mem_append.mp hy with hy | hy
        · exact hin y hy
        · exact hnext x (hin x (by simp)) y (mem_fresh.mp hy).1
      obtain ⟨l, hl⟩ := ih (univ.length - (done ++ [x]).length) (by simp; omega) hall
        (by simpa using nodup_fresh (next x) hnd) rfl
      exact ⟨l, .visit hl⟩

end Search
