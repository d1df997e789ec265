import Dirlist.Dlist.Swap

/-! Joining two lists of lib/dlist, and walking over one. -/

namespace Dirlist
open Run Ring Strand

variable {α : Type} {h h' : Heap (DlistNode α)} {l : Dlist} {p q : Addr} {before after : Option Addr}
  {as bs cs xs : List Addr}

/-! ## Joining -/

theorem dlistOf_join (has : as ≠ []) (hbs : bs ≠ []) :
    dlistOf (as ++ bs) = ⟨(dlistOf as).head, (dlistOf bs).tail⟩ := by
  obtain ⟨a, as, rfl⟩ := List.exists_cons_of_ne_nil has
  rw [dlistOf_append, List.getLast?_eq_some_getLast hbs, dlistOf, dlistOf, List.getLast?_eq_some_getLast hbs]
  rfl

/-- `bs` behind `as`, when the links of the two ends are set in either order. -/
theorem strung_append (hs : Strung h as) (hs' : Strung h bs) (hdisj : ∀ a ∈ as, a ∉ bs)
    (hsa : Seg dlistLinks h' none as bs.head?) (hsb : Seg dlistLinks h' as.getLast? bs none) :
    Strung h' (as ++ bs) := by
  refine ⟨seg_append.mpr ?_, List.nodup_append.mpr ⟨hs.nodup, hs'.nodup, ?_⟩⟩
  · rw [Option.or_none, Option.or_none]
    exact ⟨hsa, hsb⟩
  · exact fun a ha b hb heq => hdisj a ha (heq ▸ hb)

theorem dlistMoveHead_spec (hs : Strung h as) (hs' : Strung h bs) (hdisj : ∀ a ∈ as, a ∉ bs) :
    ∃ h', dlistMoveHead (dlistOf as) (dlistOf bs) h = .ok (dlistInit, dlistOf (as ++ bs), h') ∧
      Strung h' (as ++ bs) ∧ Confined dlistLinks h h' (as ++ bs) := by
  rcases List.eq_nil_or_concat as with rfl | ⟨as, t, rfl⟩
  · cases bs with
    | nil => exact ⟨h, rfl, hs, .refl h []⟩
    | cons b bs => exact ⟨h, rfl, hs', .refl h _⟩
  · rw [List.concat_eq_append] at *
    cases bs with
    | nil =>
      rw [List.append_nil]
      exact ⟨h, rfl, hs, .refl h _⟩
    | cons b bs =>
      obtain ⟨h₁, hrun₁, hsa₁, hw₁⟩ := relink_last hs.seg hs.nodup (some b)
      have hsb₁ := hs'.seg.within hw₁ fun a ha hat => hdisj a hat ha
      obtain ⟨h₂, hrun₂, hsb₂, hw₂⟩ := relink_first hsb₁ hs'.nodup (some t)
      refine ⟨h₂, ?_, strung_append hs hs' hdisj (hsa₁.within hw₂ hdisj) ?_, ?_⟩
      · have htail : (dlistOf (as ++ [t])).tail = some t := List.getLast?_concat
        have hhead : (dlistOf (b :: bs)).head = some b := rfl
        simp only [dlistMoveHead, htail, hhead, hrun₁, hrun₂, ok_bind]
        rw [dlistOf_join (List.append_ne_nil_of_right_ne_nil as (List.cons_ne_nil t [])) (List.cons_ne_nil b bs)]
      · rw [List.getLast?_concat]
        exact hsb₂
      · exact (hw₁.mono (List.subset_append_left _ _)).trans (hw₂.mono (List.subset_append_right _ _))

theorem dlistMoveTail_spec (hs : Strung h as) (hs' : Strung h bs) (hdisj : ∀ a ∈ as, a ∉ bs) :
    ∃ h', dlistMoveTail (dlistOf as) (dlistOf bs) h = .ok (dlistInit, dlistOf (bs ++ as), h') ∧
      Strung h' (bs ++ as) ∧ Confined dlistLinks h h' (bs ++ as) := by
  have hdisj' : ∀ b ∈ bs, b ∉ as := fun b hb ha => hdisj b ha hb
  rcases List.eq_nil_or_concat bs with rfl | ⟨bs, d, rfl⟩
  · cases as with
    | nil => exact ⟨h, rfl, hs, .refl h []⟩
    | cons a as => exact ⟨h, rfl, hs, .refl h _⟩
  · rw [List.concat_eq_append] at *
    have htail : (dlistOf (bs ++ [d])).tail = some d := List.getLast?_concat
    cases as with
    | nil =>
      have hhead : (dlistOf []).head = none := rfl
      rw [List.append_nil, dlistMoveTail, htail, hhead]
      exact ⟨h, rfl, hs', .refl h _⟩
    | cons a as =>
      obtain ⟨h₁, hrun₁, hsa₁, hw₁⟩ := relink_first hs.seg hs.nodup (some d)
      have hsb₁ := hs'.seg.within hw₁ hdisj'
      obtain ⟨h₂, hrun₂, hsb₂, hw₂⟩ := relink_last hsb₁ hs'.nodup (some a)
      refine ⟨h₂, ?_, strung_append hs' hs hdisj' hsb₂ ?_, ?_⟩
      · have hhead : (dlistOf (a :: as)).head = some a := rfl
        simp only [dlistMoveTail, htail, hhead, hrun₁, hrun₂, ok_bind]
        rw [dlistOf_join (List.append_ne_nil_of_right_ne_nil bs (List.cons_ne_nil d [])) (List.cons_ne_nil a as)]
      · rw [List.getLast?_concat]
        exact hsa₁.within hw₂ hdisj
      · exact (hw₁.mono (List.subset_append_right _ _)).trans (hw₂.mono (List.subset_append_left _ _))

/-! ## Walks -/

/-- The first node of a segment, and the next one to look at. -/
theorem load_first (hs : Seg dlistLinks h before (p :: xs) none) : ∃ x, h p = some x ∧ load h p = .ok x ∧
    x.next = xs.head? ∧ Seg dlistLinks h (some p) xs none := by
  obtain ⟨hsome, -, hnext, hrest⟩ := hs
  obtain ⟨x, hx, hload⟩ := load_eq hsome
  refine ⟨x, hx, hload, ?_, hrest⟩
  rw [Links.nextAt, hx, Option.or_none] at hnext
  exact hnext

theorem lengthRound_run (hs : Seg dlistLinks h before xs none) (count : Nat) :
    Returns (fun n => loop (fun _ => lengthRound h) n (xs.head?, count)) (count + xs.length) := by
  induction xs generalizing before count with
  | nil => exact returns_loop_done (returns_const rfl)
  | cons x xs ih =>
    obtain ⟨node, -, hload, hnext, hrest⟩ := load_first hs
    have hround : lengthRound h (some x, count) = .ok (.inl (xs.head?, count + 1)) := by
      rw [lengthRound, hload, ok_bind, hnext]
    have hcount : count + (x :: xs).length = (count + 1) + xs.length := by
      rw [List.length_cons, Nat.add_assoc, Nat.add_comm 1]
    rw [hcount]
    exact returns_loop_next (returns_const hround) (ih hrest (count + 1))

theorem dlistLength_spec (hs : Strung h xs) : Returns (fun n => dlistLength n (dlistOf xs) h) xs.length := by
  have hrun := lengthRound_run hs.seg 0
  rwa [Nat.zero_add] at hrun

/-- What a node carries. -/
def dataAt (h : Heap (DlistNode α)) (a : Addr) : Option α := (h a).map DlistNode.data

theorem findRound_run (hs : Seg dlistLinks h before xs none) (pred : α → Bool) :
    Returns (fun n => loop (fun _ => findRound h pred) n xs.head?) (xs.find? fun a => (dataAt h a).any pred) := by
  induction xs generalizing before with
  | nil => exact returns_loop_done (returns_const rfl)
  | cons x xs ih =>
    obtain ⟨node, hx, hload, hnext, hrest⟩ := load_first hs
    have hvalue : (dataAt h x).any pred = pred node.data := by rw [dataAt, hx, Option.map_some, Option.any_some]
    by_cases hpred : pred node.data
    · have hround : findRound h pred (some x) = .ok (.inr (some x)) := by
        rw [findRound, hload, ok_bind, if_pos hpred]
      have hfind : (x :: xs).find? (fun a => (dataAt h a).any pred) = some x :=
        List.find?_cons_of_pos (hvalue.trans hpred)
      rw [hfind]
      exact returns_loop_done (returns_const hround)
    · have hround : findRound h pred (some x) = .ok (.inl xs.head?) := by
        rw [findRound, hload, ok_bind, if_neg hpred, hnext]
      have hfind : (x :: xs).find? (fun a => (dataAt h a).any pred) = xs.find? fun a => (dataAt h a).any pred :=
        List.find?_cons_of_neg (hvalue ▸ hpred)
      rw [hfind]
      exact returns_loop_next (returns_const hround) (ih hrest)

theorem dlistFind_spec (hs : Strung h xs) (pred : α → Bool) :
    Returns (fun n => dlistFind n (dlistOf xs) h pred) (xs.find? fun a => (dataAt h a).any pred) :=
  findRound_run hs.seg pred

theorem foreachDown_run (hs : Seg dlistLinks h before xs none) (met : List Addr) :
    Returns (fun n => loop (fun _ => foreachRound DlistNode.next h) n (xs.head?, met)) (met ++ xs) := by
  induction xs generalizing before met with
  | nil =>
    rw [List.append_nil]
    exact returns_loop_done (returns_const rfl)
  | cons x xs ih =>
    obtain ⟨node, -, hload, hnext, hrest⟩ := load_first hs
    have hround : foreachRound DlistNode.next h (some x, met) = .ok (.inl (xs.head?, met ++ [x])) := by
      rw [foreachRound, hload, ok_bind, hnext]
    rw [← List.singleton_append, ← List.append_assoc]
    exact returns_loop_next (returns_const hround) (ih hrest (met ++ [x]))

theorem dlistForeachDown_spec (hs : Strung h xs) : Returns (fun n => dlistForeachDown n (dlistOf xs) h) xs :=
  foreachDown_run hs.seg []

/-- The walk up is about the last node, so the induction takes that one off. -/
theorem foreachUp_run (hs : Seg dlistLinks h none xs after) (met : List Addr) :
    Returns (fun n => loop (fun _ => foreachRound DlistNode.prev h) n (xs.getLast?, met)) (met ++ xs.reverse) := by
  induction xs using List.reverseRecOn generalizing after met with
  | nil =>
    rw [List.reverse_nil, List.append_nil]
    exact returns_loop_done (returns_const rfl)
  | append_singleton xs x ih =>
    obtain ⟨hrest, hone⟩ := seg_append.mp hs
    obtain ⟨node, hload, hprev, -⟩ := load_seg hone
    have hround : foreachRound DlistNode.prev h (some x, met) = .ok (.inl (xs.getLast?, met ++ [x])) := by
      rw [foreachRound, hload, ok_bind, hprev, Option.or_none]
    rw [List.getLast?_concat, List.reverse_append, List.reverse_singleton, ← List.append_assoc]
    exact returns_loop_next (returns_const hround) (ih hrest (met ++ [x]))

theorem dlistForeachUp_spec (hs : Strung h xs) : Returns (fun n => dlistForeachUp n (dlistOf xs) h) xs.reverse :=
  foreachUp_run hs.seg []

end Dirlist
