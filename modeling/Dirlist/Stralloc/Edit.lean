import Dirlist.Stralloc.Subst

/-! The edits of lib/stralloc at a position: `stralloc_replace`, `stralloc_insertb` and `stralloc_remove` move
the tail of the string inside its block, up or down and over itself, and come to one splice of the bytes. -/

namespace Dirlist
open Run

/-- `ys` in the place of `len` bytes at `pos`, behind all of them when `pos` is past the end. -/
def splice (pos len : Nat) (ys xs : Bytes) : Bytes :=
  xs.take pos ++ ys ++ xs.drop (pos + len)

namespace Stralloc

/-- `stralloc_replace`; without memory it leaves the string alone and says 0. -/
def replace (sa : Stralloc) (pos len : Nat) (to_ : Bytes) : Exec (Nat × Stralloc) :=
  if (pos + len) % 2 ^ 64 ≤ sa.len then
    match if to_.length > len then sa.readyplus (to_.length - len) else some sa with
    | some sa => do
      let sa ← sa.moveTail pos len to_.length
      let cells ← copyIn sa.cells pos to_
      .ok (1, { sa with cells })
    | none => .ok (0, sa)
  else .error .assert

def insertb (sa : Stralloc) (s : Bytes) (pos : Nat) : Exec (Nat × Stralloc) :=
  if pos ≥ sa.len then sa.catb s
  else
    match sa.readyplus s.length with
    | some sa => do
      let cells ← copyDown sa.cells (pos + s.length) pos (sa.len - pos)
      let cells ← copyIn cells pos s
      .ok (1, { cells, len := sa.len + s.length })
    | none => .ok (0, sa)

/-- `stralloc_remove`, with the number of bytes it removed, which is -1 behind the end. -/
def remove (sa : Stralloc) (pos n : Nat) : Exec (Nat × Stralloc) :=
  if (pos + 1) % 2 ^ 64 > sa.len then .ok (2 ^ 64 - 1, sa)
  else if (pos + n) % 2 ^ 64 ≥ sa.len then .ok (sa.len - pos, { sa with len := pos })
  else do
    let cells ← copyUp sa.cells pos (pos + n) (sa.len - (pos + n))
    .ok (n, { cells, len := sa.len - n })

end Stralloc

variable {sa : Stralloc} {as bs cs xs s to_ : Bytes} {pos len n : Nat}

theorem splice_append (as bs cs ys : Bytes) : splice as.length bs.length ys (as ++ bs ++ cs) = as ++ ys ++ cs := by
  rw [splice, ← List.length_append, List.drop_left, List.append_assoc as bs cs, List.take_left]

theorem splice_past (h : xs.length ≤ pos) (ys : Bytes) : splice pos len ys xs = xs ++ ys := by
  rw [splice, List.take_of_length_le h, List.drop_of_length_le (by omega), List.append_nil]

/-- The bytes before the range, in it and behind it. -/
theorem exists_pieces (h : pos + len ≤ xs.length) :
    ∃ as bs cs, xs = as ++ bs ++ cs ∧ as.length = pos ∧ bs.length = len := by
  refine ⟨xs.take pos, (xs.drop pos).take len, xs.drop (pos + len), ?_, ?_, ?_⟩
  · rw [← List.drop_drop, List.append_assoc, List.take_append_drop, List.take_append_drop]
  · rw [List.length_take]
    omega
  · rw [List.length_take, List.length_drop]
    omega

namespace Stralloc.Holds

theorem replace (h : sa.Holds xs) (to_ : Bytes) (hrange : pos + len ≤ xs.length)
    (hfits : len < to_.length → Obtainable (xs.length + (to_.length - len))) :
    ∃ sa', sa.replace pos len to_ = .ok (1, sa') ∧ sa'.Holds (splice pos len to_ xs) := by
  obtain ⟨as, bs, cs, rfl, rfl, rfl⟩ := exists_pieces hrange
  obtain ⟨sa₁, gap, spare, hroom, hlen, hgap, hcells⟩ := h.room hfits
  obtain ⟨sa₂, hole, spare', hmove, hhole, hlen', hcells'⟩ := moveTail hlen hcells hgap
  have hcopy : copyIn sa₂.cells as.length to_ = .ok (as ++ to_ ++ (cs ++ spare')) := by
    rw [hcells']
    exact copyIn_eq rfl hhole
  have hassert : (as.length + bs.length) % 2 ^ 64 ≤ sa.len := by
    rw [h.len]
    exact (Nat.mod_le _ _).trans hrange
  refine ⟨{ sa₂ with cells := as ++ to_ ++ (cs ++ spare') }, ?_, ?_⟩
  · rw [Stralloc.replace, if_pos hassert, hroom]
    simp only [hmove, ok_bind, hcopy]
  · rw [splice_append]
    exact ⟨hlen', spare', (List.append_assoc ..).symm⟩

theorem insertb (h : sa.Holds xs) (s : Bytes) (pos : Nat) (hfits : Obtainable (xs.length + s.length)) :
    ∃ sa', sa.insertb s pos = .ok (1, sa') ∧ sa'.Holds (splice pos 0 s xs) := by
  by_cases hpast : xs.length ≤ pos
  · rw [splice_past hpast, Stralloc.insertb, if_pos (h.len ▸ hpast)]
    exact h.catb s hfits
  obtain ⟨as, bs, cs, rfl, rfl, hbs⟩ := exists_pieces (show pos + 0 ≤ xs.length by omega)
  obtain rfl := List.length_eq_zero_iff.mp hbs
  obtain ⟨sa₁, gap, spare, hready, hlen, hgap, hcells⟩ := h.readyplus hfits
  -- what is moved up leaves a hole as long as the inserted bytes
  obtain ⟨hole, hhole, hdown⟩ : ∃ hole, hole.length = s.length ∧
      copyDown sa₁.cells (as.length + s.length) as.length (sa₁.len - as.length) =
        .ok (as ++ hole ++ (cs ++ spare)) := by
    refine ⟨(cs ++ gap).take gap.length, by simp [hgap], ?_⟩
    have htail : sa₁.len - as.length = cs.length := by simp [hlen]
    have hblock : sa₁.cells = as ++ cs ++ gap ++ spare := by simp [hcells]
    rw [htail, hblock, copyDown_eq rfl (by rw [hgap]), List.append_assoc _ cs]
  have hcopy : copyIn (as ++ hole ++ (cs ++ spare)) as.length s = .ok (as ++ s ++ (cs ++ spare)) := copyIn_eq rfl hhole
  refine ⟨{ cells := as ++ s ++ (cs ++ spare), len := sa₁.len + s.length }, ?_, ?_⟩
  · rw [Stralloc.insertb, if_neg (by rw [h.len]; exact hpast), hready]
    simp only [hdown, ok_bind, hcopy]
  · have hsplice := splice_append as [] cs s
    rw [List.length_nil] at hsplice
    rw [hsplice]
    refine ⟨?_, spare, (List.append_assoc ..).symm⟩
    simp [hlen]
    omega

theorem remove (h : sa.Holds xs) (hpos : pos < xs.length) (hsum : pos + n < 2 ^ 64) :
    ∃ sa', sa.remove pos n = .ok (min n (xs.length - pos), sa') ∧ sa'.Holds (splice pos n [] xs) := by
  have hinside : ¬(pos + 1) % 2 ^ 64 > sa.len := by
    rw [h.len]
    exact Nat.not_lt.mpr ((Nat.mod_le _ _).trans hpos)
  rw [Stralloc.remove, if_neg hinside, Nat.mod_eq_of_lt hsum, h.len]
  by_cases hrest : xs.length ≤ pos + n
  · obtain ⟨_, spare, hcells⟩ := id h
    refine ⟨{ sa with len := pos }, ?_, ?_, xs.drop pos ++ spare, ?_⟩
    · rw [if_pos hrest, Nat.min_eq_right (by omega)]
    · rw [splice, List.drop_of_length_le hrest, List.append_nil, List.append_nil, List.length_take,
        Nat.min_eq_left (Nat.le_of_lt hpos)]
    · rw [splice, List.drop_of_length_le hrest, List.append_nil, List.append_nil, ← List.append_assoc,
        List.take_append_drop, hcells]
  · obtain ⟨as, bs, cs, rfl, rfl, rfl⟩ := exists_pieces (show pos + n ≤ xs.length by omega)
    obtain ⟨hlen, spare, hcells⟩ := h
    have htail : (as ++ bs ++ cs).length - (as.length + bs.length) = cs.length := by
      rw [List.length_append, List.length_append, Nat.add_sub_cancel_left]
    have hup : copyUp sa.cells as.length (as.length + bs.length) cs.length =
        .ok (as ++ cs ++ (bs ++ cs).drop cs.length ++ spare) := by
      rw [hcells]
      exact copyUp_eq rfl rfl
    rw [if_neg hrest, htail, hup, ok_bind, splice_append, List.append_nil]
    refine ⟨_, by rw [Nat.min_eq_left (by omega)], ?_, (bs ++ cs).drop cs.length ++ spare, List.append_assoc ..⟩
    simp
    omega

end Stralloc.Holds

/-- Each of the three is a splice of the bytes, on any block with any spare room behind the string. -/
theorem strallocEdit_splice (hsa : sa.Holds xs) :
    (∀ pos len to_, pos + len ≤ xs.length → (len < to_.length → Obtainable (xs.length + (to_.length - len))) →
      ∃ sa', sa.replace pos len to_ = .ok (1, sa') ∧ sa'.Holds (xs.take pos ++ to_ ++ xs.drop (pos + len))) ∧
    (∀ s pos, Obtainable (xs.length + s.length) →
      ∃ sa', sa.insertb s pos = .ok (1, sa') ∧ sa'.Holds (xs.take pos ++ s ++ xs.drop pos)) ∧
    (∀ pos n, pos < xs.length → pos + n < 2 ^ 64 →
      ∃ sa', sa.remove pos n = .ok (min n (xs.length - pos), sa') ∧ sa'.Holds (xs.take pos ++ xs.drop (pos + n))) := by
  refine ⟨fun pos len to_ hrange hfits => ?_, fun s pos hfits => ?_, fun pos n hpos hsum => ?_⟩
  · exact hsa.replace to_ hrange hfits
  · exact hsa.insertb s pos hfits
  · obtain ⟨sa', hrun, hholds⟩ := hsa.remove hpos hsum
    refine ⟨sa', hrun, ?_⟩
    rwa [splice, List.append_nil] at hholds

/-- A tail longer than the gap moves over itself in each of the three. -/
theorem strallocEdit_splice_overlap :
    (∃ sa', Stralloc.replace { cells := [1, 2, 3, 4, 5], len := 5 } 1 1 [7, 8] = .ok (1, sa') ∧
      sa'.Holds [1, 7, 8, 3, 4, 5]) ∧
    (∃ sa', Stralloc.insertb { cells := [1, 2, 3, 4, 5], len := 5 } [9] 2 = .ok (1, sa') ∧
      sa'.Holds [1, 2, 9, 3, 4, 5]) ∧
    (∃ sa', Stralloc.remove { cells := [1, 2, 3, 4, 5], len := 5 } 1 1 = .ok (1, sa') ∧ sa'.Holds [1, 3, 4, 5]) := by
  have hsa : Stralloc.Holds { cells := [1, 2, 3, 4, 5], len := 5 } [1, 2, 3, 4, 5] := ⟨rfl, [], rfl⟩
  obtain ⟨hreplace, hinsertb, hremove⟩ := strallocEdit_splice hsa
  refine ⟨hreplace 1 1 [7, 8] (by decide) fun _ => ?_, hinsertb [9] 2 ?_, hremove 1 1 (by decide) (by decide)⟩
  · simp [Obtainable]
  · simp [Obtainable]

end Dirlist
