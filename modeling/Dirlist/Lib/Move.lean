import Dirlist.Lib.Run

/-! Copy loops over a block of cells. Inside one block the loop that goes up moves cells down and the
loop that goes down moves them up, whatever overlaps; cells from elsewhere can be copied either way. -/

namespace Run

variable {α : Type}

def readCell (cells : List α) (i : Nat) : Exec α :=
  match cells[i]? with
  | some x => .ok x
  | none => .error .bounds

/-- The `len` cells from `i` on. -/
def readCells (cells : List α) (i len : Nat) : Exec (List α) :=
  if i + len ≤ cells.length then .ok ((cells.drop i).take len) else .error .bounds

def writeCell (cells : List α) (i : Nat) (x : α) : Exec (List α) :=
  if i < cells.length then .ok (cells.set i x) else .error .bounds

/-- Copy `len` cells from `inp` on to `out` on, the first one first. -/
def copyUp (cells : List α) (out inp : Nat) : Nat → Exec (List α)
  | 0 => .ok cells
  | len + 1 => do
    let x ← readCell cells inp
    let cells ← writeCell cells out x
    copyUp cells (out + 1) (inp + 1) len

/-- The same, the last one first. -/
def copyDown (cells : List α) (out inp : Nat) : Nat → Exec (List α)
  | 0 => .ok cells
  | len + 1 => do
    let x ← readCell cells (inp + len)
    let cells ← writeCell cells (out + len) x
    copyDown cells out inp len

/-- Copy cells from another block. -/
def copyIn (cells : List α) (out : Nat) : List α → Exec (List α)
  | [] => .ok cells
  | x :: xs => do
    let cells ← writeCell cells out x
    copyIn cells (out + 1) xs

variable {a b c gap xs : List α} {x y : α}

theorem readCell_at {i : Nat} (hi : i = a.length) : readCell (a ++ x :: c) i = .ok x := by
  simp [readCell, hi]

theorem readCells_at {i : Nat} (hi : i = a.length) : readCells (a ++ b ++ c) i b.length = .ok b := by
  subst hi
  rw [readCells, if_pos (by simp), List.append_assoc, List.drop_left, List.take_left]

theorem writeCell_at {i : Nat} (hi : i = a.length) : writeCell (a ++ x :: c) i y = .ok (a ++ y :: c) := by
  subst hi
  rw [writeCell, if_pos (by simp), List.set_append_right _ _ (Nat.le_refl _), Nat.sub_self, List.set_cons_zero]

theorem copyIn_eq {out : Nat} (hout : out = a.length) (hlen : b.length = xs.length) :
    copyIn (a ++ b ++ c) out xs = .ok (a ++ xs ++ c) := by
  induction xs generalizing a b out with
  | nil =>
    obtain rfl := List.length_eq_zero_iff.mp hlen
    rfl
  | cons x xs ih =>
    obtain ⟨y, b, rfl⟩ := List.exists_cons_of_length_eq_add_one hlen
    have hrest : copyIn (a ++ [x] ++ b ++ c) (out + 1) xs = .ok (a ++ [x] ++ xs ++ c) :=
      ih (by simp [hout]) (by simpa using hlen)
    rw [List.append_assoc, List.cons_append, copyIn, writeCell_at hout, ok_bind]
    simpa using hrest

/-- Cells move down, over the gap below them and over themselves. -/
theorem copyUp_eq {out inp : Nat} (hout : out = a.length) (hinp : inp = a.length + gap.length) :
    copyUp (a ++ gap ++ b ++ c) out inp b.length = .ok (a ++ b ++ (gap ++ b).drop b.length ++ c) := by
  induction b generalizing a gap out inp with
  | nil => simp [copyUp]
  | cons x b ih =>
    have hread : readCell (a ++ gap ++ (x :: b) ++ c) inp = .ok x := by
      rw [List.append_assoc _ _ c, List.cons_append]
      exact readCell_at (by rw [hinp, List.length_append])
    rw [List.length_cons, copyUp, hread, ok_bind]
    cases gap with
    | nil =>
      have hwrite : writeCell (a ++ [] ++ (x :: b) ++ c) out x = .ok (a ++ [x] ++ [] ++ b ++ c) := by
        rw [List.append_nil, List.append_assoc, List.cons_append, writeCell_at hout]
        simp
      have hrest : copyUp (a ++ [x] ++ [] ++ b ++ c) (out + 1) (inp + 1) b.length =
          .ok (a ++ [x] ++ b ++ ([] ++ b).drop b.length ++ c) := ih (by simp [hout]) (by simp [hinp])
      rw [hwrite, ok_bind, hrest]
      simp
    | cons g gap =>
      have hwrite : writeCell (a ++ (g :: gap) ++ (x :: b) ++ c) out x = .ok (a ++ [x] ++ (gap ++ [x]) ++ b ++ c) := by
        rw [List.append_assoc _ _ c, List.append_assoc, List.cons_append, writeCell_at hout]
        simp
      have hrest : copyUp (a ++ [x] ++ (gap ++ [x]) ++ b ++ c) (out + 1) (inp + 1) b.length =
          .ok (a ++ [x] ++ b ++ (gap ++ [x] ++ b).drop b.length ++ c) :=
        ih (by simp [hout]) (by simp [hinp]; omega)
      rw [hwrite, ok_bind, hrest]
      simp

/-- Cells move up, over the gap above them and over themselves. -/
theorem copyDown_eq {out inp : Nat} (hinp : inp = a.length) (hout : out = a.length + gap.length) :
    copyDown (a ++ b ++ gap ++ c) out inp b.length = .ok (a ++ (b ++ gap).take gap.length ++ b ++ c) := by
  induction b using List.reverseRecOn generalizing gap c with
  | nil => simp [copyDown]
  | append_singleton b x ih =>
    have hread : readCell (a ++ (b ++ [x]) ++ gap ++ c) (inp + b.length) = .ok x := by
      have hsplit : a ++ (b ++ [x]) ++ gap ++ c = (a ++ b) ++ x :: (gap ++ c) := by simp
      rw [hsplit]
      exact readCell_at (by rw [hinp, List.length_append])
    rw [List.length_append, List.length_singleton, copyDown, hread, ok_bind]
    rcases List.eq_nil_or_concat gap with rfl | ⟨gap, g, rfl⟩
    · have hwrite : writeCell (a ++ (b ++ [x]) ++ [] ++ c) (out + b.length) x = .ok (a ++ b ++ [] ++ ([x] ++ c)) := by
        have hsplit : a ++ (b ++ [x]) ++ [] ++ c = (a ++ b) ++ x :: c := by simp
        rw [hsplit, writeCell_at (by simp [hout])]
        simp
      rw [hwrite, ok_bind, ih hout]
      simp
    · have hwrite : writeCell (a ++ (b ++ [x]) ++ (gap ++ [g]) ++ c) (out + b.length) x =
          .ok (a ++ b ++ ([x] ++ gap) ++ ([x] ++ c)) := by
        have hsplit : a ++ (b ++ [x]) ++ (gap ++ [g]) ++ c = (a ++ b ++ [x] ++ gap) ++ g :: c := by simp
        rw [hsplit, writeCell_at (by simp [hout]; omega)]
        simp
      have hrest : copyDown (a ++ b ++ ([x] ++ gap) ++ ([x] ++ c)) out inp b.length =
          .ok (a ++ (b ++ ([x] ++ gap)).take ([x] ++ gap).length ++ b ++ ([x] ++ c)) :=
        ih (by simpa [Nat.add_comm] using hout)
      have htake : (b ++ [x] ++ (gap ++ [g])).take (gap ++ [g]).length =
          (b ++ ([x] ++ gap)).take ([x] ++ gap).length := by
        rw [← List.append_assoc _ gap, ← List.append_assoc b, List.take_append_of_le_length (by simp)]
        simp
      rw [List.concat_eq_append, hwrite, ok_bind, hrest, htake]
      simp

end Run
