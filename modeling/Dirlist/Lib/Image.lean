import Mathlib

/-! Memory as segments. A segment is a list of cells at an address; the image of segments
gives each address the cell that lies there, and everything else a blank. A window is what a
reader of some consecutive addresses sees. -/

namespace Image

variable {α : Type} {blank : α} {s : Nat × List α} {segs before after : List (Nat × List α)} {a k l : Nat}

/-- The end of a segment. -/
def top (s : Nat × List α) : Nat := s.1 + s.2.length

def Covers (s : Nat × List α) (a : Nat) : Prop := s.1 ≤ a ∧ a < top s

instance : Decidable (Covers s a) := inferInstanceAs (Decidable (_ ∧ _))

/-- Ascending and disjoint. -/
def Ascending (segs : List (Nat × List α)) : Prop := segs.Pairwise fun s t => top s ≤ t.1

def image (blank : α) : List (Nat × List α) → Nat → α
  | [], _ => blank
  | s :: segs, a => if Covers s a then s.2.getD (a - s.1) blank else image blank segs a

def window (blank : α) (segs : List (Nat × List α)) (a k : Nat) : List α :=
  (List.range k).map fun i => image blank segs (a + i)

@[simp]
theorem length_window : (window blank segs a k).length = k := by simp [window]

@[simp]
theorem window_zero : window blank segs a 0 = [] := rfl

theorem window_add (a k l : Nat) :
    window blank segs a (k + l) = window blank segs a k ++ window blank segs (a + k) l := by
  simp only [window, List.range_add, List.map_append, List.map_map, Function.comp_def, Nat.add_assoc]

theorem window_congr {segs' : List (Nat × List α)}
    (h : ∀ i < k, image blank segs (a + i) = image blank segs' (a + i)) :
    window blank segs a k = window blank segs' a k :=
  List.map_congr_left fun i hi => h i (List.mem_range.mp hi)

theorem image_of_blank (h : ∀ s ∈ segs, ¬ Covers s a) : image blank segs a = blank := by
  induction segs with
  | nil => rfl
  | cons s segs ih =>
    rw [List.forall_mem_cons] at h
    rw [image, if_neg h.1, ih h.2]

theorem image_behind (h : ∀ s ∈ before, top s ≤ a) :
    image blank (before ++ segs) a = image blank segs a := by
  induction before with
  | nil => rfl
  | cons s before ih =>
    rw [List.forall_mem_cons] at h
    rw [List.cons_append, image, if_neg (fun hc => absurd hc.2 (Nat.not_lt.mpr h.1)), ih h.2]

theorem window_behind (h : ∀ s ∈ before, top s ≤ a) :
    window blank (before ++ segs) a k = window blank segs a k :=
  window_congr fun i _ => image_behind fun s hs => Nat.le_trans (h s hs) (Nat.le_add_right a i)

theorem window_of_blank (h : ∀ s ∈ segs, top s ≤ a ∨ a + k ≤ s.1) :
    window blank segs a k = List.replicate k blank := by
  refine List.eq_replicate_iff.mpr ⟨length_window, fun c hc => ?_⟩
  obtain ⟨i, hi, rfl⟩ := List.mem_map.mp hc
  rw [List.mem_range] at hi
  refine image_of_blank fun s hs hcov => ?_
  have hlo := hcov.1
  have hhi := hcov.2
  rcases h s hs with h | h <;> omega

/-- Inside a segment a reader sees its cells. -/
theorem window_inside {p : Nat} (h : p + k ≤ s.2.length) :
    window blank (s :: segs) (s.1 + p) k = (s.2.drop p).take k := by
  refine List.ext_getElem (by simp; omega) fun i hi _ => ?_
  rw [length_window] at hi
  have hcov : Covers s (s.1 + p + i) := ⟨by omega, by rw [top]; omega⟩
  have hin : p + i < s.2.length := by omega
  simp only [window, List.getElem_map, List.getElem_range, image, if_pos hcov, List.getElem_take,
    List.getElem_drop]
  rw [show s.1 + p + i - s.1 = p + i by omega]
  simp [hin]

/-! ## Readers -/

/-- A reader that is asked for `n` cells behind an address. It may stop where the memory does. -/
structure Shows (blank : α) (segs : List (Nat × List α)) (a n : Nat) (out : List α) : Prop where
  image : out = window blank segs a out.length
  length : out.length ≤ n
  full : n ≤ out.length ∨ ∀ s ∈ segs, top s ≤ a + out.length

variable {n p : Nat} {out : List α}

/-- As far as the segment goes. -/
theorem Shows.inside (h : p + n ≤ s.2.length) :
    Shows blank (s :: segs) (s.1 + p) n ((s.2.drop p).take n) := by
  have hlen : ((s.2.drop p).take n).length = n := by simp; omega
  refine ⟨?_, Nat.le_of_eq hlen, .inl (Nat.le_of_eq hlen.symm)⟩
  rw [hlen, window_inside h]

/-- Through the segment and on behind it. -/
theorem Shows.through (hp : p ≤ s.2.length) (hn : s.2.length ≤ p + n)
    (h : Shows blank segs (top s) (p + n - s.2.length) out) :
    Shows blank (s :: segs) (s.1 + p) n (s.2.drop p ++ out) := by
  have hlen := h.length
  have htop : s.1 + p + (s.2.length - p) = top s := by
    rw [top]
    omega
  have hseen : window blank (s :: segs) (s.1 + p) (s.2.length - p) = s.2.drop p := by
    rw [window_inside (by omega), List.take_of_length_le (by simp)]
  have hrest : window blank (s :: segs) (top s) out.length = out := by
    refine Eq.trans ?_ h.image.symm
    rw [← List.singleton_append]
    exact window_behind (by simp)
  refine ⟨?_, ?_, ?_⟩
  · rw [List.length_append, List.length_drop, window_add, htop, hseen, hrest]
  · rw [List.length_append, List.length_drop]
    omega
  · rw [List.length_append, List.length_drop]
    rcases h.full with h | h
    · exact .inl (by omega)
    · refine .inr (List.forall_mem_cons.mpr ⟨by omega, fun t ht => ?_⟩)
      have := h t ht
      omega

/-- Where nothing lies. -/
theorem Shows.blanks (h : ∀ s ∈ segs, top s ≤ a ∨ a + n ≤ s.1) :
    Shows blank segs a n (List.replicate n blank) := by
  refine ⟨?_, by simp, .inl (by simp)⟩
  rw [List.length_replicate, window_of_blank h]

/-- Over a gap and on behind it. -/
theorem Shows.gap (h : ∀ s ∈ segs, a + k ≤ s.1) (hk : k ≤ n)
    (hout : Shows blank segs (a + k) (n - k) out) : Shows blank segs a n (List.replicate k blank ++ out) := by
  have hlen := hout.length
  refine ⟨?_, ?_, ?_⟩
  · rw [List.length_append, List.length_replicate, window_add, window_of_blank fun s hs => .inr (h s hs),
      ← hout.image]
  · rw [List.length_append, List.length_replicate]
    omega
  · rw [List.length_append, List.length_replicate, ← Nat.add_assoc]
    exact hout.full.imp_left (by omega)

/-- What lies before the address does not count. -/
theorem Shows.behind (h : ∀ s ∈ before, top s ≤ a) (hout : Shows blank segs a n out) :
    Shows blank (before ++ segs) a n out := by
  refine ⟨?_, hout.length, hout.full.imp_right fun hfull s hs => ?_⟩
  · rw [window_behind h]
    exact hout.image
  · rcases List.mem_append.mp hs with hs | hs
    · exact Nat.le_trans (h s hs) (Nat.le_add_right ..)
    · exact hfull s hs

end Image
