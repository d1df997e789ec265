import Dirlist.Strarray.Defs

/-! `strarray_splice` on an array that holds a list of strings leaves an array that holds the spliced list. -/

namespace Dirlist
open Run Ring

/-- The first `n` cells are initialized, and the sizes fit together. -/
structure Strarray.Sized (x : Strarray) (n : Nat) : Prop where
  initialized : x.initialized = 8 * n
  allocated : x.allocated = 8 * x.cells.length
  fits : n ≤ x.cells.length
  room : x.allocated < 2 ^ 63
  whole : (128 : Int) ∣ x.allocated

/-- The array has the strings `xs`. -/
structure Strarray.Holds (x : Strarray) (xs : List CStr) : Prop where
  sized : x.Sized xs.length
  cells : ∃ spare, x.cells = xs.map some ++ spare

variable {x y : Strarray} {xs ys : List CStr} {n m start del : Nat}

theorem arrayInit_holds : arrayInit.Holds [] := ⟨⟨rfl, rfl, Nat.le_refl 0, by decide, by decide⟩, [], rfl⟩

namespace Strarray.Sized

theorem size (h : x.Sized n) : strarraySize x = n := by
  rw [strarraySize, if_neg (by rw [h.allocated]; omega), h.initialized, sizeofPtr,
    Nat.mul_div_cancel_left n (by decide)]

theorem length_lt (h : x.Sized n) : 8 * x.cells.length + 128 ≤ 2 ^ 63 := by
  have hroom := h.room
  obtain ⟨q, hq⟩ := h.whole
  rw [hq] at hroom
  have hcells : 8 * x.cells.length = 128 * q := h.allocated ▸ hq
  omega

theorem get (h : x.Sized n) {i : Nat} : arrayGet x i = if i < n then some i else none := by
  have hlen := h.length_lt
  have hfits := h.fits
  rw [arrayGet, h.allocated, h.initialized, sizeofPtr]
  split_ifs <;> first | rfl | (exfalso; omega)

theorem truncate (h : x.Sized n) (hm : m ≤ n) : (arrayTruncate x m).Sized m := by
  have hlen := h.length_lt
  have hfits := h.fits
  have hsame : arrayTruncate x m = { x with initialized := 8 * m } := by
    rw [arrayTruncate, h.initialized, sizeofPtr, if_neg (by omega)]
  rw [hsame]
  exact ⟨rfl, h.allocated, hm.trans h.fits, h.room, h.whole⟩

theorem withCells (h : x.Sized n) {cells : List (Option CStr)} (hc : cells.length = x.cells.length) :
    ({ x with cells } : Strarray).Sized n :=
  ⟨h.initialized, by rw [hc]; exact h.allocated, hc ▸ h.fits, h.room, h.whole⟩

/-- Room for more members is made without losing one. -/
theorem allocate (h : x.Sized n) {unit membersize p : Nat} (hn : n < m) (hm : membersize * (p + 1) = 8 * m)
    (hsize : membersize = 1 ∧ unit = 128 ∨ membersize = 8 ∧ unit = 4096) (hroom : 8 * m + unit ≤ 2 ^ 63) :
    ∃ y, arrayAllocate x membersize p = (some (p * membersize), y) ∧ y.Sized m ∧
      y.cells.take n = x.cells.take n := by
  have hunit : (if membersize < 8 then 128 else 4096) = unit := by
    rcases hsize with ⟨rfl, rfl⟩ | ⟨rfl, rfl⟩ <;> rfl
  have hpos : p + 1 ≤ 8 * m := by
    rcases hsize with ⟨rfl, -⟩ | ⟨rfl, -⟩ <;> omega
  have hinit : (p + 1) * membersize = 8 * m := by rw [Nat.mul_comm, hm]
  have hlen := h.length_lt
  have hpos0 : ¬x.allocated < 0 := by
    rw [h.allocated]
    omega
  simp only [arrayAllocate, hm, hinit, hunit, h.initialized, sizeofPtr]
  rw [if_neg (by omega), if_pos (by omega)]
  by_cases hfull : x.allocated ≤ (8 * m : Nat)
  · have hround : ∃ q, (8 * m + (unit - 1)) / unit * unit = 128 * q ∧ 8 * m ≤ 128 * q ∧ 128 * q < 2 ^ 63 := by
      rcases hsize with ⟨-, rfl⟩ | ⟨-, rfl⟩
      · exact ⟨(8 * m + 127) / 128, by omega, by omega, by omega⟩
      · exact ⟨(8 * m + 4095) / 4096 * 32, by omega, by omega, by omega⟩
    obtain ⟨q, hq, hle, hlt⟩ := hround
    have hcells : (x.cells.take (8 * n / 8)).length = n := by
      rw [List.length_take, Nat.mul_div_cancel_left n (by decide)]
      exact Nat.min_eq_left h.fits
    have hcount : n + (128 * q / 8 - 8 * n / 8) = 16 * q := by omega
    rw [if_pos hfull, hq, if_neg (by omega)]
    refine ⟨_, rfl, ⟨rfl, ?_, ?_, ?_, ⟨q, by push_cast; ring⟩⟩, ?_⟩
    · simp only [List.length_append, hcells, List.length_replicate, hcount]
      omega
    · simp only [List.length_append, hcells, List.length_replicate, hcount]
      omega
    · simp only
      omega
    · rw [List.take_append_of_le_length (by rw [hcells]), Nat.mul_div_cancel_left n (by decide), List.take_take,
        Nat.min_self]
  · have hroom' : m ≤ x.cells.length := by
      rw [h.allocated] at hfull
      omega
    rw [if_neg hfull]
    exact ⟨_, rfl, ⟨rfl, h.allocated, hroom', h.room, h.whole⟩, rfl⟩

end Strarray.Sized

/-! ## The moves of a splice -/

/-- The members before `start`, as many as are inserted, and the tail; the pointer leads behind the first ones. -/
structure Opened (x : Strarray) (s : Option Nat) (a t : List (Option CStr)) (n insert : Nat) : Prop where
  sized : ∃ m, x.Sized m ∧ n ≤ m
  cells : ∃ g spare, x.cells = a ++ g ++ t ++ spare ∧ g.length = insert
  here : insert ≠ 0 → s = some a.length

theorem freeMembers_eq {a d c : List (Option CStr)} {s : Option Nat} (hs : d ≠ [] → s = some a.length) :
    freeMembers (a ++ d ++ c) s d.length = .ok (a ++ List.replicate d.length none ++ c) := by
  rw [freeMembers]
  by_cases hd : d = []
  · subst hd
    rfl
  · rw [if_neg (by simpa using hd), hs hd]
    exact copyIn_eq rfl (by simp)

theorem spliceTail_same {a d t c : List (Option CStr)} {s : Option Nat} (h : x.Sized n)
    (hc : x.cells = a ++ d ++ t ++ c) (hs : d ≠ [] → s = some a.length) (len newlen : Nat) (hn : newlen ≤ n) :
    ∃ r y, spliceTail x s len a.length d.length d.length newlen = .ok (r, y) ∧
      Opened y r a t newlen d.length := by
  refine ⟨s, x, by rw [spliceTail, if_neg (not_not.mpr rfl)], ⟨n, h, hn⟩, ⟨d, c, hc, rfl⟩, fun hd => ?_⟩
  exact hs (by simpa using hd)

/-- The tail moves down if less comes in than goes out. -/
theorem spliceTail_less {a d t c : List (Option CStr)} {s : Option Nat} {insert newlen : Nat} (h : x.Sized n)
    (hc : x.cells = a ++ d ++ t ++ c) (hn : n = a.length + d.length + t.length)
    (hs : d ≠ [] → s = some a.length) (hlt : insert < d.length) (hnew : newlen ≤ n) :
    ∃ r y, spliceTail x s n a.length d.length insert newlen = .ok (r, y) ∧ Opened y r a t newlen insert := by
  have hd : d ≠ [] := List.ne_nil_of_length_pos (by omega)
  obtain ⟨d₁, d₂, rfl, rfl⟩ : ∃ d₁ d₂, d = d₁ ++ d₂ ∧ d₁.length = insert :=
    ⟨d.take insert, d.drop insert, (List.take_append_drop insert d).symm, by rw [List.length_take]; omega⟩
  have hmove : n - (a.length + (d₁ ++ d₂).length) = t.length := by omega
  simp only [spliceTail, hs hd, ne_eq, hlt.ne, not_false_iff, if_true, gt_iff_lt, Nat.not_lt.mpr hlt.le, if_false,
    hmove, Option.map_some, Option.bind_some, deref, ok_bind]
  by_cases ht : t = []
  · subst ht
    exact ⟨_, _, if_neg (by simp), ⟨n, h, hnew⟩, ⟨d₁, d₂ ++ c, by simpa using hc, rfl⟩, fun _ => rfl⟩
  · have hget : arrayGet x (a.length + (d₁ ++ d₂).length) = some (a.length + (d₁ ++ d₂).length) := by
      have hlen := List.length_pos_of_ne_nil ht
      rw [h.get, if_pos (by omega)]
    have hcells : x.cells = (a ++ d₁) ++ d₂ ++ t ++ c := by rw [hc, ← List.append_assoc a]
    have hcopy : copyUp x.cells (a.length + d₁.length) (a.length + (d₁ ++ d₂).length) t.length =
        .ok ((a ++ d₁) ++ t ++ (d₂ ++ t).drop t.length ++ c) := by
      rw [hcells]
      exact copyUp_eq (by rw [List.length_append]) (by simp only [List.length_append]; omega)
    rw [if_pos (by simpa using ht), hget]
    simp only [ok_bind, hcopy]
    refine ⟨_, _, rfl, ⟨n, h.withCells ?_, hnew⟩, ⟨d₁, (d₂ ++ t).drop t.length ++ c, by simp, rfl⟩, fun _ => rfl⟩
    rw [hcells]
    simp only [List.length_append, List.length_drop]
    omega

/-- The tail moves up if more comes in than goes out. -/
theorem spliceTail_more {a d t c : List (Option CStr)} {s : Option Nat} {insert newlen : Nat} (h : x.Sized n)
    (hc : x.cells = a ++ d ++ t ++ c) (hn : n = a.length + d.length + t.length)
    (hs : t ≠ [] → s = some a.length) (hlt : d.length < insert) (hnew : newlen = n - d.length + insert)
    (hroom : newlen < 2 ^ 32) :
    ∃ r y, spliceTail x s n a.length d.length insert newlen = .ok (r, y) ∧ Opened y r a t newlen insert := by
  obtain ⟨y, hy, hsized, htake⟩ := h.allocate (m := newlen + 1) (p := newlen) (by omega) (by omega)
    (.inr ⟨rfl, rfl⟩) (by omega)
  have hmove : n - (a.length + d.length) = t.length := by omega
  obtain ⟨spare, hspare⟩ : ∃ spare, y.cells = a ++ d ++ t ++ spare := by
    refine ⟨y.cells.drop n, ?_⟩
    have hfirst : x.cells.take n = a ++ d ++ t := by
      rw [hc, List.take_left' (by rw [List.length_append, List.length_append, hn])]
    rw [← hfirst, ← htake, List.take_append_drop]
  have hlen : a.length + insert + t.length < (a ++ d ++ t ++ spare).length := by
    have hfits := hsized.fits
    rw [hspare] at hfits
    omega
  have hgap : insert - d.length ≤ spare.length := by
    simp only [List.length_append] at hlen
    omega
  obtain ⟨gap, c', rfl, hgaplen⟩ : ∃ gap c', spare = gap ++ c' ∧ gap.length = insert - d.length :=
    ⟨spare.take (insert - d.length), spare.drop (insert - d.length), (List.take_append_drop _ _).symm, by
      rw [List.length_take]
      omega⟩
  have hback : newlen * sizeofPtr / sizeofPtr - newlen + a.length = a.length := by
    rw [sizeofPtr, Nat.mul_div_cancel newlen (by decide), Nat.sub_self, Nat.zero_add]
  simp only [spliceTail, ne_eq, hlt.ne', not_false_iff, if_true, gt_iff_lt, hlt, hmove,
    show 8 = sizeofPtr from rfl] at hy ⊢
  simp only [hy, Option.map_some, hback, deref, ok_bind]
  by_cases ht : t = []
  · subst ht
    refine ⟨_, _, if_neg (by simp), ⟨_, hsized, Nat.le_succ _⟩, ⟨d ++ gap, c', ?_, ?_⟩, fun _ => rfl⟩
    · rw [hspare]
      simp
    · rw [List.length_append]
      omega
  · have hget : arrayGet y (a.length + d.length) = some (a.length + d.length) := by
      have hpos := List.length_pos_of_ne_nil ht
      rw [hsized.get, if_pos (by omega)]
    have hcopy : copyDown y.cells (a.length + insert) (a.length + d.length) t.length =
        .ok ((a ++ d) ++ (t ++ gap).take gap.length ++ t ++ c') := by
      rw [hspare, ← List.append_assoc]
      exact copyDown_eq (by rw [List.length_append]) (by rw [List.length_append]; omega)
    rw [if_pos (by simpa using ht), hs ht]
    simp only [Option.map_some, Option.bind_some, hget, ok_bind, hcopy]
    refine ⟨_, _, rfl, ⟨_, hsized.withCells ?_, Nat.le_succ _⟩, ⟨d ++ (t ++ gap).take gap.length, c', ?_, ?_⟩,
      fun _ => rfl⟩
    · rw [hspare]
      simp
      omega
    · simp
    · rw [List.length_append, List.length_take, List.length_append]
      omega

/-- The strings come in, and the array ends behind the tail. -/
theorem Opened.fill {s : Option Nat} {t : List CStr} (h : Opened x s (xs.map some) (t.map some) n ys.length)
    (hn : n = xs.length + ys.length + t.length) :
    ∃ z, (if ys = [] then (.ok (n, arrayTruncate x n) : Exec (Nat × Strarray))
      else do
        let s ← deref s
        let cells ← copyIn x.cells s (ys.map some)
        .ok (n, arrayTruncate { x with cells } n)) = .ok (n, z) ∧ z.Holds (xs ++ ys ++ t) := by
  obtain ⟨m, hsized, hm⟩ := h.sized
  obtain ⟨g, spare, hcells, hg⟩ := h.cells
  have htrunc (x : Strarray) : (arrayTruncate x n).cells = x.cells := by
    rw [arrayTruncate]
    split <;> rfl
  have hlen : (xs ++ ys ++ t).length = n := by rw [hn, List.length_append, List.length_append]
  by_cases hy : ys = []
  · subst hy
    obtain rfl := List.length_eq_zero_iff.mp hg
    refine ⟨_, if_pos rfl, hlen.symm ▸ hsized.truncate hm, spare, ?_⟩
    rw [htrunc, hcells]
    simp
  · have hcopy : copyIn x.cells (xs.map some).length (ys.map some) =
        .ok (xs.map some ++ ys.map some ++ (t.map some ++ spare)) := by
      rw [hcells, List.append_assoc _ _ spare]
      exact copyIn_eq rfl (by rw [hg, List.length_map])
    rw [if_neg hy, h.here (by simpa using hy)]
    simp only [deref, ok_bind, hcopy]
    refine ⟨_, rfl, hlen.symm ▸ (hsized.withCells ?_).truncate hm, spare, ?_⟩
    · rw [hcells]
      simp [hg]
    · rw [htrunc]
      simp

/-- An array without memory gets some. -/
theorem Strarray.Holds.begun (h : x.Holds xs) :
    (if x.cells = [] then arrayTrunc (arrayAllocate x sizeofPtr 0).2 else x).Holds xs := by
  split
  · rename_i hnil
    obtain ⟨spare, hcells⟩ := h.cells
    rw [hnil] at hcells
    obtain rfl : xs = [] := by simpa using (List.append_eq_nil_iff.mp hcells.symm).1
    obtain ⟨y, hy, hsized, -⟩ := h.sized.allocate (m := 1) (p := 0) (by decide) rfl (.inr ⟨rfl, rfl⟩) (by decide)
    have hy' : arrayAllocate x sizeofPtr 0 = (some (0 * 8), y) := hy
    rw [hy']
    exact ⟨⟨rfl, hsized.allocated, Nat.zero_le _, hsized.room, hsized.whole⟩, y.cells, rfl⟩
  · exact h

theorem spliceTail_opened {a d t c : List (Option CStr)} {s : Option Nat} {insert newlen : Nat} (h : x.Sized n)
    (hc : x.cells = a ++ d ++ t ++ c) (hn : n = a.length + d.length + t.length)
    (hs : d ++ t ≠ [] → s = some a.length) (hnew : newlen = n - d.length + insert) (hroom : newlen < 2 ^ 32) :
    ∃ r y, spliceTail x s n a.length d.length insert newlen = .ok (r, y) ∧ Opened y r a t newlen insert := by
  have hd : d ≠ [] → s = some a.length := fun h => hs (List.append_ne_nil_of_left_ne_nil h t)
  have ht : t ≠ [] → s = some a.length := fun h => hs (List.append_ne_nil_of_right_ne_nil d h)
  rcases Nat.lt_trichotomy insert d.length with hlt | rfl | hlt
  · exact spliceTail_less h hc hn hd hlt (by omega)
  · exact spliceTail_same h hc hd n newlen (by omega)
  · exact spliceTail_more h hc hn ht hlt hnew hroom

end Dirlist
