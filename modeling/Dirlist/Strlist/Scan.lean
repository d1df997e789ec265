import Dirlist.Strlist.Defs

/-! What the scanners of a string list make of a buffer that lists elements: non-empty and
free of the separator, with one separator between two and perhaps one behind the last. -/

namespace Dirlist

/-- An element as the lists hold them. -/
def Clean (sep : UInt8) (x : Bytes) : Prop := x ≠ [] ∧ sep ∉ x

instance (sep : UInt8) (x : Bytes) : Decidable (Clean sep x) := inferInstanceAs (Decidable (x ≠ [] ∧ sep ∉ x))

/-- The buffer `s` lists the elements `xs`. -/
inductive Lists (sep : UInt8) : Bytes → List Bytes → Prop
  | nil : Lists sep [] []
  | last {x : Bytes} : Clean sep x → Lists sep x [x]
  | cons {x s : Bytes} {xs : List Bytes} : Clean sep x → Lists sep s xs →
    Lists sep (x ++ sep :: s) (x :: xs)

def Strlist.Holds (sl : Strlist) (xs : List Bytes) : Prop := Lists sl.sep sl.sa xs

/-- The byte at which an element starts. -/
def offset (xs : List Bytes) (k : Nat) : Nat := ((xs.take k).map fun x => x.length + 1).sum

variable {sep : UInt8} {s x : Bytes} {xs : List Bytes}

theorem Clean.length_pos (h : Clean sep x) : 0 < x.length := List.length_pos_iff.mpr h.1

theorem Lists.clean (h : Lists sep s xs) : ∀ x ∈ xs, Clean sep x := by
  induction h with
  | nil => simp
  | last hx => simpa using hx
  | cons hx _ ih => simpa using And.intro hx ih

theorem Lists.mem {c : UInt8} (h : Lists sep s xs) (hc : c ∈ s) :
    c = sep ∨ ∃ x ∈ xs, c ∈ x := by
  induction h with
  | nil => cases hc
  | @last x _ => exact .inr ⟨x, List.mem_singleton_self x, hc⟩
  | @cons x s xs _ _ ih =>
    rcases List.mem_append.mp hc with hc | hc
    · exact .inr ⟨x, List.mem_cons_self, hc⟩
    · rcases List.mem_cons.mp hc with hc | hc
      · exact .inl hc
      · exact (ih hc).imp_right fun ⟨y, hy, hcy⟩ => ⟨y, List.mem_cons_of_mem x hy, hcy⟩

theorem Lists.eq_nil_iff (h : Lists sep s xs) : s = [] ↔ xs = [] := by
  cases h with
  | nil => simp
  | last hx => simp [hx.1]
  | cons hx _ => simp

theorem offset_cons_succ (x : Bytes) (xs : List Bytes) (k : Nat) :
    offset (x :: xs) (k + 1) = x.length + 1 + offset xs k := by
  simp [offset]

/-- What is left behind an element and its separator. -/
theorem drop_past (x : Bytes) (sep : UInt8) (s : Bytes) : (x ++ sep :: s).drop (x.length + 1) = s := by
  rw [List.drop_append, List.drop_of_length_le (Nat.le_succ _)]
  simp

theorem Lists.foreach (h : Lists sep s xs) {k : Nat} (hk : s.length ≤ k) :
    foreachFrom sep k s = xs := by
  induction h generalizing k with
  | nil => cases k <;> rfl
  | @last x hx =>
    have hpos := hx.length_pos
    obtain ⟨k, rfl⟩ : ∃ j, k = j + 1 := ⟨k - 1, by omega⟩
    rw [foreachFrom, if_neg hx.1]
    simp only [byteChr_free hx.2, gt_iff_lt, hpos, if_true, List.take_length,
      List.drop_of_length_le (Nat.le_succ x.length)]
    cases k <;> rfl
  | @cons x s xs hx hs ih =>
    have hpos := hx.length_pos
    simp only [List.length_append, List.length_cons] at hk
    obtain ⟨k, rfl⟩ : ∃ j, k = j + 1 := ⟨k - 1, by omega⟩
    rw [foreachFrom, if_neg (by simp)]
    simp only [byteChr_at hx.2, gt_iff_lt, hpos, if_true, List.take_left]
    rw [drop_past, ih (k := k) (by omega)]

theorem Lists.count (h : Lists sep s xs) (hs : s ≠ []) (l : Nat) {k : Nat} (hk : s.length ≤ k) :
    countFrom sep l k s + 1 = l + xs.length := by
  induction h generalizing k l with
  | nil => exact absurd rfl hs
  | @last x hx =>
    have hpos := hx.length_pos
    obtain ⟨k, rfl⟩ : ∃ j, k = j + 1 := ⟨k - 1, by omega⟩
    simp [countFrom, hx.1, byteChr_free hx.2]
  | @cons x s xs hx hs' ih =>
    simp only [List.length_append, List.length_cons] at hk
    obtain ⟨k, rfl⟩ : ∃ j, k = j + 1 := ⟨k - 1, by omega⟩
    rw [countFrom, if_neg (by simp)]
    simp only [byteChr_at hx.2, List.length_append, List.length_cons, drop_past]
    rw [if_neg (by omega)]
    by_cases hnil : s = []
    · rw [if_pos (by simp [hnil]), hs'.eq_nil_iff.mp hnil]
      rfl
    · have hlen := List.length_pos_iff.mpr hnil
      rw [if_neg (by omega), ih hnil (l + 1) (by omega)]
      omega

/-- The scan passes over the bytes of an element. -/
theorem atNFrom_append {i l : Nat} (hl : l ≠ i) (hx : sep ∉ x) (p : Nat) (s : Bytes) :
    atNFrom sep i l p (x ++ s) = atNFrom sep i l (p + x.length) s := by
  induction x generalizing p with
  | nil => rfl
  | cons c x ih =>
    obtain ⟨hc, hx'⟩ : c ≠ sep ∧ sep ∉ x := by simpa [eq_comm] using hx
    rw [List.cons_append, atNFrom, if_neg hl, if_neg hc, ih hx', List.length_cons]
    congr 1
    omega

/-- Behind `pre`, the scan finds the element that is `i - l` further on. -/
theorem Lists.atN (h : Lists sep s xs) (pre : Bytes) {i l : Nat} (hl : l ≤ i) :
    ((atNFrom sep i l pre.length s).map fun (p, n) => ((pre ++ s).drop p).take n) = xs[i - l]? := by
  induction h generalizing pre l with
  | nil => simp [atNFrom]
  | @last x hx =>
    by_cases heq : l = i
    · subst heq
      obtain ⟨c, x', rfl⟩ := List.exists_cons_of_ne_nil hx.1
      rw [atNFrom, if_pos rfl, byteChr_free hx.2]
      simp
    · have hnil : atNFrom sep i l pre.length (x ++ []) = none := atNFrom_append heq hx.2 _ _
      rw [List.append_nil] at hnil
      rw [hnil, List.getElem?_eq_none (by simp; omega)]
      rfl
  | @cons x s xs hx hs ih =>
    by_cases heq : l = i
    · subst heq
      obtain ⟨c, x', rfl⟩ := List.exists_cons_of_ne_nil hx.1
      rw [List.cons_append, atNFrom, if_pos rfl, ← List.cons_append, byteChr_at hx.2]
      simp
    · have hnext := ih (pre ++ x ++ [sep]) (l := l + 1) (by omega)
      rw [atNFrom_append heq hx.2, atNFrom, if_neg heq, if_pos rfl]
      have hidx : i - l = (i - (l + 1)) + 1 := by omega
      rw [hidx, List.getElem?_cons_succ, ← hnext]
      simp [Nat.add_assoc]

theorem Lists.contains (h : Lists sep s xs) (x : Bytes) {k : Nat} (hk : s.length ≤ k) :
    containsFrom sep x k s = decide (x ∈ xs) := by
  induction h generalizing k with
  | nil => cases k <;> simp [containsFrom]
  | @last y hy =>
    have hpos := hy.length_pos
    obtain ⟨k, rfl⟩ : ∃ j, k = j + 1 := ⟨k - 1, by omega⟩
    rw [containsFrom, if_neg hy.1]
    simp only [byteChr_free hy.2, List.take_length, List.drop_of_length_le (Nat.le_succ y.length)]
    have hrest : containsFrom sep x k [] = false := by cases k <;> rfl
    rw [hrest]
    by_cases hxy : x = y
    · subst hxy
      simp [byteEqual_iff rfl]
    · have hne : ¬(y.length = x.length ∧ byteEqual y x = true) :=
        fun hc => hxy ((byteEqual_iff hc.1).mp hc.2).symm
      simp [hne, hxy]
  | @cons y s xs hy hs ih =>
    simp only [List.length_append, List.length_cons] at hk
    obtain ⟨k, rfl⟩ : ∃ j, k = j + 1 := ⟨k - 1, by omega⟩
    rw [containsFrom, if_neg (by simp)]
    simp only [byteChr_at hy.2, List.take_left, drop_past]
    rw [ih (k := k) (by omega)]
    by_cases hxy : x = y
    · subst hxy
      simp [byteEqual_iff rfl]
    · have hne : ¬(y.length = x.length ∧ byteEqual y x = true) :=
        fun hc => hxy ((byteEqual_iff hc.1).mp hc.2).symm
      simp [hne, hxy]

theorem Lists.indexof (h : Lists sep s xs) (x : Bytes) (p : Nat) {k : Nat} (hk : s.length ≤ k) :
    indexofFrom sep x p k s = if x ∈ xs then ((p + offset xs (xs.idxOf x) : Nat) : Int) else -1 := by
  induction h generalizing k p with
  | nil => cases k <;> simp [indexofFrom]
  | @last y hy =>
    have hpos := hy.length_pos
    obtain ⟨k, rfl⟩ : ∃ j, k = j + 1 := ⟨k - 1, by omega⟩
    have hrest (p : Nat) : indexofFrom sep x p k [] = -1 := by cases k <;> rfl
    rw [indexofFrom, if_neg hy.1]
    simp only [byteChr_free hy.2, List.take_length, List.drop_of_length_le (Nat.le_succ y.length)]
    rw [if_neg (by omega), hrest]
    by_cases hxy : x = y
    · subst hxy
      simp [byteEqual_iff rfl, offset]
    · have hne : ¬(x.length = y.length ∧ byteEqual y x = true) :=
        fun hc => hxy ((byteEqual_iff hc.1.symm).mp hc.2).symm
      simp [hne, hxy]
  | @cons y s xs hy hs ih =>
    have hpos := hy.length_pos
    simp only [List.length_append, List.length_cons] at hk
    obtain ⟨k, rfl⟩ : ∃ j, k = j + 1 := ⟨k - 1, by omega⟩
    rw [indexofFrom, if_neg (by simp)]
    simp only [byteChr_at hy.2, List.take_left, drop_past]
    rw [if_neg (by omega), ih _ (k := k) (by omega)]
    by_cases hxy : x = y
    · subst hxy
      simp [byteEqual_iff rfl, offset]
    · have hne : ¬(x.length = y.length ∧ byteEqual y x = true) :=
        fun hc => hxy ((byteEqual_iff hc.1.symm).mp hc.2).symm
      rw [if_neg hne, List.idxOf_cons_ne _ (Ne.symm hxy), offset_cons_succ]
      simp only [List.mem_cons, hxy, false_or]
      congr 2
      omega

/-- The elements with the delimiter between them are put behind `sa`. -/
theorem foldl_join (delim : UInt8) (xs : List Bytes) (sa : Bytes) {i : Nat} (hi : i > 0) :
    (xs.foldl (fun (sa, i) x => ((if i > 0 then sa ++ [delim] else sa) ++ x, i + 1)) (sa, i)).1 =
      sa ++ xs.flatMap fun x => delim :: x := by
  induction xs generalizing sa i with
  | nil => simp
  | cons x xs ih =>
    rw [List.foldl_cons]
    dsimp only
    rw [if_pos hi, ih _ (Nat.succ_pos i)]
    simp

theorem flatMap_intercalate (delim : UInt8) (x : Bytes) (xs : List Bytes) :
    x ++ (xs.flatMap fun x => delim :: x) = [delim].intercalate (x :: xs) := by
  induction xs generalizing x with
  | nil => simp
  | cons y xs ih => simp [← ih]

/-! ## The operations that read -/

variable {sl : Strlist}

theorem Strlist.Holds.foreach (h : sl.Holds xs) : strlistForeach sl = xs :=
  Lists.foreach h (Nat.le_refl _)

theorem Strlist.Holds.count (h : sl.Holds xs) : strlistCount sl = xs.length := by
  by_cases hs : sl.sa = []
  · have hxs := (Lists.eq_nil_iff h).mp hs
    simp [strlistCount, hs, hxs]
  · have hcount := Lists.count h hs 1 (Nat.le_refl _)
    rw [strlistCount, if_neg (fun hl => hs (List.length_eq_zero_iff.mp hl))]
    omega

theorem Strlist.Holds.atN (h : sl.Holds xs) (i : Nat) :
    ((strlistAtN sl i).map fun (p, n) => (sl.sa.drop p).take n) = xs[i]? :=
  Lists.atN h [] (Nat.zero_le i)

theorem Strlist.Holds.contains (h : sl.Holds xs) (x : Bytes) :
    strlistContainsb sl x = decide (x ∈ xs) := Lists.contains h x (Nat.le_refl _)

theorem Strlist.Holds.indexof (h : sl.Holds xs) (x : Bytes) : strlistIndexofb sl x =
    if x ∈ xs then ((offset xs (xs.idxOf x) : Nat) : Int) else -1 := by
  rw [strlistIndexofb, Lists.indexof h x 0 (Nat.le_refl _), Nat.zero_add]

theorem strlistJoin_eq (sl : Strlist) (sa : Bytes) (delim : UInt8) :
    strlistJoin sl sa delim = sa ++ [delim].intercalate (strlistForeach sl) := by
  rw [strlistJoin]
  cases strlistForeach sl with
  | nil => simp
  | cons x xs =>
    rw [List.foldl_cons]
    dsimp only
    rw [if_neg (Nat.lt_irrefl 0), foldl_join delim xs _ (Nat.succ_pos 0), List.append_assoc,
      flatMap_intercalate]

/-! ## Behind a second separator -/

/-- If a separator already ends the buffer, what stands behind another one is not met. -/
theorem Lists.foreach_stuck (h : Lists sep s xs) (hend : s.getLast? = some sep) (t : Bytes) {k : Nat}
    (hk : s.length + t.length + 1 ≤ k) : foreachFrom sep k (s ++ sep :: t) = xs := by
  induction h generalizing k with
  | nil => cases hend
  | @last x hx => exact absurd (List.mem_of_getLast? hend) hx.2
  | @cons x s xs hx hs ih =>
    have hpos := hx.length_pos
    simp only [List.length_append, List.length_cons] at hk
    obtain ⟨k, rfl⟩ : ∃ j, k = j + 1 := ⟨k - 1, by omega⟩
    rw [List.append_assoc, List.cons_append, foreachFrom, if_neg (by simp)]
    simp only [byteChr_at hx.2, gt_iff_lt, hpos, if_true, List.take_left, drop_past]
    by_cases hnil : s = []
    · obtain ⟨k, rfl⟩ : ∃ j, k = j + 1 := ⟨k - 1, by omega⟩
      rw [hs.eq_nil_iff.mp hnil, hnil, List.nil_append, foreachFrom, if_neg (by simp)]
      simp [byteChr]
    · have hend' : s.getLast? = some sep := by
        rw [List.getLast?_append, List.getLast?_cons_of_ne_nil hnil] at hend
        simpa [List.getLast?_eq_some_getLast hnil] using hend
      rw [ih hend' (by omega)]

/-! ## The last separator -/

theorem lastSep_none (hx : sep ∉ x) : lastSep sep x = none := by
  induction x with
  | nil => rfl
  | cons c x ih =>
    obtain ⟨hc, hx⟩ : c ≠ sep ∧ sep ∉ x := by simpa [eq_comm] using hx
    simp [lastSep, ih hx, hc]

theorem lastSep_append (hx : sep ∉ x) (s : Bytes) : lastSep sep (s ++ sep :: x) = some s.length := by
  induction s with
  | nil => simp [lastSep, lastSep_none hx]
  | cons c s ih => simp [lastSep, ih]

end Dirlist
