import Dirlist.Strlist.Pos

/-! Slices of a string list. Each of them goes by the byte at which `strlist_at` finds an element, and
`strlist_at` finds nothing behind the last one, unless a separator ends the buffer. -/

namespace Dirlist
open Run

/-! ## The operations -/

/-- `strlist_at(sl, i) - sl->sa.s` as a `size_t`, for a buffer at the address `base`. -/
def strlistOffs (base : Nat) (sl : Strlist) (i : Nat) : Nat := (strlistAt sl i).getD ((2 ^ 64 - base) % 2 ^ 64)

/-- `strlist_range`, whose result lies in the buffer of `sl`, or leaves it. -/
def strlistRange (base : Nat) (sl : Strlist) (start stop : Nat) : Option Strlist :=
  let s := strlistOffs base sl start
  let e := strlistOffs base sl stop
  let len := (e + 2 ^ 64 - s) % 2 ^ 64
  if len = 0 then some { sl with sa := [] }
  else if s + len ≤ sl.sa.length then some { sl with sa := (sl.sa.drop s).take len }
  else none

def strlistTrunc (l : Strlist) (items : Nat) : Nat × Strlist :=
  if items = 0 then (0, { l with sa := [], ready := true })
  else match strlistAtN l (items - 1) with
    | some (p, n) => (items, { l with sa := l.sa.take (p + n), ready := true })
    | none => (0, l)

def strlistShiftN (base : Nat) (sl : Strlist) (i : Nat) : Nat × Strlist :=
  let n := strlistOffs base sl i
  if n < sl.sa.length then (1, { sl with sa := sl.sa.drop n }) else (0, sl)

/-- `strlist_shift`, with what `*strp` is set to. It writes in front of the element it goes to. -/
def strlistShift (base : Nat) (sl : Strlist) : Exec (Nat × Option Bytes × Strlist) :=
  if sl.sa.length = 0 then .ok (0, none, sl)
  else
    let offs := strlistOffs base sl 1
    if offs - 1 < sl.sa.length then .ok (1, some (sl.sa.take (offs - 1)), { sl with sa := sl.sa.drop offs })
    else .error .bounds

/-- The buffer has a place in memory that starts at `base`, and a byte behind it; null is no such place. -/
structure Placed (base : Nat) (sl : Strlist) : Prop where
  pos : sl.ready = true → 0 < base
  null : sl.ready = false → base = 0
  fits : base + sl.sa.length < 2 ^ 64

variable {sep : UInt8} {s t x : Bytes} {xs ys : List Bytes} {sl : Strlist} {base : Nat}

/-! ## The end of a list -/

/-- A list with elements ends with a separator or with its last element. -/
theorem Lists.last_cases (h : Lists sep s xs) (hxs : xs ≠ []) :
    s = ended sep xs ∨ ∃ ys y, xs = ys ++ [y] ∧ s = ended sep ys ++ y ∧ Clean sep y := by
  obtain ⟨ys, y, rfl⟩ := (List.eq_nil_or_concat xs).resolve_left hxs
  rw [List.concat_eq_append] at h ⊢
  have hk : ys.length < (ys ++ [y]).length := by simp
  obtain ⟨t, rfl, ht⟩ := h.split hk
  rw [List.take_left] at *
  rw [List.drop_left] at ht
  have hy := h.clean y (List.mem_append_right _ List.mem_cons_self)
  rcases ht.head_cases with ⟨rfl, -⟩ | ⟨u, rfl, hu⟩
  · exact .inr ⟨ys, t, rfl, rfl, hy⟩
  · left
    rw [hu.eq_nil_iff.mpr rfl]
    simp [ended]

theorem Lists.ended_iff (h : Lists sep s xs) (hxs : xs ≠ []) : s = ended sep xs ↔ s.getLast? = some sep := by
  refine ⟨fun heq => heq ▸ ended_getLast? sep hxs, fun hend => ?_⟩
  rcases h.last_cases hxs with heq | ⟨ys, y, -, rfl, hy⟩
  · exact heq
  · have hlast : y.getLast? = some sep := by
      rw [List.getLast?_append, List.getLast?_eq_some_getLast hy.1] at hend
      rw [List.getLast?_eq_some_getLast hy.1]
      exact hend
    exact absurd (List.mem_of_getLast? hlast) hy.2

theorem lists_ended (hxs : ∀ x ∈ xs, Clean sep x) : Lists sep (ended sep xs) xs := by
  have h := Lists.ended_append hxs .nil
  rwa [List.append_nil, List.append_nil] at h

/-! ## Where `strlist_at` points -/

theorem Strlist.Holds.offs_lt (h : sl.Holds xs) (hr : sl.Ready) (base : Nat) {i : Nat} (hi : i < xs.length) :
    strlistOffs base sl i = offset xs i := by
  have hne : sl.sa ≠ [] := fun hnil => by
    rw [(Lists.eq_nil_iff h).mp hnil] at hi
    cases hi
  rw [strlistOffs, strlistAt, hr hne, if_pos rfl, Lists.at h 0 (Nat.zero_le i), Nat.sub_zero, if_pos hi, Nat.zero_add]
  rfl

/-- Behind the last element it points to the end of the buffer, or to nothing. -/
theorem Strlist.Holds.offs_length (h : sl.Holds xs) (hr : sl.Ready) (hxs : xs ≠ []) (hb : Placed base sl) :
    (sl.sa.getLast? = some sl.sep ∧ strlistOffs base sl xs.length = sl.sa.length) ∨
      sl.sa.getLast? ≠ some sl.sep ∧ strlistOffs base sl xs.length = 2 ^ 64 - base ∧ 0 < base := by
  have hne : sl.sa ≠ [] := fun hnil => hxs ((Lists.eq_nil_iff h).mp hnil)
  have hpos := hb.pos (hr hne)
  rw [strlistOffs, strlistAt, hr hne, if_pos rfl, Lists.at h 0 (Nat.zero_le _), Nat.sub_zero,
    if_neg (Nat.lt_irrefl _)]
  by_cases hend : sl.sa.getLast? = some sl.sep
  · left
    rw [if_pos ⟨rfl, (Lists.ended_iff h hxs).mpr hend⟩, Nat.zero_add]
    exact ⟨hend, rfl⟩
  · right
    rw [if_neg (fun hc => hend ((Lists.ended_iff h hxs).mp hc.2))]
    refine ⟨hend, ?_, hpos⟩
    exact Nat.mod_eq_of_lt (by omega)

/-- `strlist_at_n` finds where an element starts, and how long it is. -/
theorem Lists.atN_eq (h : Lists sep s xs) (p : Nat) {i l : Nat} (hl : l ≤ i) :
    atNFrom sep i l p s = xs[i - l]?.map fun x => (p + offset xs (i - l), x.length) := by
  induction h generalizing p l with
  | nil => rfl
  | @last x hx =>
    by_cases heq : l = i
    · subst heq
      obtain ⟨c, x', rfl⟩ := List.exists_cons_of_ne_nil hx.1
      rw [atNFrom, if_pos rfl, byteChr_free hx.2]
      simp [offset]
    · have hnil : atNFrom sep i l p (x ++ []) = none := atNFrom_append heq hx.2 _ _
      rw [List.append_nil] at hnil
      rw [hnil, List.getElem?_eq_none (by simp; omega)]
      rfl
  | @cons x s xs hx hs ih =>
    by_cases heq : l = i
    · subst heq
      obtain ⟨c, x', rfl⟩ := List.exists_cons_of_ne_nil hx.1
      rw [List.cons_append, atNFrom, if_pos rfl, ← List.cons_append, byteChr_at hx.2]
      simp [offset]
    · have hidx : i - l = (i - (l + 1)) + 1 := by omega
      rw [atNFrom_append heq hx.2, atNFrom, if_neg heq, if_pos rfl, ih _ (by omega), hidx, List.getElem?_cons_succ,
        offset_cons_succ]
      congr 1
      funext y
      congr 1
      omega

/-! ## Exactness -/

/-- The list denotes `ys`, and counts as many. -/
def Slices (sl : Strlist) (ys : List Bytes) : Prop := strlistForeach sl = ys ∧ strlistCount sl = ys.length

theorem Strlist.Holds.slices (h : sl.Holds ys) : Slices sl ys := ⟨h.foreach, h.count⟩

theorem Strlist.Holds.slices_eq (h : sl.Holds xs) (hs : Slices sl ys) : ys = xs := hs.1.symm.trans h.foreach

def RangeExact (base : Nat) (sl : Strlist) (xs : List Bytes) (start stop : Nat) : Prop :=
  ∃ r, strlistRange base sl start stop = some r ∧ Slices r ((xs.take stop).drop start)

def TruncExact (sl : Strlist) (xs : List Bytes) (k : Nat) : Prop := Slices (strlistTrunc sl k).2 (xs.take k)

def ShiftNExact (base : Nat) (sl : Strlist) (xs : List Bytes) (k : Nat) : Prop :=
  Slices (strlistShiftN base sl k).2 (xs.drop k)

def ShiftExact (base : Nat) (sl : Strlist) (xs : List Bytes) : Prop :=
  ∃ sl', strlistShift base sl = .ok (1, xs.head?, sl') ∧ Slices sl' xs.tail

def PopExact (sl : Strlist) (xs : List Bytes) : Prop :=
  ∃ sl', strlistPop sl = .ok sl' ∧ Slices sl' xs.dropLast

theorem Strlist.Holds.rangeExact_inner (h : sl.Holds xs) (hr : sl.Ready) (hb : Placed base sl) {i j : Nat}
    (hij : i ≤ j) (hj : j < xs.length) : RangeExact base sl xs i j := by
  have hi : i < xs.length := Nat.lt_of_le_of_lt hij hj
  obtain ⟨d, rfl⟩ := Nat.exists_eq_add_of_le hij
  have hlt := Lists.offset_lt h hj
  have hfits := hb.fits
  obtain ⟨-, hdrop⟩ := Lists.drop_offset h hi
  have hd : d < (xs.drop i).length := by rw [List.length_drop]; omega
  obtain ⟨htake, -⟩ := hdrop.drop_offset hd
  have hslice : Lists sl.sep ((sl.sa.drop (offset xs i)).take (offset (xs.drop i) d)) ((xs.take (i + d)).drop i) := by
    rw [htake, List.drop_take, Nat.add_sub_cancel_left]
    exact lists_ended fun x hx => Lists.clean h x (List.mem_of_mem_drop (List.mem_of_mem_take hx))
  have hlen : (offset xs (i + d) + 2 ^ 64 - offset xs i) % 2 ^ 64 = offset (xs.drop i) d := by
    rw [offset_add] at hlt ⊢
    omega
  rw [RangeExact, strlistRange, h.offs_lt hr base hi, h.offs_lt hr base hj]
  rw [hlen]
  rw [offset_add] at hlt
  split_ifs with hzero
  · rw [hzero, List.take_zero] at hslice
    exact ⟨_, rfl, Strlist.Holds.slices hslice⟩
  · exact ⟨_, rfl, Strlist.Holds.slices hslice⟩
  · omega

theorem Strlist.Holds.rangeExact_iff (h : sl.Holds xs) (hr : sl.Ready) (hb : Placed base sl) {i j : Nat}
    (hij : i ≤ j) (hj : j ≤ xs.length) :
    RangeExact base sl xs i j ↔ i = j ∨ j < xs.length ∨ sl.sa.getLast? = some sl.sep := by
  rcases Nat.lt_or_eq_of_le hj with hlt | rfl
  · exact iff_of_true (h.rangeExact_inner hr hb hij hlt) (.inr (.inl hlt))
  · rcases Nat.lt_or_eq_of_le hij with hi | rfl
    · have hxs : xs ≠ [] := List.length_pos_iff.mp (Nat.zero_lt_of_lt hi)
      have hoff := Lists.offset_lt h hi
      have hfits := hb.fits
      rw [or_iff_right (Nat.ne_of_lt hi), or_iff_right (Nat.lt_irrefl _), RangeExact, strlistRange,
        h.offs_lt hr base hi]
      rcases h.offs_length hr hxs hb with ⟨hend, hstop⟩ | ⟨hend, hstop, hpos⟩
      · have hlen : (sl.sa.length + 2 ^ 64 - offset xs i) % 2 ^ 64 = sl.sa.length - offset xs i := by omega
        have hslice : Lists sl.sep ((sl.sa.drop (offset xs i)).take (sl.sa.length - offset xs i))
            ((xs.take xs.length).drop i) := by
          rw [List.take_length, ← List.length_drop, List.take_length]
          exact (Lists.drop_offset h hi).2
        rw [hstop, hlen, if_neg (by omega), if_pos (by omega)]
        exact iff_of_true ⟨_, rfl, Strlist.Holds.slices hslice⟩ hend
      · have hlen : (2 ^ 64 - base + 2 ^ 64 - offset xs i) % 2 ^ 64 = 2 ^ 64 - base - offset xs i := by omega
        rw [hstop, hlen, if_neg (by omega), if_neg (by omega)]
        refine iff_of_false ?_ hend
        rintro ⟨r, hr, -⟩
        cases hr
    · refine iff_of_true ⟨_, if_pos ?_, ?_⟩ (.inl rfl)
      · rw [Nat.add_sub_cancel_left, Nat.mod_self]
      · rw [List.take_length, List.drop_length]
        exact Strlist.Holds.slices .nil

theorem Strlist.Holds.truncExact (h : sl.Holds xs) {k : Nat} (hk : k ≤ xs.length) : TruncExact sl xs k := by
  rw [TruncExact, strlistTrunc]
  cases k with
  | zero =>
    rw [if_pos rfl, List.take_zero]
    exact Strlist.Holds.slices .nil
  | succ k =>
    obtain ⟨htake, hdrop⟩ := Lists.drop_offset h hk
    have hat : strlistAtN sl k = some (offset xs k, xs[k].length) := by
      rw [strlistAtN, Lists.atN_eq h 0 (Nat.zero_le k), Nat.sub_zero, List.getElem?_eq_getElem hk, Nat.zero_add]
      rfl
    have hfirst : (sl.sa.drop (offset xs k)).take xs[k].length = xs[k] := by
      rw [List.drop_eq_getElem_cons hk] at hdrop
      rcases hdrop.head_cases with ⟨heq, -⟩ | ⟨t, heq, -⟩
      · rw [heq, List.take_length]
      · rw [heq, List.take_left]
    have hcut : sl.sa.take (offset xs k + xs[k].length) = ended sl.sep (xs.take k) ++ xs[k] := by
      rw [List.take_add, htake, hfirst]
    have hlists : Lists sl.sep (ended sl.sep (xs.take k) ++ xs[k]) (xs.take (k + 1)) := by
      rw [List.take_succ_eq_append_getElem hk]
      exact Lists.ended_append (fun x hx => Lists.clean h x (List.mem_of_mem_take hx))
        (.last (Lists.clean h _ (List.getElem_mem hk)))
    rw [if_neg (Nat.succ_ne_zero k), Nat.add_sub_cancel, hat]
    dsimp only
    rw [hcut]
    exact Strlist.Holds.slices hlists

theorem Strlist.Holds.shiftNExact_iff (h : sl.Holds xs) (hr : sl.Ready) (hb : Placed base sl) {k : Nat}
    (hk : k ≤ xs.length) : ShiftNExact base sl xs k ↔ k < xs.length ∨ xs = [] := by
  have hfits := hb.fits
  rw [ShiftNExact, strlistShiftN]
  rcases Nat.lt_or_eq_of_le hk with hlt | rfl
  · rw [h.offs_lt hr base hlt]
    rw [if_pos (Lists.offset_lt h hlt)]
    exact iff_of_true (Strlist.Holds.slices (Lists.drop_offset h hlt).2) (.inl hlt)
  · rw [or_iff_right (Nat.lt_irrefl _), List.drop_length]
    by_cases hxs : xs = []
    · have hnil : sl.sa = [] := (Lists.eq_nil_iff h).mpr hxs
      rw [hnil, if_neg (by simp)]
      exact iff_of_true (Strlist.Holds.slices (hxs ▸ h)) hxs
    · have hge : sl.sa.length ≤ strlistOffs base sl xs.length := by
        rcases h.offs_length hr hxs hb with ⟨-, heq⟩ | ⟨-, heq, -⟩
        · exact Nat.le_of_eq heq.symm
        · omega
      rw [if_neg (Nat.not_lt.mpr hge)]
      exact iff_of_false (fun hs => hxs (h.slices_eq hs).symm) hxs

theorem Strlist.Holds.shiftExact_iff (h : sl.Holds xs) (hr : sl.Ready) (hb : Placed base sl) (hxs : xs ≠ []) :
    ShiftExact base sl xs ↔ 2 ≤ xs.length ∨ sl.sa.getLast? = some sl.sep := by
  obtain ⟨x, xs, rfl⟩ := List.exists_cons_of_ne_nil hxs
  have hx := Lists.clean h x List.mem_cons_self
  have hpos := hx.length_pos
  have hfits := hb.fits
  have hne : sl.sa ≠ [] := fun hnil => hxs ((Lists.eq_nil_iff h).mp hnil)
  rw [ShiftExact, strlistShift, if_neg (fun hzero => hne (List.length_eq_zero_iff.mp hzero))]
  rcases Lists.head_cases h with ⟨heq, rfl⟩ | ⟨t, heq, ht⟩
  · -- there is no separator
    have hend : sl.sa.getLast? ≠ some sl.sep := fun hend => hx.2 (heq ▸ List.mem_of_getLast? hend)
    have hoffs : strlistOffs base sl 1 = 2 ^ 64 - base := by
      rcases h.offs_length hr hxs hb with ⟨hend', -⟩ | ⟨-, hoffs, -⟩
      · exact absurd hend' hend
      · exact hoffs
    have hplace := hb.pos (hr hne)
    rw [hoffs]
    dsimp only
    rw [if_neg (by omega)]
    refine iff_of_false ?_ (not_or.mpr ⟨by simp, hend⟩)
    rintro ⟨sl', hsl, -⟩
    cases hsl
  · have hoffs : strlistOffs base sl 1 = x.length + 1 := by
      cases xs with
      | nil =>
        have hnil := ht.eq_nil_iff.mpr rfl
        rcases h.offs_length hr hxs hb with ⟨-, hoffs⟩ | ⟨hend, -, -⟩
        · rw [heq, hnil] at hoffs
          simpa using hoffs
        · rw [heq, hnil] at hend
          simp at hend
      | cons y ys =>
        rw [h.offs_lt hr base (by simp), offset_cons_succ]
        rfl
    have hcond : 2 ≤ (x :: xs).length ∨ sl.sa.getLast? = some sl.sep := by
      cases xs with
      | nil =>
        right
        rw [heq, ht.eq_nil_iff.mpr rfl]
        simp
      | cons y ys => exact .inl (by simp)
    refine iff_of_true ⟨{ sl with sa := t }, ?_, Strlist.Holds.slices ht⟩ hcond
    rw [hoffs]
    dsimp only
    rw [Nat.add_sub_cancel, if_pos (by rw [heq]; simp), heq, List.take_left, drop_past]
    rfl

/-! ## Popping -/

theorem ended_concat (sep : UInt8) (xs : List Bytes) (x : Bytes) :
    ended sep (xs ++ [x]) = ended sep xs ++ x ++ [sep] := by
  simp [ended]

theorem lists_concat (hxs : ∀ y ∈ xs ++ [x], Clean sep y) : Lists sep (ended sep xs ++ x) (xs ++ [x]) :=
  Lists.ended_append (fun y hy => hxs y (List.mem_append_left _ hy))
    (.last (hxs x (List.mem_append_right _ List.mem_cons_self)))

theorem strlistPop_last (hx : sl.sep ∉ x) (hs : sl.sa = s ++ sl.sep :: x) :
    strlistPop sl = .ok { sl with sa := s } := by
  rw [strlistPop, hs, lastSep_append hx]
  dsimp only
  rw [List.take_left]

theorem Strlist.Holds.popExact_iff (h : sl.Holds xs) (hxs : xs ≠ []) :
    PopExact sl xs ↔ 2 ≤ xs.length ∧ sl.sa.getLast? ≠ some sl.sep := by
  have hclean := Lists.clean h
  by_cases hend : sl.sa.getLast? = some sl.sep
  · -- only the separator goes
    refine iff_of_false ?_ fun hc => hc.2 hend
    obtain ⟨ys, y, rfl⟩ := (List.eq_nil_or_concat xs).resolve_left hxs
    rw [List.concat_eq_append] at *
    have hs : sl.sa = (ended sl.sep ys ++ y) ++ sl.sep :: [] := by
      rw [(Lists.ended_iff h hxs).mpr hend, ended_concat]
    rintro ⟨sl', hpop, hslices⟩
    rw [strlistPop_last List.not_mem_nil hs] at hpop
    obtain rfl := Except.ok.inj hpop
    have hholds : Strlist.Holds { sl with sa := ended sl.sep ys ++ y } (ys ++ [y]) := lists_concat hclean
    have heq := hholds.slices_eq hslices
    have hlen := congrArg List.length heq
    simp at hlen
  · rcases Lists.last_cases h hxs with hclosed | ⟨ys, y, rfl, hs, hy⟩
    · exact absurd ((Lists.ended_iff h hxs).mp hclosed) hend
    · rcases List.eq_nil_or_concat ys with rfl | ⟨zs, z, rfl⟩
      · -- there is no separator
        have hfree : sl.sep ∉ sl.sa := by
          rw [hs]
          exact hy.2
        refine iff_of_false ?_ fun hc => absurd hc.1 (by simp)
        rintro ⟨sl', hpop, -⟩
        rw [strlistPop, lastSep_none hfree] at hpop
        cases hpop
      · rw [List.concat_eq_append] at *
        have hs' : sl.sa = (ended sl.sep zs ++ z) ++ sl.sep :: y := by
          rw [hs, ended_concat, List.append_assoc _ [sl.sep]]
          rfl
        refine iff_of_true ⟨_, strlistPop_last hy.2 hs', ?_⟩ ⟨by simp, hend⟩
        rw [List.dropLast_concat]
        exact Strlist.Holds.slices (lists_concat fun x hx => hclean x (List.mem_append_left _ hx))

/-- Each slice is exact but for what it makes of the end of the buffer. -/
theorem strlistSlice_iff (sl : Strlist) (xs : List Bytes) (h : sl.Holds xs) (hr : sl.Ready) (base : Nat)
    (hb : Placed base sl) :
    (∀ i j, i ≤ j → j ≤ xs.length →
      (RangeExact base sl xs i j ↔ i = j ∨ j < xs.length ∨ sl.sa.getLast? = some sl.sep)) ∧
    (∀ k ≤ xs.length, TruncExact sl xs k) ∧
    (∀ k ≤ xs.length, ShiftNExact base sl xs k ↔ k < xs.length ∨ xs = []) ∧
    (xs ≠ [] → (ShiftExact base sl xs ↔ 2 ≤ xs.length ∨ sl.sa.getLast? = some sl.sep)) ∧
    (xs ≠ [] → (PopExact sl xs ↔ 2 ≤ xs.length ∧ sl.sa.getLast? ≠ some sl.sep)) :=
  ⟨fun _ _ hij hj => h.rangeExact_iff hr hb hij hj, fun _ hk => h.truncExact hk,
    fun _ hk => h.shiftNExact_iff hr hb hk, h.shiftExact_iff hr hb, h.popExact_iff⟩

/-- The slices of `a:b`. -/
theorem strlistSlice_ab :
    RangeExact 4096 ⟨[97, 58, 98], true, 58⟩ [[97], [98]] 0 1 ∧ TruncExact ⟨[97, 58, 98], true, 58⟩ [[97], [98]] 1 ∧
      ShiftNExact 4096 ⟨[97, 58, 98], true, 58⟩ [[97], [98]] 1 ∧
      ShiftExact 4096 ⟨[97, 58, 98], true, 58⟩ [[97], [98]] ∧ PopExact ⟨[97, 58, 98], true, 58⟩ [[97], [98]] := by
  have hlists : Lists 58 [97, 58, 98] [[97], [98]] :=
    .cons (x := [97]) ⟨by decide, by decide⟩ (.last ⟨by decide, by decide⟩)
  obtain ⟨hrange, htrunc, hshiftN, hshift, hpop⟩ := strlistSlice_iff ⟨[97, 58, 98], true, 58⟩ [[97], [98]] hlists
    (fun _ => rfl) 4096 ⟨fun _ => by decide, (fun h => by cases h), by decide⟩
  exact ⟨(hrange 0 1 (by decide) (by decide)).mpr (by decide), htrunc 1 (by decide),
    (hshiftN 1 (by decide)).mpr (by decide), (hshift (by decide)).mpr (by decide), (hpop (by decide)).mpr (by decide)⟩

/-- The range of all elements of the list `a` leaves its buffer. -/
theorem strlistSlice_single : ¬∀ (sl : Strlist) (xs : List Bytes), sl.Holds xs → sl.Ready → ∀ base, Placed base sl →
    (∀ i j, i ≤ j → j ≤ xs.length → RangeExact base sl xs i j) ∧ (∀ k ≤ xs.length, TruncExact sl xs k) ∧
    (∀ k ≤ xs.length, ShiftNExact base sl xs k) ∧ (xs ≠ [] → ShiftExact base sl xs) ∧ (xs ≠ [] → PopExact sl xs) := by
  intro hall
  have hlists : Lists 58 [97] [[97]] := .last ⟨by decide, by decide⟩
  have hplaced : Placed 4096 ⟨[97], true, 58⟩ := ⟨fun _ => by decide, (fun h => by cases h), by decide⟩
  obtain ⟨r, hr, -⟩ := (hall ⟨[97], true, 58⟩ [[97]] hlists (fun _ => rfl) 4096 hplaced).1 0 1 (by decide) (by decide)
  have hnone : strlistRange 4096 ⟨[97], true, 58⟩ 0 1 = none := by decide
  cases hnone.symm.trans hr

end Dirlist
