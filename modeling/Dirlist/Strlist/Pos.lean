import Dirlist.Lib.Run
import Dirlist.Strlist.Remove

/-! Positions in a string list, and the splicing that goes by them. The loop of `strlist_pos` looks for the
separator from the start of the buffer each time, so it takes all elements for as long as the first. -/

namespace Dirlist
open Run

/-- The loop of `strlist_pos` with `n` bytes left, which does not move its pointer on. -/
def posFrom (sep : UInt8) (x : Bytes) (index : Nat) : Nat → Nat → Nat → Nat → Int
  | 0, _, _, _ => -1
  | k + 1, pos, n, count =>
    if n = 0 then -1
    else if index = count then pos
    else
      let i := byteChr sep (x.take n)
      let i := if i < n then i + 1 else i
      posFrom sep x index k (pos + i) (n - i) (count + 1)

def strlistPos (sl : Strlist) (index : Nat) : Int := posFrom sl.sep sl.sa index sl.sa.length 0 sl.sa.length 0

/-- A position of -1 is the largest `size_t`, so the assertion fails as behind any end. -/
def strallocReplace (sa : Bytes) (pos : Int) (len : Nat) (buf : Bytes) : Exec Bytes :=
  if 0 ≤ pos ∧ pos + len ≤ sa.length then .ok (sa.take pos.toNat ++ buf ++ sa.drop (pos.toNat + len))
  else .error .assert

/-- The loop of `strlist_splice` from `p` on. -/
def spliceEnd (sep : UInt8) (sa : Bytes) : Nat → Nat → Nat
  | 0, p => p
  | ndelete + 1, p =>
    if p < sa.length then
      let i := byteChr sep (sa.drop p)
      spliceEnd sep sa ndelete (p + if p + i < sa.length then i + 1 else i)
    else p

/-- The comparison with `end` is one of unsigned numbers, so there is no round from -1 on. -/
def strlistSplice (l : Strlist) (pos ndelete : Nat) (buf : Bytes) : Exec Strlist := do
  let start := strlistPos l pos
  let len := if 0 ≤ start then spliceEnd l.sep l.sa ndelete start.toNat - start.toNat else 0
  let sa ← strallocReplace l.sa start len buf
  .ok { l with sa := sa }

variable {sep : UInt8} {s t x : Bytes} {xs ys : List Bytes} {sl : Strlist}

/-! ## Positions -/

/-- What the first element and its separator take, as far as the bytes go. -/
theorem byteChr_take (hx : sep ∉ x) (hs : s = x ∨ ∃ t, s = x ++ sep :: t) {n : Nat} (hn : n ≤ s.length) :
    (if byteChr sep (s.take n) < n then byteChr sep (s.take n) + 1 else byteChr sep (s.take n)) =
      min n (x.length + 1) := by
  have hshort (hle : n ≤ x.length) (htake : s.take n = x.take n) : byteChr sep (s.take n) = n := by
    rw [htake, byteChr_free fun h => hx (List.mem_of_mem_take h), List.length_take, Nat.min_eq_left hle]
  rcases hs with rfl | ⟨t, rfl⟩
  · rw [hshort hn rfl, if_neg (Nat.lt_irrefl n)]
    omega
  · by_cases hle : n ≤ x.length
    · rw [hshort hle (List.take_append_of_le_length hle), if_neg (Nat.lt_irrefl n)]
      omega
    · obtain ⟨k, rfl⟩ := Nat.exists_eq_add_of_lt (Nat.lt_of_not_le hle)
      have htake : (x ++ sep :: t).take (x.length + k + 1) = x ++ sep :: t.take k := by
        rw [Nat.add_assoc, List.take_length_add_append, List.take_succ_cons]
      rw [htake, byteChr_at hx, if_pos (by omega)]
      omega

theorem posFrom_eq (hx : sep ∉ x) (hs : s = x ∨ ∃ t, s = x ++ sep :: t) {index count pos n k : Nat}
    (hk : n ≤ k) (hn : n ≤ s.length) (hcount : count ≤ index) :
    posFrom sep s index k pos n count = if (index - count) * (x.length + 1) < n then
      ((pos + (index - count) * (x.length + 1) : Nat) : Int) else -1 := by
  induction k generalizing pos n count with
  | zero =>
    obtain rfl := Nat.le_zero.mp hk
    rw [posFrom, if_neg (Nat.not_lt_zero _)]
  | succ k ih =>
    rw [posFrom]
    by_cases hzero : n = 0
    · rw [if_pos hzero, hzero, if_neg (Nat.not_lt_zero _)]
    · rw [if_neg hzero]
      by_cases heq : index = count
      · rw [if_pos heq, heq, Nat.sub_self, Nat.zero_mul, if_pos (Nat.pos_of_ne_zero hzero), Nat.add_zero]
      · obtain ⟨d, rfl⟩ : ∃ d, index = count + 1 + d := ⟨index - (count + 1), by omega⟩
        have hsub : count + 1 + d - count = d + 1 := by omega
        have hsub' : count + 1 + d - (count + 1) = d := Nat.add_sub_cancel_left _ _
        rw [if_neg heq]
        dsimp only
        rw [byteChr_take hx hs hn, ih (by omega) (by omega) (by omega), hsub, hsub', Nat.add_mul, Nat.one_mul]
        by_cases hlt : d * (x.length + 1) + (x.length + 1) < n
        · rw [if_pos (by omega), if_pos hlt]
          congr 1
          omega
        · rw [if_neg (by omega), if_neg hlt]

/-- What the elements take if all are as long as the first. -/
def stride (xs : List Bytes) : Nat := (xs.headD []).length + 1

theorem Strlist.Holds.pos (h : sl.Holds xs) (i : Nat) :
    strlistPos sl i = if i * stride xs < sl.sa.length then ((i * stride xs : Nat) : Int) else -1 := by
  cases xs with
  | nil =>
    have hnil : sl.sa = [] := (Lists.eq_nil_iff h).mpr rfl
    simp [strlistPos, hnil, posFrom]
  | cons x xs =>
    have hs : sl.sa = x ∨ ∃ t, sl.sa = x ++ sl.sep :: t := by
      rcases Lists.head_cases h with ⟨heq, -⟩ | ⟨t, heq, -⟩
      · exact .inl heq
      · exact .inr ⟨t, heq⟩
    have hx := Lists.clean h x List.mem_cons_self
    rw [strlistPos, posFrom_eq hx.2 hs (Nat.le_refl _) (Nat.le_refl _) (Nat.zero_le i), Nat.sub_zero, Nat.zero_add]
    rfl

/-- An element starts before the end of the buffer. -/
theorem Lists.offset_lt (h : Lists sep s xs) {i : Nat} (hi : i < xs.length) : offset xs i < s.length := by
  obtain ⟨t, rfl, ht⟩ := h.split hi
  have hne : t ≠ [] := fun hnil => by
    have hdrop := ht.eq_nil_iff.mp hnil
    rw [List.drop_eq_nil_iff] at hdrop
    omega
  have hpos := List.length_pos_iff.mpr hne
  rw [List.length_append, length_ended]
  omega

theorem Lists.drop_offset (h : Lists sep s xs) {i : Nat} (hi : i < xs.length) :
    s.take (offset xs i) = ended sep (xs.take i) ∧ Lists sep (s.drop (offset xs i)) (xs.drop i) := by
  obtain ⟨t, rfl, ht⟩ := h.split hi
  rw [← length_ended, List.take_left, List.drop_left]
  exact ⟨rfl, ht⟩

theorem offset_add (xs : List Bytes) (i k : Nat) : offset xs (i + k) = offset xs i + offset (xs.drop i) k := by
  rw [offset, List.take_add, List.map_append, List.sum_append]
  rfl

/-! ## Splicing -/

/-- What is behind the elements to delete, or the end. -/
def behindDeleted (sl : Strlist) (xs : List Bytes) (i : Nat) : Bytes :=
  if i < xs.length then sl.sa.drop (offset xs i) else []

theorem Lists.spliceEnd (h : Lists sep s xs) (pre : Bytes) (n : Nat) :
    spliceEnd sep (pre ++ s) n pre.length = pre.length + if n < xs.length then offset xs n else s.length := by
  induction h generalizing pre n with
  | nil => cases n <;> simp [Dirlist.spliceEnd]
  | @last x hx =>
    cases n with
    | zero => simp [Dirlist.spliceEnd, offset]
    | succ n =>
      have hpos := hx.length_pos
      rw [Dirlist.spliceEnd, if_pos (by simp [hpos]), List.drop_left, byteChr_free hx.2]
      dsimp only
      rw [List.length_append, if_neg (Nat.lt_irrefl _), if_neg (by simp)]
      cases n <;> simp [Dirlist.spliceEnd]
  | @cons x s xs hx hs ih =>
    cases n with
    | zero => simp [Dirlist.spliceEnd, offset]
    | succ n =>
      have hnext := ih (pre ++ x ++ [sep]) n
      have hassoc : pre ++ x ++ [sep] ++ s = pre ++ (x ++ sep :: s) := by simp
      have hlen : (pre ++ x ++ [sep]).length = pre.length + (x.length + 1) := by simp
      rw [hassoc, hlen] at hnext
      rw [Dirlist.spliceEnd, if_pos (by simp), List.drop_left, byteChr_at hx.2]
      dsimp only
      rw [if_pos (by simp), hnext, offset_cons_succ]
      simp only [List.length_cons, Nat.add_lt_add_iff_right, List.length_append]
      split <;> omega

/-- Two texts with the same byte put in at different places. -/
theorem exists_byte_ne {a b : Nat} (ha : a ≤ s.length) (hb : b ≤ s.length) (hab : a ≠ b) :
    ∃ c, ∀ u v, s.take a ++ [c] ++ u ≠ s.take b ++ [c] ++ v := by
  wlog hlt : a < b generalizing a b
  · obtain ⟨c, hc⟩ := this hb ha (Ne.symm hab) (by omega)
    exact ⟨c, fun u v h => hc v u h.symm⟩
  · have has : a < s.length := Nat.lt_of_lt_of_le hlt hb
    refine ⟨s[a] + 1, fun u v h => ?_⟩
    have hget := congrArg (fun w => w[a]?) h
    have hleft : (s.take a ++ [s[a] + 1] ++ u)[a]? = some (s[a] + 1) := by
      rw [List.append_assoc, List.getElem?_append_right (by rw [List.length_take]; omega), List.length_take,
        Nat.min_eq_left ha, Nat.sub_self]
      rfl
    have hright : (s.take b ++ [s[a] + 1] ++ v)[a]? = some s[a] := by
      rw [List.append_assoc, List.getElem?_append_left (by rw [List.length_take]; omega), List.getElem?_take,
        if_pos hlt, List.getElem?_eq_getElem has]
    have hbyte := Option.some.inj (hleft.symm.trans (hget.trans hright))
    simp at hbyte

/-- An element starts where it would if all elements before it were as long as the first, and there is
nothing left where one more would start. -/
def PosFits (sl : Strlist) (xs : List Bytes) (i : Nat) : Prop :=
  if i < xs.length then offset xs i = i * stride xs else sl.sa.length ≤ i * stride xs

instance (sl : Strlist) (xs : List Bytes) (i : Nat) : Decidable (PosFits sl xs i) :=
  inferInstanceAs (Decidable (if i < xs.length then offset xs i = i * stride xs else sl.sa.length ≤ i * stride xs))

/-- The position is that of the element, or -1. -/
def PosExact (sl : Strlist) (xs : List Bytes) (i : Nat) : Prop :=
  strlistPos sl i = if i < xs.length then (offset xs i : Int) else -1

theorem Strlist.Holds.posExact_iff (h : sl.Holds xs) (i : Nat) : PosExact sl xs i ↔ PosFits sl xs i := by
  rw [PosExact, PosFits, h.pos]
  by_cases hi : i < xs.length
  · have hlt := Lists.offset_lt h hi
    rw [if_pos hi, if_pos hi]
    constructor
    · intro heq
      split at heq
      · exact (Int.ofNat.inj heq).symm
      · cases heq
    · intro heq
      rw [← heq, if_pos hlt]
  · rw [if_neg hi, if_neg hi, ← Nat.not_lt]
    constructor
    · intro heq hlt
      rw [if_pos hlt] at heq
      cases heq
    · exact fun hlt => if_neg hlt

theorem strallocReplace_eq_ok {sa buf r : Bytes} {p len : Nat} (h : strallocReplace sa p len buf = .ok r) :
    r = sa.take p ++ buf ++ sa.drop (p + len) := by
  rw [strallocReplace, Int.toNat_natCast] at h
  split_ifs at h
  exact (Except.ok.inj h).symm

/-- The buffer around what was put in the place of some elements. -/
def SpliceExact (sl : Strlist) (xs : List Bytes) (pos ndelete : Nat) : Prop :=
  ∀ buf, strlistSplice sl pos ndelete buf =
    .ok { sl with sa := sl.sa.take (offset xs pos) ++ buf ++ behindDeleted sl xs (pos + ndelete) }

theorem Strlist.Holds.spliceExact (h : sl.Holds xs) {pos : Nat} (hpos : pos < xs.length)
    (hfits : PosFits sl xs pos) (ndelete : Nat) : SpliceExact sl xs pos ndelete := by
  intro buf
  have hstart : strlistPos sl pos = (offset xs pos : Int) := by
    have hexact := (h.posExact_iff pos).mpr hfits
    rwa [PosExact, if_pos hpos] at hexact
  have hlt := Lists.offset_lt h hpos
  obtain ⟨htake, hdrop⟩ := Lists.drop_offset h hpos
  have hend : spliceEnd sl.sep sl.sa ndelete (offset xs pos) = offset xs pos +
      if ndelete < (xs.drop pos).length then offset (xs.drop pos) ndelete else (sl.sa.drop (offset xs pos)).length := by
    have hend := hdrop.spliceEnd (sl.sa.take (offset xs pos)) ndelete
    rwa [List.take_append_drop, List.length_take, Nat.min_eq_left (Nat.le_of_lt hlt)] at hend
  have hrest : sl.sa.drop (spliceEnd sl.sep sl.sa ndelete (offset xs pos)) = behindDeleted sl xs (pos + ndelete) ∧
      spliceEnd sl.sep sl.sa ndelete (offset xs pos) ≤ sl.sa.length := by
    rw [hend, behindDeleted, List.length_drop, List.length_drop]
    by_cases hmore : pos + ndelete < xs.length
    · have hle := Lists.offset_lt h hmore
      rw [offset_add] at hle
      rw [if_pos (by omega), if_pos hmore, offset_add]
      exact ⟨rfl, Nat.le_of_lt hle⟩
    · rw [if_neg (by omega), if_neg hmore, Nat.add_sub_cancel' (Nat.le_of_lt hlt)]
      exact ⟨List.drop_length, Nat.le_refl _⟩
  have hge : offset xs pos ≤ spliceEnd sl.sep sl.sa ndelete (offset xs pos) := by
    rw [hend]
    exact Nat.le_add_right _ _
  rw [strlistSplice, hstart, if_pos (Int.natCast_nonneg _), Int.toNat_natCast, strallocReplace, Int.toNat_natCast,
    if_pos (by omega), ok_bind,
    Nat.add_sub_cancel' hge, hrest.1]

/-- From a wrong position on, something else comes out for a byte that is not at the one or the other. -/
theorem Strlist.Holds.posFits_of_spliceExact (h : sl.Holds xs) {pos : Nat} (hpos : pos < xs.length) {ndelete : Nat}
    (hexact : SpliceExact sl xs pos ndelete) : PosFits sl xs pos := by
  have hlt := Lists.offset_lt h hpos
  rw [PosFits, if_pos hpos]
  by_contra hne
  have hstart := h.pos pos
  by_cases hin : pos * stride xs < sl.sa.length
  · rw [if_pos hin] at hstart
    obtain ⟨c, hc⟩ := exists_byte_ne (Nat.le_of_lt hin) (Nat.le_of_lt hlt) (Ne.symm hne)
    have hsplice := hexact [c]
    rw [strlistSplice, hstart] at hsplice
    obtain ⟨sa, hsa, heq⟩ := bind_eq_ok hsplice
    obtain rfl := strallocReplace_eq_ok hsa
    exact hc _ _ (congrArg Strlist.sa (Except.ok.inj heq))
  · rw [if_neg hin] at hstart
    have hsplice := hexact []
    rw [strlistSplice, hstart] at hsplice
    cases hsplice

/-- Positions and splices are exact where the elements in front are on average as long as the first one. -/
theorem strlistSplice_iff (sl : Strlist) (xs : List Bytes) (h : sl.Holds xs) (hr : sl.Ready) :
    (∀ i < xs.length, strlistAt sl i = some (offset xs i)) ∧ (∀ i, PosExact sl xs i ↔ PosFits sl xs i) ∧
      ∀ pos < xs.length, ∀ ndelete, SpliceExact sl xs pos ndelete ↔ PosFits sl xs pos := by
  refine ⟨fun i hi => ?_, h.posExact_iff, fun pos hpos ndelete => ?_⟩
  · have hne : sl.sa ≠ [] := fun hnil => by
      rw [(Lists.eq_nil_iff h).mp hnil] at hi
      cases hi
    rw [strlistAt, hr hne, if_pos rfl, Lists.at h 0 (Nat.zero_le i), Nat.sub_zero, if_pos hi, Nat.zero_add]
  · exact ⟨h.posFits_of_spliceExact hpos, fun hfits => h.spliceExact hpos hfits ndelete⟩

/-- `a:b:cc` -/
theorem strlistSplice_iff_abc :
    (∀ i < List.length ([[97], [98], [99, 99]] : List Bytes), strlistAt ⟨[97, 58, 98, 58, 99, 99], true, 58⟩ i =
      some (offset [[97], [98], [99, 99]] i)) ∧
    (∀ i, PosExact ⟨[97, 58, 98, 58, 99, 99], true, 58⟩ [[97], [98], [99, 99]] i ↔
      PosFits ⟨[97, 58, 98, 58, 99, 99], true, 58⟩ [[97], [98], [99, 99]] i) ∧
    ∀ pos < List.length ([[97], [98], [99, 99]] : List Bytes), ∀ ndelete,
      SpliceExact ⟨[97, 58, 98, 58, 99, 99], true, 58⟩ [[97], [98], [99, 99]] pos ndelete ↔
        PosFits ⟨[97, 58, 98, 58, 99, 99], true, 58⟩ [[97], [98], [99, 99]] pos := by
  refine strlistSplice_iff _ _ ?_ ?_
  · exact .cons (x := [97]) ⟨by decide, by decide⟩ (.cons (x := [98]) ⟨by decide, by decide⟩
      (.last ⟨by decide, by decide⟩))
  · exact fun _ => rfl

/-- In `a:bb:c` the last element is looked for in the one before it. -/
theorem strlistPos_wrong : ¬∀ (sl : Strlist) (xs : List Bytes), sl.Holds xs → sl.Ready →
    (∀ i, PosExact sl xs i) ∧ ∀ pos < xs.length, ∀ ndelete, SpliceExact sl xs pos ndelete := by
  intro hall
  have hready : Strlist.Ready ⟨[97, 58, 98, 98, 58, 99], true, 58⟩ := fun _ => rfl
  have h : Strlist.Holds ⟨[97, 58, 98, 98, 58, 99], true, 58⟩ [[97], [98, 98], [99]] :=
    .cons (x := [97]) ⟨by decide, by decide⟩ (.cons (x := [98, 98]) ⟨by decide, by decide⟩
      (.last ⟨by decide, by decide⟩))
  have hpos := (hall _ _ h hready).1 2
  exact absurd hpos (by unfold PosExact; decide)

end Dirlist
