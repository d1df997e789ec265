import Mathlib

/-! The byte helpers of lib/byte, lib/str and lib/scan that the modelled code calls, on byte
strings given as lists. A length argument of the source is the length of the list. -/

namespace Dirlist

abbrev Bytes := List UInt8

-- Over the members of a list, never over all bytes.
instance decidableForallMem (l : Bytes) (p : UInt8 → Prop) [DecidablePred p] :
    Decidable (∀ c ∈ l, p c) := List.decidableBAll p l

instance decidableForallSome (o : Option UInt8) (p : UInt8 → Prop) [DecidablePred p] :
    Decidable (∀ c ∈ o, p c) := Option.decidableForallMem o

/-- `byte_diff`: the first difference, as an unsigned subtraction in `int`. -/
def byteDiff : Bytes → Bytes → Int
  | a :: as, b :: bs =>
    let r : Int := a.toNat - b.toNat
    if r ≠ 0 then r else byteDiff as bs
  | _, _ => 0

theorem byteDiff_eq_zero {a b : Bytes} (h : a.length = b.length) : byteDiff a b = 0 ↔ a = b := by
  induction a generalizing b with
  | nil => cases b <;> simp_all [byteDiff]
  | cons x a ih =>
    cases b with
    | nil => simp at h
    | cons y b =>
      have hl : a.length = b.length := by simpa using h
      simp only [byteDiff, List.cons.injEq, ← ih hl]
      by_cases hxy : x = y
      · simp [hxy]
      · have hne : (x.toNat : Int) - y.toNat ≠ 0 := by
          intro he
          exact hxy (UInt8.toNat_inj.mp (by omega))
        simp [hne, hxy]

/-- `byte_equal` -/
def byteEqual (a b : Bytes) : Bool := byteDiff a b = 0

theorem byteEqual_iff {a b : Bytes} (h : a.length = b.length) : byteEqual a b = true ↔ a = b := by
  rw [byteEqual, decide_eq_true_iff, byteDiff_eq_zero h]

/-- `byte_chr`: where `c` is first, or the length. -/
def byteChr (c : UInt8) : Bytes → Nat
  | [] => 0
  | b :: s => if b = c then 0 else byteChr c s + 1

theorem byteChr_le (c : UInt8) (s : Bytes) : byteChr c s ≤ s.length := by
  induction s with
  | nil => exact Nat.le_refl 0
  | cons b s ih =>
    rw [byteChr]
    split
    · exact Nat.zero_le _
    · exact Nat.succ_le_succ ih

theorem byteChr_full {c : UInt8} {s : Bytes} (h : byteChr c s = s.length) : c ∉ s := by
  induction s with
  | nil => simp
  | cons b s ih =>
    rw [byteChr] at h
    split at h
    · cases h
    · next hb => simpa [Ne.symm hb] using ih (Nat.succ.inj h)

theorem byteChr_append {c : UInt8} {x : Bytes} (hx : c ∉ x) (s : Bytes) :
    byteChr c (x ++ s) = x.length + byteChr c s := by
  induction x with
  | nil => simp
  | cons b x ih =>
    obtain ⟨hb, hx'⟩ : b ≠ c ∧ c ∉ x := by simpa [eq_comm] using hx
    rw [List.cons_append, byteChr, if_neg hb, ih hx', List.length_cons]
    omega

theorem byteChr_free {c : UInt8} {x : Bytes} (hx : c ∉ x) : byteChr c x = x.length := by
  have h := byteChr_append hx []
  rwa [List.append_nil, byteChr, Nat.add_zero] at h

theorem byteChr_at {c : UInt8} {x : Bytes} (hx : c ∉ x) (s : Bytes) :
    byteChr c (x ++ c :: s) = x.length := by
  rw [byteChr_append hx, byteChr, if_pos rfl, Nat.add_zero]

/-- `isspace` in the C locale. -/
def isspace (c : UInt8) : Bool := c = 32 || (9 ≤ c && c ≤ 13)

def isdigit (c : UInt8) : Bool := 48 ≤ c && c ≤ 57

/-- The number that decimal digits make. -/
def natOf (digits : Bytes) : Nat := digits.foldl (fun l c => 10 * l + (c.toNat - 48)) 0

theorem natOf_mono (l : Nat) (s : Bytes) :
    l ≤ s.foldl (fun l c => 10 * l + (c.toNat - 48)) l := by
  induction s generalizing l with
  | nil => exact Nat.le_refl _
  | cons c s ih =>
    rw [List.foldl_cons]
    exact Nat.le_trans (by omega) (ih _)

/-- `scan_fromhex`: the value of a hex digit. -/
def scanFromhex (c : UInt8) : Option Nat :=
  let c := c - 48
  if c ≤ 9 then some c.toNat
  else
    let c := (c &&& 0xDF) - 17
    if c < 6 then some (c.toNat + 10) else none

theorem takeWhile_stop {p : UInt8 → Bool} {w t : Bytes} (hw : ∀ c ∈ w, p c = true)
    (ht : ∀ c ∈ t.head?, p c = false) : (w ++ t).takeWhile p = w := by
  rw [List.takeWhile_append_of_pos hw]
  cases t with
  | nil => simp
  | cons c t => simp [ht c rfl]

theorem takeWhile_ne {d : UInt8} {u : Bytes} (hu : d ∉ u) (t : Bytes) : (u ++ d :: t).takeWhile (· ≠ d) = u := by
  refine takeWhile_stop (fun c hc => ?_) (by simp)
  exact decide_eq_true fun heq => hu (heq ▸ hc)

theorem takeWhile_free {d : UInt8} {u : Bytes} (hu : d ∉ u) : u.takeWhile (· ≠ d) = u := by
  rw [List.takeWhile_eq_self_iff]
  exact fun c hc => decide_eq_true (ne_of_mem_of_not_mem hc hu)

theorem head_dropWhile (p : UInt8 → Bool) (s : Bytes) : ∀ c ∈ (s.dropWhile p).head?, p c = false := by
  intro c hc
  have h := List.head?_dropWhile_not p s
  rw [Option.mem_def.mp hc] at h
  exact h

/-- The text up to a byte. -/
theorem exists_until (d : UInt8) (s : Bytes) :
    ∃ w t, s = w ++ t ∧ (∀ c ∈ w, c ≠ d) ∧ (t = [] ∨ ∃ t', t = d :: t') ∧
      s.takeWhile (· ≠ d) = w ∧ s.dropWhile (· ≠ d) = t := by
  refine ⟨_, _, (List.takeWhile_append_dropWhile (p := (· ≠ d)) (l := s)).symm, ?_, ?_, rfl, rfl⟩
  · exact fun c hc => by simpa using List.mem_takeWhile_imp hc
  · have hhead := head_dropWhile (· ≠ d) s
    cases hd : s.dropWhile (· ≠ d) with
    | nil => exact .inl rfl
    | cons c t =>
      rw [hd] at hhead
      have hc : c = d := by simpa using hhead c rfl
      exact .inr ⟨t, by rw [hc]⟩

/-- Whether a scan for a set of characters meets one. The end of the set counts too. -/
def inCharset (charset : Bytes) (c : UInt8) : Bool := c = 0 || c ∈ charset

def scanCharsetnskip (s charset : Bytes) : Nat := (s.takeWhile (inCharset charset)).length

def scanNoncharsetnskip (s charset : Bytes) : Nat := (s.takeWhile fun c => !inCharset charset c).length

end Dirlist
