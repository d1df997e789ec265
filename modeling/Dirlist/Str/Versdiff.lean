import Dirlist.Lib.Diverge
import Dirlist.Fmt
import Dirlist.Scan
import Dirlist.Str

/-! `str_versdiff`: the order of two strings is that of the bytes in which they first differ, and that of the numbers
around these bytes if both are digits. `char` is signed, the numbers are 64 bits wide. -/

namespace Dirlist
open Run

/-- A `char` as a number. -/
def schar (c : UInt8) : Int := c.toInt8.toInt

/-- The first loop: where the strings differ, unless they end together. -/
def diffAt : Bytes → Bytes → Option Nat
  | [], [] => none
  | c :: s, d :: t => if c = d then (diffAt s t).map (· + 1) else some 0
  | _, _ => some 0

/-- `a = a * 10 + s[j] - '0'` for all digits. -/
def addDigits (a : Int) (digits : Bytes) : Int :=
  digits.foldl (fun a c => (a * 10 + c.toNat - 48).bmod (2 ^ 64)) a

def strVersdiff (s₁ s₂ : CStr) : Int :=
  match diffAt s₁.val s₂.val with
  | none => 0
  | some i =>
    let c₁ := s₁.val.getD i 0
    let c₂ := s₂.val.getD i 0
    if !isdigit c₁ || !isdigit c₂ then schar c₁ - schar c₂
    else
      let a := addDigits 0 ((s₁.val.take i).rtakeWhile isdigit)
      let b := a
      let a := addDigits a ((s₁.val.drop i).takeWhile isdigit)
      let b := addDigits b ((s₂.val.drop i).takeWhile isdigit)
      if a < b then -1 else 1

/-! ## The numbers -/

variable {x y z : CStr} {w r s t a b c m : Bytes}

def AllDigits (r : Bytes) : Prop := ∀ c ∈ r, isdigit c = true

/-- The digits at the end of `w` and at the front of `a`. -/
def digitsAround (w a : Bytes) : Bytes := w.rtakeWhile isdigit ++ a.takeWhile isdigit

/-- No number of 19 digits. -/
def ShortRuns (s : Bytes) : Prop := ∀ r, r <:+: s → AllDigits r → r.length < 19

theorem allDigits_around (w a : Bytes) : AllDigits (digitsAround w a) := by
  intro c hc
  rcases List.mem_append.mp hc with hc | hc
  · exact List.mem_rtakeWhile_imp hc
  · exact List.mem_takeWhile_imp hc

theorem digitsAround_infix (w a : Bytes) : digitsAround w a <:+: w ++ a := by
  obtain ⟨u, hu⟩ := List.rtakeWhile_suffix isdigit w
  obtain ⟨v, hv⟩ := List.takeWhile_prefix (l := a) isdigit
  refine ⟨u, v, ?_⟩
  rw [digitsAround, ← List.append_assoc, hu, List.append_assoc, hv]

theorem digit_value {c : UInt8} (hc : isdigit c = true) : 48 ≤ c.toNat ∧ c.toNat ≤ 57 := by
  simp only [isdigit, Bool.and_eq_true, decide_eq_true_iff, UInt8.le_iff_toNat_le] at hc
  exact hc

theorem natOf_lt (hr : AllDigits r) : natOf r < 10 ^ r.length := by
  induction r using List.reverseRecOn with
  | nil => decide
  | append_singleton r c ih =>
    have hr' := ih fun d hd => hr d (List.mem_append_left _ hd)
    have hc : isdigit c = true := hr c (by simp)
    have hle := (digit_value hc).2
    rw [natOf_append, List.length_append, List.length_singleton, Nat.pow_succ]
    omega

theorem addDigits_foldl (hr : AllDigits r) (n : Nat)
    (hlt : r.foldl (fun l c => 10 * l + (c.toNat - 48)) n < 2 ^ 63) :
    addDigits n r = (r.foldl (fun l c => 10 * l + (c.toNat - 48)) n : Nat) := by
  induction r generalizing n with
  | nil => rfl
  | cons c r ih =>
    rw [List.foldl_cons] at hlt
    have hsmall := Nat.lt_of_le_of_lt (natOf_mono (10 * n + (c.toNat - 48)) r) hlt
    have hc := (digit_value (hr c List.mem_cons_self)).1
    have hround : ((n : Int) * 10 + c.toNat - 48).bmod (2 ^ 64) = (10 * n + (c.toNat - 48) : Nat) := by
      rw [Int.bmod_def]
      omega
    have hrest := ih (fun d hd => hr d (List.mem_cons_of_mem c hd)) _ hlt
    rw [addDigits, List.foldl_cons, hround, List.foldl_cons]
    exact hrest

theorem addDigits_eq (hr : AllDigits r) (hlen : r.length < 19) : addDigits 0 r = natOf r := by
  have hpow : 10 ^ r.length ≤ 10 ^ 18 := Nat.pow_le_pow_right (by decide) (by omega)
  exact addDigits_foldl hr 0 ((natOf_lt hr).trans_le (hpow.trans (by decide)))

theorem addDigits_around (h : ShortRuns (w ++ a)) :
    addDigits (addDigits 0 (w.rtakeWhile isdigit)) (a.takeWhile isdigit) = natOf (digitsAround w a) := by
  have hlen := h _ ( digitsAround_infix w a) (allDigits_around w a)
  rw [← addDigits_eq (allDigits_around w a) hlen, digitsAround]
  exact (List.foldl_append ..).symm

/-! ## Where two strings differ -/

theorem diffAt_eq {u v : Bytes} (h : Diverge u v w a b) : diffAt u v = some w.length := by
  obtain ⟨rfl, rfl, hne⟩ := h
  induction w with
  | nil =>
    cases a with
    | nil => cases b <;> simp_all [diffAt]
    | cons c a => cases b <;> simp_all [diffAt]
  | cons c w ih =>
    rw [List.cons_append, List.cons_append, diffAt, if_pos rfl, ih]
    rfl

theorem diffAt_self (s : Bytes) : diffAt s s = none := by
  induction s with
  | nil => rfl
  | cons c s ih => rw [diffAt, if_pos rfl, ih, Option.map_none]

/-- Whether the rest `a` is before the rest `b` behind `w`. -/
def Precedes (w a b : Bytes) : Prop :=
  if isdigit (a.headD 0) && isdigit (b.headD 0) then natOf (digitsAround w a) < natOf (digitsAround w b)
  else schar (a.headD 0) < schar (b.headD 0)

theorem schar_inj {c d : UInt8} (h : schar c = schar d) : c = d := by
  have hchar := congrArg Int8.toUInt8 (Int8.toInt_inj.mp h)
  simpa using hchar

theorem schar_digit {c : UInt8} (hc : isdigit c = true) : 48 ≤ schar c ∧ schar c ≤ 57 :=
  forall_byte (P := fun c => isdigit c = true → 48 ≤ schar c ∧ schar c ≤ 57) (by decide +kernel) c hc

theorem schar_other {c : UInt8} (hc : isdigit c = false) : schar c < 48 ∨ 57 < schar c :=
  forall_byte (P := fun c => isdigit c = false → schar c < 48 ∨ 57 < schar c) (by decide +kernel) c hc

theorem headD_ne (h : Diverge x.val y.val w a b) : a.headD 0 ≠ b.headD 0 := by
  obtain ⟨hx, hy, hne⟩ := h
  have ha : 0 ∉ a := fun h => x.property (hx ▸ List.mem_append_right w h)
  have hb : 0 ∉ b := fun h => y.property (hy ▸ List.mem_append_right w h)
  cases a <;> cases b <;> simp_all [eq_comm]

theorem strVersdiff_eq (h : Diverge x.val y.val w a b) (hx : ShortRuns x.val) (hy : ShortRuns y.val) :
    strVersdiff x y =
      if isdigit (a.headD 0) && isdigit (b.headD 0) then
        if natOf (digitsAround w a) < natOf (digitsAround w b) then -1 else 1
      else schar (a.headD 0) - schar (b.headD 0) := by
  have hx' := addDigits_around (h.left ▸ hx)
  have hy' := addDigits_around (h.right ▸ hy)
  have hget : ∀ v : Bytes, (w ++ v).getD w.length 0 = v.headD 0 := by
    intro v
    cases v <;> simp
  rw [strVersdiff, diffAt_eq h]
  simp only [h.left, h.right, hget, List.take_left, List.drop_left, hx', hy', Nat.cast_lt]
  cases isdigit (a.headD 0) <;> cases isdigit (b.headD 0) <;> rfl

theorem strVersdiff_self (x : CStr) : strVersdiff x x = 0 := by
  rw [strVersdiff, diffAt_self]

theorem strVersdiff_le_iff (h : Diverge x.val y.val w a b) (hx : ShortRuns x.val) (hy : ShortRuns y.val) :
    strVersdiff x y ≤ 0 ↔ Precedes w a b := by
  have hne : schar (a.headD 0) ≠ schar (b.headD 0) := mt schar_inj (headD_ne h)
  rw [strVersdiff_eq h hx hy, Precedes]
  split_ifs <;> simp_all
  omega

/-! ## Runs of digits -/

/-- `r` is a whole run of digits behind `w`. -/
structure HasRun (s : CStr) (w r t : Bytes) : Prop where
  text : s.val = w ++ (r ++ t)
  digits : AllDigits r
  before : ∀ c ∈ w.getLast?, isdigit c = false
  behind : ∀ c ∈ t.head?, isdigit c = false

theorem rtakeWhile_append {m : Bytes} (hm : AllDigits m) (w : Bytes) :
    (w ++ m).rtakeWhile isdigit = w.rtakeWhile isdigit ++ m := by
  rw [List.rtakeWhile, List.reverse_append, List.takeWhile_append_of_pos fun c hc => hm c (List.mem_reverse.mp hc),
    List.reverse_append, List.reverse_reverse, List.rtakeWhile]

theorem digitsAround_append (hm : AllDigits m) (w a : Bytes) : digitsAround (w ++ m) a = digitsAround w (m ++ a) := by
  rw [digitsAround, rtakeWhile_append hm, digitsAround, List.takeWhile_append_of_pos hm, List.append_assoc]

/-- A run that ends in `m` does not depend on what is behind `m`. -/
theorem digitsAround_ends (hm : ¬AllDigits m) (w a b : Bytes) : digitsAround w (m ++ a) = digitsAround w (m ++ b) := by
  have hall : ∀ v : Bytes, (m ++ v).takeWhile isdigit = m.takeWhile isdigit := by
    intro v
    rw [List.takeWhile_append, if_neg]
    intro hlen
    refine hm fun c hc => ?_
    have heq := (List.takeWhile_prefix isdigit).eq_of_length hlen
    exact List.mem_takeWhile_imp (heq.symm ▸ hc)
  rw [digitsAround, digitsAround, hall, hall]

theorem HasRun.around (h : x.val = w ++ a) :
    HasRun x (w.rdropWhile isdigit) (digitsAround w a) (a.dropWhile isdigit) := by
  refine ⟨?_, allDigits_around w a, fun c hc => ?_, head_dropWhile isdigit a⟩
  · rw [h, digitsAround, ← List.append_assoc, ← List.append_assoc, List.rdropWhile_append_rtakeWhile, List.append_assoc,
      List.takeWhile_append_dropWhile]
  · obtain ⟨hne, hlast⟩ := List.mem_getLast?_eq_getLast hc
    exact Bool.eq_false_iff.mpr (hlast ▸ List.rdropWhile_last_not isdigit w hne)

theorem HasRun.digitsAround_eq (h : HasRun x w (m ++ r) t) : digitsAround (w ++ m) (r ++ t) = m ++ r := by
  have hm : AllDigits m := fun c hc => h.digits c (List.mem_append_left _ hc)
  have hw : w.rtakeWhile isdigit = [] := by
    rw [List.rtakeWhile_eq_nil_iff]
    intro hne hdig
    exact Bool.false_ne_true ((h.before _ (List.getLast_mem_getLast? hne)).symm.trans hdig)
  rw [digitsAround_append hm, digitsAround, hw, List.nil_append, ← List.append_assoc, takeWhile_stop h.digits h.behind]

/-! ## Failures -/

/-- Different ways to write one number at the same place. -/
def SameNumber (x y : CStr) : Prop :=
  ∃ w r t r' t', HasRun x w r t ∧ HasRun y w r' t' ∧ ¬r <+: r' ∧ ¬r' <+: r ∧ natOf r = natOf r'

/-- The number of `x` goes on in that of `z`, so that the byte behind it counts when both are compared, but the number
of `y` is between them. -/
def Overtaken (x y z : CStr) : Prop :=
  ∃ w p t q u r v, HasRun x w p t ∧ HasRun y w q u ∧ HasRun z w r v ∧ p <+: r ∧ (∃ c ∈ t.head?, 57 < schar c) ∧
    ¬p <+: q ∧ natOf p < natOf q ∧ natOf q < natOf r

theorem natOf_le_of_prefix (h : r <+: s) : natOf r ≤ natOf s := by
  obtain ⟨t, rfl⟩ := h
  rw [natOf, natOf, List.foldl_append]
  exact natOf_mono _ t

theorem strVersdiff_runs {r' t' : Bytes} (hx : HasRun x w r t) (hy : HasRun y w r' t') (h : ¬r <+: r') (h' : ¬r' <+: r)
    (hsx : ShortRuns x.val) (hsy : ShortRuns y.val) :
    strVersdiff x y = if natOf r < natOf r' then -1 else 1 := by
  obtain ⟨m, c, a, d, b, rfl, rfl, hcd⟩ := Diverge.exists_of_not_prefix h h'
  have hdiv : Diverge x.val y.val (w ++ m) (c :: a ++ t) (d :: b ++ t') :=
    ⟨by rw [hx.text]; simp, by rw [hy.text]; simp, by simpa using hcd⟩
  have hc : isdigit c = true := hx.digits c (by simp)
  have hd : isdigit d = true := hy.digits d (by simp)
  rw [strVersdiff_eq hdiv hsx hsy, hx.digitsAround_eq, hy.digitsAround_eq]
  simp [hc, hd]

/-- Both calls say that their first argument is behind the second one. -/
theorem SameNumber.sign_ne (h : SameNumber x y) (hx : ShortRuns x.val) (hy : ShortRuns y.val) :
    (strVersdiff x y).sign ≠ -(strVersdiff y x).sign := by
  obtain ⟨w, r, t, r', t', hr, hr', hne, hne', heq⟩ := h
  rw [strVersdiff_runs hr hr' hne hne' hx hy, strVersdiff_runs hr' hr hne' hne hy hx, heq]
  simp

theorem Overtaken.not_trans (h : Overtaken x y z) (hx : ShortRuns x.val) (hy : ShortRuns y.val) (hz : ShortRuns z.val) :
    strVersdiff x y ≤ 0 ∧ strVersdiff y z ≤ 0 ∧ ¬strVersdiff x z ≤ 0 := by
  obtain ⟨w, p, t, q, u, r, v, hp, hq, hr, hpre, ⟨c, hc, hbig⟩, hnot, hlt, hlt'⟩ := h
  have hqp : ¬q <+: p := fun h => Nat.not_lt.mpr ( natOf_le_of_prefix h) hlt
  have hrq : ¬r <+: q := fun h => Nat.not_lt.mpr ( natOf_le_of_prefix h) hlt'
  have hqr : ¬q <+: r := fun h => (List.prefix_or_prefix_of_prefix hpre h).elim hnot hqp
  refine ⟨?_, ?_, ?_⟩
  · rw [strVersdiff_runs hp hq hnot hqp hx hy, if_pos hlt]
    decide
  · rw [strVersdiff_runs hq hr hqr hrq hy hz, if_pos hlt']
    decide
  · obtain ⟨k, rfl⟩ := hpre
    obtain ⟨d, k, rfl⟩ : ∃ d k', k = d :: k' := by
      refine List.exists_cons_of_ne_nil fun hk => ?_
      rw [hk, List.append_nil] at hlt'
      omega
    obtain ⟨t, rfl⟩ := List.head?_eq_some_iff.mp hc
    have hcn : isdigit c = false := hp.behind c rfl
    have hd : isdigit d = true := hr.digits d (by simp)
    have hcd : c ≠ d := fun h => Bool.false_ne_true ((h ▸ hcn).symm.trans hd)
    have hdiv : Diverge x.val z.val (w ++ p) (c :: t) (d :: k ++ v) :=
      ⟨by rw [hp.text]; simp, by rw [hr.text]; simp, by simpa using hcd⟩
    rw [strVersdiff_le_iff hdiv hx hz, Precedes]
    have hle := (schar_digit hd).2
    simp [hcn]
    omega

/-! ## Transitivity -/

theorem headD_append {v : Bytes} (hm : m ≠ []) : (m ++ v).headD 0 = m.headD 0 := by
  obtain ⟨c, m, rfl⟩ := List.exists_cons_of_ne_nil hm
  rfl

theorem takeWhile_of_head {p : UInt8 → Bool} (h : p (a.headD 0) = false) : a.takeWhile p = [] ∧ a.dropWhile p = a := by
  cases a with
  | nil => exact ⟨rfl, rfl⟩
  | cons c a =>
    have hc : p c = false := h
    simp [hc]

/-- What is before has the smaller number, unless that number goes on in the other string where a letter follows
here. -/
theorem Precedes.number_le (h : Precedes w a b) : natOf (digitsAround w a) ≤ natOf (digitsAround w b) ∨
    digitsAround w b <+: digitsAround w a ∧ ∃ c ∈ (b.dropWhile isdigit).head?, 57 < schar c := by
  rw [Precedes] at h
  cases ha : isdigit (a.headD 0) with
  | false =>
    left
    refine natOf_le_of_prefix ?_
    rw [digitsAround, (takeWhile_of_head ha).1, List.append_nil]
    exact List.prefix_append _ _
  | true =>
    cases hb : isdigit (b.headD 0) with
    | true =>
      rw [ha, hb, Bool.and_self, if_pos rfl] at h
      exact .inl h.le
    | false =>
      obtain ⟨htake, hdrop⟩ := takeWhile_of_head hb
      rw [ha, hb, Bool.and_false, if_neg Bool.false_ne_true] at h
      have hlow := (schar_digit ha).1
      have hbig : 57 < schar (b.headD 0) := (schar_other hb).resolve_left (by omega)
      refine .inr ⟨?_, ?_⟩
      · rw [digitsAround, htake, List.append_nil]
        exact List.prefix_append _ _
      · rw [hdrop]
        cases b with
        | nil => exact absurd hbig (by decide)
        | cons c b => exact ⟨c, rfl, hbig⟩

theorem Precedes.number_le_append (h : Precedes (w ++ m) a b) :
    natOf (digitsAround w (m ++ a)) ≤ natOf (digitsAround w (m ++ b)) ∨
      digitsAround w (m ++ b) <+: digitsAround w (m ++ a) ∧ ∃ c ∈ ((m ++ b).dropWhile isdigit).head?, 57 < schar c := by
  by_cases hm : AllDigits m
  · have hle := h.number_le
    rwa [digitsAround_append hm, digitsAround_append hm, ← List.dropWhile_append_of_pos hm] at hle
  · exact .inl (digitsAround_ends hm w a b ▸ Nat.le_refl _)

/-- Where two runs part at digits, none begins the other. -/
theorem digitsAround_not_prefix (h : a.headD 0 ≠ b.headD 0) (ha : isdigit (a.headD 0) = true)
    (hb : isdigit (b.headD 0) = true) : ¬digitsAround w a <+: digitsAround w b := by
  cases a with
  | nil => exact absurd ha (by decide)
  | cons c a =>
    cases b with
    | nil => exact absurd hb (by decide)
    | cons d b =>
      have hc : isdigit c = true := ha
      have hd : isdigit d = true := hb
      rw [digitsAround, digitsAround, List.takeWhile_cons, List.takeWhile_cons, hc, hd, if_pos rfl, if_pos rfl]
      exact Diverge.not_prefix h _ _ _

theorem sameNumber_of (h : Diverge x.val y.val w a b) (ha : isdigit (a.headD 0) = true)
    (hb : isdigit (b.headD 0) = true) (heq : natOf (digitsAround w a) = natOf (digitsAround w b)) : SameNumber x y :=
  ⟨_, _, _, _, _, .around h.left, .around h.right, digitsAround_not_prefix (headD_ne h) ha hb,
    digitsAround_not_prefix (headD_ne h).symm hb ha, heq⟩

/-- `x` and `y` part at digits, and the number of `z`, which is larger, goes on where `x` has a letter. -/
theorem overtaken_of {e : Bytes} (h : Diverge x.val y.val w a b) (ha : isdigit (a.headD 0) = true)
    (hb : isdigit (b.headD 0) = true) (hz : z.val = w ++ e) (hpre : digitsAround w a <+: digitsAround w e)
    (hbig : ∃ c ∈ (a.dropWhile isdigit).head?, 57 < schar c) (hlt : natOf (digitsAround w a) < natOf (digitsAround w b))
    (hlt' : natOf (digitsAround w b) < natOf (digitsAround w e)) : Overtaken x y z :=
  ⟨_, _, _, _, _, _, _, .around h.left, .around h.right, .around hz, hpre, hbig,
    digitsAround_not_prefix (headD_ne h) ha hb, hlt, hlt'⟩

theorem precedes_digits (ha : isdigit (a.headD 0) = true) (hb : isdigit (b.headD 0) = true) :
    Precedes w a b ↔ natOf (digitsAround w a) < natOf (digitsAround w b) := by
  rw [Precedes, ha, hb, Bool.and_self, if_pos rfl]

theorem precedes_chars (h : ¬(isdigit (a.headD 0) = true ∧ isdigit (b.headD 0) = true)) :
    Precedes w a b ↔ schar (a.headD 0) < schar (b.headD 0) := by
  rw [Precedes, if_neg (mt (Bool.and_eq_true _ _).mp h)]

section
variable {e f : Bytes}

/-- The second and the third string have `m` in common. -/
theorem precedes_trans_first (hm : m ≠ []) (hxy : Diverge x.val y.val w a (m ++ e))
    (hxz : Diverge x.val z.val w a (m ++ f))
    (hsame : ¬SameNumber x z) (hover : ¬Overtaken z x y) (h₁ : Precedes w a (m ++ e)) (h₂ : Precedes (w ++ m) e f) :
    Precedes w a (m ++ f) := by
  by_cases hd : isdigit (a.headD 0) = true ∧ isdigit (m.headD 0) = true
  · have he : isdigit ((m ++ e).headD 0) = true := (headD_append hm).symm ▸ hd.2
    have hf : isdigit ((m ++ f).headD 0) = true := (headD_append hm).symm ▸ hd.2
    rw [precedes_digits hd.1 hf]
    rw [precedes_digits hd.1 he] at h₁
    rcases h₂.number_le_append with hle | ⟨hpre, hbig⟩
    · exact h₁.trans_le hle
    · refine lt_of_not_ge fun hge => ?_
      rcases hge.lt_or_eq with hlt | heq
      · exact hover (overtaken_of hxz.symm hf hd.1 hxy.right hpre hbig hlt h₁)
      · exact hsame (sameNumber_of hxz hd.1 hf heq.symm)
  · rw [precedes_chars (by rwa [headD_append hm]), headD_append hm] at h₁ ⊢
    exact h₁

/-- The first and the second string have `m` in common. -/
theorem precedes_trans_last (hm : m ≠ []) (hyz : Diverge y.val z.val w (m ++ b) f)
    (hxz : Diverge x.val z.val w (m ++ a) f)
    (hsame : ¬SameNumber x z) (hover : ¬Overtaken y z x) (h₁ : Precedes (w ++ m) a b) (h₂ : Precedes w (m ++ b) f) :
    Precedes w (m ++ a) f := by
  by_cases hd : isdigit (m.headD 0) = true ∧ isdigit (f.headD 0) = true
  · have ha : isdigit ((m ++ a).headD 0) = true := (headD_append hm).symm ▸ hd.1
    have hb : isdigit ((m ++ b).headD 0) = true := (headD_append hm).symm ▸ hd.1
    rw [precedes_digits ha hd.2]
    rw [precedes_digits hb hd.2] at h₂
    rcases h₁.number_le_append with hle | ⟨hpre, hbig⟩
    · exact hle.trans_lt h₂
    · refine lt_of_not_ge fun hge => ?_
      rcases hge.lt_or_eq with hlt | heq
      · exact hover (overtaken_of hyz hb hd.2 hxz.left hpre hbig h₂ hlt)
      · exact hsame (sameNumber_of hxz ha hd.2 heq.symm)
  · rw [precedes_chars (by rwa [headD_append hm]), headD_append hm] at h₂ ⊢
    exact h₂

theorem head_cases (v : Bytes) : isdigit (v.headD 0) = true ∧ 48 ≤ schar (v.headD 0) ∧ schar (v.headD 0) ≤ 57 ∨
    isdigit (v.headD 0) = false ∧ (schar (v.headD 0) < 48 ∨ 57 < schar (v.headD 0)) := by
  cases hv : isdigit (v.headD 0) with
  | true => exact .inl ⟨rfl, schar_digit hv⟩
  | false => exact .inr ⟨rfl, schar_other hv⟩

/-- All three part at once. -/
theorem precedes_trans_apart (h₁ : Precedes w a b) (h₂ : Precedes w b f) : Precedes w a f := by
  rw [Precedes] at h₁ h₂ ⊢
  rcases head_cases a with ⟨ha, hca⟩ | ⟨ha, hca⟩ <;> rcases head_cases b with ⟨hb, hcb⟩ | ⟨hb, hcb⟩ <;>
    rcases head_cases f with ⟨hf, hcf⟩ | ⟨hf, hcf⟩ <;>
    simp only [ha, hb, hf, Bool.and_self, Bool.and_true, Bool.and_false, if_true, Bool.false_eq_true, if_false]
      at h₁ h₂ ⊢ <;>
    omega

/-- The first and the third string have `m` in common. -/
theorem precedes_trans_outer (hm : m ≠ []) (hxy : Diverge x.val y.val w (m ++ a) b) (hz : z.val = w ++ (m ++ f))
    (hover : ¬Overtaken x y z) (h₁ : Precedes w (m ++ a) b) (h₂ : Precedes w b (m ++ f)) : ¬Precedes (w ++ m) f a := by
  intro h
  by_cases hd : isdigit (m.headD 0) = true ∧ isdigit (b.headD 0) = true
  · have ha : isdigit ((m ++ a).headD 0) = true := (headD_append hm).symm ▸ hd.1
    have hf : isdigit ((m ++ f).headD 0) = true := (headD_append hm).symm ▸ hd.1
    rw [precedes_digits ha hd.2] at h₁
    rw [precedes_digits hd.2 hf] at h₂
    rcases h.number_le_append with hle | ⟨hpre, hbig⟩
    · omega
    · exact hover (overtaken_of hxy ha hd.2 hz hpre hbig h₁ h₂)
  · rw [precedes_chars (by rwa [headD_append hm]), headD_append hm] at h₁
    rw [precedes_chars (by rwa [headD_append hm, and_comm]), headD_append hm] at h₂
    omega

end

/-! ## Sets of strings -/

/-- `str_versdiff` orders the strings of `S`. -/
def OrderedBy (S : Set CStr) : Prop :=
  (∀ x ∈ S, ∀ y ∈ S, (strVersdiff x y).sign = -(strVersdiff y x).sign) ∧
    ∀ x ∈ S, ∀ y ∈ S, ∀ z ∈ S, strVersdiff x y ≤ 0 → strVersdiff y z ≤ 0 → strVersdiff x z ≤ 0

theorem strVersdiff_sign (hx : ShortRuns x.val) (hy : ShortRuns y.val) (h : ¬SameNumber x y) :
    (strVersdiff x y).sign = -(strVersdiff y x).sign := by
  by_cases hxy : x = y
  · rw [hxy, strVersdiff_self]
    rfl
  · obtain ⟨w, a, b, hdiv⟩ := Diverge.exists_of_ne fun hval => hxy (Subtype.ext hval)
    rw [strVersdiff_eq hdiv hx hy, strVersdiff_eq hdiv.symm hy hx, Bool.and_comm (isdigit (b.headD 0))]
    split_ifs with hd hlt hgt hgt
    · omega
    · rfl
    · rfl
    · obtain ⟨ha, hb⟩ := (Bool.and_eq_true _ _).mp hd
      exact absurd (sameNumber_of hdiv ha hb (by omega)) h
    · rw [← Int.sign_neg, Int.neg_sub]

theorem strVersdiff_trans (hx : ShortRuns x.val) (hy : ShortRuns y.val) (hz : ShortRuns z.val)
    (hsame : ¬SameNumber x z) (h₁ : ¬Overtaken z x y) (h₂ : ¬Overtaken y z x) (h₃ : ¬Overtaken x y z)
    (hxy : strVersdiff x y ≤ 0) (hyz : strVersdiff y z ≤ 0) : strVersdiff x z ≤ 0 := by
  by_cases hne₁ : x = y
  · exact hne₁ ▸ hyz
  by_cases hne₂ : y = z
  · exact hne₂ ▸ hxy
  obtain ⟨w, a, b, hd₁⟩ := Diverge.exists_of_ne fun hval => hne₁ (Subtype.ext hval)
  obtain ⟨w', e, f, hd₂⟩ := Diverge.exists_of_ne fun hval => hne₂ (Subtype.ext hval)
  rw [strVersdiff_le_iff hd₁ hx hy] at hxy
  rw [strVersdiff_le_iff hd₂ hy hz] at hyz
  rcases hd₁.cases_three hd₂ with ⟨m, hm, rfl, rfl, hd⟩ | ⟨m, hm, rfl, rfl, hd⟩ | ⟨rfl, rfl, hd⟩
  · rw [strVersdiff_le_iff hd hx hz]
    exact precedes_trans_first hm hd₁ hd hsame h₁ hxy hyz
  · rw [strVersdiff_le_iff hd hx hz]
    exact precedes_trans_last hm hd₂ hd hsame h₂ hxy hyz
  · by_cases hhead : a.head? = f.head?
    · by_cases haf : a = f
      · have hxz : x = z := Subtype.ext (by rw [hd₁.left, hd₂.right, haf])
        rw [hxz, strVersdiff_self]
      · -- `x` and `z` go on alike and part later
        obtain ⟨m, g, k, rfl, rfl, hgk⟩ := Diverge.exists_of_ne haf
        have hm : m ≠ [] := by
          rintro rfl
          exact hgk hhead
        have hd : Diverge x.val z.val (w' ++ m) g k :=
          ⟨by rw [hd₁.left, List.append_assoc], by rw [hd₂.right, List.append_assoc], hgk⟩
        have hnot := precedes_trans_outer hm hd₁ hd₂.right h₃ hxy hyz
        rw [← strVersdiff_le_iff hd.symm hz hx] at hnot
        have hsign := strVersdiff_sign hx hz hsame
        rw [Int.sign_eq_one_iff_pos.mpr (Int.not_le.mp hnot)] at hsign
        exact (Int.sign_eq_neg_one_iff_neg.mp hsign).le
    · rw [strVersdiff_le_iff (hd hhead) hx hz]
      exact precedes_trans_apart hxy hyz

/-- Exactly the two failures keep a set of strings from being ordered. -/
theorem strVersdiff_ordered_iff {S : Set CStr} (hS : ∀ x ∈ S, ShortRuns x.val) :
    OrderedBy S ↔ (∀ x ∈ S, ∀ y ∈ S, ¬SameNumber x y) ∧ ∀ x ∈ S, ∀ y ∈ S, ∀ z ∈ S, ¬Overtaken x y z := by
  constructor
  · rintro ⟨hsign, htrans⟩
    refine ⟨fun x hx y hy h => h.sign_ne (hS x hx) (hS y hy) (hsign x hx y hy), fun x hx y hy z hz h => ?_⟩
    obtain ⟨hxy, hyz, hxz⟩ := h.not_trans (hS x hx) (hS y hy) (hS z hz)
    exact hxz (htrans x hx y hy z hz hxy hyz)
  · rintro ⟨hsame, hover⟩
    refine ⟨fun x hx y hy => strVersdiff_sign (hS x hx) (hS y hy) (hsame x hx y hy), ?_⟩
    intro x hx y hy z hz
    exact strVersdiff_trans (hS x hx) (hS y hy) (hS z hz) (hsame x hx z hz) (hover z hz x hx y hy)
      (hover y hy z hz x hx) (hover x hx y hy z hz)

theorem shortRuns_of_length {s : Bytes} (h : s.length < 19) : ShortRuns s :=
  fun _ hr _ => hr.length_le.trans_lt h

/-- `1` and `01` -/
theorem strVersdiff_ordered_iff_zero : ¬OrderedBy {x | x.val = [49] ∨ x.val = [48, 49]} := by
  have hshort : ∀ x ∈ {x : CStr | x.val = [49] ∨ x.val = [48, 49]}, ShortRuns x.val := by
    rintro x (hx | hx) <;> exact shortRuns_of_length (by simp [hx])
  rw [strVersdiff_ordered_iff hshort]
  rintro ⟨h, -⟩
  refine h ⟨[49], by decide⟩ (.inl rfl) ⟨[48, 49], by decide⟩ (.inr rfl)
    ⟨[], [49], [], [48, 49], [], ⟨rfl, ?_, ?_, ?_⟩, ⟨rfl, ?_, ?_, ?_⟩, by decide, by decide, by decide⟩ <;>
    simp [AllDigits, isdigit]

/-- Either of `1` and `01` is behind the other one, and `2`, `10`, `1a` are in order, but not `2` and `1a`. -/
theorem strVersdiff_unordered : strVersdiff ⟨[49], by decide⟩ ⟨[48, 49], by decide⟩ = 1 ∧
    strVersdiff ⟨[48, 49], by decide⟩ ⟨[49], by decide⟩ = 1 ∧
    strVersdiff ⟨[50], by decide⟩ ⟨[49, 48], by decide⟩ ≤ 0 ∧
    strVersdiff ⟨[49, 48], by decide⟩ ⟨[49, 97], by decide⟩ ≤ 0 ∧
    ¬strVersdiff ⟨[50], by decide⟩ ⟨[49, 97], by decide⟩ ≤ 0 := by
  decide

end Dirlist
