import Dirlist.Scan

/-! The versions of pkgcfg: four numbers of 16 bits in one of 64, with a filler for those that are
not there, and the conditions that compare them. -/

namespace Dirlist

/-! ## Parsing -/

/-- `0123456789` -/
def decimalDigits : Bytes := [48, 49, 50, 51, 52, 53, 54, 55, 56, 57]

/-- Subtraction of two `size_t`. -/
def subSize (a b : Nat) : Nat := (a + (2 ^ 64 - b % 2 ^ 64)) % 2 ^ 64

/-- One round of `pkg_parse_version`. The text `x` goes on to its terminator, and `n` bytes of it
are left. -/
def versionRound : Nat × Bytes × Nat → Nat → Nat × Bytes × Nat
  | (v, x, n), s =>
    if n ≠ 0 then
      let (i, num) := scanUshort x 0xffff
      let j := scanNoncharsetnskip ((x.drop i).take (subSize n i)) decimalDigits
      let (x, n) := if i + j > 0 then (x.drop (i + j), subSize n (i + j)) else (x, 0)
      (v ||| (num &&& 0xffff) <<< s, x, n)
    else (v ||| (0xffff &&& 0xffff) <<< s, x, n)

def pkgParseVersion (x : Bytes) (n : Nat) : Nat := ([48, 32, 16, 0].foldl versionRound (0, x, n)).1

inductive OpCode
  | eq
  | ne
  | gt
  | ge
  | lt
  | le
deriving DecidableEq, Repr

/-- An operator that is not known, as it comes from `get_op_index`, is none. -/
def pkgCheckCond (op : Option OpCode) (versionVal version : Nat) : Int :=
  match op with
  | some .eq => if version = versionVal then 1 else 0
  | some .ne => if version ≠ versionVal then 1 else 0
  | some .gt => if version > versionVal then 1 else 0
  | some .ge => if version ≥ versionVal then 1 else 0
  | some .lt => if version < versionVal then 1 else 0
  | some .le => if version ≤ versionVal then 1 else 0
  | none => -1

/-! ## Versions -/

/-- A component of a version text. -/
structure Component where
  digits : Bytes
  nonempty : digits ≠ []
  digit : ∀ c ∈ digits, isdigit c = true
  small : natOf digits < 65535

def versionText (cs : List Component) : Bytes := [46].intercalate (cs.map Component.digits)

/-- One to four components. -/
structure Version where
  comps : List Component
  nonempty : comps ≠ []
  short : comps.length ≤ 4
  fits : (versionText comps).length < 2 ^ 64

def Component.value (c : Component) : Nat := natOf c.digits

def Version.values (v : Version) : List Nat := v.comps.map Component.value

def Version.parse (v : Version) : Nat := pkgParseVersion (versionText v.comps) (versionText v.comps).length

/-- What an operator says about two versions, in the lexicographic order of their components. -/
def OpCode.Holds (op : OpCode) (a b : List Nat) : Prop :=
  match op with
  | .eq => a = b
  | .ne => a ≠ b
  | .gt => b < a
  | .ge => b ≤ a
  | .lt => a < b
  | .le => a ≤ b

instance (op : OpCode) (a b : List Nat) : Decidable (op.Holds a b) :=
  match op with
  | .eq => inferInstanceAs (Decidable (a = b))
  | .ne => inferInstanceAs (Decidable (a ≠ b))
  | .gt => inferInstanceAs (Decidable (b < a))
  | .ge => inferInstanceAs (Decidable (b ≤ a))
  | .lt => inferInstanceAs (Decidable (a < b))
  | .le => inferInstanceAs (Decidable (a ≤ b))

/-! ## Reading a component -/

theorem Component.scanUshort (c : Component) {t : Bytes} (ht : ∀ d ∈ t.head?, isdigit d = false)
    (dest : Nat) : scanUshort (c.digits ++ t) dest = (c.digits.length, c.value) := by
  have hsmall : natOf c.digits < 2 ^ 16 := Nat.lt_of_lt_of_le c.small (by decide)
  have hscan := scanUshortFrom_digits 0 c.digit ht hsmall
  have hpos : c.digits.length > 0 := List.length_pos_iff.mpr c.nonempty
  simp only [Dirlist.scanUshort, hscan, if_pos hpos]
  rfl

theorem subSize_of_le {a b : Nat} (ha : a < 2 ^ 64) (hb : b ≤ a) : subSize a b = a - b := by
  rw [subSize, Nat.mod_eq_of_lt (Nat.lt_of_le_of_lt hb ha)]
  omega

theorem or_shift {v num s : Nat} (hv : 2 ^ (s + 16) ∣ v) (hnum : num < 2 ^ 16) :
    v ||| num <<< s = v + num * 2 ^ s := by
  obtain ⟨w, rfl⟩ := hv
  have hlt : num * 2 ^ s < 2 ^ (s + 16) := by
    rw [Nat.pow_add, Nat.mul_comm]
    exact Nat.mul_lt_mul_of_pos_left hnum (Nat.two_pow_pos s)
  rw [Nat.shiftLeft_eq, Nat.two_pow_add_eq_or_of_lt hlt]

theorem Component.head_digit (c : Component) (t : Bytes) :
    ∃ d ∈ (c.digits ++ t).head?, isdigit d = true := by
  obtain ⟨d, ds, hd⟩ := List.exists_cons_of_ne_nil c.nonempty
  exact ⟨d, by simp [hd], c.digit d (by simp [hd])⟩

theorem inCharset_decimalDigits {c : UInt8} (hc : isdigit c = true) :
    inCharset decimalDigits c = true := by
  revert hc
  revert c
  decide +kernel

/-- Behind the digits of a component, what the scan for the next digit passes over is what separates
it from the next component. -/
theorem versionText_cons (c : Component) (cs : List Component) :
    ∃ sep, versionText (c :: cs) = c.digits ++ (sep ++ versionText cs) ∧
      (∀ d ∈ (sep ++ versionText cs).head?, isdigit d = false) ∧
      scanNoncharsetnskip (sep ++ versionText cs) decimalDigits = sep.length := by
  cases cs with
  | nil => exact ⟨[], by simp [versionText], by simp [versionText], rfl⟩
  | cons e cs =>
    have htext : versionText (c :: e :: cs) = c.digits ++ ([46] ++ versionText (e :: cs)) := by
      simp [versionText, List.intercalate_cons_cons]
    refine ⟨[46], htext, by simp [isdigit], ?_⟩
    have hnext : ∃ d ∈ (versionText (e :: cs)).head?, isdigit d = true := by
      cases cs with
      | nil => simpa [versionText] using e.head_digit []
      | cons f cs =>
        have he : versionText (e :: f :: cs) = e.digits ++ ([46] ++ versionText (f :: cs)) := by
          simp [versionText, List.intercalate_cons_cons]
        rw [he]
        exact e.head_digit _
    obtain ⟨d, hd, hdigit⟩ := hnext
    have hin := inCharset_decimalDigits hdigit
    rw [scanNoncharsetnskip, takeWhile_stop (by decide)]
    intro d' hd'
    obtain rfl := Option.mem_unique hd hd'
    simp [hin]

/-- The number of the next component, or the filler. -/
def nextValue (cs : List Component) : Nat := (cs.head?.map Component.value).getD 65535

theorem nextValue_lt (cs : List Component) : nextValue cs < 2 ^ 16 := by
  cases cs with
  | nil => decide
  | cons c cs => exact Nat.lt_of_lt_of_le c.small (by decide)

theorem versionRound_text {cs : List Component} (hfits : (versionText cs).length < 2 ^ 64) {v s : Nat}
    (hv : 2 ^ (s + 16) ∣ v) :
    versionRound (v, versionText cs, (versionText cs).length) s =
      (v + nextValue cs * 2 ^ s, versionText cs.tail, (versionText cs.tail).length) := by
  have hmask (num : Nat) (hnum : num < 2 ^ 16) : num &&& 0xffff = num :=
    (Nat.and_two_pow_sub_one_eq_mod num 16).trans (Nat.mod_eq_of_lt hnum)
  cases cs with
  | nil =>
    have hnil : versionText [] = [] := rfl
    simp only [versionRound, hnil, List.length_nil, List.tail_nil, hmask 0xffff (by decide)]
    rw [if_neg (by simp), or_shift hv (by decide)]
    rfl
  | cons c cs =>
    obtain ⟨sep, htext, hhead, hskip⟩ := versionText_cons c cs
    have hpos : 0 < c.digits.length := List.length_pos_iff.mpr c.nonempty
    have hlen : (versionText (c :: cs)).length = c.digits.length + (sep.length + (versionText cs).length) := by
      rw [htext, List.length_append, List.length_append]
    have hsub : subSize (versionText (c :: cs)).length c.digits.length = (sep ++ versionText cs).length := by
      rw [subSize_of_le hfits (by omega), List.length_append]
      omega
    have hrest : subSize (versionText (c :: cs)).length (c.digits.length + sep.length) =
        (versionText cs).length := by
      rw [subSize_of_le hfits (by omega)]
      omega
    have hdrop : (versionText (c :: cs)).drop c.digits.length = sep ++ versionText cs := by
      rw [htext, List.drop_left]
    have hdrop' : (versionText (c :: cs)).drop (c.digits.length + sep.length) = versionText cs := by
      rw [← List.drop_drop, hdrop, List.drop_left]
    have hscan : scanUshort (versionText (c :: cs)) 0xffff = (c.digits.length, c.value) := by
      rw [htext]
      exact c.scanUshort hhead 0xffff
    have hvalue : c.value < 2 ^ 16 := nextValue_lt (c :: cs)
    have hne : (versionText (c :: cs)).length ≠ 0 := by omega
    have hmove : c.digits.length + sep.length > 0 := by omega
    simp only [versionRound, if_pos hne, hscan, hdrop, hsub, List.take_length, hskip, if_pos hmove, hdrop', hrest,
      hmask c.value hvalue, or_shift hv hvalue]
    rfl

/-! ## The packed number -/

/-- Four numbers in one. -/
def packed (l : List Nat) : Nat := l.foldl (fun v x => v * 2 ^ 16 + x) 0

/-- The numbers of a version, with the filler behind. -/
def padded : Nat → List Nat → List Nat
  | 0, _ => []
  | k + 1, [] => 65535 :: padded k []
  | k + 1, x :: l => x :: padded k l

theorem versionText_tail_fits {cs : List Component} (hfits : (versionText cs).length < 2 ^ 64) :
    (versionText cs.tail).length < 2 ^ 64 := by
  cases cs with
  | nil => exact hfits
  | cons c cs =>
    obtain ⟨sep, htext, -⟩ := versionText_cons c cs
    rw [htext, List.length_append, List.length_append] at hfits
    rw [List.tail_cons]
    omega

theorem padded_succ (k : Nat) (cs : List Component) :
    padded (k + 1) (cs.map Component.value) = nextValue cs :: padded k (cs.tail.map Component.value) := by
  cases cs <;> rfl

theorem Version.parse_eq (v : Version) : v.parse = packed (padded 4 v.values) := by
  have h₁ := versionText_tail_fits v.fits
  have h₂ := versionText_tail_fits h₁
  have h₃ := versionText_tail_fits h₂
  rw [Version.values, padded_succ, padded_succ, padded_succ, padded_succ, padded]
  rw [Version.parse, pkgParseVersion, List.foldl_cons, versionRound_text v.fits (Nat.dvd_zero _),
    List.foldl_cons, versionRound_text h₁ (by omega),
    List.foldl_cons, versionRound_text h₂ (by omega),
    List.foldl_cons, versionRound_text h₃ (by omega)]
  simp only [packed, List.foldl_cons, List.foldl_nil]
  omega

theorem foldl_pack_lt {l l' : List Nat} (hlen : l.length = l'.length) (hl : ∀ x ∈ l, x < 2 ^ 16)
    {v v' : Nat} (hv : v < v') :
    l.foldl (fun v x => v * 2 ^ 16 + x) v < l'.foldl (fun v x => v * 2 ^ 16 + x) v' := by
  induction l generalizing l' v v' with
  | nil =>
    cases l' with
    | nil => exact hv
    | cons y l' => cases hlen
  | cons x l ih =>
    cases l' with
    | nil => cases hlen
    | cons y l' =>
      have hx := hl x List.mem_cons_self
      rw [List.foldl_cons, List.foldl_cons]
      exact ih (Nat.succ.inj hlen) (fun z hz => hl z (List.mem_cons_of_mem x hz)) (by omega)

theorem foldl_pack_lt_iff {l l' : List Nat} (hlen : l.length = l'.length) (hl : ∀ x ∈ l, x < 2 ^ 16)
    (hl' : ∀ x ∈ l', x < 2 ^ 16) (v : Nat) :
    l.foldl (fun v x => v * 2 ^ 16 + x) v < l'.foldl (fun v x => v * 2 ^ 16 + x) v ↔ l < l' := by
  induction l generalizing l' v with
  | nil =>
    cases l' with
    | nil => simp
    | cons y l' => cases hlen
  | cons x l ih =>
    cases l' with
    | nil => cases hlen
    | cons y l' =>
      have hlen' : l.length = l'.length := Nat.succ.inj hlen
      have ht := fun z hz => hl z (List.mem_cons_of_mem x hz)
      have ht' := fun z hz => hl' z (List.mem_cons_of_mem y hz)
      rw [List.foldl_cons, List.foldl_cons, List.cons_lt_cons_iff]
      rcases Nat.lt_trichotomy x y with hxy | rfl | hxy
      · exact ⟨fun _ => .inl hxy, fun _ => foldl_pack_lt hlen' ht (by omega)⟩
      · rw [ih hlen' ht ht']
        simp
      · have hlt := foldl_pack_lt hlen'.symm ht' (show v * 2 ^ 16 + y < v * 2 ^ 16 + x by omega)
        constructor
        · exact fun h => absurd h (Nat.lt_asymm hlt)
        · rintro (h | ⟨h, -⟩) <;> omega

theorem length_padded (k : Nat) (l : List Nat) : (padded k l).length = k := by
  induction k generalizing l with
  | zero => rfl
  | succ k ih => cases l <;> simp [padded, ih]

theorem padded_lt {l : List Nat} (hl : ∀ x ∈ l, x < 65535) (k : Nat) : ∀ x ∈ padded k l, x < 2 ^ 16 := by
  induction k generalizing l with
  | zero => simp [padded]
  | succ k ih =>
    cases l with
    | nil => exact List.forall_mem_cons.mpr ⟨by decide, ih (by simp)⟩
    | cons y l =>
      obtain ⟨hy, hl⟩ := List.forall_mem_cons.mp hl
      exact List.forall_mem_cons.mpr ⟨by omega, ih hl⟩

/-- Unless one list goes on where the other one ends, the filler does not change the order. -/
theorem padded_lt_padded {k : Nat} {a b : List Nat} (ha : a.length ≤ k) (hb : b.length ≤ k)
    (hab : a <+: b → a = b) (hba : b <+: a → b = a) : padded k a < padded k b ↔ a < b := by
  induction k generalizing a b with
  | zero =>
    obtain rfl := List.length_eq_zero_iff.mp (Nat.le_zero.mp ha)
    obtain rfl := List.length_eq_zero_iff.mp (Nat.le_zero.mp hb)
    simp
  | succ k ih =>
    cases a with
    | nil =>
      obtain rfl := hab List.nil_prefix
      simp
    | cons x a =>
      cases b with
      | nil => cases hba List.nil_prefix
      | cons y b =>
        rw [padded, padded, List.cons_lt_cons_iff, List.cons_lt_cons_iff]
        have hrest (hxy : x = y) : padded k a < padded k b ↔ a < b := by
          subst hxy
          refine ih (Nat.le_of_succ_le_succ ha) (Nat.le_of_succ_le_succ hb) (fun h => ?_) fun h => ?_
          · exact (List.cons.inj (hab ((List.prefix_cons_inj x).mpr h))).2
          · exact (List.cons.inj (hba ((List.prefix_cons_inj x).mpr h))).2
        exact or_congr_right (and_congr_right hrest)

/-- A list that goes on is the smaller one with the filler. -/
theorem padded_of_start {k : Nat} {a b : List Nat} (hb : b.length ≤ k) (hsmall : ∀ x ∈ b, x < 65535)
    (hab : a <+: b) (hne : a ≠ b) : padded k b < padded k a := by
  induction k generalizing a b with
  | zero =>
    obtain rfl := List.length_eq_zero_iff.mp (Nat.le_zero.mp hb)
    exact absurd (List.prefix_nil.mp hab) hne
  | succ k ih =>
    cases b with
    | nil => exact absurd (List.prefix_nil.mp hab) hne
    | cons y b =>
      obtain ⟨hy, hrest⟩ := List.forall_mem_cons.mp hsmall
      cases a with
      | nil => exact List.cons_lt_cons_iff.mpr (.inl hy)
      | cons x a =>
        obtain ⟨rfl, htail⟩ := List.cons_prefix_cons.mp hab
        refine List.cons_lt_cons_iff.mpr (.inr ⟨rfl, ?_⟩)
        exact ih (Nat.le_of_succ_le_succ hb) hrest htail fun heq => hne (congrArg _ heq)

/-! ## Conditions -/

theorem Version.small (v : Version) : ∀ x ∈ v.values, x < 65535 := by
  intro x hx
  obtain ⟨c, -, rfl⟩ := List.mem_map.mp hx
  exact c.small

theorem Version.parse_lt_parse (a b : Version) :
    a.parse < b.parse ↔ padded 4 a.values < padded 4 b.values := by
  rw [a.parse_eq, b.parse_eq]
  exact foldl_pack_lt_iff ((length_padded 4 _).trans (length_padded 4 _).symm) (padded_lt a.small 4)
    (padded_lt b.small 4) 0

theorem Version.length_values (v : Version) : v.values.length ≤ 4 := by
  rw [Version.values, List.length_map]
  exact v.short

/-- A version that goes on where another one ends is the smaller one for the conditions. -/
theorem Version.parse_lt_of_prefix {a b : Version} (hab : a.values <+: b.values) (hne : a.values ≠ b.values) :
    b.parse < a.parse ∧ a.values < b.values := by
  refine ⟨(b.parse_lt_parse a).mpr (padded_of_start b.length_values b.small hab hne), ?_⟩
  exact lt_of_le_of_ne (not_lt.mp hab.le) hne

theorem ite_one_iff {p q : Prop} [Decidable p] [Decidable q] :
    ((if p then 1 else 0 : Int) = if q then 1 else 0) ↔ (p ↔ q) := by
  by_cases hp : p <;> by_cases hq : q <;> simp [hp, hq]

/-- The conditions follow the order of the versions just when neither text goes on where the other
one ends. -/
theorem pkgCheckCond_iff (a b : Version) :
    (∀ op : OpCode, pkgCheckCond (some op) b.parse a.parse = if op.Holds a.values b.values then 1 else 0) ↔
      (a.values <+: b.values → a.values = b.values) ∧ (b.values <+: a.values → b.values = a.values) := by
  constructor
  · intro h
    have hlt : a.parse < b.parse ↔ a.values < b.values := ite_one_iff.mp (h .lt)
    have hgt : a.parse > b.parse ↔ b.values < a.values := ite_one_iff.mp (h .gt)
    constructor
    · intro hab
      by_contra hne
      obtain ⟨hpacked, hvalues⟩ := Version.parse_lt_of_prefix hab hne
      exact Nat.lt_asymm hpacked (hlt.mpr hvalues)
    · intro hba
      by_contra hne
      obtain ⟨hpacked, hvalues⟩ := Version.parse_lt_of_prefix hba hne
      exact Nat.lt_asymm hpacked (hgt.mpr hvalues)
  · rintro ⟨hab, hba⟩
    have hlt : a.parse < b.parse ↔ a.values < b.values :=
      (a.parse_lt_parse b).trans (padded_lt_padded a.length_values b.length_values hab hba)
    have hgt : b.parse < a.parse ↔ b.values < a.values :=
      (b.parse_lt_parse a).trans (padded_lt_padded b.length_values a.length_values hba hab)
    have hle : a.parse ≤ b.parse ↔ a.values ≤ b.values := by rw [← not_lt, hgt, not_lt]
    have hge : b.parse ≤ a.parse ↔ b.values ≤ a.values := by rw [← not_lt, hlt, not_lt]
    have heq : a.parse = b.parse ↔ a.values = b.values := by
      rw [le_antisymm_iff, le_antisymm_iff, hle, hge]
    intro op
    cases op with
    | eq => exact ite_one_iff.mpr heq
    | ne => exact ite_one_iff.mpr (not_congr heq)
    | gt => exact ite_one_iff.mpr hgt
    | ge => exact ite_one_iff.mpr hge
    | lt => exact ite_one_iff.mpr hlt
    | le => exact ite_one_iff.mpr hle

/-- The version `1.2`, or `1.2.3`. -/
def versionOne (patch : Bool) : Version where
  comps := ⟨[49], by decide, by decide, by decide⟩ :: ⟨[50], by decide, by decide, by decide⟩ ::
    if patch then [⟨[51], by decide, by decide, by decide⟩] else []
  nonempty := by simp
  short := by cases patch <;> decide
  fits := by cases patch <;> decide

/-- `1.2` is not below `1.2.3`. -/
theorem pkgCheckCond_shorter : ¬∀ (a b : Version) (op : OpCode),
    pkgCheckCond (some op) b.parse a.parse = if op.Holds a.values b.values then 1 else 0 := by
  intro h
  exact absurd (h (versionOne false) (versionOne true) .lt) (by decide)

end Dirlist
