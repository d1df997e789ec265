import Dirlist.Lib.Run
import Dirlist.Byte

/-! The scanners of lib/scan, lib/str and lib/case that more than one program calls. -/

namespace Dirlist
open Run

variable {s : Bytes}

/-! ## Finding a text -/

/-- `byte_findb`, `stralloc_findb` and `str_findb`: where `what` is first, or the length. -/
def byteFindb (what : Bytes) : Bytes → Nat
  | [] => 0
  | c :: s => if what.isPrefixOf (c :: s) then 0 else byteFindb what s + 1

theorem byteFindb_cons {what : Bytes} {c : UInt8} (h : ¬what <+: c :: s) :
    byteFindb what (c :: s) = byteFindb what s + 1 := by
  rw [byteFindb, if_neg fun hpre => h (List.isPrefixOf_iff_prefix.mp hpre)]

theorem byteFindb_here {what : Bytes} (hne : what ≠ []) (h : what <+: s) : byteFindb what s = 0 := by
  cases s with
  | nil => exact absurd (List.prefix_nil.mp h) hne
  | cons c s => rw [byteFindb, if_pos (List.isPrefixOf_iff_prefix.mpr h)]

theorem byteFindb_eq_length {what : Bytes} (hne : what ≠ []) :
    byteFindb what s = s.length ↔ ¬what <:+: s := by
  induction s with
  | nil => simp [byteFindb, List.infix_nil, hne]
  | cons c s ih =>
    rw [List.infix_cons_iff]
    by_cases hpre : what <+: c :: s
    · rw [byteFindb_here hne hpre]
      simp [hpre]
    · rw [byteFindb_cons hpre, List.length_cons, Nat.add_right_cancel_iff, ih]
      simp [hpre]

theorem byteFindb_le (what s : Bytes) : byteFindb what s ≤ s.length := by
  induction s with
  | nil => exact Nat.le_refl 0
  | cons c s ih =>
    rw [byteFindb]
    split
    · exact Nat.zero_le _
    · exact Nat.succ_le_succ ih

/-! ## Blanks and digits -/

def scanWhitenskip (s : Bytes) : Nat := (s.takeWhile isspace).length

def scanNonwhitenskip (s : Bytes) : Nat := (s.takeWhile fun c => !isspace c).length

/-- `scan_ulonglong`: the digits taken and their value, which stays below `2 ^ 64`. -/
def scanUlonglong (l : Nat) : Bytes → Nat × Nat
  | [] => (0, l)
  | c :: s =>
    if isdigit c && 10 * l + (c.toNat - 48) < 2 ^ 64 then
      let (i, l) := scanUlonglong (10 * l + (c.toNat - 48)) s
      (i + 1, l)
    else (0, l)

theorem scanUlonglong_digits (l : Nat) {s : Bytes} (hs : ∀ c ∈ s, isdigit c = true)
    (hr : s.foldl (fun l c => 10 * l + (c.toNat - 48)) l < 2 ^ 64) :
    scanUlonglong l s = (s.length, s.foldl (fun l c => 10 * l + (c.toNat - 48)) l) := by
  induction s generalizing l with
  | nil => rfl
  | cons c s ih =>
    rw [List.foldl_cons] at hr ⊢
    have hlt := Nat.lt_of_le_of_lt (natOf_mono (10 * l + (c.toNat - 48)) s) hr
    have hc := hs c List.mem_cons_self
    rw [scanUlonglong, ih _ (fun d hd => hs d (List.mem_cons_of_mem _ hd)) hr]
    simp only [hc, hlt, decide_true, Bool.and_self, if_true, List.length_cons]

/-- The digits are read up to the first other byte. -/
theorem scanUlonglong_stop (l : Nat) {s e : Bytes} (hs : ∀ c ∈ s, isdigit c = true)
    (he : ∀ c ∈ e.head?, isdigit c = false) : scanUlonglong l (s ++ e) = scanUlonglong l s := by
  induction s generalizing l with
  | nil =>
    cases e with
    | nil => rfl
    | cons c e =>
      have hc : isdigit c = false := he c rfl
      simp [scanUlonglong, hc]
  | cons c s ih =>
    rw [List.cons_append, scanUlonglong, scanUlonglong, ih _ fun d hd => hs d (List.mem_cons_of_mem _ hd)]

theorem scanUlonglong_lt {l : Nat} (hl : l < 2 ^ 64) (s : Bytes) : (scanUlonglong l s).2 < 2 ^ 64 := by
  induction s generalizing l with
  | nil => exact hl
  | cons c s ih =>
    rw [scanUlonglong]
    split_ifs with hc
    · rw [Bool.and_eq_true, decide_eq_true_iff] at hc
      exact ih hc.2
    · exact hl

theorem scanUlonglong_taken {c : UInt8} (hc : isdigit c = true) (s : Bytes) : (scanUlonglong 0 (c :: s)).1 ≠ 0 := by
  have hlt : 10 * 0 + (c.toNat - 48) < 2 ^ 64 := by
    have hbyte := c.toNat_lt
    omega
  rw [scanUlonglong, hc, Bool.true_and, if_pos (decide_eq_true hlt)]
  exact Nat.succ_ne_zero _

theorem foldl_digits (l : Nat) (s : Bytes) :
    s.foldl (fun l c => 10 * l + (c.toNat - 48)) l = l * 10 ^ s.length + natOf s := by
  induction s generalizing l with
  | nil => simp [natOf]
  | cons c s ih =>
    rw [natOf, List.foldl_cons, List.foldl_cons, ih, ih (10 * 0 + _), List.length_cons]
    ring

theorem natOf_cons (c : UInt8) (s : Bytes) : natOf (c :: s) = (c.toNat - 48) * 10 ^ s.length + natOf s := by
  rw [natOf, List.foldl_cons, foldl_digits, Nat.mul_zero, Nat.zero_add]

/-- `scan_uint`, which stops before its value would leave 32 bits. -/
def scanUint (l : Nat) : Bytes → Nat × Nat
  | [] => (0, l)
  | c :: s =>
    if isdigit c && 10 * l + (c.toNat - 48) < 2 ^ 32 then
      let (i, l) := scanUint (10 * l + (c.toNat - 48)) s
      (i + 1, l)
    else (0, l)

/-- The loop of `scan_ushort`: how many digits are taken, and the number. -/
def scanUshortFrom (l : Nat) : Bytes → Nat × Nat
  | [] => (0, l)
  | c :: s =>
    if isdigit c then
      let tmp := l * 10 + (c.toNat - 48)
      if tmp % 2 ^ 16 ≠ tmp then (0, l)
      else
        let (i, l) := scanUshortFrom tmp s
        (i + 1, l)
    else (0, l)

def scanUshort (src : Bytes) (dest : Nat) : Nat × Nat :=
  let (i, l) := scanUshortFrom 0 src
  (i, if i > 0 then l else dest)

theorem scanUshortFrom_digits {ds t : Bytes} (l : Nat) (hds : ∀ c ∈ ds, isdigit c = true)
    (ht : ∀ c ∈ t.head?, isdigit c = false)
    (hsmall : ds.foldl (fun l c => 10 * l + (c.toNat - 48)) l < 2 ^ 16) :
    scanUshortFrom l (ds ++ t) = (ds.length, ds.foldl (fun l c => 10 * l + (c.toNat - 48)) l) := by
  induction ds generalizing l with
  | nil =>
    cases t with
    | nil => rfl
    | cons c t => simp [scanUshortFrom, ht c rfl]
  | cons c ds ih =>
    rw [List.foldl_cons] at hsmall ⊢
    have hc := hds c List.mem_cons_self
    have hlt := Nat.lt_of_le_of_lt (natOf_mono (10 * l + (c.toNat - 48)) ds) hsmall
    have htmp : l * 10 + (c.toNat - 48) = 10 * l + (c.toNat - 48) := by omega
    have hrest := ih _ (fun d hd => hds d (List.mem_cons_of_mem c hd)) hsmall
    rw [List.cons_append, scanUshortFrom, if_pos hc, htmp]
    simp only [Nat.mod_eq_of_lt hlt, ne_eq, not_true_eq_false, if_false, hrest, List.length_cons]

/-! ## Checked accesses -/

/-- `byte_chr` over `len` bytes. -/
def byteChrChecked (c : UInt8) : Nat → Bytes → Exec Nat
  | 0, _ => .ok 0
  | _ + 1, [] => .error .bounds
  | len + 1, b :: s =>
    if b = c then .ok 0
    else do
      let i ← byteChrChecked c len s
      .ok (i + 1)

theorem byteChrChecked_at {c : UInt8} {w : Bytes} (hw : c ∉ w) (r : Bytes) {len : Nat}
    (h : w.length < len) : byteChrChecked c len (w ++ c :: r) = .ok w.length := by
  induction w generalizing len with
  | nil =>
    obtain ⟨k, rfl⟩ := Nat.exists_eq_succ_of_ne_zero (Nat.ne_of_gt h)
    rw [List.nil_append, byteChrChecked, if_pos rfl, List.length_nil]
  | cons b w ih =>
    obtain ⟨k, rfl⟩ := Nat.exists_eq_succ_of_ne_zero (Nat.ne_of_gt (Nat.zero_lt_of_lt h))
    obtain ⟨hb, hw⟩ : b ≠ c ∧ c ∉ w := by simpa [eq_comm] using hw
    rw [List.cons_append, byteChrChecked, if_neg hb, ih hw (Nat.lt_of_succ_lt_succ h), ok_bind,
      List.length_cons]

theorem byteChrChecked_free {c : UInt8} {w : Bytes} (hw : c ∉ w) :
    byteChrChecked c w.length w = .ok w.length := by
  induction w with
  | nil => rfl
  | cons b w ih =>
    obtain ⟨hb, hw⟩ : b ≠ c ∧ c ∉ w := by simpa [eq_comm] using hw
    rw [List.length_cons, byteChrChecked, if_neg hb, ih hw, ok_bind]

theorem byteChrChecked_cons {c b : UInt8} (hb : b ≠ c) (len : Nat) (s : Bytes) :
    byteChrChecked c (len + 1) (b :: s) = (byteChrChecked c len s).map (· + 1) := by
  rw [byteChrChecked, if_neg hb]
  cases byteChrChecked c len s <;> rfl

/-- With `d` more bytes to look at than there are, the search ends where the byte is there. -/
theorem byteChrChecked_found {c : UInt8} {s : Bytes} {d : Nat} (h : c ∈ s ∨ d = 0) :
    byteChrChecked c (s.length + d) s = .ok (byteChr c s) := by
  induction s with
  | nil =>
    obtain rfl := h.resolve_left List.not_mem_nil
    rfl
  | cons b s ih =>
    rw [List.length_cons, Nat.add_right_comm, byteChr]
    by_cases hb : b = c
    · rw [byteChrChecked, if_pos hb, if_pos hb]
    · rw [byteChrChecked_cons hb, if_neg hb, ih (h.imp_left fun hc => (List.mem_cons.mp hc).resolve_left (Ne.symm hb))]
      rfl

theorem byteChrChecked_past {c : UInt8} {s : Bytes} (h : c ∉ s) (d : Nat) :
    byteChrChecked c (s.length + (d + 1)) s = .error .bounds := by
  induction s with
  | nil =>
    rw [List.length_nil, Nat.zero_add]
    rfl
  | cons b s ih =>
    obtain ⟨hb, hc⟩ := not_or.mp (mt List.mem_cons.mpr h)
    rw [List.length_cons, Nat.add_right_comm, byteChrChecked_cons (Ne.symm hb), ih hc]
    rfl

/-- `scan_whitenskip` over `len` bytes. -/
def scanWhitenskipChecked : Nat → Bytes → Exec Nat
  | 0, _ => .ok 0
  | _ + 1, [] => .error .bounds
  | len + 1, c :: s =>
    if isspace c then do
      let i ← scanWhitenskipChecked len s
      .ok (i + 1)
    else .ok 0

theorem scanWhitenskipChecked_cons {c : UInt8} (hc : isspace c = true) (len : Nat) (s : Bytes) :
    scanWhitenskipChecked (len + 1) (c :: s) = (scanWhitenskipChecked len s).map (· + 1) := by
  rw [scanWhitenskipChecked, if_pos hc]
  cases scanWhitenskipChecked len s <;> rfl

theorem scanWhitenskipChecked_found {s : Bytes} {d : Nat} (h : (∃ c ∈ s, isspace c = false) ∨ d = 0) :
    scanWhitenskipChecked (s.length + d) s = .ok (scanWhitenskip s) := by
  induction s with
  | nil =>
    obtain rfl := h.resolve_left (by simp)
    rfl
  | cons c s ih =>
    rw [List.length_cons, Nat.add_right_comm, scanWhitenskip]
    cases hc : isspace c with
    | false =>
      rw [scanWhitenskipChecked, List.takeWhile_cons, hc]
      rfl
    | true =>
      have hs : (∃ c ∈ s, isspace c = false) ∨ d = 0 := by simpa [hc] using h
      rw [scanWhitenskipChecked_cons hc, ih hs, List.takeWhile_cons, if_pos hc]
      rfl

theorem scanWhitenskipChecked_past {s : Bytes} (h : ∀ c ∈ s, isspace c = true) (d : Nat) :
    scanWhitenskipChecked (s.length + (d + 1)) s = .error .bounds := by
  induction s with
  | nil =>
    rw [List.length_nil, Nat.zero_add]
    rfl
  | cons c s ih =>
    obtain ⟨hc, hs⟩ := List.forall_mem_cons.mp h
    rw [List.length_cons, Nat.add_right_comm, scanWhitenskipChecked_cons hc, ih hs]
    rfl

/-! ## Case -/

/-- A letter in lower case; the subtraction of `'A'` wraps. -/
def caseLower (c : UInt8) : UInt8 :=
  let x := c - 65
  if x ≤ 25 then x + 97 else x + 65

/-- `case_diffb` over `len` bytes of both texts. -/
def caseDiffb : Nat → Bytes → Bytes → Exec Int
  | 0, _, _ => .ok 0
  | len + 1, a :: s, b :: t =>
    if caseLower a ≠ caseLower b then .ok ((caseLower a).toNat - (caseLower b).toNat) else caseDiffb len s t
  | _ + 1, _, _ => .error .bounds

/-- Two texts that differ in the case of letters at most. -/
def SameCase (s t : Bytes) : Prop := s.map caseLower = t.map caseLower

instance (s t : Bytes) : Decidable (SameCase s t) := inferInstanceAs (Decidable (_ = _))

/-- A fact about all bytes, from one about the numbers they are. -/
theorem forall_byte {P : UInt8 → Prop} (h : ∀ n < 256, P (UInt8.ofNat n)) (c : UInt8) : P c := by
  have hc := h c.toNat c.toNat_lt
  rwa [UInt8.ofNat_toNat] at hc

theorem caseLower_eq_ten {c : UInt8} (h : caseLower c = 10) : c = 10 :=
  forall_byte (P := fun c => caseLower c = 10 → c = 10) (by decide +kernel) c h

theorem SameCase.length_eq {s t : Bytes} (h : SameCase s t) : s.length = t.length := by
  simpa using congrArg List.length h

theorem SameCase.symm {s t : Bytes} (h : SameCase s t) : SameCase t s := Eq.symm h

theorem SameCase.not_mem_ten {s t : Bytes} (h : SameCase s t) (ht : 10 ∉ t) : 10 ∉ s := by
  intro hs
  have hmem : (10 : UInt8) ∈ t.map caseLower := h ▸ List.mem_map.mpr ⟨10, hs, rfl⟩
  obtain ⟨c, hc, hlower⟩ := List.mem_map.mp hmem
  exact ht (caseLower_eq_ten hlower ▸ hc)

theorem caseDiffb_spec {n : Nat} {s t : Bytes} (hs : n ≤ s.length) (ht : n ≤ t.length) :
    ∃ r, caseDiffb n s t = .ok r ∧ (r = 0 ↔ SameCase (s.take n) (t.take n)) := by
  induction n generalizing s t with
  | zero => exact ⟨0, by rw [caseDiffb], iff_of_true rfl (by simp [SameCase])⟩
  | succ n ih =>
    cases s with
    | nil => cases hs
    | cons a s =>
      cases t with
      | nil => cases ht
      | cons b t =>
        obtain ⟨r, hr, heq⟩ := ih (Nat.le_of_succ_le_succ hs) (Nat.le_of_succ_le_succ ht)
        rw [caseDiffb]
        by_cases hab : caseLower a = caseLower b
        · rw [if_neg (not_not.mpr hab)]
          refine ⟨r, hr, heq.trans ?_⟩
          simp [SameCase, hab]
        · rw [if_pos hab]
          refine ⟨_, rfl, iff_of_false (fun hzero => hab (UInt8.toNat_inj.mp (by omega))) fun h => hab ?_⟩
          exact (List.cons.inj h).1

end Dirlist
