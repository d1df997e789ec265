import Dirlist.Asn1.Tag

/-! What `scan_asn1derlengthvalue` takes is what `fmt_asn1derlength` writes, and the two bytes 0x81 0x7f. -/

namespace Dirlist
open Run

variable {b c : UInt8} {l : UInt64} {bs cs src rest : Bytes} {i j k n v : Nat}

/-- What bytes say, the first of them the highest. -/
def bigEndian (bs : Bytes) : Nat := bs.foldl (fun v b => v * 256 + b.toNat) 0

theorem foldl_bigEndian (bs : Bytes) (v : Nat) :
    bs.foldl (fun v b => v * 256 + b.toNat) v = v * 256 ^ bs.length + bigEndian bs := by
  induction bs using List.reverseRecOn with
  | nil => rw [List.foldl_nil, List.length_nil, Nat.pow_zero, Nat.mul_one, bigEndian, List.foldl_nil, Nat.add_zero]
  | append_singleton bs b ih =>
    rw [bigEndian, List.foldl_append, List.foldl_append, ih, ← bigEndian, List.length_append, List.length_singleton,
      Nat.pow_succ]
    simp only [List.foldl_cons, List.foldl_nil]
    ring

theorem bigEndian_cons (b : UInt8) (bs : Bytes) :
    bigEndian (b :: bs) = b.toNat * 256 ^ bs.length + bigEndian bs := by
  rw [bigEndian, List.foldl_cons, Nat.zero_mul, Nat.zero_add, foldl_bigEndian]

theorem bigEndian_lt (bs : Bytes) : bigEndian bs < 256 ^ bs.length := by
  induction bs with
  | nil => exact Nat.one_pos
  | cons b bs ih =>
    have hb : b.toNat + 1 ≤ 256 := b.toNat_lt
    calc bigEndian (b :: bs) = b.toNat * 256 ^ bs.length + bigEndian bs := bigEndian_cons b bs
      _ < b.toNat * 256 ^ bs.length + 256 ^ bs.length := Nat.add_lt_add_left ih _
      _ = (b.toNat + 1) * 256 ^ bs.length := (Nat.succ_mul _ _).symm
      _ ≤ 256 * 256 ^ bs.length := Nat.mul_le_mul_right _ hb
      _ = 256 ^ (b :: bs).length := by rw [List.length_cons, Nat.pow_succ, Nat.mul_comm]

theorem bigEndian_inj (hlength : bs.length = cs.length) (heq : bigEndian bs = bigEndian cs) : bs = cs := by
  induction bs generalizing cs with
  | nil => exact (List.length_eq_zero_iff.mp hlength.symm).symm
  | cons b bs ih =>
    cases cs with
    | nil => cases hlength
    | cons c cs =>
      have hlen : bs.length = cs.length := Nat.succ.inj hlength
      rw [bigEndian_cons, bigEndian_cons, hlen] at heq
      have hb := bigEndian_lt bs
      have hc := bigEndian_lt cs
      rw [hlen] at hb
      have hpos := Nat.pos_of_ne_zero (Nat.ne_zero_of_lt hb)
      have hdiv := congrArg (· / 256 ^ cs.length) heq
      have hmod := congrArg (· % 256 ^ cs.length) heq
      simp only [Nat.mul_add_mod', Nat.mod_eq_of_lt hb, Nat.mod_eq_of_lt hc] at hmod
      rw [hmod] at heq
      have hmul := Nat.add_right_cancel heq
      have hbc : b = c := UInt8.toNat_inj.mp (Nat.eq_of_mul_eq_mul_right hpos hmul)
      rw [hbc, ih hlen hmod]

/-! ## Writing -/

theorem shiftRight_bytes (hi : i < 8) (l : UInt64) : (l >>> (UInt64.ofNat (i * 8))).toNat = l.toNat / 256 ^ i := by
  have hshift : (UInt64.ofNat (i * 8)).toNat = i * 8 := by
    rw [UInt64.toNat_ofNat']
    omega
  have hmod : i * 8 % 64 = i * 8 := by omega
  have hpow : 2 ^ (i * 8) = 256 ^ i := by
    rw [Nat.mul_comm, Nat.pow_mul]
  rw [UInt64.toNat_shiftRight, hshift, hmod, Nat.shiftRight_eq_div_pow, hpow]

theorem asn1lengthBytes_length (j : Nat) (l : UInt64) : (asn1lengthBytes j l).length = j := by
  induction j with
  | zero => rfl
  | succ j ih => rw [asn1lengthBytes, List.length_cons, ih]

theorem asn1lengthBytes_value (hj : j ≤ 8) (l : UInt64) :
    bigEndian (asn1lengthBytes j l) = l.toNat % 256 ^ j := by
  induction j with
  | zero => exact (Nat.mod_one _).symm
  | succ j ih =>
    have hmask : (0xff : UInt64).toNat = 2 ^ 8 - 1 := rfl
    have hbyte : ((l >>> (UInt64.ofNat (j * 8))) &&& 0xff).toUInt8.toNat = l.toNat / 256 ^ j % 256 := by
      rw [UInt64.toNat_toUInt8, UInt64.toNat_and, hmask, Nat.and_two_pow_sub_one_eq_mod, shiftRight_bytes hj]
      exact Nat.mod_mod _ _
    rw [asn1lengthBytes, bigEndian_cons, asn1lengthBytes_length, ih (Nat.le_of_succ_le hj), hbyte, Nat.pow_succ,
      Nat.mod_mul, Nat.mul_comm, Nat.add_comm]

/-- As many bytes as the value needs. -/
theorem asn1lengthCount_spec (k i : Nat) (hki : k + i = 8) (hlow : i = 1 ∨ 256 ^ (i - 1) ≤ l.toNat) (hi : 1 ≤ i) :
    ∃ c, asn1lengthCount k i l = c ∧ 1 ≤ c ∧ c ≤ 8 ∧ l.toNat < 256 ^ c ∧ (c = 1 ∨ 256 ^ (c - 1) ≤ l.toNat) := by
  induction k generalizing i with
  | zero =>
    obtain rfl : i = 8 := by omega
    exact ⟨8, rfl, by decide, Nat.le_refl 8, l.toNat_lt, hlow⟩
  | succ k ih =>
    have hshift := shiftRight_bytes (i := i) (by omega) l
    have hzero : l >>> (UInt64.ofNat (i * 8)) = 0 ↔ l.toNat < 256 ^ i := by
      have hnat : (0 : UInt64).toNat = 0 := rfl
      rw [← UInt64.toNat_inj, hshift, hnat, Nat.div_eq_zero_iff_lt (Nat.pow_pos (by decide))]
    by_cases hlt : l.toNat < 256 ^ i
    · exact ⟨i, if_pos (hzero.mpr hlt), hi, by omega, hlt, hlow⟩
    · obtain ⟨c, hc, hspec⟩ := ih (i + 1) (by omega) (.inr (Nat.not_lt.mp hlt)) (by omega)
      exact ⟨c, by rw [asn1lengthCount, if_neg fun h => hlt (hzero.mp h), hc], hspec⟩

theorem asn1lengthCount_unique {d : Nat} (hi : v < 256 ^ i) (hd : v < 256 ^ d) (hi' : i = 1 ∨ 256 ^ (i - 1) ≤ v)
    (hd' : d = 1 ∨ 256 ^ (d - 1) ≤ v) (hpos : 1 ≤ i) (hpos' : 1 ≤ d) : i = d := by
  have hle {i d : Nat} (hi : v < 256 ^ i) (hd' : d = 1 ∨ 256 ^ (d - 1) ≤ v) (hpos : 1 ≤ i) : d ≤ i := by
    rcases hd' with rfl | hd'
    · exact hpos
    · have hlt := (Nat.pow_lt_pow_iff_right (by decide)).mp (Nat.lt_of_le_of_lt hd' hi)
      omega
  exact Nat.le_antisymm (hle hd hi' hpos') (hle hi hd' hpos)

theorem fmtAsn1derlength_short (hl : l.toNat < 128) : fmtAsn1derlength l = [UInt8.ofNat l.toNat] := by
  have hlt : l < 128 := UInt64.lt_iff_toNat_lt.mpr hl
  rw [fmtAsn1derlength, if_pos hlt, low_seven, Nat.mod_eq_of_lt hl]

theorem fmtAsn1derlength_long (hl : 128 ≤ l.toNat) : ∃ c, fmtAsn1derlength l =
    UInt8.ofNat (128 + c) :: asn1lengthBytes c l ∧ 1 ≤ c ∧ c ≤ 8 ∧ l.toNat < 256 ^ c ∧
      (c = 1 ∨ 256 ^ (c - 1) ≤ l.toNat) := by
  have hlt : ¬l < 128 := fun h => absurd (UInt64.lt_iff_toNat_lt.mp h) (Nat.not_lt.mpr hl)
  obtain ⟨c, hc, hspec⟩ := asn1lengthCount_spec (l := l) 7 1 rfl (.inl rfl) (Nat.le_refl 1)
  refine ⟨c, ?_, hspec⟩
  rw [fmtAsn1derlength, if_neg hlt, hc]

/-! ## Reading -/

theorem foldl_uint64 (bs : Bytes) (hl : l.toNat < 256 ^ k) (hk : k + bs.length ≤ 8) :
    (bs.foldl (fun l b => l * 256 + b.toUInt64) l).toNat = bs.foldl (fun v b => v * 256 + b.toNat) l.toNat := by
  induction bs generalizing l k with
  | nil => rfl
  | cons b bs ih =>
    rw [List.length_cons] at hk
    have hb : b.toNat < 256 := b.toNat_lt
    have hpow : 256 ^ (k + 1) ≤ 256 ^ 8 := Nat.pow_le_pow_right (by decide) (by omega)
    have hstep : l.toNat * 256 + b.toNat < 256 ^ (k + 1) := by
      rw [Nat.pow_succ]
      omega
    have hpush : (l * 256 + b.toUInt64).toNat = l.toNat * 256 + b.toNat := by
      have h256 : (256 : UInt64).toNat = 256 := rfl
      rw [UInt64.toNat_add, UInt64.toNat_mul, UInt8.toNat_toUInt64, h256]
      omega
    rw [List.foldl_cons, List.foldl_cons, ih (hpush.symm ▸ hstep) (by omega), hpush]

theorem low_bits (c : UInt8) : (c &&& 0x7f).toNat = c.toNat % 128 := by
  have hmask : (0x7f : UInt8).toNat = 2 ^ 7 - 1 := rfl
  rw [UInt8.toNat_and, hmask, Nat.and_two_pow_sub_one_eq_mod]

theorem scanAsn1derlengthvalue_short (hc : c.toNat < 128) (src : Bytes) :
    scanAsn1derlengthvalue (c :: src) = .ok (some (1, c.toUInt64)) := by
  rw [scanAsn1derlengthvalue]
  exact if_pos ((high_bit c).mpr hc)

/-- A length that says how many bytes follow. -/
theorem scanAsn1derlengthvalue_long (hc : 128 < c.toNat) (more : Bytes) (n : Nat) (l : UInt64) :
    scanAsn1derlengthvalue (c :: b :: more) = .ok (some (n, l)) ↔
      b ≠ 0 ∧ c.toNat % 128 ≤ 8 ∧ c.toNat % 128 ≤ more.length + 1 ∧
        l.toNat = bigEndian (b :: more.take (c.toNat % 128 - 1)) ∧ 127 ≤ l.toNat ∧ n = c.toNat % 128 + 1 := by
  have hbound := c.toNat_lt
  have hhigh : ¬c &&& 0x80 = 0 := fun h => absurd ((high_bit c).mp h) (by omega)
  have hscan : scanAsn1derlengthvalue (c :: b :: more) =
      if b = 0 then .ok none
      else if c.toNat % 128 > 8 then .ok none
      else if c.toNat % 128 + 1 > more.length + 2 then .ok none
      else
        if (more.take (c.toNat % 128 - 1)).foldl (fun l b => l * 256 + b.toUInt64) b.toUInt64 < 0x7f then .ok none
        else .ok (some (c.toNat % 128 + 1,
          (more.take (c.toNat % 128 - 1)).foldl (fun l b => l * 256 + b.toUInt64) b.toUInt64)) := by
    have hne : ¬c.toNat % 128 = 0 := by omega
    rw [← low_bits] at hne ⊢
    rw [scanAsn1derlengthvalue]
    exact (if_neg hhigh).trans (if_neg hne)
  rw [hscan]
  by_cases hb : b = 0
  · simp [hb]
  · by_cases h8 : c.toNat % 128 ≤ 8
    · by_cases hlength : c.toNat % 128 ≤ more.length + 1
      · have hbits : b.toUInt64.toNat < 256 ^ 1 := by
          rw [UInt8.toNat_toUInt64]
          exact b.toNat_lt
        have htake : (more.take (c.toNat % 128 - 1)).length ≤ c.toNat % 128 - 1 := List.length_take_le _ _
        have hfold := foldl_uint64 (more.take (c.toNat % 128 - 1)) hbits (by omega)
        have hvalue : bigEndian (b :: more.take (c.toNat % 128 - 1)) =
            ((more.take (c.toNat % 128 - 1)).foldl (fun l b => l * 256 + b.toUInt64) b.toUInt64).toNat := by
          rw [hfold, bigEndian, List.foldl_cons, Nat.zero_mul, Nat.zero_add, UInt8.toNat_toUInt64]
        rw [if_neg hb, if_neg (Nat.not_lt.mpr h8), if_neg (by omega), hvalue]
        generalize (more.take (c.toNat % 128 - 1)).foldl (fun l b => l * 256 + b.toUInt64) b.toUInt64 = r
        have hlt : r < 0x7f ↔ r.toNat < 127 := UInt64.lt_iff_toNat_lt
        by_cases hr : r.toNat < 127
        · rw [if_pos (hlt.mpr hr)]
          exact ⟨nofun, fun h => absurd (h.2.2.2.1 ▸ h.2.2.2.2.1) (Nat.not_le.mpr hr)⟩
        · rw [if_neg fun h => hr (hlt.mp h)]
          constructor
          · intro h
            obtain ⟨rfl, rfl⟩ := Prod.mk.inj (Option.some.inj (Except.ok.inj h))
            exact ⟨hb, h8, hlength, rfl, Nat.not_lt.mp hr, rfl⟩
          · rintro ⟨-, -, -, hl, -, rfl⟩
            rw [UInt64.toNat_inj.mp hl]
      · rw [if_neg hb, if_neg (Nat.not_lt.mpr h8), if_pos (by omega)]
        exact ⟨nofun, fun h => absurd h.2.2.1 hlength⟩
    · rw [if_neg hb, if_pos (Nat.not_le.mp h8)]
      exact ⟨nofun, fun h => absurd h.2.1 h8⟩

theorem scanAsn1derlengthvalue_indefinite (src : Bytes) : scanAsn1derlengthvalue (0x80 :: src) = .ok none := rfl

theorem scanAsn1derlengthvalue_single (hc : 128 < c.toNat) : scanAsn1derlengthvalue [c] = .error .bounds := by
  have hbound := c.toNat_lt
  have hhigh : ¬c &&& 0x80 = 0 := fun h => absurd ((high_bit c).mp h) (by omega)
  have hne : ¬(c &&& 0x7f).toNat = 0 := by
    rw [low_bits]
    omega
  rw [scanAsn1derlengthvalue]
  exact (if_neg hhigh).trans (if_neg hne)

/-- What is read behind a first byte that says `i` is the value's own bytes, but for the one that needs no second
byte. -/
theorem fmtAsn1derlength_of_value (hlength : bs.length = i) (hpos : 1 ≤ i) (hi : i ≤ 8) (hl : l.toNat = bigEndian bs)
    (hlow : i = 1 ∨ 256 ^ (i - 1) ≤ l.toNat) (hlong : 128 ≤ l.toNat) :
    fmtAsn1derlength l = UInt8.ofNat (128 + i) :: bs := by
  have hlt : l.toNat < 256 ^ i := by
    rw [hl, ← hlength]
    exact bigEndian_lt bs
  obtain ⟨c, hfmt, hc, hc8, hclt, hclow⟩ := fmtAsn1derlength_long hlong
  obtain rfl := asn1lengthCount_unique hlt hclt hlow hclow hpos hc
  rw [hfmt]
  congr 1
  refine bigEndian_inj ((asn1lengthBytes_length _ l).trans hlength.symm) ?_
  rw [asn1lengthBytes_value hi, Nat.mod_eq_of_lt hlt, hl]

theorem bigEndian_low {b : UInt8} (hb : b ≠ 0) (bs : Bytes) : 256 ^ bs.length ≤ bigEndian (b :: bs) := by
  have hpos : 1 ≤ b.toNat := Nat.pos_of_ne_zero fun h => hb (UInt8.toNat_inj.mp h)
  calc 256 ^ bs.length = 1 * 256 ^ bs.length := (Nat.one_mul _).symm
    _ ≤ b.toNat * 256 ^ bs.length := Nat.mul_le_mul_right _ hpos
    _ ≤ b.toNat * 256 ^ bs.length + bigEndian bs := Nat.le_add_right _ _
    _ = bigEndian (b :: bs) := (bigEndian_cons b bs).symm

theorem scanAsn1derlengthvalue_fmt (l : UInt64) (rest : Bytes) :
    scanAsn1derlengthvalue (fmtAsn1derlength l ++ rest) = .ok (some ((fmtAsn1derlength l).length, l)) := by
  by_cases hl : l.toNat < 128
  · have hc : (UInt8.ofNat l.toNat).toNat = l.toNat := by
      rw [UInt8.toNat_ofNat']
      omega
    have hvalue : (UInt8.ofNat l.toNat).toUInt64 = l := by
      rw [← UInt64.toNat_inj, UInt8.toNat_toUInt64, hc]
    rw [fmtAsn1derlength_short hl, List.singleton_append, scanAsn1derlengthvalue_short (by omega), hvalue]
    rfl
  · have hlong : 128 ≤ l.toNat := Nat.not_lt.mp hl
    obtain ⟨c, hfmt, hc, hc8, hclt, hclow⟩ := fmtAsn1derlength_long hlong
    have hvalue := asn1lengthBytes_value hc8 l
    have hlength := asn1lengthBytes_length c l
    rw [Nat.mod_eq_of_lt hclt] at hvalue
    rw [hfmt]
    cases hbytes : asn1lengthBytes c l with
    | nil =>
      rw [hbytes] at hlength
      exact absurd hlength.symm (Nat.ne_of_gt hc)
    | cons b bs =>
      rw [hbytes] at hvalue hlength
      rw [List.length_cons] at hlength
      have hfirst : (UInt8.ofNat (128 + c)).toNat = 128 + c := toNat_byte (by omega)
      have hmod : (128 + c) % 128 = c := by omega
      have hb : b ≠ 0 := by
        intro hb
        have hzero : (0 : UInt8).toNat = 0 := rfl
        have hlt := bigEndian_lt bs
        rw [hb, bigEndian_cons, hzero, Nat.zero_mul, Nat.zero_add] at hvalue
        have hbs : bs.length = c - 1 := by omega
        rw [hvalue, hbs] at hlt
        rcases hclow with rfl | hclow
        · have hone : 256 ^ (1 - 1) = 1 := rfl
          omega
        · exact absurd hlt (Nat.not_lt.mpr hclow)
      have htake : (bs ++ rest).take (c - 1) = bs := by
        have hbs : c - 1 = bs.length := by omega
        rw [hbs, List.take_left]
      refine (scanAsn1derlengthvalue_long (by omega) (bs ++ rest) _ l).mpr ?_
      rw [hfirst, hmod, htake, hvalue, List.length_append, List.length_cons, List.length_cons, hlength]
      exact ⟨hb, hc8, by omega, rfl, by omega, rfl⟩

theorem length_seven {b c : UInt8} {more : Bytes} (hi : c.toNat = 128 + i)
    (hl : l.toNat = bigEndian (b :: more.take (i - 1))) (hlow : 256 ^ (i - 1) ≤ l.toNat) (hseven : l.toNat = 127)
    (hpos : 1 ≤ i) : ∃ rest, c :: b :: more = 0x81 :: 0x7f :: rest ∧ i + 1 = 2 ∧ l = 127 := by
  have hone : i = 1 := by
    by_contra hne
    have hpow : 256 ^ 1 ≤ 256 ^ (i - 1) := Nat.pow_le_pow_right (by decide) (by omega)
    omega
  subst hone
  have hb : b.toNat = 127 := by
    rw [hseven, Nat.sub_self, List.take_zero, bigEndian_cons] at hl
    exact ((Nat.mul_one _).symm.trans (Nat.add_zero _).symm).trans hl.symm
  have hb : b = 0x7f := UInt8.toNat_inj.mp hb
  have hc : c = 0x81 := UInt8.toNat_inj.mp hi
  exact ⟨more, by rw [hb, hc], rfl, UInt64.toNat_inj.mp hseven⟩

/-- The scanner takes what the formatter writes, with anything behind it, and otherwise 127 in two bytes only. -/
theorem scanAsn1derlengthvalue_iff (src : Bytes) (n : Nat) (l : UInt64) :
    scanAsn1derlengthvalue src = .ok (some (n, l)) ↔
      (∃ rest, src = fmtAsn1derlength l ++ rest ∧ n = (fmtAsn1derlength l).length) ∨
        (∃ rest, src = 0x81 :: 0x7f :: rest ∧ n = 2 ∧ l = 127) := by
  constructor
  · intro hscan
    cases src with
    | nil => cases hscan
    | cons c src =>
      by_cases hc : c.toNat < 128
      · rw [scanAsn1derlengthvalue_short hc] at hscan
        obtain ⟨rfl, rfl⟩ := Prod.mk.inj (Option.some.inj (Except.ok.inj hscan))
        have hl : c.toUInt64.toNat = c.toNat := UInt8.toNat_toUInt64 c
        refine .inl ⟨src, ?_, ?_⟩
        · rw [fmtAsn1derlength_short (by omega), hl, UInt8.ofNat_toNat, List.singleton_append]
        · rw [fmtAsn1derlength_short (by omega), List.length_singleton]
      · by_cases h128 : c.toNat = 128
        · obtain rfl : c = 0x80 := UInt8.toNat_inj.mp h128
          rw [scanAsn1derlengthvalue_indefinite] at hscan
          cases hscan
        · have hhigh : 128 < c.toNat := by omega
          cases src with
          | nil =>
            rw [scanAsn1derlengthvalue_single hhigh] at hscan
            cases hscan
          | cons b more =>
            obtain ⟨hb, h8, hroom, hl, h127, rfl⟩ := (scanAsn1derlengthvalue_long hhigh more n l).mp hscan
            have hfirst := UInt8.ofNat_toNat (x := c)
            obtain ⟨i, hi, hcount⟩ : ∃ i, c.toNat = 128 + i ∧ c.toNat % 128 = i :=
              ⟨c.toNat - 128, by omega, by have hbound := c.toNat_lt; omega⟩
            rw [hi] at hfirst
            rw [hcount] at h8 hroom hl ⊢
            have htake : (more.take (i - 1)).length = i - 1 := List.length_take_of_le (by omega)
            have hlow := bigEndian_low hb (more.take (i - 1))
            rw [htake, ← hl] at hlow
            by_cases hseven : l.toNat = 127
            · exact .inr (length_seven hi hl hlow hseven (by omega))
            · have hlength : (b :: more.take (i - 1)).length = i := by
                rw [List.length_cons, htake]
                omega
              have hfmt := fmtAsn1derlength_of_value hlength (by omega) h8 hl (.inr hlow) (by omega)
              refine .inl ⟨more.drop (i - 1), ?_, ?_⟩
              · rw [hfmt, hfirst, List.cons_append, List.cons_append, List.take_append_drop]
              · rw [hfmt, List.length_cons, hlength]
  · rintro (⟨rest, rfl, rfl⟩ | ⟨rest, rfl, rfl, rfl⟩)
    · exact scanAsn1derlengthvalue_fmt l rest
    · exact (scanAsn1derlengthvalue_long (by decide) rest 2 127).mpr
        ⟨by decide, by decide, Nat.le_add_left 1 _, rfl, by decide, rfl⟩

end Dirlist
