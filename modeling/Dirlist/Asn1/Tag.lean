import Dirlist.Asn1.Defs

/-! What `scan_asn1dertag` takes is exactly what `fmt_asn1dertag` writes. -/

namespace Dirlist

variable {c : UInt8} {l : UInt64} {n v w : Nat} {src rest : Bytes}

/-- All but the last byte of a tag: `w` in sevens of bits, the high bit of each byte set. -/
def highBytes (w : Nat) : Bytes := if w = 0 then [] else highBytes (w / 128) ++ [UInt8.ofNat (128 + w % 128)]
termination_by w
decreasing_by omega

/-- A tag as numbers say it. -/
def tagBytes (l : Nat) : Bytes := highBytes (l / 128) ++ [UInt8.ofNat (l % 128)]

theorem highBytes_zero : highBytes 0 = [] := by
  rw [highBytes, if_pos rfl]

theorem highBytes_pos (hw : w ≠ 0) : highBytes w = highBytes (w / 128) ++ [UInt8.ofNat (128 + w % 128)] := by
  rw [highBytes, if_neg hw]

theorem toNat_byte (hn : n < 256) : (UInt8.ofNat n).toNat = n := UInt8.toNat_ofNat_of_lt' hn

/-! ## Writing -/

theorem low_seven (l : UInt64) : (l &&& 0x7f).toUInt8 = UInt8.ofNat (l.toNat % 128) := by
  have hmask : (0x7f : UInt64).toNat = 2 ^ 7 - 1 := rfl
  apply UInt8.toNat_inj.mp
  rw [UInt64.toNat_toUInt8, UInt64.toNat_and, hmask, Nat.and_two_pow_sub_one_eq_mod, UInt8.toNat_ofNat']

theorem high_seven (hn : n < 128) : (0x80 : UInt8) ||| UInt8.ofNat n = UInt8.ofNat (128 + n) := by
  have hall : ∀ n < 128, (0x80 : UInt8) ||| UInt8.ofNat n = UInt8.ofNat (128 + n) := by decide +kernel
  exact hall n hn

theorem asn1tagByte_zero (l : UInt64) : asn1tagByte 0 l = UInt8.ofNat (l.toNat % 128) := by
  rw [asn1tagByte, if_neg (not_not.mpr rfl), low_seven, UInt8.zero_or]

theorem asn1tagByte_succ (i : Nat) (l : UInt64) : asn1tagByte (i + 1) l = UInt8.ofNat (128 + l.toNat % 128) := by
  rw [asn1tagByte, if_pos (Nat.succ_ne_zero i), low_seven, high_seven (Nat.mod_lt _ (by decide))]

theorem asn1tagCount_eq (l : UInt64) : asn1tagCount l = (highBytes (l.toNat / 128)).length + 1 := by
  induction hl : l.toNat using Nat.strongRecOn generalizing l with
  | ind m ih =>
    subst hl
    rw [asn1tagCount]
    by_cases hbig : l > 0x7f
    · have hbig' : 0x7f < l.toNat := hbig
      have hne : l.toNat / 128 ≠ 0 := by omega
      rw [if_pos hbig, ih _ (by rw [shiftRight_seven]; omega) (l >>> 7) rfl, shiftRight_seven, highBytes_pos hne,
        List.length_append, List.length_singleton]
    · have hsmall : ¬0x7f < l.toNat := hbig
      have hzero : l.toNat / 128 = 0 := by omega
      rw [if_neg hbig, hzero, highBytes_zero]
      rfl

theorem asn1tagFill_high (i : Nat) (w : UInt64) (dest : Bytes) :
    asn1tagFill (highBytes w.toNat).length (i + 1) w dest = highBytes w.toNat ++ dest := by
  induction hw : w.toNat using Nat.strongRecOn generalizing w i dest with
  | ind m ih =>
    subst hw
    by_cases hzero : w.toNat = 0
    · rw [hzero, highBytes_zero]
      rfl
    · rw [highBytes_pos hzero, List.length_append, List.length_singleton, asn1tagFill, asn1tagByte_succ,
        ← shiftRight_seven, ih _ (by rw [shiftRight_seven]; omega) (i + 1) (w >>> 7) _ rfl, List.append_assoc,
        List.singleton_append]

theorem fmtAsn1dertag_eq (l : UInt64) : fmtAsn1dertag l = tagBytes l.toNat := by
  rw [fmtAsn1dertag, asn1tagCount_eq, asn1tagFill, asn1tagByte_zero, ← shiftRight_seven, asn1tagFill_high,
    shiftRight_seven, tagBytes]

/-- Without `dest` the same number of bytes is counted. -/
theorem fmtAsn1dertag_length (l : UInt64) : (fmtAsn1dertag l).length = asn1tagCount l := by
  rw [fmtAsn1dertag_eq, asn1tagCount_eq, tagBytes, List.length_append, List.length_singleton]

/-! ## Reading -/

theorem high_bit (c : UInt8) : c &&& 0x80 = 0 ↔ c.toNat < 128 := by
  have hall : ∀ n < 256, UInt8.ofNat n &&& 0x80 = 0 ↔ n < 128 := by decide +kernel
  have hc := hall c.toNat c.toNat_lt
  rwa [UInt8.ofNat_toNat] at hc

theorem top_seven (l : UInt64) : l >>> 57 ≠ 0 ↔ 2 ^ 57 ≤ l.toNat := by
  have hshift : (l >>> 57).toNat = l.toNat / 2 ^ 57 := by
    rw [UInt64.toNat_shiftRight]
    exact Nat.shiftRight_eq_div_pow l.toNat 57
  rw [ne_eq, ← UInt64.toNat_inj, hshift]
  have hzero : (0 : UInt64).toNat = 0 := rfl
  rw [hzero]
  omega

theorem push_seven (hl : l.toNat < 2 ^ 57) (c : UInt8) :
    ((l <<< 7) ||| (c &&& 0x7f).toUInt64).toNat = l.toNat * 128 + c.toNat % 128 := by
  have hmask : (0x7f : UInt8).toNat = 2 ^ 7 - 1 := rfl
  have hlow : (c &&& 0x7f).toUInt64.toNat = c.toNat % 2 ^ 7 := by
    rw [UInt8.toNat_toUInt64, UInt8.toNat_and, hmask, Nat.and_two_pow_sub_one_eq_mod]
  have hhigh : (l <<< 7).toNat = l.toNat <<< 7 := by
    rw [UInt64.toNat_shiftLeft]
    have hseven : (7 : UInt64).toNat % 64 = 7 := rfl
    rw [hseven, Nat.shiftLeft_eq]
    exact Nat.mod_eq_of_lt (by omega)
  rw [UInt64.toNat_or, hlow, hhigh, ← Nat.shiftLeft_add_eq_or_of_lt (Nat.mod_lt _ (by decide)), Nat.shiftLeft_eq]

theorem asn1tagRead_last (hl : l.toNat < 2 ^ 57) (hc : c.toNat < 128) (n : Nat) (src : Bytes) :
    ∃ r : UInt64, r.toNat = l.toNat * 128 + c.toNat ∧ asn1tagRead n l (c :: src) = some (n + 1, r) := by
  have hpush := push_seven hl c
  rw [Nat.mod_eq_of_lt hc] at hpush
  refine ⟨_, hpush, ?_⟩
  rw [asn1tagRead, if_neg fun h => absurd hl (Nat.not_lt.mpr ((top_seven l).mp h))]
  exact if_pos ((high_bit c).mpr hc)

theorem asn1tagRead_more (hl : l.toNat < 2 ^ 57) (hc : 128 ≤ c.toNat) (n : Nat) (src : Bytes) :
    ∃ r : UInt64, r.toNat = l.toNat * 128 + c.toNat % 128 ∧ asn1tagRead n l (c :: src) = asn1tagRead (n + 1) r src := by
  refine ⟨_, push_seven hl c, ?_⟩
  rw [asn1tagRead, if_neg fun h => absurd hl (Nat.not_lt.mpr ((top_seven l).mp h))]
  exact if_neg fun h => absurd ((high_bit c).mp h) (Nat.not_lt.mpr hc)

/-- A byte with its high bit set, behind those of `l`. -/
theorem highBytes_push {r : Nat} (hc : 128 ≤ c.toNat) (hr : r = v * 128 + c.toNat % 128) (hne : r ≠ 0) :
    highBytes r = highBytes v ++ [c] := by
  have hbound := c.toNat_lt
  have hdiv : r / 128 = v := by omega
  have hmod : 128 + r % 128 = c.toNat := by omega
  rw [highBytes_pos hne, hdiv, hmod, UInt8.ofNat_toNat]

/-- What is taken behind the bytes of `l` is the rest of a tag. -/
theorem asn1tagRead_sound {r : UInt64} {m : Nat} (hfirst : l.toNat ≠ 0 ∨ src.head? ≠ some 0x80)
    (hrun : asn1tagRead n l src = some (m, r)) :
    ∃ used rest, src = used ++ rest ∧ highBytes l.toNat ++ used = tagBytes r.toNat ∧ m = n + used.length := by
  induction src generalizing n l with
  | nil => cases hrun
  | cons c src ih =>
    by_cases hl : l.toNat < 2 ^ 57
    · by_cases hc : c.toNat < 128
      · obtain ⟨r', hr', hread⟩ := asn1tagRead_last hl hc n src
        rw [hread] at hrun
        obtain ⟨rfl, rfl⟩ := Prod.mk.inj (Option.some.inj hrun)
        have hdiv : r'.toNat / 128 = l.toNat := by omega
        have hmod : r'.toNat % 128 = c.toNat := by omega
        refine ⟨[c], src, rfl, ?_, rfl⟩
        rw [tagBytes, hdiv, hmod, UInt8.ofNat_toNat]
      · have hc : 128 ≤ c.toNat := Nat.not_lt.mp hc
        obtain ⟨l', hl', hread⟩ := asn1tagRead_more hl hc n src
        have hne : l'.toNat ≠ 0 := by
          rcases hfirst with hne | hne
          · omega
          · have hc' : c.toNat ≠ 128 := fun h => hne (congrArg some (UInt8.toNat_inj.mp h))
            have hbound := c.toNat_lt
            omega
        rw [hread] at hrun
        obtain ⟨used, rest, rfl, htag, rfl⟩ := ih (.inl hne) hrun
        refine ⟨c :: used, rest, rfl, ?_, ?_⟩
        · rw [← htag, highBytes_push hc hl' hne, List.append_assoc, List.singleton_append]
        · rw [List.length_cons, Nat.add_right_comm, Nat.add_assoc]
    · have hfull := (top_seven l).mpr (Nat.not_lt.mp hl)
      rw [asn1tagRead, if_pos hfull] at hrun
      cases hrun

theorem asn1tagRead_high (w : UInt64) (hw : w.toNat < 2 ^ 57) (src : Bytes) :
    asn1tagRead 0 0 (highBytes w.toNat ++ src) = asn1tagRead (highBytes w.toNat).length w src := by
  induction hm : w.toNat using Nat.strongRecOn generalizing w src with
  | ind m ih =>
    subst hm
    by_cases hzero : w.toNat = 0
    · obtain rfl : w = 0 := UInt64.toNat_inj.mp hzero
      rw [hzero, highBytes_zero]
      rfl
    · have hdiv := shiftRight_seven w
      have hc : (UInt8.ofNat (128 + w.toNat % 128)).toNat = 128 + w.toNat % 128 :=
        toNat_byte (by omega)
      obtain ⟨r, hr, hread⟩ := asn1tagRead_more (l := w >>> 7) (c := UInt8.ofNat (128 + w.toNat % 128))
        (by omega) (by omega) (highBytes (w >>> 7).toNat).length src
      have hrw : r = w := UInt64.toNat_inj.mp (by omega)
      rw [highBytes_pos hzero, List.append_assoc, ← hdiv, ih _ (by omega) (w >>> 7) (by omega) _ rfl,
        List.singleton_append, hread, hrw, List.length_append, List.length_singleton]

theorem head_ne_high (hn : n < 256) (hne : n ≠ 128) (src : Bytes) :
    ([] ++ ([UInt8.ofNat n] ++ src)).head? ≠ some 0x80 := by
  intro h
  have hnat := congrArg UInt8.toNat (Option.some.inj h)
  rw [toNat_byte hn] at hnat
  exact hne hnat

theorem highBytes_head (hw : w ≠ 0) (src : Bytes) : (highBytes w ++ src).head? ≠ some 0x80 := by
  induction hm : w using Nat.strongRecOn generalizing w src with
  | ind m ih =>
    subst hm
    rw [highBytes_pos hw, List.append_assoc]
    by_cases hdiv : w / 128 = 0
    · rw [hdiv, highBytes_zero]
      exact head_ne_high (by omega) (by omega) src
    · exact ih _ (by omega) hdiv _ rfl

theorem tagBytes_head (l : Nat) (src : Bytes) : (tagBytes l ++ src).head? ≠ some 0x80 := by
  rw [tagBytes, List.append_assoc]
  by_cases hdiv : l / 128 = 0
  · rw [hdiv, highBytes_zero]
    exact head_ne_high (by omega) (by omega) src
  · exact highBytes_head hdiv _

theorem tagBytes_ne_nil (l : Nat) (src : Bytes) : tagBytes l ++ src ≠ [] := by
  rw [tagBytes, List.append_assoc]
  exact List.append_ne_nil_of_right_ne_nil _ (List.cons_ne_nil _ _)

theorem scanAsn1dertag_fmt (l : UInt64) (rest : Bytes) :
    scanAsn1dertag (fmtAsn1dertag l ++ rest) = some ((fmtAsn1dertag l).length, l) := by
  have hbound := l.toNat_lt
  have hdiv := shiftRight_seven l
  have hc : (UInt8.ofNat (l.toNat % 128)).toNat = l.toNat % 128 := toNat_byte (by omega)
  obtain ⟨r, hr, hread⟩ := asn1tagRead_last (l := l >>> 7) (c := UInt8.ofNat (l.toNat % 128)) (by omega) (by omega)
    (highBytes (l >>> 7).toNat).length rest
  have hrl : r = l := UInt64.toNat_inj.mp (by omega)
  rw [fmtAsn1dertag_eq, scanAsn1dertag,
    if_neg (not_or.mpr ⟨tagBytes_ne_nil l.toNat rest, tagBytes_head l.toNat rest⟩), tagBytes, List.append_assoc, ← hdiv,
    asn1tagRead_high _ (by omega), List.singleton_append, hread, hrl, List.length_append, List.length_singleton]

/-- The scanner takes what the formatter writes, with anything behind it, and nothing else. -/
theorem scanAsn1dertag_iff (src : Bytes) (n : Nat) (l : UInt64) :
    scanAsn1dertag src = some (n, l) ↔ ∃ rest, src = fmtAsn1dertag l ++ rest ∧ n = (fmtAsn1dertag l).length := by
  constructor
  · intro hscan
    rw [scanAsn1dertag] at hscan
    split at hscan
    · cases hscan
    · rename_i hfirst
      obtain ⟨used, rest, rfl, htag, rfl⟩ := asn1tagRead_sound (.inr (not_or.mp hfirst).2) hscan
      have hzero : (0 : UInt64).toNat = 0 := rfl
      rw [hzero, highBytes_zero, List.nil_append, ← fmtAsn1dertag_eq] at htag
      exact ⟨rest, by rw [htag], by rw [htag, Nat.zero_add]⟩
  · rintro ⟨rest, rfl, rfl⟩
    exact scanAsn1dertag_fmt l rest

end Dirlist
