import Dirlist.Byte
import Dirlist.Lib.Critbit

/-! The bits of a key, as the nodes of lib/cb and lib/cbmap number them: a byte, and a mask that leaves out one
bit of it. Behind its end a key goes on in zeros. -/

namespace Dirlist
open Critbit

/-- `(1 + (c | mask)) >> 8` -/
def branchBit (mask c : UInt8) : Bool := (1 + (c ||| mask).toNat) >>> 8 = 1

/-- All bits but the highest of those that differ. -/
def otherBits (differ : UInt8) : UInt8 :=
  let mask := differ ||| differ >>> 1
  let mask := mask ||| mask >>> 2
  let mask := mask ||| mask >>> 4 -- now, every bit up to the highest is set
  (mask &&& ~~~(mask >>> 1)) ^^^ 0xFF

def keyBit (key : Bytes) (i : Nat) : Bool := (key.getD (i / 8) 0).toNat.testBit (7 - i % 8)

/-- The mask without bit `i`, counted from the highest. -/
def bitMask (i : Nat) : UInt8 := (0x80 >>> UInt8.ofNat i) ^^^ 0xFF

def maskBit (mask : UInt8) : Nat := 7 - (mask ^^^ 0xFF).toNat.log2

def OneBit (mask : UInt8) : Prop := ∃ i < 8, mask = bitMask i

/-- Where the bit stands in a key. -/
def bitPos (byte : Nat) (mask : UInt8) : Nat := 8 * byte + maskBit mask

variable {mask mask' : UInt8} {a b p : Bytes} {n : Nat}

/-! ## Masks -/

theorem maskBit_bitMask : ∀ i < 8, maskBit (bitMask i) = i := by decide

theorem branchBit_bitMask {i : Nat} (hi : i < 8) (c : UInt8) : branchBit (bitMask i) c = c.toNat.testBit (7 - i) := by
  have hall : ∀ i < 8, ∀ n < 256, branchBit (bitMask i) (UInt8.ofNat n) = n.testBit (7 - i) := by decide +kernel
  have h := hall i hi c.toNat c.toNat_lt
  rwa [UInt8.ofNat_toNat] at h

theorem OneBit.lt_eight (h : OneBit mask) : maskBit mask < 8 := by
  obtain ⟨i, hi, rfl⟩ := h
  rwa [maskBit_bitMask i hi]

theorem OneBit.branch (h : OneBit mask) (key : Bytes) (byte : Nat) :
    branchBit mask (key.getD byte 0) = keyBit key (bitPos byte mask) := by
  obtain ⟨i, hi, rfl⟩ := h
  have hdiv : (8 * byte + i) / 8 = byte := by omega
  have hmod : (8 * byte + i) % 8 = i := by omega
  rw [branchBit_bitMask hi, keyBit, bitPos, maskBit_bitMask i hi, hdiv, hmod]

/-- The mask is the smaller, the higher its bit. -/
theorem OneBit.lt_iff (h : OneBit mask) (h' : OneBit mask') : mask < mask' ↔ maskBit mask < maskBit mask' := by
  obtain ⟨i, hi, rfl⟩ := h
  obtain ⟨j, hj, rfl⟩ := h'
  have hall : ∀ i < 8, ∀ j < 8, (bitMask i < bitMask j ↔ i < j) := by decide
  rw [maskBit_bitMask i hi, maskBit_bitMask j hj, hall i hi j hj]

/-- Nodes come in the order of their bytes, and in one byte in that of their masks. -/
theorem OneBit.pos_lt_iff (h : OneBit mask) (h' : OneBit mask') (byte byte' : Nat) :
    bitPos byte mask < bitPos byte' mask' ↔ byte < byte' ∨ byte = byte' ∧ mask < mask' := by
  have hlt := h.lt_eight
  have hlt' := h'.lt_eight
  rw [h.lt_iff h', bitPos, bitPos]
  omega

theorem otherBits_spec {c d : UInt8} (hne : c ≠ d) : OneBit (otherBits (c ^^^ d)) ∧
    (∀ i < maskBit (otherBits (c ^^^ d)), c.toNat.testBit (7 - i) = d.toNat.testBit (7 - i)) ∧
    c.toNat.testBit (7 - maskBit (otherBits (c ^^^ d))) ≠ d.toNat.testBit (7 - maskBit (otherBits (c ^^^ d))) := by
  have hall : ∀ n < 256, n ≠ 0 → otherBits (UInt8.ofNat n) = bitMask (7 - n.log2) := by decide +kernel
  have hxor : (c ^^^ d).toNat = c.toNat ^^^ d.toNat := UInt8.toNat_xor c d
  have hzero : (c ^^^ d).toNat ≠ 0 := by
    rw [hxor]
    exact fun h => hne (UInt8.toNat_inj.mp (Nat.xor_eq_zero_iff.mp h))
  have hlog : (c ^^^ d).toNat.log2 < 8 := (Nat.log2_lt hzero).mpr (c ^^^ d).toNat_lt
  have hmask := hall (c ^^^ d).toNat (c ^^^ d).toNat_lt hzero
  rw [UInt8.ofNat_toNat] at hmask
  have hsub : 7 - (7 - (c ^^^ d).toNat.log2) = (c ^^^ d).toNat.log2 := by omega
  rw [hmask, maskBit_bitMask _ (by omega), hsub]
  refine ⟨⟨_, by omega, rfl⟩, fun i hi => ?_, ?_⟩
  · have hbit : (c ^^^ d).toNat.testBit (7 - i) = false :=
      Nat.testBit_lt_two_pow ((Nat.log2_lt hzero).mp (by omega))
    rw [hxor, Nat.testBit_xor] at hbit
    simpa using hbit
  · have hbit := Nat.testBit_log2 hzero
    rw [hxor, Nat.testBit_xor, ← hxor] at hbit
    simpa using hbit

/-! ## Bytes -/

theorem keyBit_byte (key : Bytes) (j : Nat) {i : Nat} (hi : i < 8) :
    keyBit key (8 * j + i) = (key.getD j 0).toNat.testBit (7 - i) := by
  have hdiv : (8 * j + i) / 8 = j := by omega
  have hmod : (8 * j + i) % 8 = i := by omega
  rw [keyBit, hdiv, hmod]

theorem testBit_high (c : UInt8) {j : Nat} (hj : ¬j < 8) : c.toNat.testBit j = false :=
  Nat.testBit_lt_two_pow (Nat.lt_of_lt_of_le c.toNat_lt (Nat.pow_le_pow_right (by decide) (Nat.le_of_not_lt hj)))

theorem agree_bytes : Agree (8 * n) (keyBit a) (keyBit b) ↔ ∀ i < n, a.getD i 0 = b.getD i 0 := by
  constructor
  · intro h i hi
    refine UInt8.toNat_inj.mp (Nat.eq_of_testBit_eq fun j => ?_)
    by_cases hj : j < 8
    · have hbit := h (8 * i + (7 - j)) (by omega)
      rw [keyBit_byte _ _ (by omega), keyBit_byte _ _ (by omega)] at hbit
      have hsub : 7 - (7 - j) = j := by omega
      rwa [hsub] at hbit
    · rw [testBit_high _ hj, testBit_high _ hj]
  · intro h i hi
    rw [keyBit, keyBit, h (i / 8) (by omega)]

/-- Where two keys differ first. -/
theorem agree_otherBits (h : ∀ i < n, a.getD i 0 = b.getD i 0) (hne : a.getD n 0 ≠ b.getD n 0) :
    let pos := bitPos n (otherBits (a.getD n 0 ^^^ b.getD n 0))
    Agree pos (keyBit a) (keyBit b) ∧ keyBit a pos ≠ keyBit b pos := by
  obtain ⟨hone, hsame, hdiff⟩ := otherBits_spec hne
  intro pos
  refine ⟨fun i hi => ?_, ?_⟩
  · by_cases hin : i < 8 * n
    · exact agree_bytes.mpr h i hin
    · obtain ⟨k, rfl⟩ := Nat.exists_eq_add_of_le (Nat.le_of_not_lt hin)
      have hk : k < maskBit (otherBits (a.getD n 0 ^^^ b.getD n 0)) := Nat.lt_of_add_lt_add_left hi
      have hk8 := Nat.lt_trans hk hone.lt_eight
      rw [keyBit_byte _ _ hk8, keyBit_byte _ _ hk8, hsame k hk]
  · simpa only [pos, bitPos, keyBit_byte _ _ hone.lt_eight] using hdiff

theorem prefix_iff_bytes : p <+: a ↔ p.length ≤ a.length ∧ ∀ i < p.length, a.getD i 0 = p.getD i 0 := by
  constructor
  · rintro ⟨s, rfl⟩
    refine ⟨by simp, fun i hi => ?_⟩
    simp [List.getD_eq_getElem?_getD, List.getElem?_append_left hi]
  · rintro ⟨hle, h⟩
    rw [List.prefix_iff_eq_take]
    refine List.ext_getElem (by simp [hle]) fun i hi hi' => ?_
    have hia : i < a.length := Nat.lt_of_lt_of_le hi hle
    have hbyte := h i hi
    rw [List.getD_eq_getElem _ _ hia, List.getD_eq_getElem _ _ hi] at hbyte
    rw [List.getElem_take, hbyte]

theorem agree_begin (hle : p.length ≤ a.length) : Agree (8 * p.length) (keyBit a) (keyBit p) ↔ p <+: a := by
  rw [prefix_iff_bytes, agree_bytes]
  exact ⟨fun h => ⟨hle, h⟩, fun h => h.2⟩

/-- Two keys with the same bits differ in zeros at the end, if at all. -/
theorem keyBit_eq (h : keyBit a = keyBit b) : a <+: b ∨ b <+: a := by
  rcases Nat.le_total a.length b.length with hle | hle
  · exact .inl ((agree_begin hle).mp fun i _ => congrFun h.symm i)
  · exact .inr ((agree_begin hle).mp fun i _ => congrFun h i)

theorem lt_of_getD {i : Nat} (h : ∀ j < i, a.getD j 0 = b.getD j 0) (hlt : a.getD i 0 < b.getD i 0) : a < b := by
  induction i generalizing a b with
  | zero =>
    cases b with
    | nil => exact (UInt8.not_lt_zero hlt).elim
    | cons d b =>
      cases a with
      | nil => exact List.nil_lt_cons d b
      | cons c a => exact List.cons_lt_cons_iff.mpr (.inl hlt)
  | succ i ih =>
    cases b with
    | nil => exact (UInt8.not_lt_zero hlt).elim
    | cons d b =>
      cases a with
      | nil => exact List.nil_lt_cons d b
      | cons c a =>
        exact List.cons_lt_cons_iff.mpr (.inr ⟨h 0 (Nat.succ_pos i),
          ih (fun j hj => h (j + 1) (Nat.succ_lt_succ hj)) hlt⟩)

/-- The order of the leaves is that of the bytes. -/
theorem before_lt (h : Before (keyBit a) (keyBit b)) : a < b := by
  obtain ⟨n, hagree, ha, hb⟩ := h
  have hbytes : ∀ i < n / 8, a.getD i 0 = b.getD i 0 := agree_bytes.mp (hagree.mono (by omega))
  refine lt_of_getD hbytes (UInt8.lt_iff_toNat_lt.mpr (Nat.lt_of_testBit (7 - n % 8) ha hb fun j hj => ?_))
  by_cases hj8 : j < 8
  · have hbit := hagree (8 * (n / 8) + (7 - j)) (by omega)
    rw [keyBit_byte _ _ (by omega), keyBit_byte _ _ (by omega)] at hbit
    have hsub : 7 - (7 - j) = j := by omega
    rwa [hsub] at hbit
  · rw [testBit_high _ hj8, testBit_high _ hj8]

/-- `byte_diff` over the first of two lengths. -/
theorem byteDiff_begin (hle : p.length ≤ a.length) : byteDiff p a = 0 ↔ p <+: a := by
  induction p generalizing a with
  | nil => simp [byteDiff]
  | cons c p ih =>
    cases a with
    | nil => cases hle
    | cons d a =>
      rw [byteDiff, List.cons_prefix_cons, ← ih (Nat.le_of_succ_le_succ hle)]
      by_cases hcd : c = d
      · simp [hcd]
      · have hne : (c.toNat : Int) - d.toNat ≠ 0 := fun h => hcd (UInt8.toNat_inj.mp (by omega))
        simp [hcd, hne]

end Dirlist
