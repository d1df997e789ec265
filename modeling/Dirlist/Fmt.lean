import Dirlist.Byte

/-! The printing of lib/fmt: digits in a base, what the decimal ones say, and UTF-8. -/

namespace Dirlist

/-- The digits of `fmt_ulonglong` and `fmt_xlong`, with as many rounds as are needed. -/
def fmtFrom (base : Nat) : Nat → Nat → Bytes
  | 0, n => [fmtTohex n]
  | k + 1, n => if n < base then [fmtTohex n] else fmtFrom base k (n / base) ++ [fmtTohex (n % base)]
where
  fmtTohex (n : Nat) : UInt8 := UInt8.ofNat (if n ≥ 10 then n - 10 + 97 else n + 48)

def fmtUlonglong (n : Nat) : Bytes := fmtFrom 10 n n

def fmtUlong (n : Nat) : Bytes := fmtFrom 10 n n

def fmtXlong (n : Nat) : Bytes := fmtFrom 16 n n

/-- The bytes of `fmt_utf8` behind the first one. -/
def utf8Tail (n : Nat) : Nat → Bytes
  | 0 => []
  | k + 1 => (0x80 ||| UInt8.ofNat ((n >>> (6 * k)) &&& 0x3f)) :: utf8Tail n k

/-- The loop of `fmt_utf8`: `i` is the largest value that `j - 1` bytes behind the first one hold. -/
def utf8From (n : Nat) : Nat → Nat → Nat → Bytes
  | 0, _, _ => []
  | rounds + 1, i, j =>
    if i < 0x7fffffff then
      if i ≥ n then
        -- `(char)0xc0` is negative, so the shift fills with ones
        (UInt8.ofBitVec ((0xc0#8).sshiftRight (j - 2)) ||| UInt8.ofNat (n >>> (6 * (j - 1)))) :: utf8Tail n (j - 1)
      else utf8From n rounds (i <<< 5 ||| 0x1f) (j + 1)
    else []

def fmtUtf8 (n : Nat) : Bytes := if n ≤ 0x7f then [UInt8.ofNat n] else utf8From n 6 0x3f 1

theorem isdigit_fmtTohex {n : Nat} (hn : n < 10) :
    isdigit (fmtFrom.fmtTohex n) = true ∧ (fmtFrom.fmtTohex n).toNat - 48 = n := by
  have hall : ∀ n < 10, isdigit (fmtFrom.fmtTohex n) = true ∧ (fmtFrom.fmtTohex n).toNat - 48 = n := by
    decide
  exact hall n hn

theorem natOf_append (s : Bytes) (c : UInt8) : natOf (s ++ [c]) = 10 * natOf s + (c.toNat - 48) := by
  simp [natOf]

theorem fmtFrom_digits {k n : Nat} (hn : n ≤ k) :
    natOf (fmtFrom 10 k n) = n ∧ fmtFrom 10 k n ≠ [] ∧ ∀ c ∈ fmtFrom 10 k n, isdigit c = true := by
  induction k generalizing n with
  | zero =>
    obtain rfl : n = 0 := Nat.le_zero.mp hn
    decide
  | succ k ih =>
    rw [fmtFrom]
    by_cases hlt : n < 10
    · rw [if_pos hlt]
      obtain ⟨hd, hv⟩ := isdigit_fmtTohex hlt
      exact ⟨by simpa [natOf] using hv, by simp, by simpa using hd⟩
    · rw [if_neg hlt]
      obtain ⟨hval, -, hdig⟩ := ih (n := n / 10) (by omega)
      obtain ⟨hd, hv⟩ := isdigit_fmtTohex (Nat.mod_lt n (by decide : 0 < 10))
      refine ⟨?_, by simp, ?_⟩
      · rw [natOf_append, hval, hv]
        omega
      · intro c hc
        rcases List.mem_append.mp hc with hc | hc
        · exact hdig c hc
        · exact List.mem_singleton.mp hc ▸ hd

/-- The decimal digits of a number, without leading zeros. -/
def decimal (n : Nat) : Bytes := (Nat.toDigits 10 n).map fun c => UInt8.ofNat c.toNat

theorem fmtTohex_digitChar {n : Nat} (hn : n < 10) :
    fmtFrom.fmtTohex n = UInt8.ofNat (Nat.digitChar n).toNat := by
  have hall : ∀ n < 10, fmtFrom.fmtTohex n = UInt8.ofNat (Nat.digitChar n).toNat := by decide
  exact hall n hn

theorem fmtFrom_eq_decimal {k n : Nat} (hn : n ≤ k) : fmtFrom 10 k n = decimal n := by
  induction k generalizing n with
  | zero =>
    obtain rfl : n = 0 := Nat.le_zero.mp hn
    rfl
  | succ k ih =>
    rw [fmtFrom, decimal, Nat.toDigits_eq_if (by decide)]
    by_cases hlt : n < 10
    · rw [if_pos hlt, if_pos hlt, fmtTohex_digitChar hlt]
      rfl
    · rw [if_neg hlt, if_neg hlt, ih (n := n / 10) (by omega), List.map_append, decimal,
        fmtTohex_digitChar (Nat.mod_lt n (by decide))]
      rfl

theorem fmtUlong_eq_decimal (n : Nat) : fmtUlong n = decimal n := fmtFrom_eq_decimal (Nat.le_refl n)

end Dirlist
