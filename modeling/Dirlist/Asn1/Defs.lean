import Dirlist.Lib.Run
import Dirlist.Byte

/-! Tags and lengths of ASN.1 DER, as lib/fmt writes and lib/scan reads them. The length argument of a scanner is the
length of the list. -/

namespace Dirlist
open Run

/-! ## Tags -/

theorem shiftRight_seven (t : UInt64) : (t >>> 7).toNat = t.toNat / 128 := by
  rw [UInt64.toNat_shiftRight]
  exact Nat.shiftRight_eq_div_pow t.toNat 7

/-- `for(t = l, n = 1; t > 0x7f; t >>= 7) ++n` -/
def asn1tagCount (t : UInt64) : Nat := if t > 0x7f then asn1tagCount (t >>> 7) + 1 else 1
termination_by t.toNat
decreasing_by
  rename_i ht
  have hpos : 0x7f < t.toNat := ht
  rw [shiftRight_seven]
  omega

/-- `dest[n - i - 1]` -/
def asn1tagByte (i : Nat) (l : UInt64) : UInt8 := (if i ≠ 0 then 0x80 else 0) ||| (l &&& 0x7f).toUInt8

/-- The bytes are written from the last one on, `n - i` of them in front of those that are there. -/
def asn1tagFill : Nat → Nat → UInt64 → Bytes → Bytes
  | 0, _, _, dest => dest
  | k + 1, i, l, dest => asn1tagFill k (i + 1) (l >>> 7) (asn1tagByte i l :: dest)

def fmtAsn1dertag (l : UInt64) : Bytes := asn1tagFill (asn1tagCount l) 0 l []

/-- From `src[n]` on, with `l` read so far. -/
def asn1tagRead : Nat → UInt64 → Bytes → Option (Nat × UInt64)
  | _, _, [] => none
  | n, l, c :: src =>
    if l >>> 57 ≠ 0 then none
    else
      let l := (l <<< 7) ||| (c &&& 0x7f).toUInt64
      if c &&& 0x80 = 0 then some (n + 1, l) else asn1tagRead (n + 1) l src

/-- How many bytes are read and what they say, or `none` for a result of 0. -/
def scanAsn1dertag (src : Bytes) : Option (Nat × UInt64) :=
  if src = [] ∨ src.head? = some 0x80 then none else asn1tagRead 0 0 src

/-! ## Lengths -/

/-- `for(i = 1; i < needed; ++i) if(!(l >> (i * 8))) break`, with `k` values of `i` to go. -/
def asn1lengthCount : Nat → Nat → UInt64 → Nat
  | 0, i, _ => i
  | k + 1, i, l => if l >>> (UInt64.ofNat (i * 8)) = 0 then i else asn1lengthCount k (i + 1) l

/-- The lowest `j` bytes, the highest of them first. -/
def asn1lengthBytes : Nat → UInt64 → Bytes
  | 0, _ => []
  | j + 1, l => ((l >>> (UInt64.ofNat (j * 8))) &&& 0xff).toUInt8 :: asn1lengthBytes j l

def fmtAsn1derlength (l : UInt64) : Bytes :=
  if l < 128 then [(l &&& 0x7f).toUInt8]
  else
    let i := asn1lengthCount 7 1 l
    UInt8.ofNat (0x80 + i) :: asn1lengthBytes i l

/-- `src[i]` -/
def byteRead (src : Bytes) (i : Nat) : Exec UInt8 :=
  match src[i]? with
  | some c => .ok c
  | none => .error .bounds

/-- How many bytes are read and what they say, or `none` for a result of 0. The first two bytes are read before the
length is looked at. -/
def scanAsn1derlengthvalue (src : Bytes) : Exec (Option (Nat × UInt64)) := do
  let c ← byteRead src 0
  if src.length = 0 then .ok none
  else if c &&& 0x80 = 0 then .ok (some (1, c.toUInt64))
  else
    let c := (c &&& 0x7f).toNat
    if c = 0 then .ok none
    else do
      let l ← byteRead src 1
      if l = 0 then .ok none
      else if c > 8 then .ok none
      else if c + 1 > src.length then .ok none
      else
        let l := ((src.drop 2).take (c - 1)).foldl (fun l b => l * 256 + b.toUInt64) l.toUInt64
        if l < 0x7f then .ok none else .ok (some (c + 1, l))

end Dirlist
