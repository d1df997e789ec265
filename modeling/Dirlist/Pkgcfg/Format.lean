import Dirlist.Fmt
import Dirlist.Pkgcfg.Version

/-! Printing the versions of pkgcfg: what is parsed from the decimal text of up to four numbers is
printed as the same text. -/

namespace Dirlist

/-- The loop of `pkg_format_version` over the places of the four numbers, with the text so far. -/
def formatFrom (v : Nat) : List Nat → Bytes → Bytes
  | [], sa => sa
  | s :: ss, sa =>
    let num := (v >>> s) &&& 0xffff
    if num = 0xffff then sa
    else
      let sa := if sa.length > 0 then sa ++ [46] else sa
      formatFrom v ss (sa ++ fmtUlong num)

def pkgFormatVersion (v : Nat) : Bytes := formatFrom v [48, 32, 16, 0] []

/-- The text of a version, the numbers with dots between. -/
def dotted (ns : List Nat) : Bytes := [46].intercalate (ns.map decimal)

variable {ns : List Nat}

/-! ## Texts of numbers -/

/-- The component of a number. -/
def Component.ofNat (n : Nat) (hn : n < 65535) : Component where
  digits := fmtUlong n
  nonempty := (fmtFrom_digits (Nat.le_refl n)).2.1
  digit := (fmtFrom_digits (Nat.le_refl n)).2.2
  small := by
    rw [fmtUlong, (fmtFrom_digits (Nat.le_refl n)).1]
    exact hn

theorem Component.value_ofNat {n : Nat} (hn : n < 65535) : (Component.ofNat n hn).value = n :=
  (fmtFrom_digits (Nat.le_refl n)).1

/-- The numbers are at most five digits long. -/
theorem length_decimal_le {n : Nat} (hn : n < 65535) : (decimal n).length ≤ 5 := by
  rw [decimal, List.length_map]
  exact (Nat.length_toDigits_le_iff (by decide) (by decide)).mpr (by omega)

theorem length_dotted_le (hsmall : ∀ n ∈ ns, n < 65535) : (dotted ns).length ≤ 6 * ns.length := by
  induction ns with
  | nil => simp [dotted]
  | cons n ns ih =>
    obtain ⟨hn, hns⟩ := List.forall_mem_cons.mp hsmall
    have hlen := length_decimal_le hn
    have hrest := ih hns
    cases ns with
    | nil =>
      simp only [dotted, List.map_cons, List.map_nil, List.intercalate_singleton, List.length_singleton]
      omega
    | cons m ns =>
      simp only [dotted, List.map_cons, List.intercalate_cons_cons, List.length_append, List.length_cons,
        List.length_nil] at hrest ⊢
      omega

theorem versionText_pmap (hsmall : ∀ n ∈ ns, n < 65535) :
    versionText (ns.pmap Component.ofNat hsmall) = dotted ns := by
  have hdigits : (ns.pmap Component.ofNat hsmall).map Component.digits = ns.map decimal := by
    rw [List.map_pmap, ← List.pmap_eq_map hsmall]
    exact List.pmap_congr_left ns fun n _ _ _ => fmtUlong_eq_decimal n
  rw [versionText, hdigits, dotted]

/-- The version that a text of numbers is. -/
def versionOf (ns : List Nat) (hne : ns ≠ []) (hlen : ns.length ≤ 4) (hsmall : ∀ n ∈ ns, n < 65535) :
    Version where
  comps := ns.pmap Component.ofNat hsmall
  nonempty := by simpa using hne
  short := by simpa using hlen
  fits := by
    have hle := length_dotted_le hsmall
    rw [versionText_pmap]
    omega

theorem values_versionOf (hne : ns ≠ []) (hlen : ns.length ≤ 4) (hsmall : ∀ n ∈ ns, n < 65535) :
    (versionOf ns hne hlen hsmall).values = ns := by
  rw [Version.values, versionOf, List.map_pmap]
  refine List.pmap_eq_self.mpr fun n hn => ?_
  exact Component.value_ofNat (hsmall n hn)

/-- What the text of one to four numbers is parsed to. -/
theorem pkgParseVersion_dotted (hne : ns ≠ []) (hlen : ns.length ≤ 4) (hsmall : ∀ n ∈ ns, n < 65535) :
    pkgParseVersion (dotted ns) (dotted ns).length = packed (padded 4 ns) := by
  have hparse := (versionOf ns hne hlen hsmall).parse_eq
  rw [values_versionOf, Version.parse] at hparse
  simpa only [versionOf, versionText_pmap] using hparse

/-! ## Printing -/

/-- The numbers at the places of a packed list. -/
theorem fields_packed {l : List Nat} (hlen : l.length = 4) (hl : ∀ x ∈ l, x < 2 ^ 16) :
    [48, 32, 16, 0].map (fun s => (packed l >>> s) &&& 0xffff) = l := by
  obtain ⟨a, b, c, d, rfl⟩ : ∃ a b c d, l = [a, b, c, d] := by
    match l, hlen with
    | [a, b, c, d], _ => exact ⟨a, b, c, d, rfl⟩
  simp only [List.forall_mem_cons] at hl
  obtain ⟨ha, hb, hc, hd, -⟩ := hl
  have hmask (num : Nat) : num &&& 0xffff = num % 2 ^ 16 := Nat.and_two_pow_sub_one_eq_mod num 16
  simp only [packed, List.foldl_cons, List.foldl_nil, List.map_cons, List.map_nil, hmask,
    Nat.shiftRight_eq_div_pow, List.cons.injEq, and_true]
  refine ⟨?_, ?_, ?_, ?_⟩ <;> omega

theorem dotted_cons (n : Nat) (ns : List Nat) :
    dotted (n :: ns) = decimal n ++ (ns.map fun m => 46 :: decimal m).flatten := by
  induction ns generalizing n with
  | nil => simp [dotted]
  | cons m ns ih =>
    have hm := ih m
    rw [dotted, List.map_cons] at hm ⊢
    rw [List.map_cons, List.intercalate_cons_cons, hm]
    simp

theorem decimal_ne_nil (n : Nat) : decimal n ≠ [] := by
  rw [decimal, Ne, List.map_eq_nil_iff]
  exact Nat.toDigits_ne_nil

/-- One number that is not the filler. -/
theorem formatFrom_cons {v s n : Nat} (hs : (v >>> s) &&& 0xffff = n) (hn : n < 65535) (ss : List Nat)
    (sa : Bytes) :
    formatFrom v (s :: ss) sa = formatFrom v ss ((if sa.length > 0 then sa ++ [46] else sa) ++ decimal n) := by
  rw [formatFrom, hs, if_neg (Nat.ne_of_lt hn), fmtUlong_eq_decimal]

/-- Behind a number, the numbers up to the filler are printed with dots before them. -/
theorem formatFrom_padded {v : Nat} {ss : List Nat} (hlen : ns.length ≤ ss.length)
    (hsmall : ∀ n ∈ ns, n < 65535)
    (hss : ss.map (fun s => (v >>> s) &&& 0xffff) = padded ss.length ns) {sa : Bytes} (hsa : sa ≠ []) :
    formatFrom v ss sa = sa ++ (ns.map fun n => 46 :: decimal n).flatten := by
  induction ss generalizing ns sa with
  | nil =>
    obtain rfl := List.length_eq_zero_iff.mp (Nat.le_zero.mp hlen)
    simp [formatFrom]
  | cons s ss ih =>
    cases ns with
    | nil =>
      rw [List.length_cons, padded, List.map_cons, List.cons.injEq] at hss
      rw [formatFrom, hss.1]
      simp
    | cons n ns =>
      rw [List.length_cons, padded, List.map_cons, List.cons.injEq] at hss
      obtain ⟨hn, hns⟩ := List.forall_mem_cons.mp hsmall
      have hpos : sa.length > 0 := List.length_pos_iff.mpr hsa
      rw [formatFrom_cons hss.1 hn, if_pos hpos,
        ih (Nat.le_of_succ_le_succ hlen) hns hss.2 (List.append_ne_nil_of_right_ne_nil _ (decimal_ne_nil n))]
      simp

theorem pkgFormatVersion_packed (hne : ns ≠ []) (hlen : ns.length ≤ 4) (hsmall : ∀ n ∈ ns, n < 65535) :
    pkgFormatVersion (packed (padded 4 ns)) = dotted ns := by
  obtain ⟨n, ns, rfl⟩ := List.exists_cons_of_ne_nil hne
  obtain ⟨hn, hns⟩ := List.forall_mem_cons.mp hsmall
  have hfields := fields_packed (length_padded 4 (n :: ns)) (padded_lt hsmall 4)
  have hcons : padded 4 (n :: ns) = n :: padded 3 ns := rfl
  rw [hcons] at hfields ⊢
  rw [List.map_cons, List.cons.injEq] at hfields
  rw [pkgFormatVersion, formatFrom_cons hfields.1 hn, List.length_nil, if_neg (by decide), List.nil_append,
    formatFrom_padded (Nat.le_of_succ_le_succ hlen) hns hfields.2 (decimal_ne_nil n), dotted_cons]

end Dirlist
