import Dirlist.Json.Print
import Dirlist.Json.Scan

/-! Strings that are read, printed and read again. The reader drops every backslash, also in front of a `u`,
and writes one in front of what it makes of a character that is not ASCII. The printer escapes a backslash
unless a `u` follows. -/

namespace Dirlist
open Run

/-! ## Literals -/

/-- The escapes of one letter: quote, backslash, slash, b, f, n, r and t. -/
def escapeLetters : Bytes := [34, 92, 47, 98, 102, 110, 114, 116]

def isXdigit (c : UInt8) : Bool := isdigit c || (65 ≤ c && c ≤ 70) || (97 ≤ c && c ≤ 102)

/-- A character of a literal: any code point but the quote and the backslash, or an escape. -/
inductive LitChar
  | raw (c : Char) (h : c.toNat ≠ 34 ∧ c.toNat ≠ 92)
  | escape (c : UInt8) (h : c ∈ escapeLetters)
  | unicode (hex : Bytes) (h : hex.length = 4 ∧ ∀ c ∈ hex, isXdigit c = true)

abbrev QuotedLit := List LitChar

/-- The bytes of a character, and whether each stands behind a backslash. -/
def LitChar.quoted : LitChar → List (Bool × UInt8)
  | .raw c _ => (String.utf8EncodeChar c).map fun c => (false, c)
  | .escape c _ => [(true, c)]
  | .unicode hex _ => (true, 117) :: hex.map fun c => (false, c)

def QuotedLit.text (lit : QuotedLit) : Bytes := 34 :: (quotedText (lit.flatMap LitChar.quoted) ++ [34])

/-- What is left of a character without the backslash. -/
def LitChar.bare (u : LitChar) : Bytes := u.quoted.map Prod.snd

/-- Take the opening quote, and read on from there. -/
def readStr [Unwritten] (sched : Schedule) (lookahead : Nat) (text : Bytes) (m : Nat) :
    Exec (Nat × Bytes × Charbuf) := do
  let (_, b) ← charbufSkipIfeq sched m (charbufInit text lookahead) 34
  jsonParseStralloc sched m b true

def ReadsStr [Unwritten] (sched : Schedule) (lookahead : Nat) (text v : Bytes) : Prop :=
  ∃ b', Returns (readStr sched lookahead text) (1, v, b')

/-- The string that is read is printed, and read again from what was printed. -/
def Rereads [Unwritten] (sched : Schedule) (lookahead : Nat) (text : Bytes) : Prop :=
  ∃ v out, ReadsStr sched lookahead text v ∧ jsonPrintStr v = .ok out ∧ ReadsStr sched lookahead out v

variable {sched : Schedule} {lookahead : Nat}

/-! ## UTF-8 -/

theorem scanContinuation_cons {y : Nat} (hy : y < 64) (i k : Nat) (s : Bytes) :
    scanContinuation i (k + 1) (UInt8.ofNat (y + 0x80) :: s) = scanContinuation (i * 64 + y) k s := by
  have hall : ∀ y < 64, UInt8.ofNat (y + 0x80) / 64 = 2 ∧ (UInt8.ofNat (y + 0x80)).toNat % 64 = y := by decide
  obtain ⟨htail, hbits⟩ := hall y hy
  rw [scanContinuation, if_pos htail, hbits]

/-- The first byte of a sequence of `k` bytes carries the bits `x`. -/
def LeadByte (c : UInt8) (k x : Nat) : Prop :=
  ¬(c ≥ 0xfe ∨ c / 64 = 2) ∧ leadingOnes c = k ∧ c.toNat % 2 ^ (8 - k) = x

theorem scanContinuation_zero (i : Nat) (s : Bytes) : scanContinuation i 0 s = some i := by
  cases s <;> rfl

theorem LeadByte.scan {c : UInt8} {k x n : Nat} {t s : Bytes} (h : LeadByte c (k + 1) x) (ht : t.length = k)
    (hn : scanContinuation x k (t ++ s) = some n) (hmin : 2 ^ ((k + 1) * 5 - 4 + if k + 1 = 2 then 1 else 0) ≤ n) :
    scanUtf8 (c :: t ++ s) = some ((c :: t).length, n) := by
  obtain ⟨hstart, hones, hbits⟩ := h
  have hlen : ¬k + 1 > (t ++ s).length + 1 := by
    rw [List.length_append]
    omega
  rw [List.cons_append, scanUtf8, if_neg hstart]
  simp only [hones, hbits, hlen, if_false, Nat.add_sub_cancel, Nat.succ_ne_zero, hn, Option.bind_some]
  rw [if_neg (Nat.not_lt.mpr hmin), List.length_cons, ht]

theorem leadByte_two {x : Nat} (hx : x < 32) : LeadByte (UInt8.ofNat (x + 0xc0)) 2 x := by
  have hall : ∀ x < 32, ¬(UInt8.ofNat (x + 0xc0) ≥ 0xfe ∨ UInt8.ofNat (x + 0xc0) / 64 = 2) ∧
      leadingOnes (UInt8.ofNat (x + 0xc0)) = 2 ∧ (UInt8.ofNat (x + 0xc0)).toNat % 2 ^ (8 - 2) = x := by decide
  exact hall x hx

theorem leadByte_three {x : Nat} (hx : x < 16) : LeadByte (UInt8.ofNat (x + 0xe0)) 3 x := by
  have hall : ∀ x < 16, ¬(UInt8.ofNat (x + 0xe0) ≥ 0xfe ∨ UInt8.ofNat (x + 0xe0) / 64 = 2) ∧
      leadingOnes (UInt8.ofNat (x + 0xe0)) = 3 ∧ (UInt8.ofNat (x + 0xe0)).toNat % 2 ^ (8 - 3) = x := by decide
  exact hall x hx

theorem leadByte_four {x : Nat} (hx : x < 8) : LeadByte (UInt8.ofNat (x + 0xf0)) 4 x := by
  have hall : ∀ x < 8, ¬(UInt8.ofNat (x + 0xf0) ≥ 0xfe ∨ UInt8.ofNat (x + 0xf0) / 64 = 2) ∧
      leadingOnes (UInt8.ofNat (x + 0xf0)) = 4 ∧ (UInt8.ofNat (x + 0xf0)).toNat % 2 ^ (8 - 4) = x := by decide
  exact hall x hx

theorem char_lt (c : Char) : c.toNat < 0x110000 := by
  rcases c.valid with h | h
  · exact Nat.lt_trans h (by decide)
  · exact h.2

theorem scanUtf8_encode (c : Char) (s : Bytes) :
    scanUtf8 (String.utf8EncodeChar c ++ s) = some ((String.utf8EncodeChar c).length, c.toNat) := by
  have hlt := char_lt c
  have hval : c.val.toNat = c.toNat := rfl
  rw [String.utf8EncodeChar]
  simp only [hval]
  generalize c.toNat = v at hlt
  split_ifs with h1 h2 h3
  · have htoNat : (UInt8.ofNat v).toNat = v := UInt8.toNat_ofNat_of_lt' (Nat.lt_of_le_of_lt h1 (by decide))
    have hascii : UInt8.ofNat v < 128 := by
      rw [UInt8.lt_iff_toNat_lt, htoNat]
      exact Nat.lt_succ_of_le h1
    rw [List.singleton_append, scanUtf8_ascii hascii, htoNat]
    rfl
  · have hx : v / 64 % 32 < 32 := Nat.mod_lt _ (by decide)
    refine (leadByte_two hx).scan rfl ?_ (Nat.lt_of_not_le h1)
    rw [List.cons_append, scanContinuation_cons (Nat.mod_lt v (by decide)), scanContinuation_zero]
    exact congrArg some (by omega)
  · have hx : v / 4096 % 16 < 16 := Nat.mod_lt _ (by decide)
    refine (leadByte_three hx).scan rfl ?_ (Nat.lt_of_not_le h2)
    rw [List.cons_append, scanContinuation_cons (Nat.mod_lt _ (by decide)), List.cons_append,
      scanContinuation_cons (Nat.mod_lt v (by decide)), scanContinuation_zero]
    exact congrArg some (by omega)
  · have hx : v / 262144 % 8 < 8 := Nat.mod_lt _ (by decide)
    refine (leadByte_four hx).scan rfl ?_ (Nat.lt_of_not_le h3)
    rw [List.cons_append, scanContinuation_cons (Nat.mod_lt _ (by decide)), List.cons_append,
      scanContinuation_cons (Nat.mod_lt _ (by decide)), List.cons_append,
      scanContinuation_cons (Nat.mod_lt v (by decide)), scanContinuation_zero]
    exact congrArg some (by omega)

/-! ## The first reading -/

/-- What `json_parse_stralloc` makes of the code point of several bytes. -/
def escapeText (n : Nat) : Bytes :=
  [92, 117] ++ catxlong0 n (if n > 0xffffff then 8 else if n > 0xffff then 6 else 4)

/-- What the first reading makes of a character. -/
def LitChar.value : LitChar → Bytes
  | .raw c _ => if c.toNat < 128 then [UInt8.ofNat c.toNat] else escapeText c.toNat
  | .escape c _ => [c]
  | .unicode hex _ => 117 :: hex

theorem escapeUtf8_pass [Unwritten] {k : Nat} {t : Bytes} (ht : t.length = k) (s : Bytes) :
    escapeUtf8 k (t ++ s) = escapeUtf8 0 s := by
  induction t generalizing k with
  | nil =>
    subst ht
    rfl
  | cons c t ih =>
    subst ht
    rw [List.length_cons, List.cons_append, escapeUtf8, ih rfl]

theorem length_encode_le_one (c : Char) : (String.utf8EncodeChar c).length ≤ 1 ↔ c.toNat < 128 := by
  have hval : c.val.toNat = c.toNat := rfl
  rw [String.utf8EncodeChar]
  simp only [hval]
  split_ifs <;> simp <;> omega

theorem escapeUtf8_raw [Unwritten] (c : Char) {s out : Bytes} (hout : escapeUtf8 0 s = .ok out) :
    escapeUtf8 0 (String.utf8EncodeChar c ++ s) =
      .ok ((if c.toNat < 128 then [UInt8.ofNat c.toNat] else escapeText c.toNat) ++ out) := by
  have hscan := scanUtf8_encode c s
  have hlen := length_encode_le_one c
  obtain ⟨d, t, ht⟩ := List.exists_cons_of_ne_nil (String.utf8EncodeChar_ne_nil (c := c))
  rw [ht, List.length_cons] at hlen
  rw [ht, List.length_cons, List.cons_append] at hscan
  rw [ht, List.cons_append, escapeUtf8, hscan]
  by_cases hc : c.toNat < 128
  · obtain rfl : t = [] := List.length_eq_zero_iff.mp (by omega)
    simp [hc, hout]
  · have hmany : t.length + 1 > 1 := by omega
    simp only [hmany, if_true, hc, if_false, Nat.add_sub_cancel, escapeUtf8_pass rfl, hout, ok_bind]
    rfl

theorem isXdigit_bounds {c : UInt8} (hc : isXdigit c = true) :
    48 ≤ c.toNat ∧ c.toNat < 128 ∧ c.toNat ≠ 92 := by
  simp only [isXdigit, isdigit, Bool.or_eq_true, Bool.and_eq_true, decide_eq_true_eq, UInt8.le_iff_toNat_le] at hc
  have h57 : (57 : UInt8).toNat = 57 := rfl
  have h65 : (65 : UInt8).toNat = 65 := rfl
  have h70 : (70 : UInt8).toNat = 70 := rfl
  have h97 : (97 : UInt8).toNat = 97 := rfl
  have h102 : (102 : UInt8).toNat = 102 := rfl
  have h48 : (48 : UInt8).toNat = 48 := rfl
  omega

theorem encode_ne (c : Char) (hc : c.toNat ≠ 34 ∧ c.toNat ≠ 92) :
    ∀ d ∈ String.utf8EncodeChar c, d ≠ 34 ∧ d ≠ 92 := by
  have hlt := char_lt c
  have hval : c.val.toNat = c.toNat := rfl
  have hne {x : Nat} (hx : x < 256) (h : x ≠ 34 ∧ x ≠ 92) : UInt8.ofNat x ≠ 34 ∧ UInt8.ofNat x ≠ 92 := by
    have htoNat : (UInt8.ofNat x).toNat = x := UInt8.toNat_ofNat_of_lt' hx
    refine ⟨fun heq => h.1 ?_, fun heq => h.2 ?_⟩
    · rw [← htoNat, heq]
      rfl
    · rw [← htoNat, heq]
      rfl
  rw [String.utf8EncodeChar]
  simp only [hval]
  generalize c.toNat = v at hlt hc
  split_ifs with h1 h2 h3 <;>
    simp only [List.forall_mem_cons, List.not_mem_nil, false_imp_iff, implies_true, and_true]
  · exact hne (by omega) hc
  · exact ⟨hne (by omega) (by omega), hne (by omega) (by omega)⟩
  · exact ⟨hne (by omega) (by omega), hne (by omega) (by omega), hne (by omega) (by omega)⟩
  · exact ⟨hne (by omega) (by omega), hne (by omega) (by omega), hne (by omega) (by omega),
      hne (by omega) (by omega)⟩

theorem LitChar.quotedOk (u : LitChar) : QuotedOk u.quoted := by
  intro q hq hplain
  cases u with
  | raw c h =>
    obtain ⟨d, hd, rfl⟩ := List.mem_map.mp hq
    exact encode_ne c h d hd
  | escape c h =>
    obtain rfl := List.mem_singleton.mp hq
    cases hplain
  | unicode hex h =>
    rcases List.mem_cons.mp hq with rfl | hq
    · cases hplain
    · obtain ⟨c, hc, rfl⟩ := List.mem_map.mp hq
      obtain ⟨h48, -, h92⟩ := isXdigit_bounds (h.2 c hc)
      refine ⟨?_, ?_⟩
      · rintro rfl
        exact absurd h48 (by decide)
      · rintro rfl
        exact h92 rfl

theorem LitChar.escapeUtf8_bare [Unwritten] (u : LitChar) {s out : Bytes} (hout : escapeUtf8 0 s = .ok out) :
    escapeUtf8 0 (u.bare ++ s) = .ok (u.value ++ out) := by
  cases u with
  | raw c h =>
    have hbare : LitChar.bare (.raw c h) = String.utf8EncodeChar c := by
      simp [LitChar.bare, LitChar.quoted]
    rw [hbare]
    exact escapeUtf8_raw c hout
  | escape c h =>
    have hc : ∀ c ∈ escapeLetters, c < 128 := by decide
    exact escapeUtf8_append (by simpa [LitChar.bare, LitChar.quoted] using hc c h) hout
  | unicode hex h =>
    have hbare : LitChar.bare (.unicode hex h) = 117 :: hex := by
      simp [LitChar.bare, LitChar.quoted]
    rw [hbare]
    refine escapeUtf8_append (fun c hc => ?_) hout
    rcases List.mem_cons.mp hc with rfl | hc
    · decide
    · exact UInt8.lt_iff_toNat_lt.mpr (isXdigit_bounds (h.2 c hc)).2.1

theorem QuotedLit.escapeUtf8_bare [Unwritten] (lit : QuotedLit) :
    escapeUtf8 0 ((lit.flatMap LitChar.quoted).map Prod.snd) = .ok (lit.flatMap LitChar.value) := by
  induction lit with
  | nil => rfl
  | cons u lit ih =>
    rw [List.flatMap_cons, List.map_append, List.flatMap_cons]
    exact u.escapeUtf8_bare ih

/-- A quoted string is read as the bytes without their backslashes, with the characters escaped that are not
ASCII. -/
theorem readsStr_iff [Unwritten] {l : List (Bool × UInt8)} {v : Bytes} (hl : QuotedOk l)
    (ha : (charbufInit (34 :: (quotedText l ++ [34])) lookahead).a ≠ 0) :
    ReadsStr sched lookahead (34 :: (quotedText l ++ [34])) v ↔ escapeUtf8 0 (l.map Prod.snd) = .ok v := by
  obtain ⟨b₁, ⟨N₁, hskip⟩, h₁⟩ := (at_init ha).skipIfeq_eq sched (by decide)
  obtain ⟨b₂, ⟨N₂, hloop⟩, -⟩ := h₁.quotedLoop sched hl []
  have hrun (m : Nat) (hm : max N₁ N₂ ≤ m) : readStr sched lookahead (34 :: (quotedText l ++ [34])) m =
      (escapeUtf8 0 (l.map Prod.snd) >>= fun out => .ok (1, out, b₂)) := by
    have hskip := hskip m (le_trans (le_max_left _ _) hm)
    have hloop := hloop m (le_trans (le_max_right _ _) hm)
    dsimp only at hskip hloop
    rw [readStr, hskip, ok_bind]
    dsimp only
    rw [jsonParseStralloc, hloop, ok_bind]
    rfl
  constructor
  · rintro ⟨b', N, hN⟩
    have heq := (hrun _ (le_max_left _ N)).symm.trans (hN _ (le_max_right _ N))
    obtain ⟨out, hout, heq⟩ := bind_eq_ok heq
    rw [hout, (Prod.mk.inj (Prod.mk.inj (Except.ok.inj heq)).2).1]
  · intro hout
    refine ⟨b₂, max N₁ N₂, fun m hm => ?_⟩
    rw [hrun m hm, hout]
    rfl

/-! ## Printing, and the second reading -/

/-- The bytes between the quotes that are printed. The backslash in front of a `u` stands there for itself, but
the reader takes it with the `u`. -/
def printQuoted : Bytes → List (Bool × UInt8)
  | 92 :: 117 :: s => (true, 117) :: printQuoted s
  | c :: s => (c = 34 ∨ c = 92, c) :: printQuoted s
  | [] => []

theorem printQuoted_ok (v : Bytes) : QuotedOk (printQuoted v) := by
  fun_induction printQuoted v with
  | case1 s ih => exact List.forall_mem_cons.mpr ⟨nofun, ih⟩
  | case2 c s hnot ih =>
    refine List.forall_mem_cons.mpr ⟨fun hplain => ?_, ih⟩
    simpa using hplain
  | case3 => exact List.forall_mem_nil _

theorem quotedText_cons (e : Bool) (c : UInt8) (l : List (Bool × UInt8)) :
    quotedText ((e, c) :: l) = (if e then [92, c] else [c]) ++ quotedText l := by
  rw [quotedText, List.flatMap_cons]
  rfl

theorem jsonPrintChars_eq {v : Bytes} (hv : 0 ∉ v) : jsonPrintChars v = .ok (quotedText (printQuoted v)) := by
  fun_induction printQuoted v with
  | case1 s ih =>
    have hs : 0 ∉ s := fun h => hv (List.mem_cons_of_mem _ (List.mem_cons_of_mem _ h))
    simp [jsonPrintChars, ih hs, quotedText_cons]
  | case2 c s hnot ih =>
    obtain ⟨hc, hs⟩ : c ≠ 0 ∧ 0 ∉ s := by simpa [eq_comm] using hv
    have hesc : (c = 34 ∨ c = 92 ∧ s.head? ≠ some 117) ↔ c = 34 ∨ c = 92 := by
      refine or_congr_right (and_iff_left_of_imp fun h92 h117 => ?_)
      exact hnot s.tail h92 (List.eq_cons_of_mem_head? h117)
    simp only [jsonPrintChars, hc, if_false, ih hs, hesc, quotedText_cons, decide_eq_true_eq]
    split_ifs <;> rfl
  | case3 => rfl

/-- The printer gives up at a zero byte. -/
theorem jsonPrintChars_zero {v : Bytes} (hv : 0 ∈ v) (out : Bytes) : jsonPrintChars v ≠ .ok out := by
  induction v generalizing out with
  | nil => cases hv
  | cons c v ih =>
    intro h
    rw [jsonPrintChars] at h
    by_cases hc : c = 0
    · rw [if_pos hc] at h
      cases h
    · rw [if_neg hc] at h
      obtain ⟨-, -, h⟩ := bind_eq_ok h
      obtain ⟨rest, hrest, -⟩ := bind_eq_ok h
      exact ih ((List.mem_cons.mp hv).resolve_left fun h => hc h.symm) rest hrest

/-- A `u` does not follow a backslash. -/
def NoEscape (c d : UInt8) : Prop := ¬(c = 92 ∧ d = 117)

theorem printQuoted_snd (v : Bytes) : (printQuoted v).map Prod.snd = v ↔ v.IsChain NoEscape := by
  have hle (v : Bytes) : ((printQuoted v).map Prod.snd).length ≤ v.length := by
    fun_induction printQuoted v with
    | case1 s ih =>
      simp only [List.map_cons, List.length_cons]
      omega
    | case2 c s hnot ih => exact Nat.succ_le_succ ih
    | case3 => exact Nat.le_refl 0
  fun_induction printQuoted v with
  | case1 s ih =>
    refine iff_of_false (fun h => ?_) fun h => ?_
    · have hlen := congrArg List.length h
      have hs := hle s
      simp only [List.map_cons, List.length_cons] at hlen
      omega
    · exact (List.isChain_cons_cons.mp h).1 ⟨rfl, rfl⟩
  | case2 c s hnot ih =>
    rw [List.map_cons, List.cons.injEq, and_iff_right rfl]
    refine Iff.trans ih ?_
    cases s with
    | nil => simp
    | cons d s =>
      refine (and_iff_right ?_).symm.trans List.isChain_cons_cons.symm
      rintro ⟨rfl, rfl⟩
      exact hnot s rfl rfl
  | case3 => simp

theorem mem_printQuoted {v : Bytes} {c : UInt8} (hc : c ∈ (printQuoted v).map Prod.snd) : c ∈ v := by
  fun_induction printQuoted v with
  | case1 s ih =>
    rcases List.mem_cons.mp hc with rfl | hc
    · exact List.mem_cons_of_mem _ List.mem_cons_self
    · exact List.mem_cons_of_mem _ (List.mem_cons_of_mem _ (ih hc))
  | case2 d s hnot ih =>
    rcases List.mem_cons.mp hc with rfl | hc
    · exact List.mem_cons_self
    · exact List.mem_cons_of_mem _ (ih hc)
  | case3 => cases hc

/-- What is printed of a string is read as that string again, if no backslash stands in front of a `u`. -/
theorem prints_iff [Unwritten] {v : Bytes} (hv : ∀ c ∈ v, c < 128) (ha : (charbufInit [] lookahead).a ≠ 0) :
    (∃ out, jsonPrintStr v = .ok out ∧ ReadsStr sched lookahead out v) ↔ 0 ∉ v ∧ v.IsChain NoEscape := by
  by_cases hz : 0 ∈ v
  · refine iff_of_false ?_ fun h => h.1 hz
    rintro ⟨out, hout, -⟩
    obtain ⟨chars, hchars, -⟩ := bind_eq_ok hout
    exact jsonPrintChars_zero hz chars hchars
  · have hprint : jsonPrintStr v = .ok (34 :: (quotedText (printQuoted v) ++ [34])) := by
      rw [jsonPrintStr, jsonPrintChars_eq hz]
      rfl
    have hread : ReadsStr sched lookahead (34 :: (quotedText (printQuoted v) ++ [34])) v ↔ v.IsChain NoEscape := by
      have hascii := escapeUtf8_ascii fun c hc => hv c (mem_printQuoted hc)
      rw [readsStr_iff (printQuoted_ok v) ha, hascii, Except.ok.injEq, printQuoted_snd]
    rw [and_iff_right hz, ← hread]
    constructor
    · rintro ⟨out, hout, hr⟩
      rwa [Except.ok.inj (hprint.symm.trans hout)]
    · exact fun hr => ⟨_, hprint, hr⟩

/-! ## When a string is stable -/

/-- ASCII, and not the zero byte. -/
def LitChar.Kept (u : LitChar) : Prop := ∀ c ∈ u.bare, c ≠ 0 ∧ c < 128

instance (u : LitChar) : Decidable u.Kept := inferInstanceAs (Decidable (∀ c ∈ u.bare, c ≠ 0 ∧ c < 128))

/-- An escaped backslash with a `u` behind it, or with the escape of a code point. -/
def BackslashU (u w : LitChar) : Prop := u.bare = [92] ∧ w.bare.head? = some 117

instance (u w : LitChar) : Decidable (BackslashU u w) := inferInstanceAs (Decidable (_ ∧ _))

theorem LitChar.bare_raw (c : Char) (h : c.toNat ≠ 34 ∧ c.toNat ≠ 92) :
    LitChar.bare (.raw c h) = String.utf8EncodeChar c := by
  simp [LitChar.bare, LitChar.quoted]

theorem LitChar.bare_unicode (hex : Bytes) (h : hex.length = 4 ∧ ∀ c ∈ hex, isXdigit c = true) :
    LitChar.bare (.unicode hex h) = 117 :: hex := by
  simp [LitChar.bare, LitChar.quoted]

theorem isXdigit_fmtFrom {k n : Nat} (hn : n ≤ k) : ∀ c ∈ fmtFrom 16 k n, isXdigit c = true := by
  have hall : ∀ d < 16, isXdigit (fmtFrom.fmtTohex d) = true := by decide
  induction k generalizing n with
  | zero =>
    obtain rfl : n = 0 := Nat.le_zero.mp hn
    decide
  | succ k ih =>
    rw [fmtFrom]
    by_cases hlt : n < 16
    · rw [if_pos hlt]
      simpa using hall n hlt
    · rw [if_neg hlt]
      intro c hc
      rcases List.mem_append.mp hc with hc | hc
      · exact ih (by omega) c hc
      · rw [List.mem_singleton.mp hc]
        exact hall _ (Nat.mod_lt n (by decide))

theorem escapeText_eq (n : Nat) : ∃ hex, escapeText n = 92 :: 117 :: hex ∧ ∀ c ∈ hex, isXdigit c = true := by
  refine ⟨catxlong0 n _, rfl, fun c hc => ?_⟩
  rw [catxlong0] at hc
  rcases List.mem_append.mp hc with hc | hc
  · rw [List.eq_of_mem_replicate hc]
    rfl
  · exact isXdigit_fmtFrom (Nat.le_refl n) c hc

theorem ascii_of_isXdigit {c : UInt8} (hc : isXdigit c = true) : c ≠ 0 ∧ c < 128 ∧ c ≠ 92 := by
  obtain ⟨h48, h128, h92⟩ := isXdigit_bounds hc
  refine ⟨?_, UInt8.lt_iff_toNat_lt.mpr h128, ?_⟩
  · rintro rfl
    exact absurd h48 (by decide)
  · rintro rfl
    exact h92 rfl

theorem escapeLetters_ascii : ∀ c ∈ escapeLetters, c ≠ 0 ∧ c < 128 := by decide

/-- The first reading makes bytes of ASCII of everything. -/
theorem LitChar.value_ascii (u : LitChar) : ∀ c ∈ u.value, c < 128 := by
  cases u with
  | raw c h =>
    rw [LitChar.value]
    split_ifs with hc
    · have htoNat : (UInt8.ofNat c.toNat).toNat = c.toNat :=
        UInt8.toNat_ofNat_of_lt' (Nat.lt_trans hc (by decide))
      rw [List.forall_mem_singleton, UInt8.lt_iff_toNat_lt, htoNat]
      exact hc
    · obtain ⟨hex, heq, hhex⟩ := escapeText_eq c.toNat
      rw [heq]
      exact List.forall_mem_cons.mpr ⟨by decide, List.forall_mem_cons.mpr ⟨by decide,
        fun d hd => (ascii_of_isXdigit (hhex d hd)).2.1⟩⟩
  | escape c h => exact List.forall_mem_singleton.mpr (escapeLetters_ascii c h).2
  | unicode hex h =>
    exact List.forall_mem_cons.mpr ⟨by decide, fun d hd => (ascii_of_isXdigit (h.2 d hd)).2.1⟩

theorem encode_ascii {c : Char} (hc : c.toNat < 128) : String.utf8EncodeChar c = [UInt8.ofNat c.toNat] :=
  if_pos (Nat.le_of_lt_succ hc)

theorem encode_high {c : Char} (hc : ¬c.toNat < 128) : ∃ d ∈ String.utf8EncodeChar c, ¬d < 128 := by
  have hlt := char_lt c
  have hval : c.val.toNat = c.toNat := rfl
  have hhigh {x : Nat} (hx : x < 256) (h : 128 ≤ x) : ¬UInt8.ofNat x < 128 := by
    have htoNat : (UInt8.ofNat x).toNat = x := UInt8.toNat_ofNat_of_lt' hx
    rw [UInt8.lt_iff_toNat_lt, htoNat]
    exact Nat.not_lt.mpr h
  rw [String.utf8EncodeChar]
  simp only [hval]
  generalize c.toNat = v at hlt hc
  split_ifs with h1 h2 h3
  · exact absurd (Nat.lt_succ_of_le h1) hc
  all_goals exact ⟨_, List.mem_cons_self, hhigh (by omega) (by omega)⟩

theorem isChain_noEscape {l : Bytes} (hl : ∀ c ∈ l, c ≠ 92) : l.IsChain NoEscape := by
  induction l with
  | nil => exact .nil
  | cons c l ih =>
    obtain ⟨hc, hl⟩ := List.forall_mem_cons.mp hl
    cases l with
    | nil => exact .singleton c
    | cons d l => exact List.isChain_cons_cons.mpr ⟨fun h => hc h.1, ih hl⟩

/-- A character that is kept is read as it stands, and the others leave a backslash in front of a `u`, or a zero. -/
theorem LitChar.kept_iff (u : LitChar) : u.Kept ↔ 0 ∉ u.value ∧ u.value.IsChain NoEscape := by
  cases u with
  | raw c h =>
    rw [LitChar.Kept, LitChar.bare_raw, LitChar.value]
    split_ifs with hc
    · have htoNat : (UInt8.ofNat c.toNat).toNat = c.toNat :=
        UInt8.toNat_ofNat_of_lt' (Nat.lt_trans hc (by decide))
      have hascii : UInt8.ofNat c.toNat < 128 := by rwa [UInt8.lt_iff_toNat_lt, htoNat]
      rw [encode_ascii hc, List.forall_mem_singleton, and_iff_left hascii, and_iff_left (List.IsChain.singleton _),
        List.mem_singleton, eq_comm]
    · refine iff_of_false ?_ ?_
      · obtain ⟨d, hd, hhigh⟩ := encode_high hc
        exact fun hkept => hhigh (hkept d hd).2
      · obtain ⟨hex, heq, -⟩ := escapeText_eq c.toNat
        rw [heq]
        exact fun h => (List.isChain_cons_cons.mp h.2).1 ⟨rfl, rfl⟩
  | escape c h =>
    have hc := escapeLetters_ascii c h
    refine iff_of_true (List.forall_mem_singleton.mpr hc) ⟨?_, .singleton c⟩
    exact fun h => hc.1 (List.mem_singleton.mp h).symm
  | unicode hex h =>
    have hhex (d : UInt8) (hd : d ∈ hex) := ascii_of_isXdigit (h.2 d hd)
    rw [LitChar.Kept, LitChar.bare_unicode]
    refine iff_of_true ?_ ⟨?_, ?_⟩
    · exact List.forall_mem_cons.mpr ⟨by decide, fun d hd => ⟨(hhex d hd).1, (hhex d hd).2.1⟩⟩
    · exact fun h0 => ((List.mem_cons.mp h0).elim nofun fun h0 => (hhex 0 h0).1 rfl)
    · exact isChain_noEscape (List.forall_mem_cons.mpr ⟨by decide, fun d hd => (hhex d hd).2.2⟩)

theorem LitChar.Kept.value_eq {u : LitChar} (h : u.Kept) : u.value = u.bare := by
  cases u with
  | raw c hc =>
    rw [LitChar.bare_raw, LitChar.value]
    split_ifs with hlt
    · exact (encode_ascii hlt).symm
    · obtain ⟨d, hd, hhigh⟩ := encode_high hlt
      rw [LitChar.Kept, LitChar.bare_raw] at h
      exact absurd (h d hd).2 hhigh
  | escape c hc => rfl
  | unicode hex hhex => exact (LitChar.bare_unicode hex hhex).symm

theorem LitChar.Kept.last_eq {u : LitChar} (h : u.Kept) : u.bare.getLast? = some 92 ↔ u.bare = [92] := by
  refine ⟨fun hlast => ?_, fun heq => by rw [heq]; rfl⟩
  cases u with
  | raw c hc =>
    have hraw : ∀ d ∈ LitChar.bare (.raw c hc), d ≠ 92 := by
      rw [LitChar.bare_raw]
      exact fun d hd => (encode_ne c hc d hd).2
    exact absurd rfl (hraw 92 (List.mem_of_getLast? hlast))
  | escape c hc => exact congrArg (fun c => [c]) (Option.some.inj hlast)
  | unicode hex hhex =>
    rw [LitChar.bare_unicode] at hlast
    rcases List.mem_cons.mp (List.mem_of_getLast? hlast) with h92 | h92
    · cases h92
    · exact absurd rfl (ascii_of_isXdigit (hhex.2 92 h92)).2.2

theorem LitChar.value_ne_nil (u : LitChar) : u.value ≠ [] := by
  cases u with
  | raw c h =>
    rw [LitChar.value]
    split_ifs
    · exact List.cons_ne_nil _ _
    · exact List.cons_ne_nil _ _
  | escape c h => exact List.cons_ne_nil _ _
  | unicode hex h => exact List.cons_ne_nil _ _

theorem LitChar.Kept.noEscape_iff {u w : LitChar} (hu : u.Kept) (hw : w.Kept) :
    (∀ᵉ (x ∈ u.value.getLast?) (y ∈ w.value.head?), NoEscape x y) ↔ ¬BackslashU u w := by
  rw [hu.value_eq, hw.value_eq, BackslashU, ← hu.last_eq]
  constructor
  · rintro h ⟨hlast, hhead⟩
    exact h 92 hlast 117 hhead ⟨rfl, rfl⟩
  · rintro h x hx y hy ⟨rfl, rfl⟩
    exact h ⟨hx, hy⟩

theorem QuotedLit.stable_iff (lit : QuotedLit) :
    (0 ∉ lit.flatMap LitChar.value ∧ (lit.flatMap LitChar.value).IsChain NoEscape) ↔
      (∀ u ∈ lit, u.Kept) ∧ lit.IsChain fun u w => ¬BackslashU u w := by
  have hne : [] ∉ lit.map LitChar.value := by
    intro h
    obtain ⟨u, -, hu⟩ := List.mem_map.mp h
    exact u.value_ne_nil hu
  have hzero : 0 ∉ lit.flatMap LitChar.value ↔ ∀ u ∈ lit, 0 ∉ u.value := by simp
  have hkept : (∀ u ∈ lit, u.Kept) ↔ (∀ u ∈ lit, 0 ∉ u.value) ∧ ∀ u ∈ lit, u.value.IsChain NoEscape := by
    simp only [LitChar.kept_iff, forall_and]
  rw [List.flatMap_def, List.isChain_flatten hne, ← List.flatMap_def, hzero, List.forall_mem_map, List.isChain_map,
    ← and_assoc, ← hkept]
  refine and_congr_right fun h => List.IsChain.iff_of_mem_imp fun u w hu hw => ?_
  exact (h u hu).noEscape_iff (h w hw)

theorem QuotedLit.rereads_iff [Unwritten] (ha : (charbufInit [] lookahead).a ≠ 0) (lit : QuotedLit) :
    Rereads sched lookahead (QuotedLit.text lit) ↔
      (∀ u ∈ lit, u.Kept) ∧ lit.IsChain fun u w => ¬BackslashU u w := by
  have hquoted : QuotedOk (lit.flatMap LitChar.quoted) := by
    intro q hq
    obtain ⟨u, -, hq⟩ := List.mem_flatMap.mp hq
    exact u.quotedOk q hq
  have hascii : ∀ c ∈ lit.flatMap LitChar.value, c < 128 := by
    intro c hc
    obtain ⟨u, -, hc⟩ := List.mem_flatMap.mp hc
    exact u.value_ascii c hc
  have hfirst (v : Bytes) : ReadsStr sched lookahead (QuotedLit.text lit) v ↔ lit.flatMap LitChar.value = v := by
    rw [QuotedLit.text, readsStr_iff hquoted ha, lit.escapeUtf8_bare, Except.ok.injEq]
  rw [← lit.stable_iff, ← prints_iff hascii ha]
  constructor
  · rintro ⟨v, out, hv, hprint, hout⟩
    rw [hfirst] at hv
    subst hv
    exact ⟨out, hprint, hout⟩
  · rintro ⟨out, hprint, hout⟩
    exact ⟨_, out, (hfirst _).mpr rfl, hprint, hout⟩

/-- A string is read again as it was read exactly if its characters are ASCII without the zero byte, and no
backslash in it comes to stand in front of a `u`. -/
theorem jsonString_rereads_iff [Unwritten] (sched : Schedule) (lookahead : Nat) (ha : (charbufInit [] lookahead).a ≠ 0)
    (lit : QuotedLit) : Rereads sched lookahead (QuotedLit.text lit) ↔
      (∀ u ∈ lit, u.Kept) ∧ lit.IsChain fun u w => ¬BackslashU u w :=
  lit.rereads_iff ha

/-- `"a\"` with its backslash escaped. -/
theorem jsonString_rereads_backslash : Rereads (fun _ => 1) 1 [34, 97, 92, 92, 34] :=
  (jsonString_rereads_iff (fun _ => 1) 1 (by decide) [.raw (Char.ofNat 97) (by decide), .escape 92 (by decide)]).mpr
    ⟨by decide, by decide⟩

/-- A single character of two bytes: it is read as a backslash and `u00e9`, and then without the backslash. -/
theorem jsonString_rereads_not : ¬∀ (sched : Schedule) (lookahead : Nat), (charbufInit [] lookahead).a ≠ 0 →
    ∀ lit : QuotedLit, Rereads sched lookahead (QuotedLit.text lit) := by
  intro hall
  have h := hall (fun _ => 1) 1 (by decide) [.raw (Char.ofNat 233) (by decide)]
  have hkept := (QuotedLit.rereads_iff (by decide) _).mp h
  exact absurd (hkept.1 _ List.mem_cons_self 195 (by decide)).2 (by decide)

end Dirlist
