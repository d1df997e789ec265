import Dirlist.Fmt
import Dirlist.Mainscan.Defs

/-! `xml_escape` and `xml_unescape`. A text is unescaped where it lies in memory, so the scanner may look
at the bytes behind it. What was escaped comes back but for the bytes that are written as UTF-8. -/

namespace Dirlist
open Run

/-! ## Escaping -/

/-- `fmt_pred` -/
def fmtPred (c : UInt8) : Bool := !(isalpha c || isdigit c || c = 32)

/-- `fmt_xmlescape`. The reference is built in a buffer of six bytes. -/
def fmtXmlescape (ch : Nat) : Exec Bytes :=
  if ch = 0 ∨ (0xd780 ≤ ch ∧ ch ≤ 0xdfff) ∨ ch = 0xfffe ∨ ch = 0xffff ∨ ch > 0x10ffff then .ok []
  else if ch &&& 0x7f < 20 ∧ ch ≠ 9 ∧ ch ≠ 0xa ∧ ch ≠ 0xd ∧ ch ≠ 0x85 then
    -- the bytes are copied out behind the block that `buf` belongs to, and are still there
    let buf := [38, 35, 120] ++ fmtXlong ch ++ [59]
    if buf.length ≤ 6 then .ok buf else .error .bounds
  else
    match ch with
    | 60 => .ok [38, 108, 116, 59]
    | 62 => .ok [38, 103, 116, 59]
    | 34 => .ok [38, 113, 117, 111, 116, 59]
    | 39 => .ok [38, 97, 112, 111, 115, 59]
    | 38 => .ok [38, 97, 109, 112, 59]
    | ch => .ok (fmtUtf8 ch)

/-- What is written for a byte. -/
def fmtByte (fmt : Nat → Exec Bytes) (pred : UInt8 → Bool) (c : UInt8) : Exec Bytes :=
  if pred c then fmt c.toNat else .ok [c]

/-- `stralloc_fmt_pred`. There is room for ten bytes at every call of `fmt`. -/
def strallocFmtPred (fmt : Nat → Exec Bytes) (pred : UInt8 → Bool) : Bytes → Exec Bytes
  | [] => .ok []
  | c :: s => do
    let w ← fmtByte fmt pred c
    if w.length ≤ 10 then
      let out ← strallocFmtPred fmt pred s
      .ok (w ++ out)
    else .error .bounds

def xmlEscape (s : Bytes) : Exec Bytes := strallocFmtPred fmtXmlescape fmtPred s

/-! ## Unescaping -/

/-- `str_diffn` over the bytes of `b` -/
def strDiffn : Bytes → Bytes → Exec Int
  | _, [] => .ok 0
  | [], _ :: _ => .error .bounds
  | s :: a, t :: b => if s ≠ t then .ok (s.toNat - t.toNat) else if t = 0 then .ok 0 else strDiffn a b

/-- `scan_xlong`: the digits taken and their value, which wraps. -/
def scanXlong (l : Nat) : Bytes → Exec (Nat × Nat)
  | [] => .error .bounds
  | c :: s =>
    match scanFromhex c with
    | none => .ok (0, l)
    | some d => do
      let (i, l) ← scanXlong ((l <<< 4 + d) % 2 ^ 64) s
      .ok (i + 1, l)

/-- `scan_ulong`, which stops before its value would wrap. -/
def scanUlong (l : Nat) : Bytes → Exec (Nat × Nat)
  | [] => .error .bounds
  | c :: s =>
    if isdigit c && 10 * l + (c.toNat - 48) < 2 ^ 64 then do
      let (i, l) ← scanUlong (10 * l + (c.toNat - 48)) s
      .ok (i + 1, l)
    else .ok (0, l)

/-- The names behind a `&`, in the order they are tried, with what they stand for. -/
def xmlEntities : List (Bytes × UInt8) :=
  [ ([97, 109, 112, 59], 38),            -- amp
    ([108, 116, 59], 60),                -- lt
    ([103, 116, 59], 62),                -- gt
    ([113, 117, 111, 116, 59], 34),      -- quot
    ([97, 112, 111, 115, 59], 39),       -- apos
    ([110, 98, 115, 112, 59], 160),      -- nbsp
    ([108, 97, 113, 117, 111, 59], 171), -- laquo
    ([114, 97, 113, 117, 111, 59], 187)  -- raquo
  ]

/-- The first name that is there, as the bytes it takes and what it stands for. -/
def scanEntity (src : Bytes) : List (Bytes × UInt8) → Exec (Option (Nat × UInt8))
  | [] => .ok none
  | (name, d) :: entities => do
    if (← strDiffn src name) = 0 then .ok (some (name.length + 1, d)) else scanEntity src entities

/-- The digits behind `&#`. -/
def scanCharcode (src : Bytes) : Exec (Nat × Nat) := do
  if (← byteAt src 0) = 120 then
    let (i, code) ← scanXlong 0 (src.drop 1)
    .ok (i + 1, code)
  else scanUlong 0 src

/-- A reference by number, of which `src` is the part behind `&#`. -/
def scanReference (src : Bytes) : Exec (Option (Nat × UInt8)) := do
  let (n, code) ← scanCharcode src
  let c ← byteAt src n
  .ok (if c = 59 then some (n + 3, UInt8.ofNat code) else none)

/-- The part behind a `&`. -/
def scanAmp (src : Bytes) : Exec (Option (Nat × UInt8)) := do
  if (← byteAt src 0) = 35 then scanReference (src.drop 1) else scanEntity src xmlEntities

/-- `scan_xmlescape`: the bytes taken and the byte they stand for. -/
def scanXmlescape (src : Bytes) : Exec (Nat × UInt8) := do
  let c ← byteAt src 0
  if c = 38 then
    let found ← scanAmp (src.drop 1)
    .ok (found.getD (1, c))
  else .ok (1, c)

/-- One round of `byte_scan`. -/
def byteScanRound (scan : Bytes → Exec (Nat × UInt8)) (mem : Bytes) (len : Nat) (_ : Nat) :
    Nat × Bytes → Exec (Nat × Bytes ⊕ Bytes)
  | (i, out) =>
    if i < len then do
      let (k, d) ← scan (mem.drop i)
      .ok (.inl (i + k, out ++ [d]))
    else .ok (.inr out)

def byteScan (scan : Bytes → Exec (Nat × UInt8)) (n : Nat) (mem : Bytes) (len : Nat) : Exec Bytes :=
  loop (byteScanRound scan mem len) n (0, [])

def xmlUnescape (n : Nat) (mem : Bytes) (len : Nat) : Exec Bytes := byteScan scanXmlescape n mem len

/-! ## What lies behind a text does not matter -/

variable {m t : Bytes}

theorem byteAt_append_left {i : Nat} {c : UInt8} (h : byteAt m i = .ok c) (t : Bytes) : byteAt (m ++ t) i = .ok c := by
  unfold byteAt at h ⊢
  cases hi : m[i]? with
  | none =>
    rw [hi] at h
    cases h
  | some b =>
    rw [hi] at h
    rw [List.getElem?_append_left (List.getElem?_eq_some_iff.mp hi).1, hi]
    exact h

theorem lt_of_byteAt {i : Nat} {c : UInt8} (h : byteAt m i = .ok c) : i < m.length := by
  by_contra hle
  rw [byteAt, List.getElem?_eq_none (Nat.not_lt.mp hle)] at h
  cases h

theorem strDiffn_append {b : Bytes} {r : Int} (h : strDiffn m b = .ok r) (t : Bytes) :
    strDiffn (m ++ t) b = .ok r := by
  induction b generalizing m with
  | nil =>
    rw [strDiffn] at h ⊢
    exact h
  | cons y b ih =>
    cases m with
    | nil => cases h
    | cons x m =>
      rw [List.cons_append, strDiffn]
      rw [strDiffn] at h
      split_ifs at h ⊢ with hxy hy
      · exact h
      · exact h
      · exact ih h

theorem scanXlong_append {l : Nat} {r : Nat × Nat} (h : scanXlong l m = .ok r) (t : Bytes) :
    scanXlong l (m ++ t) = .ok r := by
  induction m generalizing l r with
  | nil => cases h
  | cons c m ih =>
    rw [List.cons_append, scanXlong]
    rw [scanXlong] at h
    cases hc : scanFromhex c with
    | none =>
      rw [hc] at h
      exact h
    | some d =>
      rw [hc] at h
      obtain ⟨q, hq, hr⟩ := bind_eq_ok h
      simp only [ih hq]
      exact hr

theorem scanUlong_append {l : Nat} {r : Nat × Nat} (h : scanUlong l m = .ok r) (t : Bytes) :
    scanUlong l (m ++ t) = .ok r := by
  induction m generalizing l r with
  | nil => cases h
  | cons c m ih =>
    rw [List.cons_append, scanUlong]
    rw [scanUlong] at h
    split_ifs at h ⊢ with hc
    · obtain ⟨q, hq, hr⟩ := bind_eq_ok h
      rw [ih hq]
      exact hr
    · exact h

theorem scanEntity_append {es : List (Bytes × UInt8)} {r : Option (Nat × UInt8)} (h : scanEntity m es = .ok r)
    (t : Bytes) : scanEntity (m ++ t) es = .ok r := by
  induction es with
  | nil => exact h
  | cons e es ih =>
    rw [scanEntity] at h ⊢
    obtain ⟨j, hj, hr⟩ := bind_eq_ok h
    rw [strDiffn_append hj t, ok_bind]
    split_ifs at hr ⊢ with hzero
    · exact hr
    · exact ih hr

theorem scanCharcode_append {r : Nat × Nat} (h : scanCharcode m = .ok r) (t : Bytes) :
    scanCharcode (m ++ t) = .ok r := by
  rw [scanCharcode] at h ⊢
  obtain ⟨c, hc, h⟩ := bind_eq_ok h
  rw [byteAt_append_left hc t, ok_bind]
  split_ifs at h ⊢ with hx
  · obtain ⟨q, hq, hr⟩ := bind_eq_ok h
    rw [List.drop_append_of_le_length (lt_of_byteAt hc), scanXlong_append hq t]
    exact hr
  · exact scanUlong_append h t

theorem scanReference_append {r : Option (Nat × UInt8)} (h : scanReference m = .ok r) (t : Bytes) :
    scanReference (m ++ t) = .ok r := by
  rw [scanReference] at h ⊢
  obtain ⟨⟨n, code⟩, hnum, h⟩ := bind_eq_ok h
  obtain ⟨d, hd, h⟩ := bind_eq_ok h
  rw [scanCharcode_append hnum t, ok_bind]
  dsimp only
  rw [byteAt_append_left hd t]
  exact h

theorem scanAmp_append {r : Option (Nat × UInt8)} (h : scanAmp m = .ok r) (t : Bytes) :
    scanAmp (m ++ t) = .ok r := by
  rw [scanAmp] at h ⊢
  obtain ⟨c, hc, h⟩ := bind_eq_ok h
  rw [byteAt_append_left hc t, ok_bind]
  split_ifs at h ⊢ with hnum
  · rw [List.drop_append_of_le_length (lt_of_byteAt hc)]
    exact scanReference_append h t
  · exact scanEntity_append h t

theorem scanXmlescape_append {r : Nat × UInt8} (h : scanXmlescape m = .ok r) (t : Bytes) :
    scanXmlescape (m ++ t) = .ok r := by
  rw [scanXmlescape] at h ⊢
  obtain ⟨c, hc, h⟩ := bind_eq_ok h
  rw [byteAt_append_left hc t, ok_bind]
  split_ifs at h ⊢ with hamp
  · obtain ⟨found, hfound, h⟩ := bind_eq_ok h
    rw [List.drop_append_of_le_length (lt_of_byteAt hc), scanAmp_append hfound t]
    exact h
  · exact h

/-! ## Scanning in front of a zero byte -/

theorem byteAt_of_lt {i : Nat} (h : i < m.length) : byteAt m i = .ok (m.get ⟨i, h⟩) := by
  rw [byteAt, List.getElem?_eq_getElem h]
  rfl

theorem strDiffn_zero {b : Bytes} (hm : 0 ∈ m) (hb : 0 ∉ b) : ∃ r, strDiffn m b = .ok r := by
  induction b generalizing m with
  | nil => exact ⟨0, by rw [strDiffn]⟩
  | cons y b ih =>
    obtain ⟨x, m, rfl⟩ := List.exists_cons_of_ne_nil (List.ne_nil_of_mem hm)
    obtain ⟨hy, hb⟩ := not_or.mp (mt List.mem_cons.mpr hb)
    rw [strDiffn]
    by_cases hxy : x = y
    · rw [if_neg (not_not.mpr hxy), if_neg (Ne.symm hy)]
      exact ih ((List.mem_cons.mp hm).resolve_left fun h => hy (h.trans hxy)) hb
    · rw [if_pos hxy]
      exact ⟨_, rfl⟩

theorem scanXlong_zero (hm : 0 ∈ m) (l : Nat) : ∃ i r, scanXlong l m = .ok (i, r) ∧ i < m.length := by
  induction m generalizing l with
  | nil => cases hm
  | cons c m ih =>
    rw [scanXlong]
    cases hc : scanFromhex c with
    | none => exact ⟨0, l, rfl, Nat.succ_pos _⟩
    | some d =>
      have hm' : 0 ∈ m := (List.mem_cons.mp hm).resolve_left fun h => by
        have hzero : scanFromhex 0 = none := by decide
        rw [← h, hzero] at hc
        cases hc
      obtain ⟨i, r, hr, hlt⟩ := ih hm' ((l <<< 4 + d) % 2 ^ 64)
      exact ⟨i + 1, r, by simp only [hr, ok_bind], Nat.succ_lt_succ hlt⟩

theorem scanUlong_zero (hm : 0 ∈ m) (l : Nat) : ∃ i r, scanUlong l m = .ok (i, r) ∧ i < m.length := by
  induction m generalizing l with
  | nil => cases hm
  | cons c m ih =>
    rw [scanUlong]
    split_ifs with hc
    · have hm' : 0 ∈ m := (List.mem_cons.mp hm).resolve_left fun h => by
        rw [← h] at hc
        exact absurd hc (by simp [isdigit])
      obtain ⟨i, r, hr, hlt⟩ := ih hm' (10 * l + (c.toNat - 48))
      exact ⟨i + 1, r, by rw [hr]; rfl, Nat.succ_lt_succ hlt⟩
    · exact ⟨0, l, rfl, Nat.succ_pos _⟩

theorem scanEntity_zero {es : List (Bytes × UInt8)} (hm : 0 ∈ m) (hes : ∀ e ∈ es, 0 ∉ e.1) :
    ∃ r, scanEntity m es = .ok r ∧ ∀ p ∈ r, 0 < p.1 := by
  induction es with
  | nil => exact ⟨none, rfl, by simp⟩
  | cons e es ih =>
    obtain ⟨j, hj⟩ := strDiffn_zero hm (hes e List.mem_cons_self)
    rw [scanEntity, hj, ok_bind]
    split_ifs
    · exact ⟨_, rfl, by simp⟩
    · exact ih fun e he => hes e (List.mem_cons_of_mem _ he)

theorem scanCharcode_zero (hm : 0 ∈ m) : ∃ i r, scanCharcode m = .ok (i, r) ∧ i < m.length := by
  obtain ⟨c, m, rfl⟩ := List.exists_cons_of_ne_nil (List.ne_nil_of_mem hm)
  rw [scanCharcode, byteAt_of_lt (Nat.succ_pos _), ok_bind]
  split_ifs with hx
  · have hm' : 0 ∈ m := (List.mem_cons.mp hm).resolve_left fun h => absurd (h.trans hx) (by decide)
    obtain ⟨i, r, hr, hlt⟩ := scanXlong_zero hm' 0
    refine ⟨i + 1, r, ?_, Nat.succ_lt_succ hlt⟩
    rw [List.drop_succ_cons, List.drop_zero, hr]
    rfl
  · exact scanUlong_zero hm 0

theorem scanAmp_zero (hm : 0 ∈ m) : ∃ r, scanAmp m = .ok r ∧ ∀ p ∈ r, 0 < p.1 := by
  obtain ⟨c, m, rfl⟩ := List.exists_cons_of_ne_nil (List.ne_nil_of_mem hm)
  rw [scanAmp, byteAt_of_lt (Nat.succ_pos _), ok_bind]
  split_ifs with hnum
  · have hm' : 0 ∈ m := (List.mem_cons.mp hm).resolve_left fun h => absurd (h.trans hnum) (by decide)
    obtain ⟨i, code, hcode, hlt⟩ := scanCharcode_zero hm'
    rw [List.drop_succ_cons, List.drop_zero, scanReference, hcode, ok_bind]
    dsimp only
    rw [byteAt_of_lt hlt, ok_bind]
    split_ifs
    · exact ⟨_, rfl, by simp⟩
    · exact ⟨_, rfl, by simp⟩
  · exact scanEntity_zero hm (by decide)

/-- The scanner stays in front of the zero byte, and takes something. -/
theorem scanXmlescape_zero (hm : 0 ∈ m) : ∃ r, scanXmlescape m = .ok r ∧ 0 < r.1 := by
  obtain ⟨c, m, rfl⟩ := List.exists_cons_of_ne_nil (List.ne_nil_of_mem hm)
  rw [scanXmlescape, byteAt_of_lt (Nat.succ_pos _), ok_bind]
  split_ifs with hamp
  · have hm' : 0 ∈ m := (List.mem_cons.mp hm).resolve_left fun h => absurd (h.trans hamp) (by decide)
    obtain ⟨r, hr, hpos⟩ := scanAmp_zero hm'
    rw [List.drop_succ_cons, List.drop_zero, hr, ok_bind]
    refine ⟨_, rfl, ?_⟩
    cases r with
    | none => exact Nat.one_pos
    | some p => exact hpos p rfl
  · exact ⟨_, rfl, Nat.one_pos⟩

/-- With a zero byte behind it a text is unescaped, from any place in it on. -/
theorem byteScan_zero (x : Bytes) (n i : Nat) (out : Bytes) (hn : x.length < n + i) (hpos : 0 < n) :
    ∃ r, loop (byteScanRound scanXmlescape (x ++ [0]) x.length) n (i, out) = .ok r := by
  induction n generalizing i out with
  | zero => exact absurd hpos (Nat.lt_irrefl 0)
  | succ n ih =>
    rw [loop, byteScanRound]
    split_ifs with hi
    · have hmem : 0 ∈ (x ++ [0]).drop i := by
        rw [List.drop_append_of_le_length (Nat.le_of_lt hi)]
        exact List.mem_append_right _ List.mem_cons_self
      obtain ⟨⟨k, d⟩, hscan, hk⟩ := scanXmlescape_zero hmem
      have hk' : 0 < k := hk
      rw [hscan, ok_bind, ok_bind]
      exact ih (i + k) (out ++ [d]) (by omega) (by omega)
    · exact ⟨out, rfl⟩

/-- There are no more rounds than bytes. -/
theorem xmlUnescape_zero (x : Bytes) : ∃ out, xmlUnescape (x.length + 1) (x ++ [0]) x.length = .ok out :=
  byteScan_zero x (x.length + 1) 0 [] (Nat.lt_succ_self _) (Nat.succ_pos _)

/-! ## Scanning piece by piece -/

/-- A piece of a text that the scanner takes as a whole, whatever comes behind it. -/
def Scanned (scan : Bytes → Exec (Nat × UInt8)) (p : Bytes × UInt8) : Prop :=
  ∀ t, scan (p.1 ++ t) = .ok (p.1.length, p.2)

theorem scanned_of_ok {w : Bytes} {d : UInt8} (h : scanXmlescape w = .ok (w.length, d)) :
    Scanned scanXmlescape (w, d) := scanXmlescape_append h

variable {scan : Bytes → Exec (Nat × UInt8)} {ps : List (Bytes × UInt8)}

theorem returns_byteScan_from (hps : ∀ p ∈ ps, p.1 ≠ [] ∧ Scanned scan p) (done after out : Bytes) :
    Returns (fun n => loop (byteScanRound scan (done ++ (ps.flatMap Prod.fst ++ after))
      (done ++ ps.flatMap Prod.fst).length) n (done.length, out)) (out ++ ps.map Prod.snd) := by
  induction ps generalizing done out with
  | nil =>
    simp only [List.flatMap_nil, List.nil_append, List.map_nil, List.append_nil]
    have hround (k : Nat) : byteScanRound scan (done ++ after) done.length k (done.length, out) = .ok (.inr out) :=
      if_neg (Nat.lt_irrefl _)
    exact returns_loop_done ((returns_ok _).congr hround)
  | cons p ps ih =>
    obtain ⟨hne, hscan⟩ := hps p List.mem_cons_self
    have hround (k : Nat) : byteScanRound scan (done ++ ((p :: ps).flatMap Prod.fst ++ after))
        (done ++ (p :: ps).flatMap Prod.fst).length k (done.length, out) =
        .ok (.inl ((done ++ p.1).length, out ++ [p.2])) := by
      have hlt : done.length < (done ++ (p :: ps).flatMap Prod.fst).length := by
        rw [List.length_append, List.flatMap_cons, List.length_append]
        have hpos := List.length_pos_iff.mpr hne
        omega
      rw [byteScanRound, if_pos hlt, List.drop_left, List.flatMap_cons, List.append_assoc, hscan, ok_bind,
        List.length_append]
    have hrest := ih (fun q hq => hps q (List.mem_cons_of_mem _ hq)) (done ++ p.1) (out ++ [p.2])
    simp only [List.append_assoc, List.singleton_append] at hrest
    refine returns_loop_next ((returns_ok _).congr hround) ?_
    simpa only [List.flatMap_cons, List.append_assoc, List.map_cons] using hrest

theorem returns_byteScan (hps : ∀ p ∈ ps, p.1 ≠ [] ∧ Scanned scan p) (after : Bytes) :
    Returns (fun n => byteScan scan n (ps.flatMap Prod.fst ++ after) (ps.flatMap Prod.fst).length)
      (ps.map Prod.snd) := returns_byteScan_from hps [] after []

/-! ## The bytes one by one -/

/-- The bytes that `xml_escape` writes as UTF-8. -/
def wideByte (c : UInt8) : Bool := 148 ≤ c || c = 133

/-- What `xml_escape` writes for a byte. -/
def xmlWritten (c : UInt8) : Exec Bytes := fmtByte fmtXmlescape fmtPred c

/-- What it writes, piece by piece, with what the pieces are read as. -/
def xmlPieces (c : UInt8) : List (Bytes × UInt8) :=
  if wideByte c then [(192 : UInt8) ||| c >>> 6, 128 ||| c &&& 63].map fun b => ([b], b)
  else [((xmlWritten c).toOption.getD [], c)]

theorem xmlWritten_eq (c : UInt8) (hc : c ≠ 0) : xmlWritten c = .ok ((xmlPieces c).flatMap Prod.fst) :=
  forall_byte (P := fun c => c ≠ 0 → xmlWritten c = .ok ((xmlPieces c).flatMap Prod.fst)) (by decide +kernel) c hc

theorem xmlPieces_length (c : UInt8) : ((xmlPieces c).flatMap Prod.fst).length ≤ 10 :=
  forall_byte (P := fun c => ((xmlPieces c).flatMap Prod.fst).length ≤ 10) (by decide +kernel) c

theorem xmlPieces_clean (c : UInt8) : ∀ b ∈ (xmlPieces c).flatMap Prod.fst, b ≠ 60 ∧ b ≠ 62 ∧ b ≠ 34 :=
  forall_byte (P := fun c => ∀ b ∈ (xmlPieces c).flatMap Prod.fst, b ≠ 60 ∧ b ≠ 62 ∧ b ≠ 34) (by decide +kernel) c

theorem xmlPieces_scanned (c : UInt8) (hc : c ≠ 0) :
    ∀ p ∈ xmlPieces c, p.1 ≠ [] ∧ scanXmlescape p.1 = .ok (p.1.length, p.2) :=
  forall_byte (P := fun c => c ≠ 0 → ∀ p ∈ xmlPieces c, p.1 ≠ [] ∧ scanXmlescape p.1 = .ok (p.1.length, p.2))
    (by decide +kernel) c hc

/-! ## The round trip -/

variable {s : Bytes}

/-- The pieces of an escaped text. -/
def escapedPieces (s : Bytes) : List (Bytes × UInt8) := s.flatMap xmlPieces

theorem xmlEscape_eq (hs : 0 ∉ s) : xmlEscape s = .ok ((escapedPieces s).flatMap Prod.fst) := by
  induction s with
  | nil => rfl
  | cons c s ih =>
    have hc : c ≠ 0 := fun h => hs (h ▸ List.mem_cons_self)
    have hwritten : fmtByte fmtXmlescape fmtPred c = .ok ((xmlPieces c).flatMap Prod.fst) := xmlWritten_eq c hc
    have hrest := ih fun h => hs (List.mem_cons_of_mem _ h)
    rw [xmlEscape] at hrest ⊢
    rw [strallocFmtPred, hwritten, ok_bind, if_pos (xmlPieces_length c), hrest, ok_bind, escapedPieces,
      escapedPieces, List.flatMap_cons, List.flatMap_append]

theorem returns_xmlUnescape (hs : 0 ∉ s) (after : Bytes) :
    Returns (fun n => xmlUnescape n ((escapedPieces s).flatMap Prod.fst ++ after)
      ((escapedPieces s).flatMap Prod.fst).length) ((escapedPieces s).map Prod.snd) := by
  refine returns_byteScan (fun p hp => ?_) after
  obtain ⟨c, hc, hp⟩ := List.mem_flatMap.mp hp
  obtain ⟨hne, hscan⟩ := xmlPieces_scanned c (fun h => hs (h ▸ hc)) p hp
  exact ⟨hne, scanned_of_ok hscan⟩

theorem length_le_escapedPieces (s : Bytes) : s.length ≤ (escapedPieces s).length := by
  induction s with
  | nil => exact Nat.le_refl 0
  | cons c s ih =>
    have hpos : 1 ≤ (xmlPieces c).length := by
      unfold xmlPieces
      split <;> simp
    rw [escapedPieces, List.flatMap_cons, List.length_append, ← escapedPieces, List.length_cons]
    omega

/-- The pieces of a byte that is written as UTF-8 are read as two bytes. -/
theorem escapedPieces_values (s : Bytes) :
    (escapedPieces s).map Prod.snd = s ↔ ∀ c ∈ s, wideByte c = false := by
  induction s with
  | nil => simp [escapedPieces]
  | cons c s ih =>
    rw [escapedPieces, List.flatMap_cons, List.map_append, ← escapedPieces, List.forall_mem_cons, ← ih]
    cases hc : wideByte c with
    | false =>
      have hone : (xmlPieces c).map Prod.snd = [c] := by simp [xmlPieces, hc]
      rw [hone, List.singleton_append, List.cons_inj_right]
      exact (and_iff_right rfl).symm
    | true =>
      have htwo : ((xmlPieces c).map Prod.snd).length = 2 := by simp [xmlPieces, hc]
      refine ⟨fun h => ?_, fun h => absurd h.1 (by simp)⟩
      have hlen := congrArg List.length h
      have hle := length_le_escapedPieces s
      rw [List.length_append, htwo, List.length_map, List.length_cons] at hlen
      omega

/-- Escaping always gives a text without `<`, `>` and `"`, which is unescaped without looking at what lies
behind it. It is undone just where no byte is written as UTF-8: none from 148 on, and not 133. -/
theorem xmlUnescape_xmlEscape_iff (hs : 0 ∉ s) (after : Bytes) :
    ∃ e r, xmlEscape s = .ok e ∧ Returns (fun n => xmlUnescape n (e ++ after) e.length) r ∧
      (∀ b ∈ e, b ≠ 60 ∧ b ≠ 62 ∧ b ≠ 34) ∧ (r = s ↔ ∀ c ∈ s, ¬(148 ≤ c.toNat ∨ c = 133)) := by
  refine ⟨_, _, xmlEscape_eq hs, returns_xmlUnescape hs after, fun b hb => ?_, ?_⟩
  · obtain ⟨p, hp, hb⟩ := List.mem_flatMap.mp hb
    obtain ⟨c, -, hp⟩ := List.mem_flatMap.mp hp
    exact xmlPieces_clean c b (List.mem_flatMap.mpr ⟨p, hp, hb⟩)
  · rw [escapedPieces_values]
    refine forall₂_congr fun c _ => ?_
    simp [wideByte, UInt8.le_iff_toNat_le]

/-- A reference, a name that looks like one, and the bytes around the gap. -/
theorem xmlUnescape_xmlEscape_iff_mixed :
    ∃ e r, xmlEscape [1, 38, 97, 109, 112, 59, 147] = .ok e ∧
      Returns (fun n => xmlUnescape n (e ++ []) e.length) r ∧ (∀ b ∈ e, b ≠ 60 ∧ b ≠ 62 ∧ b ≠ 34) ∧
      (r = [1, 38, 97, 109, 112, 59, 147] ↔ ∀ c ∈ [1, 38, 97, 109, 112, 59, 147], ¬(148 ≤ UInt8.toNat c ∨ c = 133)) :=
  xmlUnescape_xmlEscape_iff (by decide) []

/-- The byte 233 comes back as 195 and 169. -/
theorem xmlUnescape_wide : ¬∀ s : Bytes, 0 ∉ s →
    ∃ e, xmlEscape s = .ok e ∧ Returns (fun n => xmlUnescape n e e.length) s ∧
      ∀ b ∈ e, b ≠ 60 ∧ b ≠ 62 ∧ b ≠ 34 := by
  intro h
  obtain ⟨e, he, ⟨N, hN⟩, -⟩ := h [233] (by decide)
  have hwritten : xmlEscape [233] = .ok [195, 169] := by decide +kernel
  obtain rfl : [195, 169] = e := Except.ok.inj (hwritten.symm.trans he)
  have hread := hN (N + 3) (Nat.le_add_right N 3)
  have hback : xmlUnescape (N + 3) [195, 169] 2 = .ok [195, 169] := rfl
  exact absurd (Except.ok.inj (hback.symm.trans hread)) (by decide)

end Dirlist
