import Dirlist.Json.Text

/-! How the tokens of a text are read: words, numbers and strings. -/

namespace Dirlist
open Run

variable {sched : Schedule} {b : Charbuf} {rest : Bytes} {q : Nat}

/-! ## Integers -/

theorem scanSigned_digits (neg : Bool) (o : Nat) {s : Bytes} (hne : s ≠ [])
    (hs : ∀ c ∈ s, isdigit c = true) (hr : natOf s ≤ 2 ^ 63 - 1 + if neg then 1 else 0) :
    scanSigned neg o s = (s.length + o, if neg then -(natOf s : Int) else natOf s) := by
  have hlt : natOf s < 2 ^ 64 := by
    cases neg <;> simp at hr <;> omega
  have hlen : s.length ≠ 0 := fun h => hne (List.length_eq_zero_iff.mp h)
  have hscan : scanUlonglong 0 s = (s.length, natOf s) := scanUlonglong_digits 0 hs hlt
  simp only [scanSigned, hscan, hlen, if_false]
  rw [if_neg (Nat.not_lt.mpr hr)]

theorem scanLonglong_lit (lit : IntLit) :
    scanLonglong lit.text = (lit.text.length, lit.value) := by
  obtain ⟨neg, digits, hne, hd, hr⟩ := lit
  cases neg with
  | true =>
    have hscan := scanSigned_digits true 1 hne hd hr
    simpa [IntLit.text, IntLit.value, scanLonglong] using hscan
  | false =>
    have hscan := scanSigned_digits false 0 hne hd hr
    obtain ⟨c, s, rfl⟩ := List.exists_cons_of_ne_nil hne
    have hc := hd c List.mem_cons_self
    have h45 : c ≠ 45 := by
      rintro rfl
      exact absurd hc (by decide)
    have h43 : c ≠ 43 := by
      rintro rfl
      exact absurd hc (by decide)
    have heq : scanLonglong (c :: s) = scanSigned false 0 (c :: s) := by
      unfold scanLonglong
      split
      · next h => exact absurd (List.cons.inj h).1 h45
      · next h => exact absurd (List.cons.inj h).1 h43
      · rfl
    simpa [IntLit.text, IntLit.value, heq] using hscan

/-- A byte that may stand behind the first byte of a number. -/
def isNumberChar (c : UInt8) : Bool := isdigit c || c = 46 || c = 69 || c = 101

/-- The loop takes the digits that are left, up to a byte that is no part of a number. -/
theorem At.numberLoop (sched : Schedule) {c e : UInt8} {ds : Bytes} (num : Bytes) (hc : c ≠ 0)
    (hds : ∀ d ∈ ds, isdigit d = true) (he : isNumberChar e = false)
    (h : At b (c :: (ds ++ e :: rest)) 1) :
    ∃ b', Returns (fun m => loop (numberRound sched) m (b, c, num, false))
        (some (num ++ c :: ds), false, b') ∧ At b' (e :: rest) 1 := by
  induction ds generalizing b c num with
  | nil =>
    obtain ⟨b', hnext, h'⟩ := h.nextc sched hc
    simp only [isNumberChar, Bool.or_eq_false_iff, decide_eq_false_iff_not] at he
    obtain ⟨⟨⟨hd, h46⟩, h69⟩, h101⟩ := he
    have hround (k : Nat) : numberRound sched k (b, c, num, false) =
        .ok (.inr (some (num ++ [c]), false, b')) := by
      simp [numberRound, hnext, hd, h46, h69, h101]
    exact ⟨b', returns_loop_done ⟨0, fun k _ => hround k⟩, h'⟩
  | cons d ds ih =>
    have hd := hds d List.mem_cons_self
    have hne : ∀ x, isdigit x = false → d ≠ x := by
      rintro x hx rfl
      rw [hd] at hx
      cases hx
    obtain ⟨b₁, hnext, h₁⟩ := h.nextc sched hc
    have hround (k : Nat) : numberRound sched k (b, c, num, false) =
        .ok (.inl (b₁, d, num ++ [c], false)) := by
      simp [numberRound, hnext, hd, hne 46 rfl, hne 69 rfl, hne 101 rfl]
    obtain ⟨b', hr, h'⟩ := ih (num ++ [c]) (hne 0 rfl)
      (fun x hx => hds x (List.mem_cons_of_mem _ hx)) h₁
    refine ⟨b', returns_loop_next ⟨0, fun k _ => hround k⟩ ?_, h'⟩
    simpa using hr

theorem IntLit.text_cons (lit : IntLit) : ∃ c ds, lit.text = c :: ds ∧ (isdigit c = true ∨ c = 45) ∧
    ∀ d ∈ ds, isdigit d = true := by
  obtain ⟨neg, digits, hne, hd, hr⟩ := lit
  cases neg with
  | true => exact ⟨45, digits, rfl, .inr rfl, hd⟩
  | false =>
    obtain ⟨c, s, rfl⟩ := List.exists_cons_of_ne_nil hne
    exact ⟨c, s, rfl, .inl (hd c List.mem_cons_self), fun d h => hd d (List.mem_cons_of_mem _ h)⟩

/-- A number followed by a byte that ends it. -/
theorem At.parseNumber (sched : Schedule) (val : JsonVal) {lit : IntLit} {e : UInt8}
    (he : isNumberChar e = false) (h : At b (lit.text ++ e :: rest) 1) :
    ∃ b', Returns (fun m => jsonParseNumber sched m val b) (1, .int lit.value, b') ∧
      At b' (e :: rest) 1 := by
  obtain ⟨c, ds, htext, hc, hds⟩ := lit.text_cons
  have hscan := scanLonglong_lit lit
  rw [htext] at h hscan
  have hc0 : c ≠ 0 := by
    rintro rfl
    revert hc
    decide
  obtain ⟨b₁, hpeek, h₁⟩ := h.peekc sched (Nat.le_refl 1)
  obtain ⟨b', hr, h'⟩ := h₁.numberLoop sched [] hc0 hds he
  refine ⟨b', ?_, h'⟩
  have hstart : isdigit c = true ∨ c = 45 ∨ c = 46 ∨ c = 43 := by
    rcases hc with hc | hc
    · exact .inl hc
    · exact .inr (.inl hc)
  have hend : scanNumber b' false (some ([] ++ c :: ds)) = (1, .int lit.value, b') := by
    simp [scanNumber, hscan]
  simp only [jsonParseNumber, hpeek, List.cons_append, List.head?_cons, hstart, if_true]
  exact hr.bind (returns_const (congrArg _ hend))

theorem At.parseNumber_other (sched : Schedule) (val : JsonVal) (h : At b rest q) (hq : 1 ≤ q)
    (hc : ∀ c ∈ rest.head?, ¬(isdigit c = true ∨ c = 45 ∨ c = 46 ∨ c = 43)) :
    ∃ b', Returns (fun m => jsonParseNumber sched m val b) (0, val, b') ∧ At b' rest q := by
  obtain ⟨b₁, hpeek, h₁⟩ := h.peekc sched hq
  refine ⟨b₁, ?_, h₁⟩
  cases rest with
  | nil => exact ⟨0, fun m _ => by simp only [jsonParseNumber, hpeek, List.head?_nil]⟩
  | cons c rest =>
    have hc := hc c rfl
    exact ⟨0, fun m _ => by simp only [jsonParseNumber, hpeek, List.head?_cons, hc, if_false]⟩

/-! ## Strings -/

theorem scanUtf8_ascii {c : UInt8} (hc : c < 128) (s : Bytes) : scanUtf8 (c :: s) = some (1, c.toNat) := by
  have hlt : c.toNat < 128 := UInt8.lt_iff_toNat_lt.mp hc
  have hfirst : ¬(c ≥ 0xfe ∨ c / 64 = 2) := by
    rintro (h | h)
    · have := UInt8.le_iff_toNat_le.mp h
      have hfe : (0xfe : UInt8).toNat = 254 := rfl
      omega
    · have := congrArg UInt8.toNat h
      rw [UInt8.toNat_div, show (64 : UInt8).toNat = 64 from rfl] at this
      have h2 : (2 : UInt8).toNat = 2 := rfl
      omega
  have hones : leadingOnes c = 0 := by
    rw [leadingOnes, if_pos hc]
  simp only [scanUtf8, hfirst, if_false, hones, if_true]

theorem escapeUtf8_append [Unwritten] {t s out : Bytes} (ht : ∀ c ∈ t, c < 128) (hout : escapeUtf8 0 s = .ok out) :
    escapeUtf8 0 (t ++ s) = .ok (t ++ out) := by
  induction t with
  | nil => exact hout
  | cons c t ih =>
    rw [List.cons_append, escapeUtf8, scanUtf8_ascii (ht c List.mem_cons_self)]
    simp only [gt_iff_lt, Nat.lt_irrefl, if_false]
    rw [ih fun d hd => ht d (List.mem_cons_of_mem _ hd), ok_bind, UInt8.ofNat_toNat, List.cons_append]

theorem escapeUtf8_ascii [Unwritten] {s : Bytes} (hs : ∀ c ∈ s, c < 128) : escapeUtf8 0 s = .ok s := by
  have h := escapeUtf8_append hs (s := []) rfl
  rwa [List.append_nil] at h

/-- The text of bytes between quotes, each of them behind a backslash or as it stands. -/
def quotedText (l : List (Bool × UInt8)) : Bytes := l.flatMap fun q => if q.1 then [92, q.2] else [q.2]

/-- Only behind a backslash may a byte be a quote or a backslash. -/
def QuotedOk (l : List (Bool × UInt8)) : Prop := ∀ q ∈ l, q.1 = false → q.2 ≠ 34 ∧ q.2 ≠ 92

/-- The loop takes the bytes between the quotes, without their backslashes. -/
theorem At.quotedLoop (sched : Schedule) {l : List (Bool × UInt8)} (hl : QuotedOk l) (sa : Bytes)
    (h : At b (quotedText l ++ 34 :: rest) 1) :
    ∃ b', Returns (fun m => loop (strallocRound sched true) m (b, sa)) (1, sa ++ l.map Prod.snd, b') ∧
      At b' rest 1 := by
  induction l generalizing b sa with
  | nil =>
    obtain ⟨b₁, hpeek, h₁⟩ := h.peekc sched (Nat.le_refl 1)
    obtain ⟨b₂, hskip, h₂⟩ := h₁.skip sched
    have hround (k : Nat) : strallocRound sched true k (b, sa) = .ok (.inr (1, sa, b₂)) := by
      simp only [quotedText, List.flatMap_nil, List.nil_append, List.head?_cons] at hpeek
      simp [strallocRound, hpeek, hskip]
    refine ⟨b₂, ?_, h₂.mono (by omega)⟩
    simpa using returns_loop_done ⟨0, fun k _ => hround k⟩
  | cons q l ih =>
    obtain ⟨hvalid, hl⟩ := List.forall_mem_cons.mp hl
    have hnext : ∃ b₁, (∀ k, strallocRound sched true k (b, sa) = .ok (.inl (b₁, sa ++ [q.2]))) ∧
        At b₁ (quotedText l ++ 34 :: rest) 1 := by
      rw [quotedText, List.flatMap_cons] at h
      by_cases he : q.1 = true
      · simp only [he, if_true] at h
        obtain ⟨b₁, hpeek, h₁⟩ := h.peekc sched (Nat.le_refl 1)
        obtain ⟨b₂, hnextc, h₂⟩ := h₁.nextc sched (by decide)
        obtain ⟨b₃, hskip, h₃⟩ := h₂.skip sched
        refine ⟨b₃, fun k => ?_, h₃.mono (by omega)⟩
        simp only [List.cons_append, List.head?_cons] at hpeek hnextc
        simp [strallocRound, hpeek, hnextc, hskip]
      · have hplain := hvalid (Bool.eq_false_iff.mpr he)
        rw [if_neg he] at h
        obtain ⟨b₁, hpeek, h₁⟩ := h.peekc sched (Nat.le_refl 1)
        obtain ⟨b₂, hskip, h₂⟩ := h₁.skip sched
        refine ⟨b₂, fun k => ?_, h₂.mono (by omega)⟩
        simp only [List.cons_append, List.head?_cons] at hpeek
        simp [strallocRound, hpeek, hskip, hplain]
    obtain ⟨b₁, hround, h₁⟩ := hnext
    obtain ⟨b', hr, h'⟩ := ih hl (sa ++ [q.2]) h₁
    refine ⟨b', ?_, h'⟩
    rw [List.append_assoc] at hr
    exact returns_loop_next ⟨0, fun k _ => hround k⟩ hr

def StringLit.quoted (lit : StringLit) : List (Bool × UInt8) := lit.map fun ch => (ch.escaped, ch.byte)

theorem StringLit.body_eq (lit : StringLit) : StringLit.body lit = quotedText (StringLit.quoted lit) := by
  rw [quotedText, StringLit.quoted, List.flatMap_map]
  rfl

theorem StringLit.quotedOk (lit : StringLit) : QuotedOk (StringLit.quoted lit) := by
  intro q hq he
  obtain ⟨ch, -, rfl⟩ := List.mem_map.mp hq
  have hesc : ¬ch.escaped = true := Bool.eq_false_iff.mp he
  have hvalid := ch.valid
  rwa [if_neg hesc] at hvalid

theorem At.strallocLoop (sched : Schedule) (lit : StringLit) (sa : Bytes)
    (h : At b (StringLit.body lit ++ 34 :: rest) 1) :
    ∃ b', Returns (fun m => loop (strallocRound sched true) m (b, sa))
        (1, sa ++ StringLit.value lit, b') ∧ At b' rest 1 := by
  rw [StringLit.body_eq] at h
  have hvalue : (StringLit.quoted lit).map Prod.snd = StringLit.value lit := by
    rw [StringLit.quoted, List.map_map]
    rfl
  rw [← hvalue]
  exact h.quotedLoop sched (StringLit.quotedOk lit) sa

theorem StringLit.value_ascii (lit : StringLit) : ∀ c ∈ StringLit.value lit, c < 128 := by
  intro c hc
  obtain ⟨ch, -, rfl⟩ := List.mem_map.mp hc
  exact ch.ascii.2

theorem At.parseString [Unwritten] (sched : Schedule) (val : JsonVal) {lit : StringLit}
    (h : At b (StringLit.text lit ++ rest) 1) :
    ∃ b', Returns (fun m => jsonParseString sched m val b) (1, .string (StringLit.value lit), b') ∧
      At b' rest 1 := by
  have htext : StringLit.text lit ++ rest = 34 :: (StringLit.body lit ++ 34 :: rest) := by
    simp [StringLit.text]
  rw [htext] at h
  obtain ⟨b₁, hr₁, h₁⟩ := h.skipIfeq_eq sched (by decide)
  rw [if_neg (by simp)] at hr₁
  obtain ⟨b₂, hr₂, h₂⟩ := (h₁.mono (by omega)).strallocLoop sched lit []
  have hesc := escapeUtf8_ascii lit.value_ascii
  refine ⟨b₂, hr₁.bind ?_, h₂⟩
  refine Returns.bind (a := (1, StringLit.value lit, b₂)) (hr₂.bind (returns_const ?_)) (returns_ok _)
  simp [hesc]

theorem At.parseString_other [Unwritten] (sched : Schedule) (val : JsonVal) (h : At b rest q) (hq : 1 ≤ q)
    (hc : rest.head? ≠ some 34) :
    ∃ b', Returns (fun m => jsonParseString sched m val b) (0, val, b') ∧ At b' rest q := by
  obtain ⟨b₁, hr₁, h₁⟩ := h.skipIfeq_ne sched hq (by decide) hc
  exact ⟨b₁, hr₁.bind (returns_ok _), h₁⟩

/-! ## Words -/

theorem predCount_identifier_le (word : Bytes) (n : Nat) (s : Bytes) :
    predCount (predicateIdentifier word) n s ≤ word.length + 1 - n := by
  induction s generalizing n with
  | nil => exact Nat.zero_le _
  | cons c s ih =>
    have := ih (n + 1)
    by_cases hp : predicateIdentifier word c n = true
    · have hn : n ≤ word.length := by
        by_contra hn
        rw [predicateIdentifier, if_neg (by omega), if_neg (by omega)] at hp
        cases hp
      rw [predCount, if_pos hp]
      omega
    · rw [predCount, if_neg hp]
      omega

theorem predCount_identifier_ge (word pre post : Bytes) (hw : pre ++ post = word) (s : Bytes) :
    post.length ≤ predCount (predicateIdentifier word) pre.length (post ++ s) := by
  induction post generalizing pre with
  | nil => exact Nat.zero_le _
  | cons c post ih =>
    have hp : predicateIdentifier word c pre.length = true := by
      rw [predicateIdentifier, if_pos (by simp [← hw])]
      simp [← hw]
    have := ih (pre ++ [c]) (by simpa using hw)
    rw [List.length_append, List.length_singleton] at this
    rw [List.cons_append, predCount, if_pos hp, List.length_cons]
    omega

theorem At.parseNull (sched : Schedule) (val : JsonVal) (h : At b (nullWord ++ rest) 1) :
    ∃ b', Returns (fun m => jsonParseNull sched m val b) (1, .null, b') ∧ At b' rest 2 := by
  have hle := predCount_identifier_le nullWord 0 (nullWord ++ rest)
  have hge := predCount_identifier_ge nullWord [] nullWord rfl rest
  have h4 : nullWord.length = 4 := rfl
  obtain ⟨b₁, hr₁, h₁⟩ := h.predLookahead sched (predicateIdentifier nullWord) (by omega)
  refine ⟨charbufSkipn sched b₁ 4, hr₁.bind (returns_const ?_), ?_⟩
  · simp only [List.length_nil] at hge
    exact if_pos (by omega)
  · exact (h₁.skipn sched (by decide) (by omega)).mono (by omega)

theorem predCount_null_other (hc : rest.head? ≠ some 110) :
    predCount (predicateIdentifier nullWord) 0 rest = 0 := by
  cases rest with
  | nil => rfl
  | cons c rest =>
    have hne : c ≠ 110 := fun hc' => hc (by rw [hc', List.head?_cons])
    have hp : predicateIdentifier nullWord c 0 = false := by
      simp [predicateIdentifier, nullWord, hne.symm]
    simp [predCount, hp]

theorem At.parseNull_other (sched : Schedule) (val : JsonVal) (h : At b rest 1)
    (hc : rest.head? ≠ some 110) :
    ∃ b', Returns (fun m => jsonParseNull sched m val b) (0, val, b') ∧ At b' rest 1 := by
  have hcount := predCount_null_other hc
  obtain ⟨b₁, hr₁, h₁⟩ := h.predLookahead sched (predicateIdentifier nullWord) (by omega)
  rw [hcount] at hr₁ h₁
  exact ⟨b₁, hr₁.bind (returns_ok _), h₁⟩

theorem At.skipWord (sched : Schedule) {word : Bytes} (hz : 0 ∉ word) (hrest : rest ≠ [])
    (h : At b (word ++ rest) 1) :
    ∃ b', Returns (fun m => skipWord sched m b word) (true, b') ∧ At b' rest 1 := by
  induction word generalizing b with
  | nil => exact ⟨b, returns_ok _, h⟩
  | cons c word ih =>
    obtain ⟨hc, hz'⟩ : c ≠ 0 ∧ 0 ∉ word := by simpa [eq_comm] using hz
    obtain ⟨b₁, hr₁, h₁⟩ := At.skipIfeq_eq sched h hc
    rw [if_neg (by simp [hrest])] at hr₁
    obtain ⟨b', hr, h'⟩ := ih hz' (h₁.mono (by omega))
    exact ⟨b', hr₁.bind hr, h'⟩

/-- The first letter is skipped, and the second one decides. -/
theorem At.parseBoolean_first (sched : Schedule) (val : JsonVal) {c : UInt8} {v : Bool}
    (hc : c = 116 ∨ c = 102) (h : At b (c :: (boolTail v ++ rest)) 1) :
    ∃ b₁, At b₁ (boolTail v ++ rest) 1 ∧ ∀ m, jsonParseBoolean sched m val b = (do
      let (all, b) ← Dirlist.skipWord sched m b₁ (boolTail v)
      if all then .ok (1, .bool v, b) else .ok (0, val, b)) := by
  have hc0 : c ≠ 0 := by rcases hc with rfl | rfl <;> decide
  obtain ⟨b₁, hset, h₁⟩ := h.skipIfset_mem sched (Nat.le_refl 1) (List.mem_pair.mpr hc)
  obtain ⟨b₂, hpeek, h₂⟩ := (h₁.mono (Nat.zero_le 1)).peekc sched (Nat.le_refl 1)
  have hhead : decide ((boolTail v ++ rest).head? = some 114) = v := by
    cases v <;> rfl
  refine ⟨b₂, h₂, fun m => ?_⟩
  simp only [jsonParseBoolean, hset, gt_iff_lt, toNat_pos_of_ne_zero hc0, if_true, hpeek, hhead]
  rfl

theorem At.parseBoolean (sched : Schedule) (val : JsonVal) {c : UInt8} {v : Bool}
    (hc : c = 116 ∨ c = 102) (hrest : rest ≠ []) (h : At b (c :: (boolTail v ++ rest)) 1) :
    ∃ b', Returns (fun m => jsonParseBoolean sched m val b) (1, .bool v, b') ∧ At b' rest 1 := by
  obtain ⟨b₁, h₁, heq⟩ := h.parseBoolean_first sched val hc
  obtain ⟨b', hr, h'⟩ := h₁.skipWord sched (by cases v <;> decide) hrest
  exact ⟨b', Returns.congr (hr.bind (returns_ok _)) heq, h'⟩

theorem At.parseBoolean_other (sched : Schedule) (val : JsonVal) (h : At b rest q) (hq : 1 ≤ q)
    (hc : ∀ c ∈ rest.head?, c ∉ [116, 102]) :
    ∃ b', Returns (fun m => jsonParseBoolean sched m val b) (0, val, b') ∧ At b' rest q := by
  obtain ⟨b₁, hset, h₁⟩ := h.skipIfset_not_mem sched _ hq hc
  exact ⟨b₁, ⟨0, fun m _ => by simp only [jsonParseBoolean, hset]; rfl⟩, h₁⟩

end Dirlist
