import Dirlist.Http.Header

/-! What `http_read_header` makes of a block of headers, line by line. The value of `Content-Length` is
read from behind one blank, and it is the lines that are not `Transfer-Encoding` which make a body chunked. -/

namespace Dirlist
open Run

/-! ## The start of a line -/

variable {s t p e : Bytes} {f : HttpField} {h : HttpReading}

theorem caseLower_eq_colon {c : UInt8} (h : caseLower c = 58) : c = 58 :=
  forall_byte (P := fun c => caseLower c = 58 → c = 58) (by decide +kernel) c h

theorem caseLower_eq_return {c : UInt8} (h : caseLower c = 13) : c = 13 :=
  forall_byte (P := fun c => caseLower c = 13 → c = 13) (by decide +kernel) c h

theorem SameCase.mem {d : UInt8} (hd : ∀ c, caseLower c = d → c = d) (hlower : caseLower d = d)
    (h : SameCase s t) (hs : d ∈ s) : d ∈ t := by
  have hmem : d ∈ t.map caseLower := h ▸ List.mem_map.mpr ⟨d, hs, hlower⟩
  obtain ⟨c, hc, hcd⟩ := List.mem_map.mp hmem
  exact hd c hcd ▸ hc

theorem lineStarts_eq (s x p : Bytes) :
    lineStarts s.length (s ++ x) p = .ok (decide (SameCase (s.take p.length) p)) := by
  unfold lineStarts
  by_cases hp : p.length ≤ s.length
  · have hlen : p.length ≤ (s ++ x).length := Nat.le_trans hp (by simp)
    obtain ⟨r, hr, hsame⟩ := caseDiffb_spec hlen (Nat.le_refl p.length)
    rw [List.take_append_of_le_length hp, List.take_length] at hsame
    rw [if_pos hp, hr, ok_bind, decide_eq_decide.mpr hsame]
  · have hshort : ¬SameCase (s.take p.length) p := by
      intro hsame
      have hlen := hsame.length_eq
      rw [List.length_take] at hlen
      omega
    rw [if_neg hp, decide_eq_false hshort]

/-- The end of a line is part of no name. -/
theorem sameCase_take_line (hp : 13 ∉ p) :
    SameCase ((t ++ 13 :: e).take p.length) p ↔ SameCase (t.take p.length) p := by
  rcases Nat.lt_or_ge t.length p.length with hlt | hle
  · refine iff_of_false (fun hsame => hp ?_) (fun hsame => ?_)
    · refine hsame.mem (fun _ => caseLower_eq_return) (by decide) ?_
      obtain ⟨k, hk⟩ := Nat.exists_eq_add_of_lt hlt
      have htake : (t ++ 13 :: e).take p.length = t ++ 13 :: e.take k := by
        rw [hk, Nat.add_assoc, List.take_length_add_append, List.take_succ_cons]
      rw [htake]
      simp
    · have hlen := hsame.length_eq
      rw [List.length_take] at hlen
      omega
  · rw [List.take_append_of_le_length hle]

/-- Up to the colon, the start of a header line is its name. -/
theorem sameCase_take_name {name y : Bytes} (hname : 58 ∉ name) (hp : 58 ∉ p) :
    SameCase ((name ++ 58 :: y).take (p ++ [58]).length) (p ++ [58]) ↔ SameCase name p := by
  have hlen : (p ++ [58]).length = p.length + 1 := by simp
  have hcolon : ∀ c, caseLower c = 58 → c = 58 := fun _ => caseLower_eq_colon
  rw [hlen]
  rcases Nat.lt_trichotomy name.length p.length with hlt | heq | hgt
  · refine iff_of_false (fun hsame => hp ?_) (fun hsame => Nat.ne_of_lt hlt hsame.length_eq)
    -- the colon of the line is matched by a byte of `p`
    have hshort : SameCase ((name ++ 58 :: y).take p.length) p := by
      have htake := congrArg (List.take p.length) hsame
      rwa [← List.map_take, ← List.map_take, List.take_take, Nat.min_eq_left (Nat.le_succ _), List.take_left] at htake
    refine hshort.mem hcolon (by decide) ?_
    obtain ⟨k, hk⟩ := Nat.exists_eq_add_of_lt hlt
    rw [hk, Nat.add_assoc, List.take_length_add_append, List.take_succ_cons]
    simp
  · have htake : (name ++ 58 :: y).take (p.length + 1) = name ++ [58] := by
      rw [← heq, List.take_length_add_append]
      rfl
    rw [htake]
    unfold SameCase
    rw [List.map_append, List.map_append, List.append_cancel_right_eq]
  · refine iff_of_false (fun hsame => hname ?_) (fun hsame => Nat.ne_of_gt hgt hsame.length_eq)
    rw [List.take_append_of_le_length hgt] at hsame
    exact (List.take_sublist _ _).subset (hsame.symm.mem hcolon (by decide) (by simp))

theorem HttpField.text_starts (f : HttpField) (hp : 58 ∉ p) :
    SameCase (f.text.take (p ++ [58]).length) (p ++ [58]) ↔ f.named p = true := by
  rw [HttpField.text, sameCase_take_name f.name_ok.1 hp, HttpField.named, decide_eq_true_iff]

/-! ## The word in a line -/

theorem strContains_iff {x needle : Bytes} (hne : needle ≠ []) :
    strContains x needle = true ↔ needle <:+: cString x := by
  have hle := byteFindb_le needle (cString x)
  have hthere : strContains x needle = true ↔ byteFindb needle (cString x) < (cString x).length := by
    simp [strContains]
  rw [hthere, ← not_iff_not, ← byteFindb_eq_length hne]
  omega

/-- A word without the byte at the end of a text is not reached by it. -/
theorem infix_concat {w : Bytes} {c : UInt8} (hne : w ≠ []) (hc : c ∉ w) : w <:+: t ++ [c] ↔ w <:+: t := by
  rw [List.infix_concat_iff]
  refine or_iff_right fun hsuffix => ?_
  obtain ⟨u, hu⟩ := hsuffix
  have hlast := congrArg List.getLast? hu
  rw [List.getLast?_append_of_ne_nil _ hne, List.getLast?_concat] at hlast
  exact hc (List.mem_of_getLast? hlast)

theorem cString_append (t : Bytes) (h : 0 ∈ t) : cString (t ++ e) = cString t := by
  obtain ⟨w, r, rfl, hw, hr, -⟩ := exists_until 0 t
  obtain rfl | ⟨r, rfl⟩ := hr
  · exact absurd rfl (hw 0 (by simpa using h))
  · have hfree : ∀ c ∈ w, decide (c ≠ 0) = true := fun c hc => by simpa using hw c hc
    rw [List.append_assoc, cString, cString, List.takeWhile_append_of_pos hfree, List.takeWhile_append_of_pos hfree]
    rfl

/-- The end of a line is not part of the word. -/
theorem strContains_line : strContains ((t ++ [13, 10]) ++ [0]) chunkedName = true ↔ chunkedName <:+: cString t := by
  rw [strContains_iff (by decide)]
  by_cases hz : 0 ∈ t
  · rw [List.append_assoc, cString_append t hz]
  · have hfree : ∀ c ∈ t, decide (c ≠ 0) = true := fun c hc => by simpa using ne_of_mem_of_not_mem hc hz
    have hself : cString t = t := List.takeWhile_eq_self_iff.mpr hfree
    have hline : cString ((t ++ [13, 10]) ++ [0]) = t ++ [13] ++ [10] := by
      rw [List.append_assoc, cString, List.takeWhile_append_of_pos hfree, List.append_assoc]
      rfl
    rw [hline, hself, infix_concat (by decide) (by decide), infix_concat (by decide) (by decide)]

/-! ## One line -/

/-- A line that makes the body chunked. It is neither of the headers that frame one. -/
def strayLine (t : Bytes) : Bool :=
  !SameCase (t.take 15) (lengthName ++ [58]) && !SameCase (t.take 18) (encodingName ++ [58]) &&
    (16 ≤ t.length && decide (chunkedName <:+: cString t))

/-- The length that a line is read as: from its 17th byte on. -/
def lengthRead (t : Bytes) (old : Nat) : Nat := scanContentLength ((t ++ [13, 10, 0]).drop 16) old

/-- What a line without its end does to the response, unless it names a multipart type. -/
def frameText (t : Bytes) (r : HttpResponse) : HttpResponse :=
  if SameCase (t.take 15) (lengthName ++ [58]) then
    { r with contentLength := lengthRead t r.contentLength, transfer := .length, ptr := 0 }
  else if strayLine t then { r with ptr := 0, chunkLength := 0, contentLength := 0, transfer := .chunked }
  else r

theorem lineStarts_line (hp : 13 ∉ p) :
    lineStarts (t ++ [13, 10]).length ((t ++ [13, 10]) ++ [0]) p = .ok (decide (SameCase (t.take p.length) p)) := by
  rw [lineStarts_eq, decide_eq_decide.mpr (sameCase_take_line hp)]

theorem lineChunked_line (hlen : ¬SameCase (t.take 15) (lengthName ++ [58])) :
    lineChunked (t ++ [13, 10]).length ((t ++ [13, 10]) ++ [0]) = .ok (strayLine t) := by
  have hlength : (t ++ [13, 10]).length = t.length + 2 := List.length_append
  unfold lineChunked strayLine
  rw [hlength, decide_eq_false hlen, Bool.not_false, Bool.true_and]
  by_cases hlong : 16 ≤ t.length
  · have h18 : t.length + 2 ≥ 18 := by omega
    have hle : 18 ≤ ((t ++ [13, 10]) ++ [0]).length := by
      simp only [List.length_append, List.length_cons, List.length_nil]
      omega
    obtain ⟨r, hr, hsame⟩ := caseDiffb_spec hle (by decide : 18 ≤ (encodingName ++ [58]).length)
    have hstart : r = 0 ↔ SameCase (t.take 18) (encodingName ++ [58]) := by
      have hfree : 13 ∉ encodingName ++ [58] := by decide
      have htake : (encodingName ++ [58]).take 18 = encodingName ++ [58] := rfl
      rw [hsame, htake, List.append_assoc]
      exact sameCase_take_line hfree
    rw [if_pos h18, hr, ok_bind, decide_eq_true hlong, Bool.true_and]
    congr 1
    rw [Bool.eq_iff_iff, Bool.and_eq_true, strContains_line, decide_eq_true_iff, Bool.and_eq_true,
      Bool.not_eq_true', decide_eq_false_iff_not, decide_eq_true_iff, ne_eq, hstart]
  · rw [if_neg (by omega), decide_eq_false hlong, Bool.false_and, Bool.and_false]

theorem httpHeaderLine_text (hm : ¬SameCase (t.take 23) multipartStart) (h : HttpReading) :
    httpHeaderLine (t ++ [13, 10]) h = .ok { h with response := frameText t h.response } := by
  have hmulti : lineStarts (t ++ [13, 10]).length ((t ++ [13, 10]) ++ [0]) multipartStart = .ok false := by
    rw [lineStarts_line (by decide)]
    exact congrArg _ (decide_eq_false hm)
  have hlength : lineStarts (t ++ [13, 10]).length ((t ++ [13, 10]) ++ [0]) (lengthName ++ [58]) =
      .ok (decide (SameCase (t.take 15) (lengthName ++ [58]))) := lineStarts_line (by decide)
  unfold httpHeaderLine frameText
  dsimp only
  rw [hmulti, ok_bind, if_neg Bool.false_ne_true, hlength, ok_bind]
  by_cases hlen : SameCase (t.take 15) (lengthName ++ [58])
  · rw [if_pos (decide_eq_true hlen), if_pos hlen, lengthRead, List.append_assoc]
    rfl
  · rw [if_neg (by simpa using hlen), if_neg hlen, lineChunked_line hlen, ok_bind]
    cases strayLine t <;> rfl

/-! ## All lines -/

/-- The reading of one line, which is appended to the data. -/
def readLine (h : HttpReading) (t : Bytes) : HttpReading :=
  let data := h.response.data ++ (t ++ [13, 10])
  { h with response := frameText t { h.response with data := data }, code := httpStatusCode data h.code }

/-- A line that is not the end of the header, and names no multipart type. -/
structure HeaderText (t : Bytes) : Prop where
  free : 10 ∉ t
  some_byte : ∃ c ∈ t, c ≠ 13 ∧ c ≠ 10
  no_multipart : ¬SameCase (t.take 23) multipartStart

theorem bufferGetlineSa_line (ht : 10 ∉ t) (rest sa : Bytes) :
    bufferGetlineSa (t ++ 13 :: 10 :: rest) sa = (1, sa ++ (t ++ [13, 10]), rest) := by
  have hfree : 10 ∉ t ++ [13] := by simpa using ht
  have hshape : t ++ 13 :: 10 :: rest = (t ++ [13]) ++ 10 :: rest := by simp
  have hlt : (t ++ [13]).length < ((t ++ [13]) ++ 10 :: rest).length := by simp
  rw [bufferGetlineSa, hshape, byteChr_at hfree, if_pos hlt, List.take_length_add_append, ← List.drop_drop,
    List.drop_left]
  simp

theorem byteTrimr_line (ht : ∃ c ∈ t, c ≠ 13 ∧ c ≠ 10) : byteTrimr (t ++ [13, 10]) [13, 10] ≠ 0 := by
  obtain ⟨c, hc, h13, h10⟩ := ht
  rw [byteTrimr, ne_eq, List.length_eq_zero_iff, List.rdropWhile_eq_nil_iff]
  intro hall
  have hbad := hall c (List.mem_append_left _ hc)
  simp [h13, h10] at hbad

theorem frameText_status (t : Bytes) (r : HttpResponse) : (frameText t r).status = r.status := by
  unfold frameText
  split_ifs <;> rfl

theorem frameText_data (t : Bytes) (r : HttpResponse) : (frameText t r).data = r.data := by
  unfold frameText
  split_ifs <;> rfl

theorem readHeaderRound_line (hstatus : h.response.status = .recvHeader) (ht : HeaderText t) (rest : Bytes)
    (ret : Int) (k : Nat) :
    readHeaderRound k (ret, { h with input := t ++ 13 :: 10 :: rest }) =
      .ok (.inl (1, { readLine h t with input := rest })) := by
  have hdrop : (h.response.data ++ (t ++ [13, 10])).drop h.response.data.length = t ++ [13, 10] := List.drop_left
  rw [readHeaderRound]
  dsimp only
  rw [if_pos hstatus, bufferGetlineSa_line ht.free]
  dsimp only
  rw [if_neg (by decide), hdrop, if_neg (byteTrimr_line ht.some_byte), httpHeaderLine_text ht.no_multipart, ok_bind]
  rfl

theorem readHeaderRound_end (hstatus : h.response.status = .recvHeader) (rest : Bytes) (ret : Int) (k : Nat) :
    readHeaderRound k (ret, { h with input := 13 :: 10 :: rest }) =
      .ok (.inr (1, { h with
        response := { h.response with data := h.response.data ++ [13, 10], status := .recvData }
        input := rest })) := by
  have hline : bufferGetlineSa (13 :: 10 :: rest) h.response.data = (1, h.response.data ++ [13, 10], rest) :=
    bufferGetlineSa_line List.not_mem_nil rest h.response.data
  have hdrop : (h.response.data ++ [13, 10]).drop h.response.data.length = [13, 10] := List.drop_left
  have htrim : byteTrimr [13, 10] [13, 10] = 0 := by decide
  rw [readHeaderRound]
  dsimp only
  rw [if_pos hstatus, hline]
  dsimp only
  rw [if_neg (by decide), hdrop, if_pos htrim]

/-- The lines one after the other, up to the empty one. -/
theorem returns_lines {ls : List Bytes} (hls : ∀ t ∈ ls, HeaderText t) (hstatus : h.response.status = .recvHeader)
    (rest : Bytes) (ret : Int) :
    Returns (fun n => loop readHeaderRound n
        (ret, { h with input := ls.flatMap (· ++ [13, 10]) ++ 13 :: 10 :: rest }))
      (1, { ls.foldl readLine h with
        response := { (ls.foldl readLine h).response with
          data := (ls.foldl readLine h).response.data ++ [13, 10], status := .recvData }
        input := rest }) := by
  induction ls generalizing h ret with
  | nil => exact returns_loop_done ((returns_ok _).congr (readHeaderRound_end hstatus rest ret))
  | cons t ls ih =>
    have hnext : (readLine h t).response.status = .recvHeader := (frameText_status t _).trans hstatus
    have hrest := ih (fun u hu => hls u (List.mem_cons_of_mem _ hu)) hnext 1
    have hround := readHeaderRound_line hstatus (hls t List.mem_cons_self)
      (ls.flatMap (· ++ [13, 10]) ++ 13 :: 10 :: rest) ret
    rw [List.foldl_cons, List.flatMap_cons, List.append_assoc, List.append_assoc]
    exact returns_loop_next ((returns_ok _).congr hround) hrest

/-! ## The value of Content-Length -/

/-- The value is read right: from behind the one blank, or without its first digit, a zero. Where no digit is
met the length that is held stays. -/
def HttpField.ReadRight (f : HttpField) (held : Nat) : Prop :=
  f.blanks.length = 1 ∧ natOf f.value < 2 ^ 64 ∨
  f.blanks = [] ∧ f.value.head? = some 48 ∧ 2 ≤ f.value.length ∧ natOf f.value < 2 ^ 64 ∨
  (2 ≤ f.blanks.length ∨ f.blanks = [] ∧ f.value.length = 1) ∧ natOf f.value = held

theorem scanContentLength_digits {v : Bytes} (hne : v ≠ []) (hv : ∀ c ∈ v, isdigit c = true) (held : Nat) :
    scanContentLength (v ++ [13, 10, 0]) held < 2 ^ 64 ∧
      (natOf v < 2 ^ 64 → scanContentLength (v ++ [13, 10, 0]) held = natOf v) := by
  have hscan : scanContentLength (v ++ [13, 10, 0]) held = (scanUlonglong 0 v).2 := by
    obtain ⟨c, w, rfl⟩ := List.exists_cons_of_ne_nil hne
    rw [scanContentLength, scanUlonglong_stop 0 hv (by decide)]
    exact if_neg (scanUlonglong_taken (hv c List.mem_cons_self) w)
  rw [hscan]
  exact ⟨scanUlonglong_lt (by decide) v, fun hlt => by rw [scanUlonglong_digits 0 hv hlt, natOf]⟩

theorem scanContentLength_other {x : Bytes} (hx : ∀ c ∈ x.head?, isdigit c = false) (held : Nat) :
    scanContentLength x held = held := by
  have hscan : scanUlonglong 0 ([] ++ x) = (0, 0) := scanUlonglong_stop 0 (by simp) hx
  rw [List.nil_append] at hscan
  rw [scanContentLength, hscan]
  rfl

theorem lengthRead_field (hf : f.isLength = true) (held : Nat) :
    lengthRead f.text held = scanContentLength ((f.blanks ++ f.value ++ [13, 10, 0]).drop 1) held := by
  have hname : f.name.length = 14 := (decide_eq_true_iff.mp hf : SameCase f.name lengthName).length_eq
  have hdrop : (f.text ++ [13, 10, 0]).drop 16 = (f.blanks ++ f.value ++ [13, 10, 0]).drop 1 := by
    have hsplit : (16 : Nat) = f.name.length + (1 + 1) := by rw [hname]
    rw [HttpField.text, List.append_assoc, List.cons_append, hsplit, ← List.drop_drop, List.drop_left,
      ← List.drop_drop]
    rfl
  rw [lengthRead, hdrop]

/-- A number is that of its digits without the first one just when that is a zero. -/
theorem natOf_tail {c : UInt8} (hc : isdigit c = true) (v : Bytes) : natOf v = natOf (c :: v) ↔ c = 48 := by
  have hdigit : c.toNat - 48 = 0 ↔ c = 48 := by
    have hle : 48 ≤ c := by
      rw [isdigit, Bool.and_eq_true, decide_eq_true_iff] at hc
      exact hc.1
    have hnat : 48 ≤ c.toNat := hle
    rw [← UInt8.toNat_inj]
    have h48 : (48 : UInt8).toNat = 48 := rfl
    omega
  have hpow : 0 < 10 ^ v.length := Nat.pow_pos (by decide)
  rw [natOf_cons, ← hdigit]
  constructor
  · intro h
    have hzero : (c.toNat - 48) * 10 ^ v.length = 0 := by omega
    exact (Nat.mul_eq_zero.mp hzero).resolve_right (Nat.ne_of_gt hpow)
  · intro h
    rw [h, Nat.zero_mul, Nat.zero_add]

theorem lengthRead_iff (hf : f.isLength = true) (hne : f.value ≠ []) (hv : ∀ c ∈ f.value, isdigit c = true)
    (held : Nat) : lengthRead f.text held = natOf f.value ↔ f.ReadRight held := by
  rw [lengthRead_field hf]
  unfold HttpField.ReadRight
  cases hb : f.blanks with
  | nil =>
    obtain ⟨c, v, hcv⟩ := List.exists_cons_of_ne_nil hne
    rw [hcv] at hv ⊢
    have hc := hv c List.mem_cons_self
    rw [List.nil_append, List.cons_append, List.drop_succ_cons, List.drop_zero]
    cases hv' : v with
    | nil =>
      rw [List.nil_append, scanContentLength_other (by decide)]
      simp [eq_comm]
    | cons d w =>
      rw [← hv']
      have hne' : v ≠ [] := hv' ▸ List.cons_ne_nil d w
      obtain ⟨hlt, hval⟩ := scanContentLength_digits hne' (fun c hc => hv c (List.mem_cons_of_mem _ hc)) held
      have hlen : 1 ≤ v.length := List.length_pos_iff.mpr hne'
      have hmono : natOf v ≤ natOf (c :: v) := by
        rw [natOf_cons]
        exact Nat.le_add_left _ _
      simp only [List.length_nil, List.length_cons, List.head?_cons, Option.some.injEq]
      constructor
      · intro h
        have hbig : natOf (c :: v) < 2 ^ 64 := h ▸ hlt
        rw [hval (Nat.lt_of_le_of_lt hmono hbig)] at h
        exact .inr (.inl ⟨trivial, (natOf_tail hc v).mp h, by omega, hbig⟩)
      · rintro (⟨h, -⟩ | ⟨-, hzero, -, hbig⟩ | ⟨h | ⟨-, h⟩, -⟩)
        · cases h
        · rw [hval (Nat.lt_of_le_of_lt hmono hbig)]
          exact (natOf_tail hc v).mpr hzero
        · omega
        · omega
  | cons b bs =>
    rw [List.cons_append, List.cons_append, List.drop_succ_cons, List.drop_zero]
    cases hbs : bs with
    | nil =>
      obtain ⟨hlt, hval⟩ := scanContentLength_digits hne hv held
      rw [List.nil_append]
      constructor
      · exact fun h => .inl ⟨rfl, h ▸ hlt⟩
      · rintro (⟨-, h⟩ | ⟨h, -⟩ | ⟨h | ⟨h, -⟩, -⟩)
        · exact hval h
        · cases h
        · exact absurd h (by simp)
        · cases h
    | cons d ds =>
      have hd : isdigit d = false := by
        have hblank := f.blanks_ok d (by simp [hb, hbs])
        rcases hblank with rfl | rfl <;> decide
      rw [List.cons_append, List.cons_append, scanContentLength_other (by simpa using hd)]
      simp [eq_comm]

/-! ## A block of headers -/

/-- A line's effect on the kind of framing and the length. -/
def frameLine (p : HttpTransferType × Nat) (t : Bytes) : HttpTransferType × Nat :=
  if SameCase (t.take 15) (lengthName ++ [58]) then (.length, lengthRead t p.2)
  else if strayLine t then (.chunked, 0)
  else p

def HttpResponse.framing (r : HttpResponse) : HttpTransferType × Nat := (r.transfer, r.contentLength)

theorem framing_foldl (ls : List Bytes) (h : HttpReading) :
    (ls.foldl readLine h).response.framing = ls.foldl frameLine h.response.framing := by
  induction ls generalizing h with
  | nil => rfl
  | cons t ls ih =>
    have hone : (readLine h t).response.framing = frameLine h.response.framing t := by
      unfold readLine frameText frameLine
      dsimp only
      split_ifs <;> rfl
    rw [List.foldl_cons, List.foldl_cons, ih, hone]

theorem data_foldl (ls : List Bytes) (h : HttpReading) :
    (ls.foldl readLine h).response.data = h.response.data ++ ls.flatMap (· ++ [13, 10]) := by
  induction ls generalizing h with
  | nil => exact (List.append_nil _).symm
  | cons t ls ih =>
    have hone : (readLine h t).response.data = h.response.data ++ (t ++ [13, 10]) := frameText_data t _
    rw [List.foldl_cons, ih, hone, List.flatMap_cons, List.append_assoc]

/-- Without a length, a stray line makes the body chunked. -/
theorem frame_plain {ls : List Bytes} (hls : ∀ t ∈ ls, ¬SameCase (t.take 15) (lengthName ++ [58]))
    (p : HttpTransferType × Nat) : ls.foldl frameLine p = if ls.any strayLine then (.chunked, 0) else p := by
  induction ls generalizing p with
  | nil => rfl
  | cons t ls ih =>
    obtain ⟨ht, hls⟩ := List.forall_mem_cons.mp hls
    rw [List.foldl_cons, ih hls, frameLine, if_neg ht, List.any_cons]
    cases strayLine t <;> simp

namespace HttpBlock

variable (b : HttpBlock) {before after : List HttpField}

/-- The lines of a block without their ends. -/
def lines : List Bytes := b.status :: b.fields.map HttpField.text

theorem text_eq : b.text = b.lines.flatMap (· ++ [13, 10]) ++ [13, 10] := by
  simp [text, lines, List.flatMap_map]

theorem status_take {n : Nat} {w : Bytes} : ¬SameCase (b.status.take (n + 1)) (67 :: w) := by
  obtain ⟨u, hu⟩ := b.status_ok.1
  rw [← hu]
  intro hsame
  exact absurd (List.cons.inj hsame).1 (by decide)

theorem headerText : ∀ t ∈ b.lines, HeaderText t := by
  refine List.forall_mem_cons.mpr ⟨⟨b.status_ok.2, ⟨72, b.status_ok.1.subset (by decide), by decide⟩, b.status_take⟩,
    fun t ht => ?_⟩
  obtain ⟨f, hf, rfl⟩ := List.mem_map.mp ht
  refine ⟨fun hten => ?_, ⟨58, by simp [HttpField.text], by decide⟩, b.no_multipart f hf⟩
  rcases List.mem_append.mp hten with hname | hrest
  · exact f.name_ok.2 hname
  · rcases List.mem_append.mp ((List.mem_cons.mp hrest).resolve_left (by decide)) with hblank | hvalue
    · rcases f.blanks_ok 10 hblank with h | h <;> exact absurd h (by decide)
    · exact f.value_ok.1 hvalue

/-- The framing is read right: by a stray line where the body is chunked, by a line that no stray one follows
where there is a length, and otherwise where there is no stray line. -/
def ReadRight (held : Nat) : Prop :=
  (∃ f ∈ b.fields, f.isChunked) ∧ (∃ t ∈ b.lines, strayLine t) ∨
  (∃ before f after, b.fields = before ++ f :: after ∧ f.isLength ∧ (∀ g ∈ after, ¬strayLine g.text) ∧
    f.ReadRight (if (b.status :: before.map HttpField.text).any strayLine then 0 else held)) ∨
  (∀ f ∈ b.fields, ¬f.isChunked ∧ ¬f.isLength) ∧ ∀ t ∈ b.lines, ¬strayLine t

theorem length_not_chunked {f : HttpField} (hf : f.isLength = true) : ¬f.isChunked := by
  intro hchunked
  have hname : SameCase f.name encodingName := decide_eq_true_iff.mp (Bool.and_eq_true _ _ ▸ hchunked).1
  have hlen : SameCase f.name lengthName := decide_eq_true_iff.mp hf
  exact absurd (hlen.length_eq.symm.trans hname.length_eq) (by decide)

/-- A header that frames the body is the only one. -/
theorem alone {f : HttpField} (hsplit : b.fields = before ++ f :: after) (hf : f.isLength ∨ f.isChunked) :
    ∀ g ∈ before ++ after, ¬g.isChunked ∧ ¬g.isLength := by
  have hone := b.framing_ok
  have hcount : (f.isLength || f.isChunked) = true := Bool.or_eq_true_iff.mpr hf
  rw [hsplit, List.filter_append,
    List.filter_cons_of_pos (p := fun f : HttpField => f.isLength || f.isChunked) hcount, List.length_append,
    List.length_cons] at hone
  have hnil : ((before ++ after).filter fun f => f.isLength || f.isChunked) = [] := by
    rw [List.filter_append, ← List.length_eq_zero_iff, List.length_append]
    omega
  intro g hg
  have hnot := List.filter_eq_nil_iff.mp hnil g hg
  rw [Bool.or_eq_true_iff, not_or] at hnot
  exact hnot.symm

theorem field_plain {f : HttpField} (hf : ¬f.isLength) : ¬SameCase (f.text.take 15) (lengthName ++ [58]) :=
  fun h => hf ((f.text_starts (by decide)).mp h)

theorem frame_other (hnone : ∀ f ∈ b.fields, ¬f.isLength) (p : HttpTransferType × Nat) :
    b.lines.foldl frameLine p = if b.lines.any strayLine then (.chunked, 0) else p := by
  refine frame_plain (List.forall_mem_cons.mpr ⟨b.status_take, fun t ht => ?_⟩) p
  obtain ⟨f, hf, rfl⟩ := List.mem_map.mp ht
  exact field_plain (hnone f hf)

theorem frame_length {f : HttpField} (hsplit : b.fields = before ++ f :: after) (hf : f.isLength)
    (p : HttpTransferType × Nat) : b.lines.foldl frameLine p =
      if (after.map HttpField.text).any strayLine then (.chunked, 0)
      else (.length, lengthRead f.text (if (b.status :: before.map HttpField.text).any strayLine then 0 else p.2)) := by
  have halone := b.alone hsplit (.inl hf)
  have hplain : ∀ l ⊆ before ++ after, ∀ t ∈ l.map HttpField.text, ¬SameCase (t.take 15) (lengthName ++ [58]) := by
    intro l hl t ht
    obtain ⟨g, hg, rfl⟩ := List.mem_map.mp ht
    exact field_plain (halone g (hl hg)).2
  have hlines : b.lines = (b.status :: before.map HttpField.text) ++ f.text :: after.map HttpField.text := by
    rw [lines, hsplit, List.map_append, List.map_cons, List.cons_append]
  have hstart : SameCase (f.text.take 15) (lengthName ++ [58]) := (f.text_starts (by decide)).mpr hf
  rw [hlines, List.foldl_append, List.foldl_cons,
    frame_plain (hplain after (List.subset_append_right _ _)),
    frame_plain (List.forall_mem_cons.mpr ⟨b.status_take, hplain before (List.subset_append_left _ _)⟩),
    frameLine, if_pos hstart]
  split_ifs <;> rfl

/-! ## What the framing comes to -/

variable {r : HttpResponse} {kind : HttpTransferType} {held : Nat}

theorem framed_length {f : HttpField} (hsplit : b.fields = before ++ f :: after) (hf : f.isLength)
    (hr : r.framing = b.lines.foldl frameLine (kind, held)) (hstatus : r.status = .recvData) :
    b.Framed kind r ↔ (∀ g ∈ after, ¬strayLine g.text) ∧
      f.ReadRight (if (b.status :: before.map HttpField.text).any strayLine then 0 else held) := by
  have hmem : f ∈ b.fields := by rw [hsplit]; simp
  have halone := b.alone hsplit (.inl hf)
  have honly : ∀ g ∈ b.fields, ¬g.isChunked ∧ (g.isLength → g = f) := by
    intro g hg
    rw [hsplit] at hg
    rcases List.mem_append.mp hg with hg | hg
    · exact (halone g (List.mem_append_left _ hg)).imp_right fun hnot hlen => absurd hlen hnot
    · rcases List.mem_cons.mp hg with rfl | hg
      · exact ⟨length_not_chunked hf, fun _ => rfl⟩
      · exact (halone g (List.mem_append_right _ hg)).imp_right fun hnot hlen => absurd hlen hnot
  have hnone : ¬∃ g ∈ b.fields, g.isChunked = true := fun ⟨g, hg, hchunked⟩ => (honly g hg).1 hchunked
  obtain ⟨hne, hdigits⟩ := b.length_ok f hmem hf
  rw [b.frame_length hsplit hf] at hr
  by_cases hstray : (after.map HttpField.text).any strayLine = true
  · rw [if_pos hstray] at hr
    refine iff_of_false (fun hframed => hnone (hframed.chunked.mp (Prod.mk.inj hr).1)) (fun hright => ?_)
    obtain ⟨t, ht, hstray⟩ := List.any_eq_true.mp hstray
    obtain ⟨g, hg, rfl⟩ := List.mem_map.mp ht
    exact hright.1 g hg hstray
  · rw [if_neg hstray] at hr
    obtain ⟨htransfer, hlength⟩ := Prod.mk.inj hr
    have hclean : ∀ g ∈ after, ¬strayLine g.text := fun g hg h =>
      hstray (List.any_eq_true.mpr ⟨_, List.mem_map.mpr ⟨g, hg, rfl⟩, h⟩)
    rw [and_iff_right hclean, ← lengthRead_iff hf hne hdigits, ← hlength]
    constructor
    · exact fun hframed => hframed.value f hmem hf
    · intro hvalue
      refine ⟨iff_of_false (by simp [htransfer]) hnone, iff_of_true htransfer ⟨f, hmem, hf⟩, fun g hg hlen => ?_,
        fun hother => absurd hf (hother f hmem).2, hstatus⟩
      rw [(honly g hg).2 hlen]
      exact hvalue

theorem framed_chunked (hchunked : ∃ f ∈ b.fields, f.isChunked = true) (hkind : kind ≠ .chunked)
    (hr : r.framing = b.lines.foldl frameLine (kind, held)) (hstatus : r.status = .recvData) :
    b.Framed kind r ↔ ∃ t ∈ b.lines, strayLine t = true := by
  obtain ⟨f, hmem, hf⟩ := hchunked
  have hnone : ∀ g ∈ b.fields, ¬g.isLength := by
    obtain ⟨before, after, hsplit⟩ := List.append_of_mem hmem
    intro g hg
    rw [hsplit] at hg
    rcases List.mem_append.mp hg with hg | hg
    · exact (b.alone hsplit (.inr hf) g (List.mem_append_left _ hg)).2
    · rcases List.mem_cons.mp hg with rfl | hg
      · exact fun hlen => length_not_chunked hlen hf
      · exact (b.alone hsplit (.inr hf) g (List.mem_append_right _ hg)).2
  rw [b.frame_other hnone] at hr
  rw [← List.any_eq_true]
  split_ifs at hr with hstray
  · obtain ⟨htransfer, -⟩ := Prod.mk.inj hr
    refine iff_of_true ⟨iff_of_true htransfer ⟨f, hmem, hf⟩, iff_of_false (by simp [htransfer]) ?_,
      fun g hg hlen => absurd hlen (hnone g hg), fun hother => absurd hf (hother f hmem).1, hstatus⟩ hstray
    exact fun ⟨g, hg, hlen⟩ => hnone g hg hlen
  · refine iff_of_false (fun hframed => hkind ?_) hstray
    exact (Prod.mk.inj hr).1.symm.trans (hframed.chunked.mpr ⟨f, hmem, hf⟩)

theorem framed_neither (hnone : ∀ f ∈ b.fields, ¬f.isChunked ∧ ¬f.isLength) (hchunked : kind ≠ .chunked)
    (hlength : kind ≠ .length) (hr : r.framing = b.lines.foldl frameLine (kind, held))
    (hstatus : r.status = .recvData) : b.Framed kind r ↔ ∀ t ∈ b.lines, ¬strayLine t := by
  have hno : ¬∃ g ∈ b.fields, g.isChunked = true := fun ⟨g, hg, h⟩ => (hnone g hg).1 h
  have hno' : ¬∃ g ∈ b.fields, g.isLength = true := fun ⟨g, hg, h⟩ => (hnone g hg).2 h
  rw [b.frame_other fun f hf => (hnone f hf).2] at hr
  split_ifs at hr with hstray
  · refine iff_of_false (fun hframed => hno (hframed.chunked.mp (Prod.mk.inj hr).1)) (fun hclean => ?_)
    obtain ⟨t, ht, hstray⟩ := List.any_eq_true.mp hstray
    exact hclean t ht hstray
  · obtain ⟨htransfer, -⟩ := Prod.mk.inj hr
    refine iff_of_true ⟨iff_of_false (fun h => hchunked (htransfer.symm.trans h)) hno,
      iff_of_false (fun h => hlength (htransfer.symm.trans h)) hno',
      fun g hg hlen => absurd hlen (hnone g hg).2, fun _ => htransfer, hstatus⟩ ?_
    exact fun t ht h => hstray (List.any_eq_true.mpr ⟨t, ht, h⟩)

theorem framed_iff (hchunked : kind ≠ .chunked) (hlength : kind ≠ .length)
    (hr : r.framing = b.lines.foldl frameLine (kind, held)) (hstatus : r.status = .recvData) :
    b.Framed kind r ↔ b.ReadRight held := by
  constructor
  · intro hframed
    by_cases hlen : ∃ f ∈ b.fields, f.isLength = true
    · obtain ⟨f, hmem, hf⟩ := hlen
      obtain ⟨before, after, hsplit⟩ := List.append_of_mem hmem
      obtain ⟨hclean, hread⟩ := (b.framed_length hsplit hf hr hstatus).mp hframed
      exact .inr (.inl ⟨before, f, after, hsplit, hf, hclean, hread⟩)
    · by_cases hchunk : ∃ f ∈ b.fields, f.isChunked = true
      · exact .inl ⟨hchunk, (b.framed_chunked hchunk hchunked hr hstatus).mp hframed⟩
      · have hnone : ∀ f ∈ b.fields, ¬f.isChunked ∧ ¬f.isLength :=
          fun f hf => ⟨fun h => hchunk ⟨f, hf, h⟩, fun h => hlen ⟨f, hf, h⟩⟩
        exact .inr (.inr ⟨hnone, (b.framed_neither hnone hchunked hlength hr hstatus).mp hframed⟩)
  · rintro (⟨hchunk, hstray⟩ | ⟨before, f, after, hsplit, hf, hright⟩ | ⟨hnone, hclean⟩)
    · exact (b.framed_chunked hchunk hchunked hr hstatus).mpr hstray
    · exact (b.framed_length hsplit hf hr hstatus).mpr hright
    · exact (b.framed_neither hnone hchunked hlength hr hstatus).mpr hclean

end HttpBlock

/-- `http_read_header` reads a block of headers to its end, and frames the body as the headers say just
where they are read right. -/
theorem httpReadHeader_iff (b : HttpBlock) (h : HttpReading) (hstatus : h.response.status = .recvHeader)
    (hchunked : h.response.transfer ≠ .chunked) (hlength : h.response.transfer ≠ .length) (rest : Bytes) :
    ∃ h', Returns (fun n => httpReadHeader n { h with input := b.text ++ rest }) (1, h') ∧ h'.input = rest ∧
      h'.response.data = h.response.data ++ b.text ∧ h'.response.status = .recvData ∧
      (b.Framed h.response.transfer h'.response ↔ b.ReadRight h.response.contentLength) := by
  have hrun := returns_lines b.headerText hstatus rest 0
  have htext : b.text ++ rest = b.lines.flatMap (· ++ [13, 10]) ++ 13 :: 10 :: rest := by
    rw [b.text_eq, List.append_assoc]
    rfl
  have hdata : (b.lines.foldl readLine h).response.data ++ [13, 10] = h.response.data ++ b.text := by
    rw [data_foldl, b.text_eq, List.append_assoc]
  refine ⟨_, htext ▸ hrun, rfl, hdata, rfl, ?_⟩
  exact b.framed_iff hchunked hlength (framing_foldl b.lines h) rfl

/-- A response as it is made, before anything was read. -/
def newReading : HttpReading where
  response := {
    transfer := .undef
    status := .recvHeader
    data := []
    ptr := 0
    contentLength := 2 ^ 64 - 1
    chunkLength := 0 }
  code := -1
  boundary := []
  input := []

/-- A block with one header, which is `name: value`. -/
def oneField (f : HttpField) (hlength : f.isLength → f.value ≠ [] ∧ ∀ c ∈ f.value, isdigit c = true)
    (hmulti : ¬SameCase (f.text.take 23) multipartStart) : HttpBlock where
  status := httpName
  fields := [f]
  status_ok := by decide
  framing_ok := List.length_filter_le _ _
  length_ok := by simpa using hlength
  no_multipart := by simpa using hmulti

/-- `Content-Length: 5` -/
def lengthField : HttpField where
  name := lengthName
  blanks := [32]
  value := [53]
  name_ok := by decide
  blanks_ok := by decide
  value_ok := by decide

/-- `Transfer-Encoding: chunked` -/
def chunkedField : HttpField where
  name := encodingName
  blanks := [32]
  value := chunkedName
  name_ok := by decide
  blanks_ok := by decide
  value_ok := by decide

theorem httpReadHeader_iff_length :
    ∃ h', Returns (fun n => httpReadHeader n
        { newReading with input := (oneField lengthField (by decide) (by decide)).text ++ [97] }) (1, h') ∧
      h'.input = [97] ∧ h'.response.data = [] ++ (oneField lengthField (by decide) (by decide)).text ∧
      h'.response.status = .recvData ∧
      ((oneField lengthField (by decide) (by decide)).Framed .undef h'.response ↔
        (oneField lengthField (by decide) (by decide)).ReadRight (2 ^ 64 - 1)) :=
  httpReadHeader_iff (oneField lengthField (by decide) (by decide)) newReading rfl (by decide) (by decide) [97]

/-- With `Transfer-Encoding: chunked` the transfer stays as it was. -/
theorem httpReadHeader_unchunked : ¬∀ (b : HttpBlock) (h : HttpReading) (rest : Bytes),
    h.response.status = .recvHeader → h.response.transfer ≠ .chunked → h.response.transfer ≠ .length →
    ∃ h', Returns (fun n => httpReadHeader n { h with input := b.text ++ rest }) (1, h') ∧
      b.Framed h.response.transfer h'.response := by
  intro hall
  obtain ⟨h', ⟨N, hN⟩, hframed⟩ :=
    hall (oneField chunkedField (by decide) (by decide)) newReading [] rfl (by decide) (by decide)
  have hsome : ∃ f ∈ (oneField chunkedField (by decide) (by decide)).fields, f.isChunked = true :=
    ⟨chunkedField, List.mem_singleton_self _, by decide⟩
  have hrun := hN (N + 3) (Nat.le_add_right N 3)
  have htransfer : h'.response.transfer = .undef := by
    have hsnd : _ = h' := congrArg Prod.snd (Except.ok.inj hrun)
    rw [← hsnd]
    rfl
  exact absurd (htransfer.symm.trans (hframed.chunked.mpr hsome)) (by decide)

end Dirlist
