import Dirlist.Http.Length

/-! Chunked bodies. A call copies payload, skips the end of a chunk and reads at most one
length line, in this order, so a run gets through the body only if the pieces fit. -/

namespace Dirlist
open Trace

/-! ## Encoded bodies -/

def hexDigit (c : UInt8) : Option Nat :=
  if 48 ≤ c ∧ c ≤ 57 then some (c.toNat - 48)
  else if 65 ≤ c ∧ c ≤ 70 then some (c.toNat - 55)
  else if 97 ≤ c ∧ c ≤ 102 then some (c.toNat - 87)
  else none

/-- The number a string of hexadecimal digits stands for, read on from `v`. -/
def hexValue (v : Nat) : Bytes → Option Nat
  | [] => some v
  | c :: s => (hexDigit c).bind fun d => hexValue (16 * v + d) s

/-- A chunk that is not the last one. -/
structure Chunk where
  digits : Bytes
  payload : Bytes
  nonempty : payload ≠ []
  value : hexValue 0 digits = some payload.length

/-- The length line of the last chunk. -/
structure LastChunk where
  digits : Bytes
  nonempty : digits ≠ []
  value : hexValue 0 digits = some 0

def crlf : Bytes := [13, 10]

def encodeChunks (last : LastChunk) : List Chunk → Bytes
  | [] => last.digits ++ crlf ++ crlf
  | c :: cs => c.digits ++ crlf ++ c.payload ++ crlf ++ encodeChunks last cs

def payloadOf (cs : List Chunk) : Bytes := (cs.map Chunk.payload).flatten

theorem payloadOf_append (cs ds : List Chunk) :
    payloadOf (cs ++ ds) = payloadOf cs ++ payloadOf ds := by
  simp [payloadOf]

theorem payloadOf_cons (c : Chunk) (cs : List Chunk) :
    payloadOf (c :: cs) = c.payload ++ payloadOf cs := by
  simp [payloadOf]

theorem payloadOf_eq_nil {cs : List Chunk} (h : payloadOf cs = []) : cs = [] := by
  cases cs with
  | nil => rfl
  | cons c cs =>
    rw [payloadOf_cons, List.append_eq_nil_iff] at h
    exact absurd h.1 c.nonempty

/-! ## Reading a length line -/

theorem scanFromhex_eq (c : UInt8) : scanFromhex c = hexDigit c := by
  have h : ∀ n : Fin 256, scanFromhex (UInt8.ofFin n) = hexDigit (UInt8.ofFin n) := by
    decide +kernel
  exact h c.toFin

theorem hexValue_ge {s : Bytes} {v w : Nat} (h : hexValue v s = some w) : v ≤ w := by
  induction s generalizing v with
  | nil =>
    rw [hexValue, Option.some.injEq] at h
    exact Nat.le_of_eq h
  | cons c s ih =>
    obtain ⟨d, -, hd⟩ := Option.bind_eq_some_iff.mp h
    have := ih hd
    omega

theorem scanXlonglong_eq {s : Bytes} {v w : Nat} (h : hexValue v s = some w) (hw : w < 2 ^ 64)
    (rest : Bytes) : scanXlonglong v (s ++ 13 :: rest) = (s.length, w) := by
  induction s generalizing v with
  | nil =>
    rw [hexValue, Option.some.injEq] at h
    have h13 : scanFromhex 13 = none := by decide
    simp only [List.nil_append, scanXlonglong, h13, List.length_nil, h]
  | cons c s ih =>
    obtain ⟨d, hd, hrest⟩ := Option.bind_eq_some_iff.mp h
    have hle := hexValue_ge hrest
    have hadd : add64 (v * 16 % 2 ^ 64) d = 16 * v + d := by
      unfold add64
      omega
    simp only [List.cons_append, scanXlonglong, scanFromhex_eq, hd, hadd, ih hrest,
      List.length_cons]

theorem hexDigit_lf : hexDigit 10 = none := by decide

theorem hexDigit_cr : hexDigit 13 = none := by decide

/-- Once its line feed is there, the whole length line is. -/
theorem split_line {digits avail future rest : Bytes} {v w : Nat}
    (hd : hexValue v digits = some w) (h : avail ++ future = digits ++ 13 :: 10 :: rest)
    (hlf : 10 ∈ avail) : ∃ a, avail = digits ++ 13 :: 10 :: a ∧ a ++ future = rest := by
  induction digits generalizing avail v with
  | nil =>
    match avail, hlf, h with
    | [a], hlf, h =>
      rw [List.mem_singleton] at hlf
      subst hlf
      cases h
    | a :: b :: l, _, h =>
      simp only [List.cons_append, List.nil_append, List.cons.injEq] at h
      obtain ⟨rfl, rfl, hl⟩ := h
      exact ⟨l, rfl, hl⟩
  | cons c s ih =>
    obtain ⟨d, hc, hs⟩ := Option.bind_eq_some_iff.mp hd
    cases avail with
    | nil => cases hlf
    | cons b avail =>
      simp only [List.cons_append, List.cons.injEq] at h
      obtain ⟨rfl, h⟩ := h
      have hne : (10 : UInt8) ≠ b := by
        rintro rfl
        cases hexDigit_lf.symm.trans hc
      obtain ⟨a, rfl, ha⟩ := ih hs h ((List.mem_cons.mp hlf).resolve_left hne)
      exact ⟨a, rfl, ha⟩

/-- Nothing is skipped at the start of a length line. -/
theorem scanEolskip_digits {digits avail future rest : Bytes} {v w : Nat}
    (hd : hexValue v digits = some w) (hne : digits ≠ [])
    (h : avail ++ future = digits ++ rest) : scanEolskip avail = 0 := by
  cases digits with
  | nil => exact absurd rfl hne
  | cons c s =>
    obtain ⟨d, hc, -⟩ := Option.bind_eq_some_iff.mp hd
    cases avail with
    | nil => rfl
    | cons b avail =>
      simp only [List.cons_append, List.cons.injEq] at h
      obtain ⟨rfl, -⟩ := h
      have h10 : b ≠ 10 := by
        rintro rfl
        cases hexDigit_lf.symm.trans hc
      have h13 : b ≠ 13 := by
        rintro rfl
        cases hexDigit_cr.symm.trans hc
      unfold scanEolskip
      split <;> simp_all

/-! ## The phases of a run -/

/-- The state right after the header. -/
def chunkedStart (header : Bytes) : Http where
  response := {
    transfer := .chunked
    status := .recvData
    data := header
    ptr := header.length
    contentLength := 0
    chunkLength := 0 }
  input := []

/-- The response waits for the length line of the first chunk of `cs₂`; `unread` is all
of the encoded body that was not consumed. -/
structure BetweenChunks (header : Bytes) (last : LastChunk) (cs₁ cs₂ : List Chunk) (unread : Bytes)
    (r : HttpResponse) : Prop where
  transfer : r.transfer = .chunked
  status : r.status = .recvData
  ptr : r.ptr = header.length
  data : r.data = header ++ payloadOf cs₁
  contentLength : r.contentLength = (payloadOf cs₁).length
  chunkLength : r.chunkLength = 0
  unread : unread = encodeChunks last cs₂ ∨ cs₁ ≠ [] ∧ unread = crlf ++ encodeChunks last cs₂

/-- The response has stored `p` of the payload of `c` and lacks `q`. -/
structure WithinChunk (header : Bytes) (last : LastChunk) (cs₁ : List Chunk) (c : Chunk)
    (cs₂ : List Chunk) (p q unread : Bytes) (r : HttpResponse) : Prop where
  transfer : r.transfer = .chunked
  status : r.status = .recvData
  ptr : r.ptr = header.length
  payload : c.payload = p ++ q
  lacks : q ≠ []
  data : r.data = header ++ (payloadOf cs₁ ++ p)
  contentLength : r.contentLength = (payloadOf (cs₁ ++ [c])).length
  chunkLength : r.chunkLength = c.payload.length
  unread : unread = q ++ crlf ++ encodeChunks last cs₂

/-- The response has all of the payload and is finished. -/
structure AfterChunks (header : Bytes) (cs : List Chunk) (r : HttpResponse) : Prop where
  status : r.status = .finish
  data : r.data = header ++ payloadOf cs

inductive ChunkPhase (header : Bytes) (last : LastChunk) (cs : List Chunk) (unread : Bytes)
    (r : HttpResponse) : Prop
  | between (cs₁ cs₂ : List Chunk) (hcs : cs = cs₁ ++ cs₂)
      (h : BetweenChunks header last cs₁ cs₂ unread r)
  | within (cs₁ : List Chunk) (c : Chunk) (cs₂ : List Chunk) (p q : Bytes)
      (hcs : cs = cs₁ ++ c :: cs₂) (h : WithinChunk header last cs₁ c cs₂ p q unread r)
  | after (h : AfterChunks header cs r)

/-- The header is longer than all chunks but the last one together, and not as long as
all of them. -/
structure HeaderFits (header : Bytes) (cs : List Chunk) : Prop where
  short : ∀ cs₁ cs₂, cs = cs₁ ++ cs₂ → cs₁ ≠ [] → cs₂ ≠ [] → (payloadOf cs₁).length < header.length
  ne : cs ≠ [] → (payloadOf cs).length ≠ header.length

/-- The call does not copy past the end of the chunk. -/
def WithinChunkLength (h : Http) (piece : Bytes) : Prop :=
  h.response.status = .recvData → storedLength h < h.response.contentLength →
    storedLength h + takenBytes h piece ≤ h.response.contentLength

instance (h : Http) (piece : Bytes) : Decidable (WithinChunkLength h piece) :=
  inferInstanceAs (Decidable (_ → _ → _))

/-- The bytes of this call that are left when payload is copied and a line end skipped. -/
def leftBytes (h : Http) (piece : Bytes) : Bytes :=
  let left := if storedLength h < h.response.contentLength then
    (h.input ++ piece).drop (takenBytes h piece) else h.input ++ piece
  if h.response.ptr ≥ h.response.contentLength then left.drop (scanEolskip left) else left

/-- At this call all `total` bytes of payload are stored, and a line feed is left. -/
def EndsBody (total : Nat) (h : Http) (piece : Bytes) : Prop :=
  storedLength h + (if storedLength h < h.response.contentLength then takenBytes h piece else 0) =
    total ∧ 10 ∈ leftBytes h piece

/-! ## One call -/

section
variable {header : Bytes} {last : LastChunk} {cs₁ cs₂ : List Chunk} {avail future : Bytes}
  {r : HttpResponse}

theorem Chunk.digits_ne_nil (c : Chunk) : c.digits ≠ [] := by
  intro h
  have hv := c.value
  rw [h, hexValue, Option.some.injEq] at hv
  exact c.nonempty (List.length_eq_zero_iff.mp hv.symm)

/-- The length line of the next chunk, or of the last one. -/
theorem encodeChunks_line (last : LastChunk) (cs : List Chunk) : ∃ digits v rest,
    encodeChunks last cs = digits ++ 13 :: 10 :: rest ∧ digits ≠ [] ∧
      hexValue 0 digits = some v := by
  cases cs with
  | nil => exact ⟨last.digits, 0, crlf, by simp [encodeChunks, crlf], last.nonempty, last.value⟩
  | cons c cs =>
    exact ⟨c.digits, c.payload.length, c.payload ++ crlf ++ encodeChunks last cs,
      by simp [encodeChunks, crlf], c.digits_ne_nil, c.value⟩

/-- Reading the next length line. -/
theorem BetweenChunks.readLine (hb : BetweenChunks header last cs₁ cs₂ (avail ++ future) r)
    (hu : avail ++ future = encodeChunks last cs₂)
    (hlen : (payloadOf (cs₁ ++ cs₂)).length < 2 ^ 64) :
    ChunkPhase header last (cs₁ ++ cs₂) ((httpReadChunkLength ⟨r, avail⟩).input ++ future)
      (httpReadChunkLength ⟨r, avail⟩).response ∧
    (cs₂ = [] → 10 ∈ avail → (httpReadChunkLength ⟨r, avail⟩).response.status = .finish) := by
  by_cases hlf : 10 ∈ avail
  · cases cs₂ with
    | nil =>
      have hline : avail ++ future = last.digits ++ 13 :: 10 :: crlf := by
        rw [hu]
        simp [encodeChunks, crlf]
      obtain ⟨a, rfl, -⟩ := split_line last.value hline hlf
      have hscan := scanXlonglong_eq last.value (by decide) (10 :: a)
      have heq : httpReadChunkLength ⟨r, last.digits ++ 13 :: 10 :: a⟩ =
          ⟨{ r with chunkLength := 0, status := .finish }, a⟩ := by
        simp [httpReadChunkLength, hb.chunkLength, hscan, scanEolskip]
      rw [heq, List.append_nil]
      exact ⟨.after ⟨rfl, hb.data⟩, fun _ _ => rfl⟩
    | cons c cs =>
      have hline : avail ++ future =
          c.digits ++ 13 :: 10 :: (c.payload ++ crlf ++ encodeChunks last cs) := by
        rw [hu]
        simp [encodeChunks, crlf]
      obtain ⟨a, rfl, ha⟩ := split_line c.value hline hlf
      rw [payloadOf_append, payloadOf_cons, List.length_append, List.length_append] at hlen
      have hscan := scanXlonglong_eq c.value (by omega) (10 :: a)
      have hpos : c.payload.length ≠ 0 := fun h => c.nonempty (List.length_eq_zero_iff.mp h)
      have hadd : add64 (payloadOf cs₁).length c.payload.length =
          (payloadOf (cs₁ ++ [c])).length := by
        rw [payloadOf_append, payloadOf_cons, List.length_append, List.length_append]
        simp only [payloadOf, List.map_nil, List.flatten_nil, List.length_nil, add64] at hlen ⊢
        omega
      have heq : httpReadChunkLength ⟨r, c.digits ++ 13 :: 10 :: a⟩ =
          ⟨{ r with
              chunkLength := c.payload.length
              contentLength := (payloadOf (cs₁ ++ [c])).length }, a⟩ := by
        simp [httpReadChunkLength, hb.chunkLength, hscan, scanEolskip, c.nonempty, hb.contentLength,
          hadd]
      rw [heq]
      refine ⟨.within cs₁ c cs [] c.payload rfl ⟨hb.transfer, hb.status, hb.ptr, rfl, c.nonempty, ?_,
        rfl, rfl, ha⟩, fun h => by cases h⟩
      dsimp only
      rw [hb.data, List.append_nil]
  · have heq : httpReadChunkLength ⟨r, avail⟩ = ⟨r, avail⟩ := by
      simp [httpReadChunkLength, hlf]
    rw [heq]
    exact ⟨.between cs₁ cs₂ rfl hb, fun _ h => absurd h hlf⟩

/-- What is left after an optional line end. -/
def afterEol (r : HttpResponse) (left : Bytes) : Bytes :=
  if r.ptr ≥ r.contentLength then left.drop (scanEolskip left) else left

/-- The start of the bytes behind a chunk. -/
theorem crlf_cases {rest : Bytes} (h : avail ++ future = crlf ++ rest) :
    (10 ∉ avail ∧ scanEolskip avail = 0) ∨ ∃ a, avail = 13 :: 10 :: a ∧ a ++ future = rest := by
  match avail, h with
  | [], _ => exact .inl ⟨by simp, rfl⟩
  | [b], h =>
    simp only [crlf, List.cons_append, List.nil_append, List.cons.injEq] at h
    obtain ⟨rfl, -⟩ := h
    exact .inl ⟨by decide, rfl⟩
  | b :: c :: a, h =>
    simp only [crlf, List.cons_append, List.nil_append, List.cons.injEq] at h
    obtain ⟨rfl, rfl, ha⟩ := h
    exact .inr ⟨a, rfl, ha⟩

theorem BetweenChunks.skipRead (hb : BetweenChunks header last cs₁ cs₂ (avail ++ future) r)
    (hfit : HeaderFits header (cs₁ ++ cs₂)) (hlen : (payloadOf (cs₁ ++ cs₂)).length < 2 ^ 64) :
    ChunkPhase header last (cs₁ ++ cs₂)
      ((httpReadChunkLength (httpSkipEol ⟨r, avail⟩)).input ++ future)
      (httpReadChunkLength (httpSkipEol ⟨r, avail⟩)).response ∧
    (cs₂ = [] → 10 ∈ afterEol r avail →
      (httpReadChunkLength (httpSkipEol ⟨r, avail⟩)).response.status = .finish) := by
  rcases hb.unread with hu | ⟨hcs, hu⟩
  · -- The line end is behind us, and a length line does not start with one.
    obtain ⟨digits, v, rest, henc, hne, hv⟩ := encodeChunks_line last cs₂
    have hskip : scanEolskip avail = 0 := scanEolskip_digits hv hne (hu.trans henc)
    have heol : httpSkipEol ⟨r, avail⟩ = ⟨r, avail⟩ := by simp [httpSkipEol, hskip]
    have hafter : afterEol r avail = avail := by simp [afterEol, hskip]
    rw [heol, hafter]
    exact hb.readLine hu hlen
  · by_cases hge : r.ptr ≥ r.contentLength
    · rcases crlf_cases hu with ⟨hlf, hskip⟩ | ⟨a, rfl, ha⟩
      · have heq : httpReadChunkLength (httpSkipEol ⟨r, avail⟩) = ⟨r, avail⟩ := by
          simp [httpSkipEol, hskip, httpReadChunkLength, hlf]
        have hafter : afterEol r avail = avail := by simp [afterEol, hskip]
        rw [heq, hafter]
        exact ⟨.between cs₁ cs₂ rfl hb, fun _ h => absurd h hlf⟩
      · have heol : httpSkipEol ⟨r, 13 :: 10 :: a⟩ = ⟨{ r with chunkLength := 0 }, a⟩ := by
          simp [httpSkipEol, hge, scanEolskip]
        have hafter : afterEol r (13 :: 10 :: a) = a := by simp [afterEol, hge, scanEolskip]
        rw [heol, hafter]
        have hb' : BetweenChunks header last cs₁ cs₂ (a ++ future) { r with chunkLength := 0 } :=
          ⟨hb.transfer, hb.status, hb.ptr, hb.data, hb.contentLength, rfl, .inl ha⟩
        exact hb'.readLine ha hlen
    · -- Beyond the header length the line end itself is taken for the last length line.
      have hcs₂ : cs₂ = [] := by
        by_contra hne
        have := hfit.short cs₁ cs₂ rfl hcs hne
        rw [hb.ptr, hb.contentLength] at hge
        omega
      have heol : httpSkipEol ⟨r, avail⟩ = ⟨r, avail⟩ := by simp [httpSkipEol, hge]
      have hafter : afterEol r avail = avail := by simp [afterEol, hge]
      rw [heol, hafter]
      rcases crlf_cases hu with ⟨hlf, -⟩ | ⟨a, rfl, -⟩
      · have heq : httpReadChunkLength ⟨r, avail⟩ = ⟨r, avail⟩ := by
          simp [httpReadChunkLength, hlf]
        rw [heq]
        exact ⟨.between cs₁ cs₂ rfl hb, fun _ h => absurd h hlf⟩
      · have h13 : scanFromhex 13 = none := by decide
        have heq : httpReadChunkLength ⟨r, 13 :: 10 :: a⟩ =
            ⟨{ r with chunkLength := 0, status := .finish }, a⟩ := by
          simp [httpReadChunkLength, hb.chunkLength, scanXlonglong, h13, scanEolskip]
        rw [heq, hcs₂, List.append_nil]
        exact ⟨.after ⟨rfl, hb.data⟩, fun _ _ => rfl⟩

theorem encodeChunks_length (last : LastChunk) (cs₁ cs₂ : List Chunk) :
    (payloadOf cs₁).length + (encodeChunks last cs₂).length ≤
      (encodeChunks last (cs₁ ++ cs₂)).length := by
  induction cs₁ with
  | nil => simp [payloadOf]
  | cons c cs₁ ih =>
    rw [payloadOf_cons, List.cons_append, encodeChunks]
    simp only [List.length_append] at ih ⊢
    omega

theorem httpArrive_chunked (readHeader : Http → Http) {h : Http} (piece : Bytes)
    (ht : h.response.transfer = .chunked) (hs : h.response.status = .recvData) :
    httpArrive readHeader h piece = httpReadChunkLength (httpSkipEol
      (httpRecvData { h with input := h.input ++ piece })) := by
  have ht' : (httpRecvData { h with input := h.input ++ piece }).response.transfer = .chunked := by
    simp only [httpRecvData]
    split <;> exact ht
  rw [httpArrive_recvData readHeader piece hs, httpTransfer, ht']

variable {readHeader : Http → Http} {h : Http} {piece : Bytes}

/-- A call between two chunks. -/
theorem BetweenChunks.arrive
    (hb : BetweenChunks header last cs₁ cs₂ (h.input ++ piece ++ future) h.response)
    (hfit : HeaderFits header (cs₁ ++ cs₂))
    (hlen : header.length + (encodeChunks last (cs₁ ++ cs₂)).length < 2 ^ 64) :
    ChunkPhase header last (cs₁ ++ cs₂) ((httpArrive readHeader h piece).input ++ future)
      (httpArrive readHeader h piece).response ∧
    (EndsBody (payloadOf (cs₁ ++ cs₂)).length h piece →
      (httpArrive readHeader h piece).response.status = .finish) := by
  have hpay := encodeChunks_length last (cs₁ ++ cs₂) []
  rw [List.append_nil] at hpay
  have hlen₁ : (payloadOf cs₁).length ≤ (payloadOf (cs₁ ++ cs₂)).length := by
    rw [payloadOf_append, List.length_append]
    omega
  have hstored : sub64 h.response.data.length h.response.ptr = (payloadOf cs₁).length := by
    rw [hb.data, hb.ptr, List.length_append, sub64_of_le (by omega) (by omega)]
    omega
  have hstored' : storedLength h = (payloadOf cs₁).length := by
    rw [storedLength, hb.data, hb.ptr, List.length_append]
    omega
  have hrecv : httpRecvData { h with input := h.input ++ piece } =
      ⟨h.response, h.input ++ piece⟩ := by
    simp only [httpRecvData, hstored, hb.contentLength, Nat.lt_irrefl, if_false]
  rw [httpArrive_chunked readHeader piece hb.transfer hb.status, hrecv]
  obtain ⟨hphase, hend⟩ := hb.skipRead hfit (by omega)
  refine ⟨hphase, fun he => hend ?_ ?_⟩
  · have htotal := he.1
    rw [hstored', hb.contentLength, if_neg (Nat.lt_irrefl _), payloadOf_append,
      List.length_append] at htotal
    exact payloadOf_eq_nil (List.length_eq_zero_iff.mp (by omega))
  · have hleft := he.2
    simp only [leftBytes, hstored', hb.contentLength, Nat.lt_irrefl, if_false] at hleft
    simpa only [afterEol, hb.contentLength] using hleft

/-- The copied bytes are payload. -/
theorem take_payload {q rest : Bytes} {n : Nat} (h : avail ++ future = q ++ rest)
    (ha : n ≤ avail.length) (hq : n ≤ q.length) :
    avail.take n = q.take n ∧ avail.drop n ++ future = q.drop n ++ rest := by
  have htake := congrArg (List.take n) h
  have hdrop := congrArg (List.drop n) h
  rw [List.take_append_of_le_length ha, List.take_append_of_le_length hq] at htake
  rw [List.drop_append_of_le_length ha, List.drop_append_of_le_length hq] at hdrop
  exact ⟨htake, hdrop⟩

/-- Short of the header length the counter wraps, and the call takes all there is. -/
theorem takenBytes_of_gt (piece : Bytes) (hgt : h.response.contentLength < h.response.ptr)
    (hlen : h.response.ptr + (h.input ++ piece).length < 2 ^ 64) :
    takenBytes h piece = (h.input ++ piece).length := by
  unfold takenBytes sub64
  omega

/-- While payload is outstanding and nothing is left, the line reader does nothing. -/
theorem readLine_idle {left : Bytes} (hk : r.chunkLength ≠ 0)
    (hleft : r.ptr ≥ r.contentLength → left = []) :
    httpReadChunkLength (httpSkipEol ⟨r, left⟩) = ⟨r, left⟩ := by
  have hskip : httpSkipEol ⟨r, left⟩ = ⟨r, left⟩ := by
    unfold httpSkipEol
    by_cases hge : r.ptr ≥ r.contentLength
    · simp [hleft hge, scanEolskip]
    · simp only [if_neg hge]
  rw [hskip]
  simp only [httpReadChunkLength, if_neg hk]

variable {c : Chunk} {p q : Bytes}

theorem WithinChunk.contentLength_eq {unread : Bytes}
    (hw : WithinChunk header last cs₁ c cs₂ p q unread r) :
    r.contentLength = (payloadOf cs₁).length + p.length + q.length := by
  rw [hw.contentLength, payloadOf_append, payloadOf_cons, hw.payload]
  simp only [payloadOf, List.map_nil, List.flatten_nil, List.append_nil, List.length_append]
  omega

theorem WithinChunk.storedLength_eq {unread : Bytes}
    (hw : WithinChunk header last cs₁ c cs₂ p q unread h.response) :
    storedLength h = (payloadOf cs₁).length + p.length := by
  rw [storedLength, hw.data, hw.ptr, List.length_append, List.length_append]
  omega

/-- What a call copies while payload of a chunk is outstanding. -/
theorem WithinChunk.recv
    (hw : WithinChunk header last cs₁ c cs₂ p q (h.input ++ piece ++ future) h.response)
    (hlen : header.length + (encodeChunks last (cs₁ ++ c :: cs₂)).length < 2 ^ 64)
    (hin : WithinChunkLength h piece) :
    takenBytes h piece ≤ q.length ∧
    httpRecvData { h with input := h.input ++ piece } =
      ⟨{ h.response with
          data := header ++ (payloadOf cs₁ ++ (p ++ q.take (takenBytes h piece)))
          chunkLength := if takenBytes h piece = q.length then 0 else c.payload.length },
        (h.input ++ piece).drop (takenBytes h piece)⟩ ∧
    (h.input ++ piece).drop (takenBytes h piece) ++ future =
      q.drop (takenBytes h piece) ++ (crlf ++ encodeChunks last cs₂) := by
  have hq : 0 < q.length := List.length_pos_iff.mpr hw.lacks
  have hcont := hw.contentLength_eq
  have hsl := hw.storedLength_eq
  have hbound := encodeChunks_length last cs₁ (c :: cs₂)
  simp only [encodeChunks, hw.payload, List.length_append] at hbound
  have hstored : sub64 h.response.data.length h.response.ptr = (payloadOf cs₁).length + p.length := by
    rw [hw.data, hw.ptr, List.length_append, List.length_append, sub64_of_le (by omega) (by omega)]
    omega
  obtain ⟨t, ht⟩ : ∃ t, takenBytes h piece = t := ⟨_, rfl⟩
  have htq : t ≤ q.length := by
    have := hin hw.status (by omega)
    omega
  have hta : t ≤ (h.input ++ piece).length := by
    rw [← ht, takenBytes]
    exact Nat.min_le_left _ _
  have hsplit : h.input ++ piece ++ future = q ++ (crlf ++ encodeChunks last cs₂) := by
    rw [hw.unread, List.append_assoc]
  obtain ⟨htake, hdrop⟩ := take_payload hsplit hta htq
  rw [ht]
  refine ⟨htq, ?_, hdrop⟩
  have hnew : sub64 (header ++ (payloadOf cs₁ ++ (p ++ q.take t))).length header.length =
      (payloadOf cs₁).length + p.length + t := by
    simp only [List.length_append, List.length_take, Nat.min_eq_left htq]
    rw [sub64_of_le (by omega) (by omega)]
    omega
  have hdata : h.response.data ++ (h.input ++ piece).take t =
      header ++ (payloadOf cs₁ ++ (p ++ q.take t)) := by
    rw [hw.data, htake]
    simp
  have hcond : ((payloadOf cs₁).length + p.length + t ≥
      (payloadOf cs₁).length + p.length + q.length) = (t = q.length) := by
    rw [eq_iff_iff]
    omega
  simp only [httpRecvData]
  rw [if_pos (by rw [hstored]; omega), ← takenBytes, ht, hdata, hw.ptr, hnew, hcont]
  simp only [hcond, hw.chunkLength]

/-- A call while payload of a chunk is outstanding. -/
theorem WithinChunk.arrive
    (hw : WithinChunk header last cs₁ c cs₂ p q (h.input ++ piece ++ future) h.response)
    (hfit : HeaderFits header (cs₁ ++ c :: cs₂))
    (hlen : header.length + (encodeChunks last (cs₁ ++ c :: cs₂)).length < 2 ^ 64)
    (hin : WithinChunkLength h piece) :
    ChunkPhase header last (cs₁ ++ c :: cs₂) ((httpArrive readHeader h piece).input ++ future)
      (httpArrive readHeader h piece).response ∧
    (EndsBody (payloadOf (cs₁ ++ c :: cs₂)).length h piece →
      (httpArrive readHeader h piece).response.status = .finish) := by
  obtain ⟨htq, hrecv, hdrop⟩ := hw.recv hlen hin
  have hq : 0 < q.length := List.length_pos_iff.mpr hw.lacks
  have hcont := hw.contentLength_eq
  have hsl := hw.storedLength_eq
  have hlt : storedLength h < h.response.contentLength := by omega
  have hcs : cs₁ ++ c :: cs₂ = (cs₁ ++ [c]) ++ cs₂ := by simp
  have hpay : (payloadOf (cs₁ ++ c :: cs₂)).length =
      h.response.contentLength + (payloadOf cs₂).length := by
    rw [hcs, payloadOf_append, List.length_append, hw.contentLength]
  have hbound := encodeChunks_length last cs₁ (c :: cs₂)
  have hpayle := encodeChunks_length last (cs₁ ++ c :: cs₂) []
  have hunread := congrArg List.length hw.unread
  simp only [encodeChunks, hw.payload, List.length_append, List.append_nil] at hbound hunread hpayle
  rw [httpArrive_chunked readHeader piece hw.transfer hw.status, hrecv]
  by_cases hfull : takenBytes h piece = q.length
  · -- The chunk is complete, and the call goes on behind it.
    rw [hfull, List.drop_length, List.nil_append] at hdrop
    rw [hfull, if_pos rfl, List.take_length, hcs]
    have hb : BetweenChunks header last (cs₁ ++ [c]) cs₂
        ((h.input ++ piece).drop q.length ++ future)
        { h.response with data := header ++ (payloadOf cs₁ ++ (p ++ q)), chunkLength := 0 } := by
      refine ⟨hw.transfer, hw.status, hw.ptr, ?_, hw.contentLength, rfl, .inr ⟨by simp, hdrop⟩⟩
      rw [payloadOf_append, payloadOf_cons, hw.payload]
      simp [payloadOf]
    obtain ⟨hphase, hend⟩ := hb.skipRead (hcs ▸ hfit) (by rw [← hcs]; omega)
    refine ⟨hphase, fun he => hend ?_ ?_⟩
    · have htotal := he.1
      rw [if_pos hlt, ← hcs, hpay] at htotal
      exact payloadOf_eq_nil (List.length_eq_zero_iff.mp (by omega))
    · have hleft := he.2
      simp only [leftBytes, if_pos hlt, hfull] at hleft
      exact hleft
  · -- Payload is still outstanding, and the line reader does nothing.
    have hrest : q.drop (takenBytes h piece) ≠ [] := by
      rw [Ne, List.drop_eq_nil_iff]
      omega
    rw [if_neg hfull]
    have hskip : h.response.ptr ≥ h.response.contentLength →
        (h.input ++ piece).drop (takenBytes h piece) = [] := by
      intro hge
      have hne : h.response.contentLength ≠ h.response.ptr := by
        rw [hw.contentLength, hw.ptr]
        cases cs₂ with
        | nil => exact hfit.ne (by simp)
        | cons d ds =>
          have := hfit.short (cs₁ ++ [c]) (d :: ds) hcs (by simp) (by simp)
          omega
      have hall := takenBytes_of_gt (h := h) piece (by omega)
        (by rw [hw.ptr, List.length_append]; omega)
      rw [hall, List.drop_length]
    have hpos : c.payload.length ≠ 0 := fun h => c.nonempty (List.length_eq_zero_iff.mp h)
    have hidle := readLine_idle (r := { h.response with
      data := header ++ (payloadOf cs₁ ++ (p ++ q.take (takenBytes h piece)))
      chunkLength := c.payload.length }) hpos hskip
    rw [hidle]
    refine ⟨.within cs₁ c cs₂ (p ++ q.take (takenBytes h piece)) (q.drop (takenBytes h piece)) rfl
      ⟨hw.transfer, hw.status, hw.ptr, ?_, hrest, rfl, hw.contentLength, rfl, ?_⟩, fun he => ?_⟩
    · rw [hw.payload, List.append_assoc, List.take_append_drop]
    · rw [hdrop, List.append_assoc]
    · have htotal := he.1
      rw [if_pos hlt, hpay] at htotal
      omega

theorem AfterChunks.arrive {cs : List Chunk} (ha : AfterChunks header cs h.response) :
    AfterChunks header cs (httpArrive readHeader h piece).response := by
  rw [httpArrive_finish readHeader piece ha.status]
  exact ha

/-- Any call that stays within its chunk. -/
theorem ChunkPhase.arrive (readHeader : Http → Http) {cs : List Chunk}
    (hp : ChunkPhase header last cs (h.input ++ piece ++ future) h.response)
    (hfit : HeaderFits header cs)
    (hlen : header.length + (encodeChunks last cs).length < 2 ^ 64)
    (hin : WithinChunkLength h piece) :
    ChunkPhase header last cs ((httpArrive readHeader h piece).input ++ future)
      (httpArrive readHeader h piece).response ∧
    (EndsBody (payloadOf cs).length h piece →
      (httpArrive readHeader h piece).response.status = .finish) := by
  cases hp with
  | between cs₁ cs₂ hcs hb =>
    subst hcs
    exact hb.arrive hfit hlen
  | within cs₁ c cs₂ p q hcs hw =>
    subst hcs
    exact hw.arrive hfit hlen hin
  | after ha => exact ⟨.after ha.arrive, fun _ => ha.arrive.status⟩

end

/-! ## Whole runs -/

/-- At every moment a prefix of the payload is stored, and at the end all of it. -/
def ChunkedDecoded (readHeader : Http → Http) (header : Bytes) (cs : List Chunk)
    (pieces : List Bytes) : Prop :=
  (∀ done, done <+: pieces → ∃ stored, stored <+: payloadOf cs ∧
    (run (httpArrive readHeader) (chunkedStart header) done).response.data = header ++ stored) ∧
  (run (httpArrive readHeader) (chunkedStart header) pieces).response.data =
    header ++ payloadOf cs ∧
  (run (httpArrive readHeader) (chunkedStart header) pieces).response.status = .finish

section
variable {header : Bytes} {last : LastChunk} {cs : List Chunk} {r : HttpResponse}

theorem chunkPhase_start (header : Bytes) (last : LastChunk) (cs : List Chunk) :
    ChunkPhase header last cs (encodeChunks last cs) (chunkedStart header).response :=
  .between [] cs rfl ⟨rfl, rfl, rfl, (List.append_nil _).symm, rfl, rfl, .inl rfl⟩

theorem ChunkPhase.stored {unread : Bytes} (hp : ChunkPhase header last cs unread r) :
    ∃ stored, stored <+: payloadOf cs ∧ r.data = header ++ stored := by
  cases hp with
  | between cs₁ cs₂ hcs hb =>
    refine ⟨payloadOf cs₁, ?_, hb.data⟩
    rw [hcs, payloadOf_append]
    exact List.prefix_append _ _
  | within cs₁ c cs₂ p q hcs hw =>
    refine ⟨payloadOf cs₁ ++ p, ?_, hw.data⟩
    rw [hcs, payloadOf_append, payloadOf_cons, hw.payload, List.append_assoc]
    exact List.prefix_append_right_inj _ |>.mpr (List.prefix_append _ _)
  | after ha => exact ⟨payloadOf cs, List.prefix_refl _, ha.data⟩

theorem ChunkPhase.after_of_finish {unread : Bytes} (hp : ChunkPhase header last cs unread r)
    (hs : r.status = .finish) : AfterChunks header cs r := by
  cases hp with
  | between cs₁ cs₂ hcs hb => cases hb.status.symm.trans hs
  | within cs₁ c cs₂ p q hcs hw => cases hw.status.symm.trans hs
  | after ha => exact ha

theorem AfterChunks.run (readHeader : Http → Http) {h : Http} (ha : AfterChunks header cs h.response)
    (pieces : List Bytes) : AfterChunks header cs (run (httpArrive readHeader) h pieces).response := by
  induction pieces generalizing h with
  | nil => exact ha
  | cons piece pieces ih => exact ih ha.arrive

/-- Chunked decoding over a whole run, whatever the pieces: if the header length fits the
chunks, no call copies past the end of a chunk, and some call still sees a line feed when
all payload is stored, then the body is decoded. -/
theorem chunkedRun_decoded (readHeader : Http → Http) (header : Bytes) (cs : List Chunk)
    (last : LastChunk) (pieces : List Bytes) (hpieces : pieces.flatten = encodeChunks last cs)
    (hlen : header.length + (encodeChunks last cs).length < 2 ^ 64) (hfit : HeaderFits header cs)
    (hsteps : Steps (httpArrive readHeader) WithinChunkLength (chunkedStart header) pieces)
    (hend : ∃ done piece, done ++ [piece] <+: pieces ∧ EndsBody (payloadOf cs).length
      (run (httpArrive readHeader) (chunkedStart header) done) piece) :
    ChunkedDecoded readHeader header cs pieces := by
  have hphase : ∀ done, done <+: pieces → ∀ future, done.flatten ++ future = pieces.flatten →
      ChunkPhase header last cs
        ((run (httpArrive readHeader) (chunkedStart header) done).input ++ future)
        (run (httpArrive readHeader) (chunkedStart header) done).response := by
    refine every_stage (P := fun done h => ∀ future, done.flatten ++ future = pieces.flatten →
      ChunkPhase header last cs (h.input ++ future) h.response) ?_ ?_ hsteps
    · intro future hf
      have hstart := chunkPhase_start header last cs
      rwa [← hpieces, ← hf] at hstart
    · intro done h piece _ hP hin future hf
      rw [List.flatten_append, List.flatten_singleton, List.append_assoc] at hf
      have hp := hP (piece ++ future) hf
      rw [← List.append_assoc] at hp
      exact (hp.arrive readHeader hfit hlen hin).1
  have hrest : ∀ done, done <+: pieces → ∃ future, done.flatten ++ future = pieces.flatten := by
    intro done hd
    obtain ⟨future, hf⟩ := flatten_stage hd
    exact ⟨future, hf⟩
  refine ⟨fun done hd => ?_, ?_⟩
  · obtain ⟨future, hf⟩ := hrest done hd
    exact (hphase done hd future hf).stored
  · obtain ⟨done, piece, hd, hbody⟩ := hend
    have hin := steps_iff.mp hsteps done piece hd
    have hpre : done <+: pieces := (List.prefix_append done [piece]).trans hd
    obtain ⟨future, hf⟩ := hrest _ hd
    rw [List.flatten_append, List.flatten_singleton, List.append_assoc] at hf
    have hp := hphase done hpre (piece ++ future) hf
    rw [← List.append_assoc] at hp
    obtain ⟨hnext, hfin⟩ := hp.arrive readHeader hfit hlen hin
    have ha := hnext.after_of_finish (hfin hbody)
    obtain ⟨rest, rfl⟩ := hd
    have hall := ha.run readHeader rest
    have hrun : run (httpArrive readHeader) (chunkedStart header) (done ++ [piece] ++ rest) =
        run (httpArrive readHeader)
          (httpArrive readHeader (run (httpArrive readHeader) (chunkedStart header) done) piece)
          rest := by
      simp [Trace.run, List.foldl_append]
    rw [hrun]
    exact ⟨hall.data, hall.status⟩

end

/-- `HTTP/1.1 200 OK`, `Transfer-Encoding: chunked` and the empty line. -/
def chunkedHeader : Bytes :=
  [72, 84, 84, 80, 47, 49, 46, 49, 32, 50, 48, 48, 32, 79, 75, 13, 10, 84, 114, 97, 110, 115, 102,
   101, 114, 45, 69, 110, 99, 111, 100, 105, 110, 103, 58, 32, 99, 104, 117, 110, 107, 101, 100,
   13, 10, 13, 10]

/-- The chunk `hello`. -/
def helloChunk : Chunk where
  digits := [53]
  payload := [104, 101, 108, 108, 111]
  nonempty := by decide
  value := by decide

def zeroChunk : LastChunk where
  digits := [48]
  nonempty := by decide
  value := by decide

theorem headerFits_hello : HeaderFits chunkedHeader [helloChunk] := by
  refine ⟨fun cs₁ cs₂ h h₁ h₂ => ?_, fun _ => by decide⟩
  cases cs₁ with
  | nil => exact absurd rfl h₁
  | cons c cs₁ =>
    have hnil : [] = cs₁ ++ cs₂ := (List.cons.inj h).2
    exact absurd (List.append_eq_nil_iff.mp hnil.symm).2 h₂

/-- Length line, payload and the rest in three pieces. -/
theorem chunkedRun_decoded_hello : ChunkedDecoded id chunkedHeader [helloChunk]
    [[53, 13, 10], [104, 101, 108, 108, 111], [13, 10, 48, 13, 10, 13, 10]] :=
  chunkedRun_decoded id chunkedHeader [helloChunk] zeroChunk _ (by decide) (by decide)
    headerFits_hello (by decide) ⟨[[53, 13, 10], [104, 101, 108, 108, 111]], _,
      List.prefix_refl _, by decide, by decide⟩

/-- The whole encoded body in one piece: only the length line is read. -/
theorem chunkedRun_stalls : ¬ ChunkedDecoded id chunkedHeader [helloChunk]
    [[53, 13, 10, 104, 101, 108, 108, 111, 13, 10, 48, 13, 10, 13, 10]] := by
  intro h
  exact absurd h.2.2 (by decide)

end Dirlist
