import Dirlist.Http.Defs

/-! Bodies framed by `Content-Length`. How many bytes a call takes is computed from
`content_length` and `ptr`, which is the length of the header and not the number of body
bytes stored; what this costs is stated for whole runs. -/

namespace Dirlist
open Trace

theorem sub64_of_le {a b : Nat} (hb : b ≤ a) (ha : a < 2 ^ 64) : sub64 a b = a - b := by
  unfold sub64
  omega

/-- The state right after the header: nothing of the body is stored or has arrived. -/
def lengthStart (header : Bytes) (n : Nat) : Http where
  response := {
    transfer := .length
    status := .recvData
    data := header
    ptr := header.length
    contentLength := n
    chunkLength := 0 }
  input := []

/-- `stored` is what was put behind the header, and `arrived` is split into it and the
unread rest; the response is finished when all `n` bytes are there. -/
structure LengthFramed (header : Bytes) (n : Nat) (arrived stored : Bytes) (h : Http) : Prop where
  transfer : h.response.transfer = .length
  ptr : h.response.ptr = header.length
  contentLength : h.response.contentLength = n
  data : h.response.data = header ++ stored
  split : stored ++ h.input = arrived
  bound : stored.length ≤ n
  status : h.response.status = if stored.length = n then .finish else .recvData

/-- The bytes a call would take, if it takes any. -/
def takenBytes (h : Http) (piece : Bytes) : Nat :=
  min (h.input ++ piece).length (sub64 h.response.contentLength h.response.ptr)

def storedLength (h : Http) : Nat := h.response.data.length - h.response.ptr

/-- The call does not take more than the body still lacks. -/
def WithinLength (h : Http) (piece : Bytes) : Prop :=
  h.response.status = .recvData →
    storedLength h + takenBytes h piece ≤ h.response.contentLength

/-- The call takes all that is there of what the body still lacks. -/
def ExactLength (h : Http) (piece : Bytes) : Prop :=
  h.response.status = .recvData → takenBytes h piece =
    min (h.input ++ piece).length (h.response.contentLength - storedLength h)

section
variable {header arrived stored piece : Bytes} {n : Nat} {h : Http} {readHeader : Http → Http}

theorem LengthFramed.arrive_finished (hf : LengthFramed header n arrived stored h)
    (hn : stored.length = n) : LengthFramed header n (arrived ++ piece) stored
      (httpArrive readHeader h piece) := by
  have hs : h.response.status = .finish := by rw [hf.status, if_pos hn]
  rw [httpArrive_finish readHeader piece hs]
  exact ⟨hf.transfer, hf.ptr, hf.contentLength, hf.data, by rw [← hf.split, List.append_assoc],
    hf.bound, hf.status⟩

/-- What a call does while the body is incomplete. -/
theorem LengthFramed.arrive_eq (hf : LengthFramed header n arrived stored h)
    (hn : stored.length ≠ n) (hlen : header.length + (arrived ++ piece).length < 2 ^ 64) :
    httpArrive readHeader h piece =
      { response := { h.response with
          data := header ++ (stored ++ (h.input ++ piece).take (takenBytes h piece))
          chunkLength := if (stored ++ (h.input ++ piece).take (takenBytes h piece)).length ≥ n then 0
            else h.response.chunkLength
          status := if (stored ++ (h.input ++ piece).take (takenBytes h piece)).length ≥ n then .finish
            else .recvData }
        input := (h.input ++ piece).drop (takenBytes h piece) } := by
  have hs : h.response.status = .recvData := by rw [hf.status, if_neg hn]
  have hbound : stored.length < n := Nat.lt_of_le_of_ne hf.bound hn
  have hsplit := congrArg List.length hf.split
  simp only [List.length_append] at hsplit hlen
  have hold : sub64 h.response.data.length h.response.ptr = stored.length := by
    rw [hf.data, hf.ptr, List.length_append, sub64_of_le (by omega) (by omega)]
    omega
  have hnew : sub64 (header ++ (stored ++ (h.input ++ piece).take (takenBytes h piece))).length
      header.length = (stored ++ (h.input ++ piece).take (takenBytes h piece)).length := by
    rw [List.length_append, sub64_of_le]
    · omega
    · omega
    · simp only [List.length_append, List.length_take]
      omega
  have hrecv : httpRecvData { h with input := h.input ++ piece } =
      { response := { h.response with
          data := header ++ (stored ++ (h.input ++ piece).take (takenBytes h piece))
          chunkLength := if (stored ++ (h.input ++ piece).take (takenBytes h piece)).length ≥ n then 0
            else h.response.chunkLength }
        input := (h.input ++ piece).drop (takenBytes h piece) } := by
    simp only [httpRecvData]
    rw [if_pos (by rw [hold, hf.contentLength]; exact hbound), ← takenBytes, hf.data,
      List.append_assoc, hf.ptr, hnew, hf.contentLength]
  rw [httpArrive_recvData readHeader piece hs, hrecv]
  simp only [httpTransfer, hf.transfer, hf.ptr, hnew, hf.contentLength]
  by_cases hge : (stored ++ (h.input ++ piece).take (takenBytes h piece)).length ≥ n
  · simp only [hge, if_true]
  · simp only [hge, if_false, hs]

theorem LengthFramed.arrive (hf : LengthFramed header n arrived stored h)
    (hn : stored.length ≠ n) (hlen : header.length + (arrived ++ piece).length < 2 ^ 64)
    (hw : stored.length + takenBytes h piece ≤ n) :
    LengthFramed header n (arrived ++ piece)
      (stored ++ (h.input ++ piece).take (takenBytes h piece)) (httpArrive readHeader h piece) := by
  rw [hf.arrive_eq hn hlen]
  have hlen' : ((h.input ++ piece).take (takenBytes h piece)).length = takenBytes h piece := by
    rw [List.length_take, takenBytes]
    omega
  refine ⟨hf.transfer, hf.ptr, hf.contentLength, rfl, ?_, ?_, ?_⟩
  · dsimp only
    rw [List.append_assoc, List.take_append_drop, ← List.append_assoc, hf.split]
  · rw [List.length_append, hlen']
    exact hw
  · dsimp only
    rw [List.length_append, hlen']
    by_cases he : stored.length + takenBytes h piece = n
    · rw [if_pos he, if_pos (Nat.le_of_eq he.symm)]
    · rw [if_neg he, if_neg (by omega)]

theorem LengthFramed.storedLength_eq (hf : LengthFramed header n arrived stored h) :
    storedLength h = stored.length := by
  rw [storedLength, hf.data, hf.ptr, List.length_append]
  omega

theorem length_taken : ((h.input ++ piece).take (takenBytes h piece)).length = takenBytes h piece := by
  rw [List.length_take, takenBytes]
  omega

theorem LengthFramed.status_eq (hf : LengthFramed header n arrived stored h) :
    h.response.status = .recvData ↔ stored.length ≠ n := by
  rw [hf.status]
  by_cases hn : stored.length = n <;> simp [hn]

/-- A call that stays within the length keeps the framing. -/
theorem LengthFramed.step (readHeader : Http → Http) (hf : LengthFramed header n arrived stored h)
    (hlen : header.length + (arrived ++ piece).length < 2 ^ 64) (hw : WithinLength h piece) :
    LengthFramed header n (arrived ++ piece)
      (if stored.length = n then stored
        else stored ++ (h.input ++ piece).take (takenBytes h piece))
      (httpArrive readHeader h piece) := by
  by_cases hn : stored.length = n
  · rw [if_pos hn]
    exact hf.arrive_finished hn
  · rw [if_neg hn]
    rw [WithinLength, hf.storedLength_eq, hf.contentLength] at hw
    exact hf.arrive hn hlen (hw (hf.status_eq.mpr hn))

end

/-! ## Whole runs -/

/-- The bytes behind the header are a prefix of the first `n` bytes of the body, nothing
that arrived is lost, and the response is finished when and only when `n` bytes are stored. -/
def StoredPrefix (header : Bytes) (n : Nat) (body arrived : Bytes) (h : Http) : Prop :=
  ∃ stored, h.response.data = header ++ stored ∧ stored <+: body.take n ∧ stored.length ≤ n ∧
    stored ++ h.input = arrived ∧ (h.response.status = .finish ↔ stored.length = n)

/-- The same, and all that has arrived of the first `n` bytes is stored. -/
def StoredAll (header : Bytes) (n : Nat) (body arrived : Bytes) (h : Http) : Prop :=
  StoredPrefix header n body arrived h ∧ h.response.data = header ++ arrived.take n

section
variable {header : Bytes} {n : Nat} {readHeader : Http → Http} {pieces done : List Bytes} {h : Http}

theorem lengthFramed_start (header : Bytes) {n : Nat} (hn : 1 ≤ n) :
    LengthFramed header n [] [] (lengthStart header n) := by
  refine ⟨rfl, rfl, rfl, (List.append_nil _).symm, rfl, Nat.zero_le _, ?_⟩
  have hne : ([] : Bytes).length ≠ n := Nat.ne_of_lt hn
  rw [if_neg hne]
  rfl

theorem flatten_stage {a b : List Bytes} (h : a <+: b) : a.flatten <+: b.flatten := by
  obtain ⟨c, rfl⟩ := h
  rw [List.flatten_append]
  exact List.prefix_append _ _

theorem LengthFramed.storedPrefix {body arrived stored : Bytes} (harr : arrived <+: body)
    (hf : LengthFramed header n arrived stored h) : StoredPrefix header n body arrived h := by
  refine ⟨stored, hf.data, ?_, hf.bound, hf.split, ?_⟩
  · rw [List.prefix_take_iff]
    exact ⟨(hf.split ▸ List.prefix_append stored h.input).trans harr, hf.bound⟩
  · rw [hf.status]
    by_cases hn : stored.length = n <;> simp [hn]

/-- A call after which the framing is right stayed within the length. -/
theorem LengthFramed.within {body arrived stored piece : Bytes}
    (hf : LengthFramed header n arrived stored h)
    (hlen : header.length + (arrived ++ piece).length < 2 ^ 64)
    (hq : StoredPrefix header n body (arrived ++ piece) (httpArrive readHeader h piece)) :
    WithinLength h piece := by
  intro hs
  have hn := hf.status_eq.mp hs
  obtain ⟨stored', hdata, -, hb, -⟩ := hq
  rw [hf.arrive_eq hn hlen] at hdata
  rw [← List.append_cancel_left hdata, List.length_append, length_taken] at hb
  rw [hf.storedLength_eq, hf.contentLength]
  exact hb

theorem arrived_length {piece : Bytes} (hlen : header.length + pieces.flatten.length < 2 ^ 64)
    (hd : done ++ [piece] <+: pieces) :
    header.length + (done.flatten ++ piece).length < 2 ^ 64 := by
  have hle := (flatten_stage hd).length_le
  rw [List.flatten_append, List.flatten_singleton] at hle
  omega

theorem lengthRun_prefix_iff (hn : 1 ≤ n)
    (hlen : header.length + pieces.flatten.length < 2 ^ 64) :
    (∀ done, done <+: pieces → StoredPrefix header n pieces.flatten done.flatten
        (run (httpArrive readHeader) (lengthStart header n) done)) ↔
      Steps (httpArrive readHeader) WithinLength (lengthStart header n) pieces := by
  refine every_stage_iff (P := fun done h => ∃ stored, LengthFramed header n done.flatten stored h)
    ⟨[], lengthFramed_start header hn⟩ ?_ ?_ ?_
  · rintro done h hd ⟨stored, hf⟩
    exact hf.storedPrefix (flatten_stage hd)
  · rintro done h piece hd ⟨stored, hf⟩ hw
    rw [List.flatten_append, List.flatten_singleton]
    exact ⟨_, hf.step readHeader (arrived_length hlen hd) hw⟩
  · rintro done h piece hd ⟨stored, hf⟩ hq
    rw [List.flatten_append, List.flatten_singleton] at hq
    exact hf.within (arrived_length hlen hd) hq

/-- A call that takes exactly what the body lacks stays within the length. -/
theorem LengthFramed.within_of_exact {arrived stored piece : Bytes}
    (hf : LengthFramed header n arrived stored h) (hx : ExactLength h piece) :
    WithinLength h piece := by
  intro hs
  have hb := hf.bound
  rw [hx hs, hf.storedLength_eq, hf.contentLength]
  omega

/-- While the body is incomplete and all that arrived is stored, nothing is unread. -/
theorem LengthFramed.input_nil {arrived : Bytes}
    (hf : LengthFramed header n arrived (arrived.take n) h) (hn : (arrived.take n).length ≠ n) :
    arrived.length < n ∧ arrived.take n = arrived ∧ h.input = [] := by
  have hlt : arrived.length < n := by
    rw [List.length_take] at hn
    omega
  have htake : arrived.take n = arrived := List.take_of_length_le (Nat.le_of_lt hlt)
  refine ⟨hlt, htake, ?_⟩
  have hsplit := hf.split
  rw [htake] at hsplit
  exact List.append_right_eq_self.mp hsplit

theorem lengthRun_all_iff (hn : 1 ≤ n) (hlen : header.length + pieces.flatten.length < 2 ^ 64) :
    (∀ done, done <+: pieces → StoredAll header n pieces.flatten done.flatten
        (run (httpArrive readHeader) (lengthStart header n) done)) ↔
      Steps (httpArrive readHeader) ExactLength (lengthStart header n) pieces := by
  refine every_stage_iff
    (P := fun done h => LengthFramed header n done.flatten (done.flatten.take n) h) ?_ ?_ ?_ ?_
  · simpa using lengthFramed_start header hn
  · exact fun done h hd hf => ⟨hf.storedPrefix (flatten_stage hd), hf.data⟩
  · intro done h piece hd hf hx
    rw [List.flatten_append, List.flatten_singleton]
    have hnext := hf.step readHeader (arrived_length hlen hd) (hf.within_of_exact hx)
    by_cases hfull : (done.flatten.take n).length = n
    · rw [if_pos hfull] at hnext
      have hle : n ≤ done.flatten.length := by
        rw [List.length_take] at hfull
        omega
      rwa [List.take_append_of_le_length hle]
    · obtain ⟨hlt, htake, hin⟩ := hf.input_nil hfull
      have hxt := hx (hf.status_eq.mpr hfull)
      rw [hf.storedLength_eq, hf.contentLength, htake, hin, List.nil_append] at hxt
      rw [if_neg hfull, htake, hin, List.nil_append, hxt] at hnext
      rw [List.take_append, List.take_of_length_le (Nat.le_of_lt hlt)]
      rwa [Nat.min_comm, ← List.take_take, List.take_length] at hnext
  · intro done h piece hd hf hq hs
    rw [List.flatten_append, List.flatten_singleton] at hq
    have hfull := hf.status_eq.mp hs
    obtain ⟨hlt, htake, hin⟩ := hf.input_nil hfull
    have hdata := hq.2
    rw [hf.arrive_eq hfull (arrived_length hlen hd)] at hdata
    have hlength := congrArg List.length (List.append_cancel_left hdata)
    rw [List.length_append, length_taken, htake, List.length_take, List.length_append] at hlength
    rw [hf.storedLength_eq, hf.contentLength, htake, hin, List.nil_append]
    omega

/-- Framing by `Content-Length` over a whole run, whatever the pieces. It is right at every
moment exactly when no call takes more than the body lacks, and it also keeps up with
what arrives exactly when every call takes as much as the body lacks. -/
theorem lengthRun_stored_iff (readHeader : Http → Http) (header : Bytes) (n : Nat) (hn : 1 ≤ n)
    (pieces : List Bytes) (hlen : header.length + pieces.flatten.length < 2 ^ 64) :
    ((∀ done, done <+: pieces → StoredPrefix header n pieces.flatten done.flatten
        (run (httpArrive readHeader) (lengthStart header n) done)) ↔
      Steps (httpArrive readHeader) WithinLength (lengthStart header n) pieces) ∧
    ((∀ done, done <+: pieces → StoredAll header n pieces.flatten done.flatten
        (run (httpArrive readHeader) (lengthStart header n) done)) ↔
      Steps (httpArrive readHeader) ExactLength (lengthStart header n) pieces) :=
  ⟨lengthRun_prefix_iff hn hlen, lengthRun_all_iff hn hlen⟩

end

/-- `HTTP/1.1 200 OK`, `Content-Length: 2` and the empty line. -/
def twoByteHeader : Bytes :=
  [72, 84, 84, 80, 47, 49, 46, 49, 32, 50, 48, 48, 32, 79, 75, 13, 10, 67, 111, 110, 116, 101, 110,
   116, 45, 76, 101, 110, 103, 116, 104, 58, 32, 50, 13, 10, 13, 10]

theorem lengthRun_stored_iff_two_bytes :
    ((∀ done, done <+: [[1], [2]] → StoredPrefix twoByteHeader 2 [1, 2] done.flatten
        (run (httpArrive id) (lengthStart twoByteHeader 2) done)) ↔
      Steps (httpArrive id) WithinLength (lengthStart twoByteHeader 2) [[1], [2]]) ∧
    ((∀ done, done <+: [[1], [2]] → StoredAll twoByteHeader 2 [1, 2] done.flatten
        (run (httpArrive id) (lengthStart twoByteHeader 2) done)) ↔
      Steps (httpArrive id) ExactLength (lengthStart twoByteHeader 2) [[1], [2]]) :=
  lengthRun_stored_iff id twoByteHeader 2 (by decide) [[1], [2]] (by decide)

/-- Three bytes that arrive at once are all stored, though the body has two. -/
theorem lengthRun_stores_too_much : ¬ ∀ done, done <+: [[1, 2, 3]] →
    StoredPrefix twoByteHeader 2 [1, 2, 3] done.flatten
      (run (httpArrive id) (lengthStart twoByteHeader 2) done) := by
  intro h
  obtain ⟨stored, hdata, -, hb, -⟩ := h [[1, 2, 3]] (List.prefix_refl _)
  have hall : (run (httpArrive id) (lengthStart twoByteHeader 2) [[1, 2, 3]]).response.data =
      twoByteHeader ++ [1, 2, 3] := by decide
  rw [hall] at hdata
  rw [← List.append_cancel_left hdata] at hb
  exact absurd hb (by decide)

end Dirlist
