import Dirlist.Byte
import Dirlist.Lib.Trace

/-! The body half of the HTTP client: `http_read_internal` once the header is read. The
counters of a response are 64 bits wide, so their differences wrap around. -/

namespace Dirlist

/-- Subtraction of two `uint64`. -/
def sub64 (a b : Nat) : Nat := (a + (2 ^ 64 - b)) % 2 ^ 64

/-- Addition of two `uint64`. -/
def add64 (a b : Nat) : Nat := (a + b) % 2 ^ 64

inductive HttpTransferType
  | undef
  | chunked
  | length
  | boundary
deriving DecidableEq, Repr

inductive HttpStatus
  | recvHeader
  | recvData
  | closed
  | error
  | busy
  | finish
deriving DecidableEq, Repr

structure HttpResponse where
  transfer : HttpTransferType
  status : HttpStatus
  data : Bytes
  ptr : Nat
  contentLength : Nat
  chunkLength : Nat
deriving DecidableEq, Repr

/-- A response with the unread bytes of its input buffer, `x[p]` to `x[n - 1]`. -/
structure Http where
  response : HttpResponse
  input : Bytes
deriving DecidableEq, Repr

def scanEolskip : Bytes → Nat
  | 13 :: 10 :: _ => 2
  | 10 :: _ => 1
  | _ => 0

/-- The digits are counted and shifted into a 64-bit value; there is no limit other than
the first byte that is no digit. -/
def scanXlonglong (l : Nat) : Bytes → Nat × Nat
  | [] => (0, l)
  | c :: s =>
    match scanFromhex c with
    | none => (0, l)
    | some d =>
      let (n, l) := scanXlonglong (add64 (l * 16 % 2 ^ 64) d) s
      (n + 1, l)

/-- Take body bytes from the input buffer while `content_length` is not reached. -/
def httpRecvData (h : Http) : Http :=
  let r := h.response
  if sub64 r.data.length r.ptr < r.contentLength then
    let remain := sub64 r.contentLength r.ptr
    let num := min h.input.length remain
    let data := r.data ++ h.input.take num
    { response := { r with
        data := data
        chunkLength := if sub64 data.length r.ptr ≥ r.contentLength then 0 else r.chunkLength }
      input := h.input.drop num }
  else h

/-- Skip the end of line after a chunk. -/
def httpSkipEol (h : Http) : Http :=
  let r := h.response
  if r.ptr ≥ r.contentLength then
    let skip := scanEolskip h.input
    if skip ≠ 0 then { response := { r with chunkLength := 0 }, input := h.input.drop skip } else h
  else h

/-- Read the line with the length of the next chunk, if it is there as a whole. -/
def httpReadChunkLength (h : Http) : Http :=
  let r := h.response
  if r.chunkLength = 0 then
    if 10 ∈ h.input then
      let (i, chunkLength) := scanXlonglong 0 h.input
      let input := h.input.drop i
      let input := input.drop (scanEolskip input)
      if chunkLength ≠ 0 then
        { response := { r with
            chunkLength := chunkLength
            contentLength := add64 r.contentLength chunkLength }
          input := input }
      else { response := { r with chunkLength := chunkLength, status := .finish }, input := input }
    else h
  else h

def httpTransfer (h : Http) : Http :=
  match h.response.transfer with
  | .undef => h
  | .boundary => h
  | .chunked => httpReadChunkLength (httpSkipEol h)
  | .length =>
    let r := h.response
    if sub64 r.data.length r.ptr ≥ r.contentLength then
      { h with response := { r with status := .finish } }
    else h

/-- `http_read_internal` with its return value. `readHeader` is its loop over
`http_read_header`, which only runs in the state before the body. -/
def httpReadInternal (readHeader : Http → Http) (received : Int) (h : Http) : Http × Int :=
  let h := if h.response.status = .recvData then httpRecvData h else h
  if h.response.status = .recvHeader then
    let h := readHeader h
    if h.response.status = .recvData then
      ({ h with response := { h.response with ptr := h.response.data.length } }, received)
    else (h, received)
  else
    let h := if h.response.status = .recvData then httpTransfer h else h
    match h.response.status with
    | .error => (h, -1)
    | .closed => (h, 0)
    | _ => (h, received)

/-- A piece arrives at the end of the input buffer and is read. -/
def httpArrive (readHeader : Http → Http) (h : Http) (piece : Bytes) : Http :=
  (httpReadInternal readHeader piece.length { h with input := h.input ++ piece }).1

theorem httpRecvData_status (h : Http) : (httpRecvData h).response.status = h.response.status := by
  simp only [httpRecvData]
  split <;> rfl

theorem httpArrive_recvData (readHeader : Http → Http) {h : Http} (piece : Bytes)
    (hs : h.response.status = .recvData) : httpArrive readHeader h piece =
      httpTransfer (httpRecvData { h with input := h.input ++ piece }) := by
  have hs' : (httpRecvData { h with input := h.input ++ piece }).response.status = .recvData :=
    (httpRecvData_status _).trans hs
  simp only [httpArrive, httpReadInternal, hs, if_true, hs', reduceCtorEq, if_false]
  split <;> rfl

/-- A finished response only keeps what else arrives. -/
theorem httpArrive_finish (readHeader : Http → Http) {h : Http} (piece : Bytes)
    (hs : h.response.status = .finish) : httpArrive readHeader h piece =
      { h with input := h.input ++ piece } := by
  simp only [httpArrive, httpReadInternal, hs, reduceCtorEq, if_false]

end Dirlist
