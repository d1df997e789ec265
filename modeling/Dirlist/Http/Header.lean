import Dirlist.Http.Defs
import Dirlist.Scan

/-! `http_read_header`: the lines of a response header go to the data of the response, and three of them
set how the body is framed. The block of headers is in the input buffer as a whole. -/

namespace Dirlist
open Run

/-- A response with what else reading its header changes. -/
structure HttpReading where
  response : HttpResponse
  code : Int
  boundary : Bytes
  input : Bytes
deriving DecidableEq, Repr

/-- `buffer_getline_sa`: the line with its end, behind what is in `sa`. -/
def bufferGetlineSa (input sa : Bytes) : Int × Bytes × Bytes :=
  let i := byteChr 10 input
  if i < input.length then (1, sa ++ input.take (i + 1), input.drop (i + 1)) else (0, sa ++ input, [])

/-- `byte_trimr` -/
def byteTrimr (x trimchars : Bytes) : Nat := (x.rdropWhile (· ∈ trimchars)).length

/-- What the functions on C strings take of the memory. -/
def cString (x : Bytes) : Bytes := x.takeWhile (· ≠ 0)

/-- `str_contains`: the byte at the position of `str_find` is not the end. -/
def strContains (x needle : Bytes) : Bool := (cString x)[byteFindb needle (cString x)]?.isSome

/-- `Content-Type: multipart` -/
def multipartStart : Bytes :=
  [67, 111, 110, 116, 101, 110, 116, 45, 84, 121, 112, 101, 58, 32, 109, 117, 108, 116, 105, 112, 97, 114, 116]

/-- `Content-Length` -/
def lengthName : Bytes := [67, 111, 110, 116, 101, 110, 116, 45, 76, 101, 110, 103, 116, 104]

/-- `Transfer-Encoding` -/
def encodingName : Bytes :=
  [84, 114, 97, 110, 115, 102, 101, 114, 45, 69, 110, 99, 111, 100, 105, 110, 103]

/-- `chunked` -/
def chunkedName : Bytes := [99, 104, 117, 110, 107, 101, 100]

/-- `boundary=` -/
def boundaryName : Bytes := [98, 111, 117, 110, 100, 97, 114, 121, 61]

/-- `HTTP` -/
def httpName : Bytes := [72, 84, 84, 80]

/-- The status code is looked for at the start of all that was read, until it is there. -/
def httpStatusCode (data : Bytes) (code : Int) : Int :=
  if code = -1 ∧ httpName.isPrefixOf data then
    let p := scanNonwhitenskip data
    let p := p + scanWhitenskip (data.drop p)
    let (i, c) := scanUint 0 (data.drop p)
    if i > 0 then Int.bmod c (2 ^ 32) else code
  else code

/-- A line of `len` bytes starts with `what`. -/
def lineStarts (len : Nat) (x what : Bytes) : Exec Bool :=
  if len ≥ what.length then do
    let r ← caseDiffb what.length x what
    .ok (r = 0)
  else .ok false

/-- The test for `chunked`. It wants the line not to start with the name of the header. -/
def lineChunked (len : Nat) (x : Bytes) : Exec Bool :=
  if len ≥ 18 then do
    let r ← caseDiffb 18 x (encodingName ++ [58])
    .ok (r ≠ 0 && strContains x chunkedName)
  else .ok false

/-- `stralloc_copys` of what follows `boundary=`, if it is there. -/
def lineBoundary (x boundary : Bytes) : Bytes :=
  let p := byteFindb boundaryName (cString x)
  if p < (cString x).length then cString (x.drop (p + boundaryName.length)) else boundary

/-- `scan_ulonglong` leaves its result alone if there is no digit. -/
def scanContentLength (x : Bytes) (old : Nat) : Nat :=
  let (i, l) := scanUlonglong 0 x
  if i = 0 then old else l

/-- What a line of the header does to the framing. A zero byte follows the line. -/
def httpHeaderLine (line : Bytes) (h : HttpReading) : Exec HttpReading := do
  let r := h.response
  let x := line ++ [0]
  if ← lineStarts line.length x multipartStart then
    .ok { h with
      response := { r with transfer := .boundary, ptr := 0 }
      boundary := lineBoundary x h.boundary }
  else if ← lineStarts line.length x (lengthName ++ [58]) then
    -- the value is always taken from behind one blank
    .ok { h with
      response := { r with
        contentLength := scanContentLength (x.drop 16) r.contentLength
        transfer := .length
        ptr := 0 } }
  else if ← lineChunked line.length x then
    .ok { h with
      response := { r with ptr := 0, chunkLength := 0, contentLength := 0, transfer := .chunked } }
  else .ok h

/-- One round of `http_read_header`, with its return value so far. -/
def readHeaderRound (_ : Nat) : Int × HttpReading → Exec (Int × HttpReading ⊕ Int × HttpReading)
  | (ret, h) =>
    if h.response.status = .recvHeader then
      let start := h.response.data.length
      let (ret, data, input) := bufferGetlineSa h.input h.response.data
      let h := { h with response := { h.response with data := data }, input := input }
      if ret ≤ 0 then .ok (.inr (ret, h))
      else
        let line := data.drop start
        if byteTrimr line [13, 10] = 0 then
          .ok (.inr (1, { h with response := { h.response with status := .recvData } }))
        else do
          let h ← httpHeaderLine line { h with code := httpStatusCode data h.code }
          .ok (.inl (ret, h))
    else .ok (.inr (ret, h))

def httpReadHeader (n : Nat) (h : HttpReading) : Exec (Int × HttpReading) := loop readHeaderRound n (0, h)

/-! ## Header blocks -/

/-- A header line: the value comes behind any number of blanks. -/
structure HttpField where
  name : Bytes
  blanks : Bytes
  value : Bytes
  name_ok : 58 ∉ name ∧ 10 ∉ name
  blanks_ok : ∀ c ∈ blanks, c = 32 ∨ c = 9
  value_ok : 10 ∉ value ∧ ∀ c ∈ value.head?, c ≠ 32 ∧ c ≠ 9

namespace HttpField

def text (f : HttpField) : Bytes := f.name ++ 58 :: (f.blanks ++ f.value)

def named (f : HttpField) (name : Bytes) : Bool := SameCase f.name name

def isLength (f : HttpField) : Bool := f.named lengthName

/-- The codings a value names, which commas separate. -/
def codings (f : HttpField) : List Bytes :=
  (f.value.splitOn 44).map fun w => (w.dropWhile isspace).rdropWhile isspace

def isChunked (f : HttpField) : Bool := f.named encodingName && f.codings.any fun w => SameCase w chunkedName

end HttpField

/-- A status line and headers, of which at most one frames the body. -/
structure HttpBlock where
  status : Bytes
  fields : List HttpField
  status_ok : httpName <+: status ∧ 10 ∉ status
  framing_ok : (fields.filter fun f => f.isLength || f.isChunked).length ≤ 1
  length_ok : ∀ f ∈ fields, f.isLength → f.value ≠ [] ∧ ∀ c ∈ f.value, isdigit c = true
  no_multipart : ∀ f ∈ fields, ¬SameCase (f.text.take 23) multipartStart

namespace HttpBlock

def text (b : HttpBlock) : Bytes :=
  b.status ++ 13 :: 10 :: (b.fields.flatMap (fun f => f.text ++ [13, 10]) ++ [13, 10])

/-- How the body is framed: what the headers say, and if they do not, as before. -/
structure Framed (b : HttpBlock) (before : HttpTransferType) (r : HttpResponse) : Prop where
  chunked : r.transfer = .chunked ↔ ∃ f ∈ b.fields, f.isChunked
  length : r.transfer = .length ↔ ∃ f ∈ b.fields, f.isLength
  value : ∀ f ∈ b.fields, f.isLength → r.contentLength = natOf f.value
  unchanged : (∀ f ∈ b.fields, ¬f.isChunked ∧ ¬f.isLength) → r.transfer = before
  status : r.status = .recvData

end HttpBlock

end Dirlist
