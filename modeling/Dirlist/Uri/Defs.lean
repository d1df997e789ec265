import Dirlist.Fmt
import Dirlist.Path.Defs
import Dirlist.Scan
import Dirlist.Str

/-! `uri_scan` and `uri_fmt`. A text ends with its last byte: what is behind it must not be looked at. -/

namespace Dirlist
open Run

structure Uri where
  proto : Option CStr
  host : Option CStr
  port : UInt16
  location : Option CStr
  username : Option CStr
  password : Option CStr
  anchor : Option CStr
deriving DecidableEq

/-- `uri_init` -/
def uriInit : Uri where
  proto := none
  host := none
  port := 0
  location := none
  username := none
  password := none
  anchor := none

/-- `http` -/
def protoHttp : CStr := ⟨[104, 116, 116, 112], by decide⟩

/-- `https` -/
def protoHttps : CStr := ⟨[104, 116, 116, 112, 115], by decide⟩

/-- `://` -/
def protoEnd : Bytes := [58, 47, 47]

/-- `str_ndup` of the bytes from `i` on. -/
def strNdup (x : Bytes) (i n : Nat) : CStr := CStr.ofBytes ((x.drop i).take n)

/-- `byte_chrs`: where one of the needles is first, or the length. -/
def byteChrs (needles s : Bytes) : Nat := (s.takeWhile (· ∉ needles)).length

/-! ## Scanning -/

def hostDelim : Bytes := [13, 10, 58, 44, 39, 34, 47, 35]

def uriScanHost (x : Bytes) : Nat := byteChrs hostDelim x

/-- The protocol, and where it ends. -/
def uriScanProto (u : Uri) (x : Bytes) : Nat × Uri :=
  let e := byteFindb protoEnd x
  if e < x.length then (e + 3, { u with proto := some (strNdup x 0 e) })
  else (0, if u.proto = none then { u with proto := some protoHttp } else u)

/-- User and password between `s` and `e`, and where they end. -/
def uriScanUser (u : Uri) (x : Bytes) (s e : Nat) : Nat × Uri :=
  let e2 := s + byteChr 64 ((x.drop s).take (e - s))
  if e2 < e then
    let e3 := s + byteChr 58 ((x.drop s).take (e2 - s))
    let u := if e3 < e2 then { u with password := some (strNdup x (e3 + 1) (e2 - (e3 + 1))) } else u
    (e2 + 1, { u with username := some (strNdup x s (e3 - s)) })
  else (s, u)

/-- Host and port from `s` on, and where they end. -/
def uriScanPort (u : Uri) (x : Bytes) (s : Nat) : Exec (Nat × Uri) := do
  let e2 := s + uriScanHost (x.drop s)
  if e2 > s then
    let u := { u with host := some (strNdup x s (e2 - s)) }
    let c ← byteAt x e2
    if c = 58 then
      let (e3, port) := scanUshort (x.drop (e2 + 1)) u.port.toNat
      .ok (if e3 > 0 then e2 + 1 + e3 else e2, { u with port := UInt16.ofNat port })
    else .ok (e2, u)
  else .ok (s, u)

/-- What ends a location. -/
def locationDelim : Bytes := [35, 13, 10, 9, 34, 39, 0]

/-- What ends an anchor. -/
def anchorDelim : Bytes := [13, 10, 9, 34, 39, 0]

/-- The location from `s` on, and where it ends. -/
def uriScanLocation (u : Uri) (x : Bytes) (s e : Nat) : Exec (Nat × Nat × Uri) := do
  if s = x.length then .ok (s, e, { u with location := some ⟨[47], by decide⟩ })
  else if s < x.length then
    let e2 := s + byteChrs locationDelim (x.drop s)
    let u := { u with location := none }
    if e2 > s then
      let c ← byteAt x s
      -- the first of the two stands in a buffer that no zero ends
      let loc := if c ≠ 47 then CStr.ofBytes (47 :: (x.drop s).take (e2 - s)) else strNdup x s (e2 - s)
      .ok (e2, e2, { u with location := some loc })
    else .ok (s, e, u)
  else .ok (s, e, u)

/-- The anchor at `s`, and where all ends. -/
def uriScanAnchor (u : Uri) (x : Bytes) (s e : Nat) : Nat × Uri :=
  if (x.drop s).head? = some 35 then
    let e := s + byteChrs anchorDelim (x.drop s)
    (e, { u with anchor := some (strNdup x s (e - s)) })
  else (e, { u with anchor := none })

/-- The port that goes without saying. -/
def uriScanDefault (u : Uri) : Uri :=
  if u.port = 0 ∧ u.proto = some protoHttps then { u with port := 443 }
  else if u.port = 0 ∧ u.proto = some protoHttp then { u with port := 80 }
  else u

def uriScan (u : Uri) (x : Bytes) : Exec (Nat × Uri) := do
  let (s, u) := uriScanProto { u with anchor := none } x
  let e := s + byteChrs [47] (x.drop s)
  let (s, u) ← if ¬(s = 0 ∧ e = 0) then
      let (s, u) := uriScanUser { u with port := 0, host := none, username := none, password := none } x s e
      uriScanPort u x s
    else .ok (e, u)
  let (s, e, u) ← uriScanLocation u x s e
  let (e, u) := uriScanAnchor u x s e
  .ok (e, uriScanDefault u)

/-! ## Formatting -/

def fmtStr (s : Option CStr) : Bytes := (s.map Subtype.val).getD []

def fmtProto (u : Uri) : Bytes :=
  match u.proto with
  | some p => p.val ++ protoEnd
  | none => []

def fmtPassword (u : Uri) : Bytes :=
  match u.password with
  | some p => 58 :: p.val
  | none => []

def fmtUser (u : Uri) : Bytes :=
  match u.username with
  | some n => n.val ++ fmtPassword u ++ [64]
  | none => []

def fmtPort (u : Uri) : Bytes :=
  if u.port ≠ 0 ∧ (u.proto = none ∨
      ¬(u.proto = some protoHttp ∧ u.port = 80 ∨ u.proto = some protoHttps ∧ u.port = 443)) then
    58 :: fmtUlong u.port.toNat
  else []

/-- `uri_fmt` -/
def uriFmt (u : Uri) : Bytes :=
  fmtProto u ++ fmtUser u ++ fmtStr u.host ++ fmtPort u ++ fmtStr u.location ++ fmtStr u.anchor

end Dirlist
