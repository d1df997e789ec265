import Dirlist.Byte
import Dirlist.Lib.Run

/-! The Intel HEX files of lib/ihex: a list of records, and reading bytes from the addresses
they are for. Addresses are 32 bits wide and kept as two halves. -/

namespace Dirlist
open Run

structure IhexRecord where
  offset : UInt16
  type : UInt8
  checksum : UInt8
  data : Bytes
  short : data.length < 256
deriving DecidableEq

/-! ## Loading -/

/-- `scan_xchar` and `scan_xshort`: up to `k` digits into `width` bits, with what was read and
how many of them there were. -/
def scanX (width : Nat) : Nat → Nat → Bytes → Nat × Nat
  | 0, l, _ => (0, l)
  | _ + 1, l, [] => (0, l)
  | k + 1, l, c :: s =>
    if l >>> (width - 4) = 0 then
      match scanFromhex c with
      | none => (0, l)
      | some d =>
        let (i, l) := scanX width k ((l <<< 4 + d) % 2 ^ width) s
        (i + 1, l)
    else (0, l)

def scanXchar (s : Bytes) : Nat × Nat := scanX 8 2 0 s

def scanXshort (s : Bytes) : Nat × Nat := scanX 16 4 0 s

/-- The loop of `ihex_load_record` over the data. -/
def loadData : Nat → Bytes → Option Bytes
  | 0, _ => some []
  | len + 1, x =>
    let (i, c) := scanXchar x
    if i ≠ 2 then none else (loadData len (x.drop i)).map (UInt8.ofNat c :: ·)

theorem length_loadData {len : Nat} {x data : Bytes} (h : loadData len x = some data) :
    data.length = len := by
  induction len generalizing x data with
  | zero =>
    obtain rfl := Option.some.inj h
    rfl
  | succ len ih =>
    simp only [loadData] at h
    split at h
    · cases h
    · obtain ⟨rest, hrest, rfl⟩ := Option.map_eq_some_iff.mp h
      rw [List.length_cons, ih hrest]

/-- The record that is allocated once the fields around the data are read. -/
def fillRecord (off typ chk len : Nat) (x : Bytes) : Option IhexRecord :=
  match h : loadData (len % 256) x with
  | none => none
  | some data => some ⟨UInt16.ofNat off, UInt8.ofNat typ, UInt8.ofNat chk, data,
    length_loadData h ▸ Nat.mod_lt _ (by decide)⟩

/-- `ihex_load_record`. It goes by the text alone, whatever length it is given. -/
def ihexLoadRecord (x : Bytes) : Option IhexRecord :=
  if x.head? ≠ some 58 then none
  else
    let x := x.drop 1
    let (i, len) := scanXchar x
    if i ≠ 2 then none
    else
      let x := x.drop i
      let (i, off) := scanXshort x
      if i ≠ 4 then none
      else
        let x := x.drop i
        let (i, typ) := scanXchar x
        if i ≠ 2 then none
        else
          let x := x.drop i
          let (i, chk) := scanXchar (x.drop (len * 2))
          if i ≠ 2 then none else fillRecord off typ chk len x

def isNewline (c : UInt8) : Bool := c = 13 ∨ c = 10

/-- The loop of `ihex_load_buf`. Every round takes a byte at least; a line that is no record
leaves the pointer to the next one null. -/
def loadBufFrom : Nat → Bytes → Exec (List IhexRecord)
  | 0, _ => .ok []
  | k + 1, x =>
    if x = [] then .ok []
    else
      match ihexLoadRecord x with
      | none => .error .null
      | some r => do
        let x := (x.dropWhile fun c => !isNewline c).dropWhile isNewline
        .ok (r :: (← loadBufFrom k x))

def ihexLoadBuf (x : Bytes) : Exec (List IhexRecord) := loadBufFrom x.length x

/-! ## Reading -/

/-- The two halves of an address. -/
structure Off where
  hi16 : UInt16
  lo16 : UInt16

def Off.off32 (o : Off) : Nat := o.hi16.toNat * 2 ^ 16 + o.lo16.toNat

/-- `data[1] | (data[0] << 8)` -/
def IhexRecord.base (r : IhexRecord) : UInt16 :=
  (r.data.getD 1 0).toUInt16 ||| ((r.data.getD 0 0).toUInt16 <<< 8)

/-- The address as a record changes it. -/
def Off.next (o : Off) (r : IhexRecord) : Off :=
  if r.type = 0 then { o with lo16 := r.offset }
  else if r.type = 4 then { o with hi16 := r.base }
  else o

/-- `ihex_record_at`: the record, with those behind it, and the address it is found at. The
loop does not come to the last record. -/
def recordAtFrom (addr : Nat) (o : Off) : List IhexRecord → Option (IhexRecord × List IhexRecord × Off)
  | [] => none
  | [_] => none
  | r :: rs =>
    let o := o.next r
    if addr ≥ o.off32 ∧ addr < (o.off32 + r.data.length) % 2 ^ 32 then some (r, rs, o)
    else recordAtFrom addr o rs

def ihexRecordAt (records : List IhexRecord) (addr : Nat) : Option (IhexRecord × List IhexRecord × Off) :=
  recordAtFrom addr ⟨0, 0⟩ records

/-- What a read consists of: bytes of a record, or zeros. -/
inductive Piece
  | copy (r : IhexRecord) (p num : Nat)
  | fill (num : Nat)

def Piece.bytes : Piece → Bytes
  | .copy r p num => (r.data.drop p).take num
  | .fill num => List.replicate num 0

/-- The loop of `ihex_read_at`, at the byte `p` of a record. -/
def readFrom (o : Off) (p n : Nat) (r : IhexRecord) : List IhexRecord → List Piece
  | [] => if n = 0 then [] else [.copy r p (min n (r.data.length - p))]
  | next :: rs =>
    if n = 0 then []
    else
      let num := min n (r.data.length - p)
      let n := n - num
      let stop := (o.off32 + r.data.length) % 2 ^ 32
      let o := { o with lo16 := next.offset }
      let gap := min n (o.off32 - stop)
      .copy r p num :: .fill gap :: readFrom o 0 (n - gap) next rs

def ihexReadAt (records : List IhexRecord) (addr n : Nat) : List Piece :=
  match ihexRecordAt records addr with
  | none => []
  | some (r, rs, o) => readFrom o (addr - o.off32) n r rs

end Dirlist
