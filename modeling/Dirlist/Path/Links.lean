import Dirlist.Lib.Move
import Dirlist.Path.Canonicalize

/-! `path_canonicalize` where there are symbolic links: each round is one of the loop without links, and behind a
name the loop asks for a link there. What `lstat` and `readlink` answer is a parameter. -/

namespace Dirlist
open Run

/-- `PATH_MAX` -/
def pathMax : Nat := 4096

/-- The text of the link at a path, if `lstat` says there is one. -/
abbrev LinkAt := Bytes → Option Bytes

/-- The text at byte `p` of a buffer, as far as its zero. -/
def cstringAt (buf : Bytes) (p : Nat) : Exec Bytes :=
  if (0 : UInt8) ∈ buf.drop p then .ok ((buf.drop p).takeWhile (· ≠ 0)) else .error .bounds

/-- Where `path` points to: into the text given, or into the function's own buffer. -/
inductive CanonSource
  | given (rest : Bytes)
  | buffer (p : Nat)
deriving DecidableEq, Repr

namespace CanonSource

def text (buf : Bytes) : CanonSource → Exec Bytes
  | given rest => .ok rest
  | buffer p => cstringAt buf p

/-- The pointer moved on until `rest` is left of its text. -/
def advance (path rest : Bytes) : CanonSource → CanonSource
  | given _ => given rest
  | buffer p => buffer (p + (path.length - rest.length))

/-- The byte at the pointer, and the pointer behind it. -/
def next (buf : Bytes) : CanonSource → Exec (UInt8 × CanonSource)
  | given rest => .ok (rest.headD 0, given rest.tail)
  | buffer p => do
    let c ← readCell buf p
    .ok (c, buffer (p + 1))

end CanonSource

/-- `str_copyn` to byte `out` of the buffer, from a text that may be in the same buffer. -/
def strCopyn (buf : Bytes) (out : Nat) (src : CanonSource) : Nat → Exec Bytes
  | 0 => writeCell buf out 0
  | max + 1 => do
    let (c, src) ← src.next buf
    let buf ← writeCell buf out c
    if c = 0 then .ok buf else strCopyn buf (out + 1) src max

/-- The variables of one call. -/
structure CanonFrame where
  buf : Bytes
  source : CanonSource
  sa : Bytes
  ret : Nat
deriving DecidableEq, Repr

/-- The round reads a name, and neither `.` nor `..`. -/
def canonNamed (path : Bytes) : Bool :=
  let x := (path.dropWhile pathIssep).takeWhile fun c => !pathIssep c
  x ≠ dotName ∧ x ≠ upName

variable (link : LinkAt) (inner : Nat → Bytes → Bytes → Exec (Nat × Bytes))

/-- A link has been met: `readlink` puts its text into the buffer. Whether it is absolute shows in the first byte. -/
def canonFollow (m : Nat) (s : CanonFrame) (target : Bytes) : Exec (CanonFrame ⊕ Nat × Bytes) := do
  let target := target.take pathMax
  let n := target.length
  let buf := target ++ s.buf.drop n
  if buf.head? = some pathSep then
    let buf ← strCopyn buf n s.source (pathMax - n)
    .ok (.inl ⟨buf, .buffer 0, [pathSep], s.ret + 1⟩)
  else if pathRight s.sa < 0 then .error .bounds
  else
    let buf ← writeCell buf n 0
    let text ← cstringAt buf 0
    let (rret, sa) ← inner m text (s.sa.take (pathRight s.sa).toNat)
    if rret = 0 then .ok (.inr (0, sa)) else .ok (.inl { s with buf, sa, ret := s.ret + 1 })

def canonLinkRound (m : Nat) (s : CanonFrame) : Exec (CanonFrame ⊕ Nat × Bytes) := do
  let path ← s.source.text s.buf
  match ← canonRound m ⟨path, s.sa⟩ with
  | .inr sa => .ok (.inr (s.ret, sa))
  | .inl c =>
    let s := { s with source := s.source.advance path c.path, sa := c.sa }
    match if canonNamed path then link c.sa else none with
    | none => .ok (.inl s)
    | some target => canonFollow inner m s target

/-- The call for `path`, with an output that may hold something, and a buffer that holds anything. -/
def canonFrame (fresh path sa : Bytes) : CanonFrame :=
  match path with
  | [] => ⟨fresh, .given [], sa, 1⟩
  | c :: rest => if pathIssep c then ⟨fresh, .given rest, sa ++ [c], 1⟩ else ⟨fresh, .given path, sa, 1⟩

/-- `path_canonicalize` with `symbolic`, at most `d` calls deep: its result and the output. -/
def pathCanonicalizeLinks (link : LinkAt) (fresh : Bytes) : Nat → Nat → Bytes → Bytes → Exec (Nat × Bytes)
  | 0, _, _, _ => .error .fuel
  | d + 1, m, path, sa => loop (canonLinkRound link (pathCanonicalizeLinks link fresh d)) m (canonFrame fresh path sa)

/-! ## The buffer -/

variable {buf : Bytes} {a g rest z : Bytes} {out p max : Nat}

theorem cstringAt_eq (hp : p = a.length) (hz : (0 : UInt8) ∉ rest) :
    cstringAt (a ++ (rest ++ 0 :: z)) p = .ok rest := by
  have hdrop : (a ++ (rest ++ 0 :: z)).drop p = rest ++ 0 :: z := by rw [hp, List.drop_left]
  rw [cstringAt, hdrop, if_pos (by simp), takeWhile_ne hz]

/-- A text from elsewhere is copied with its zero. -/
theorem strCopyn_given (hout : out = a.length) (hz : (0 : UInt8) ∉ rest) (hmax : rest.length < max)
    (hroom : rest.length < g.length) :
    ∃ z, strCopyn (a ++ g) out (.given rest) max = .ok (a ++ (rest ++ 0 :: z)) ∧
      z.length + rest.length + 1 = g.length := by
  induction rest generalizing a g out max with
  | nil =>
    obtain ⟨max, rfl⟩ : ∃ k, max = k + 1 := ⟨max - 1, by omega⟩
    obtain ⟨y, g, rfl⟩ := List.exists_cons_of_ne_nil (List.ne_nil_of_length_pos hroom)
    refine ⟨g, ?_, rfl⟩
    rw [strCopyn, CanonSource.next, ok_bind]
    dsimp only
    rw [List.headD_nil, writeCell_at hout, ok_bind, if_pos rfl]
    rfl
  | cons c rest ih =>
    obtain ⟨hc, hz'⟩ : c ≠ 0 ∧ (0 : UInt8) ∉ rest := by simpa [eq_comm] using hz
    obtain ⟨max, rfl⟩ : ∃ k, max = k + 1 := ⟨max - 1, by omega⟩
    obtain ⟨y, g, rfl⟩ := List.exists_cons_of_ne_nil (List.ne_nil_of_length_pos (Nat.zero_lt_of_lt hroom))
    have hcopy := @ih (a ++ [c]) g (out + 1) max (by simp [hout]) hz' (Nat.lt_of_succ_lt_succ hmax)
      (Nat.lt_of_succ_lt_succ hroom)
    obtain ⟨z, hcopy, hlen⟩ := hcopy
    refine ⟨z, ?_, by simp only [List.length_cons]; omega⟩
    rw [strCopyn, CanonSource.next, ok_bind]
    dsimp only
    rw [List.headD_cons, List.tail_cons, writeCell_at hout, ok_bind, if_neg hc]
    simpa using hcopy

/-- So is one further back in the buffer, which moves down over itself. -/
theorem strCopyn_buffer (hout : out = a.length) (hp : p = a.length + g.length) (hz : (0 : UInt8) ∉ rest)
    (hmax : rest.length < max) :
    ∃ z', strCopyn (a ++ (g ++ (rest ++ 0 :: z))) out (.buffer p) max = .ok (a ++ (rest ++ 0 :: z')) ∧
      z'.length = g.length + z.length := by
  induction rest generalizing a g out p max with
  | nil =>
    obtain ⟨max, rfl⟩ : ∃ k, max = k + 1 := ⟨max - 1, by omega⟩
    have hread : readCell (a ++ (g ++ ([] ++ 0 :: z))) p = .ok 0 := by
      rw [List.nil_append, ← List.append_assoc]
      exact readCell_at (by rw [hp, List.length_append])
    rw [strCopyn, CanonSource.next, hread, ok_bind, ok_bind]
    dsimp only
    cases g with
    | nil =>
      rw [List.nil_append, List.nil_append, writeCell_at hout, ok_bind, if_pos rfl]
      exact ⟨z, rfl, (Nat.zero_add _).symm⟩
    | cons y g =>
      rw [List.cons_append, writeCell_at hout, ok_bind, if_pos rfl]
      refine ⟨g ++ 0 :: z, rfl, ?_⟩
      simp only [List.length_append, List.length_cons]
      omega
  | cons c rest ih =>
    obtain ⟨hc, hz'⟩ : c ≠ 0 ∧ (0 : UInt8) ∉ rest := by simpa [eq_comm] using hz
    obtain ⟨max, rfl⟩ : ∃ k, max = k + 1 := ⟨max - 1, by omega⟩
    have hread : readCell (a ++ (g ++ (c :: rest ++ 0 :: z))) p = .ok c := by
      rw [List.cons_append, ← List.append_assoc]
      exact readCell_at (by rw [hp, List.length_append])
    rw [strCopyn, CanonSource.next, hread, ok_bind, ok_bind]
    dsimp only
    cases g with
    | nil =>
      obtain ⟨z', hcopy, hlen⟩ := @ih (a ++ [c]) [] (out + 1) (p + 1) max (by simp [hout]) (by simp [hp]) hz'
        (Nat.lt_of_succ_lt_succ hmax)
      rw [List.nil_append, List.cons_append, writeCell_at hout, ok_bind, if_neg hc]
      exact ⟨z', by simpa using hcopy, hlen⟩
    | cons y g =>
      obtain ⟨z', hcopy, hlen⟩ := @ih (a ++ [c]) (g ++ [c]) (out + 1) (p + 1) max (by simp [hout]) (by simp [hp]; omega)
        hz' (Nat.lt_of_succ_lt_succ hmax)
      rw [List.cons_append, writeCell_at hout, ok_bind, if_neg hc]
      refine ⟨z', by simpa using hcopy, ?_⟩
      rw [hlen]
      simp

end Dirlist
