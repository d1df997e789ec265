import Dirlist.Json.Consume
import Dirlist.Json.Balance
import Dirlist.Lib.Couple

/-! What `json_parse` makes of any bytes at all, as a function of them: the answer, the value, the keys put
into tables and the bytes left. The reader returns just this as long as every key fits its tuple. -/

namespace Dirlist
open Run

/-! ## Reading without a buffer -/

/-- The text of a number from a byte that was looked at, or nothing where the stream ends in it, and
whether it is a double. -/
def numberAt (num : Bytes) (double : Bool) : Bytes → Option Bytes × Bool × Bytes
  | [] => (none, double, [])
  | c :: s =>
    match s with
    | [] => (none, double, [])
    | c' :: _ =>
      let mark := c' = 46 ∨ c' = 69 ∨ c' = 101
      if isdigit c' ∨ mark ∨ (double ∧ c' = 45) then numberAt (num ++ [c]) (double ∨ mark) s
      else (some (num ++ [c]), double, s)

/-- A parser of one token: whether it is there, the value and what is left. -/
abbrev TokenReader := JsonVal → Bytes → Nat × JsonVal × Bytes

def numberToken : TokenReader := fun val s =>
  match s with
  | [] => (0, val, [])
  | c :: _ =>
    if isdigit c ∨ c = 45 ∨ c = 46 ∨ c = 43 then
      let (num, double, rest) := numberAt [] false s
      scanNumber rest double num
    else (0, val, s)

def strallocAt (sa : Bytes) : Bytes → Bytes × Bytes
  | [] => (sa, [])
  | c :: s =>
    if c = 92 then
      match s with
      | [] => (sa, [])
      | d :: s => strallocAt (sa ++ [d]) s
    else if c = 34 then (sa, s) else strallocAt (sa ++ [c]) s

def wordAt : Bytes → Bytes → Bool × Bytes
  | [], s => (true, s)
  | _ :: _, [] => (false, [])
  | c :: word, d :: s => if d = c then if s = [] then (false, []) else wordAt word s else (false, d :: s)

def booleanToken : TokenReader := fun val s =>
  match s with
  | [] => (0, val, [])
  | c :: t =>
    if c ∈ [116, 102] then
      let v : Bool := t.head? = some 114
      let (all, rest) := wordAt (boolTail v) t
      if all then (1, .bool v, rest) else (0, val, rest)
    else (0, val, s)

def nullToken : TokenReader := fun val s =>
  if predCount (predicateIdentifier nullWord) 0 s ≥ 4 then (1, .null, s.drop 4) else (0, val, s)

def firstToken : List TokenReader → TokenReader
  | [], val, s => (0, val, s)
  | p :: ps, val, s =>
    let (r, v, rest) := p val s
    if r > 0 then (r, v, rest) else firstToken ps v rest

def delimiterAt (close : UInt8) (s : Bytes) : Bool × Bytes :=
  match dropWs s with
  | [] => (false, [])
  | c :: t => if c = 44 ∨ c = close then (c = 44, dropWs t) else (false, c :: t)

section
variable [Unwritten]

/-- What becomes of the bytes of a string. -/
def escapedText (s : Bytes) : Bytes :=
  match escapeUtf8 0 s with
  | .ok out => out
  | .error _ => []

def stringToken : TokenReader := fun val s =>
  match s with
  | [] => (0, val, [])
  | c :: t =>
    if c = 34 then
      if t = [] then (0, val, [])
      else
        let (sa, rest) := strallocAt [] t
        (1, .string (escapedText sa), rest)
    else (0, val, s)

def objectKeyAt (s : Bytes) : Bytes × Bytes :=
  let (r, key, rest) := stringToken .undefined s
  match r, key with
  | 1, .string s => (s, rest)
  | _, key =>
    let (r, key, rest) := numberToken key rest
    match r, key with
    | 1, .int v => (fmtUlonglong (v % 2 ^ 64).toNat, rest)
    | 1, .double text => (fmtUlonglong (Unwritten.doubleBits text % 2 ^ 64), rest)
    | _, _ => ([], rest)

/-- What reading a value comes to. -/
structure Reading where
  ret : Nat
  val : JsonVal
  /-- the keys put into tables, in this order -/
  keys : List Bytes
  rest : Bytes

/-- The items of an array from where one may stand, in at most so many rounds. -/
def itemsAt (value : JsonVal → Bytes → Reading) : Nat → List JsonVal → Bytes → List JsonVal × List Bytes × Bytes
  | 0, items, s => (items, [], s)
  | _ + 1, items, [] => (items, [], [])
  | n + 1, items, c :: s =>
    if c = 93 then (items, [], c :: s)
    else
      let x := value .undefined (c :: s)
      let (more, rest) := delimiterAt 93 x.rest
      if more then
        let (items, keys, rest) := itemsAt value n (items ++ [x.val]) rest
        (items, x.keys ++ keys, rest)
      else (items ++ [x.val], x.keys, rest)

def membersAt (value : JsonVal → Bytes → Reading) : Nat → List (Bytes × JsonVal) → Bytes →
    List (Bytes × JsonVal) × List Bytes × Bytes
  | 0, members, s => (members, [], s)
  | _ + 1, members, [] => (members, [], [])
  | n + 1, members, c :: s =>
    if c = 125 then (members, [], s)
    else
      let (key, rest) := objectKeyAt (c :: s)
      match dropWs rest with
      | [] => (members, [], [])
      | c :: s =>
        if c = 58 then
          if s = [] then (members, [], [])
          else
            let x := value .undefined (dropWs s)
            if x.ret > 0 then
              let (more, rest) := delimiterAt 125 x.rest
              if more then
                let (members, keys, rest) := membersAt value n (mapPut members key x.val) rest
                (members, x.keys ++ key :: keys, rest)
              else (mapPut members key x.val, x.keys ++ [key], rest)
            else (members, x.keys, x.rest)
        else (members, [], c :: s)

def scalarToken : TokenReader := firstToken [nullToken, booleanToken, numberToken, stringToken]

/-- A value behind white space, with at most `e` values around and in it. -/
def jsonValueAt : Nat → JsonVal → Bytes → Reading
  | 0, val, s => ⟨0, val, [], s⟩
  | e + 1, val, s =>
    match dropWs s with
    | [] => ⟨0, val, [], []⟩
    | c :: t =>
      if c = 123 ∨ c = 91 then
        if t = [] then ⟨0, val, [], []⟩
        else if c = 123 then
          let (members, keys, rest) := membersAt (jsonValueAt e) (t.length + 1) [] (dropWs t)
          ⟨1, .object members, keys, rest⟩
        else
          let (items, keys, rest) := itemsAt (jsonValueAt e) (t.length + 1) [] (dropWs t)
          ⟨1, .array items, keys, rest⟩
      else
        let (r, v, rest) := scalarToken val (c :: t)
        ⟨r, v, [], rest⟩

/-- The keys that a text has the reader put into tables. -/
def jsonKeys (text : Bytes) : List Bytes := (jsonValueAt (text.length + 1) .undefined text).keys

end

/-! ## Tokens -/

/-- The parser comes back with what the token says. -/
def FindsToken (f : Nat → Exec (Nat × JsonVal × Charbuf)) (x : Nat × JsonVal × Bytes) (q : Nat) : Prop :=
  ∃ b', Returns f (x.1, x.2.1, b') ∧ At b' x.2.2 q

variable {sched : Schedule} {b : Charbuf} {u : Bytes} {q : Nat}

theorem FindsToken.mono {f : Nat → Exec (Nat × JsonVal × Charbuf)} {x : Nat × JsonVal × Bytes} {q' : Nat}
    (h : FindsToken f x q) (hq : q ≤ q') : FindsToken f x q' := by
  obtain ⟨b', hr, h'⟩ := h
  exact ⟨b', hr, h'.mono hq⟩

theorem At.numberAt (sched : Schedule) {c : UInt8} (num : Bytes) (double : Bool) (hc : c ≠ 0)
    (h : At b (c :: u) 1) :
    ∃ b', Returns (fun m => loop (numberRound sched) m (b, c, num, double))
        ((numberAt num double (c :: u)).1, (numberAt num double (c :: u)).2.1, b') ∧
      At b' (numberAt num double (c :: u)).2.2 1 := by
  induction u generalizing b c num double with
  | nil =>
    obtain ⟨b₁, hnext, h₁⟩ := h.nextc sched hc
    have hround (k : Nat) : numberRound sched k (b, c, num, double) = .ok (.inr (none, double, b₁)) := by
      simp only [numberRound, hnext, List.head?_nil]
    exact ⟨b₁, returns_loop_done ⟨0, fun k _ => hround k⟩, h₁⟩
  | cons d u ih =>
    obtain ⟨b₁, hnext, h₁⟩ := h.nextc sched hc
    by_cases hd : isdigit d = true ∨ (d = 46 ∨ d = 69 ∨ d = 101) ∨ double = true ∧ d = 45
    · have hz : d ≠ 0 := by
        rintro rfl
        revert hd
        cases double <;> decide
      obtain ⟨b', hr, h'⟩ := ih (num ++ [c]) (double ∨ (d = 46 ∨ d = 69 ∨ d = 101)) hz h₁
      have hround (k : Nat) : numberRound sched k (b, c, num, double) =
          .ok (.inl (b₁, d, num ++ [c], double ∨ (d = 46 ∨ d = 69 ∨ d = 101))) := by
        simp only [numberRound, hnext, List.head?_cons, hd, if_true]
      rw [Dirlist.numberAt, if_pos hd]
      exact ⟨b', returns_loop_next ⟨0, fun k _ => hround k⟩ hr, h'⟩
    · have hround (k : Nat) : numberRound sched k (b, c, num, double) =
          .ok (.inr (some (num ++ [c]), double, b₁)) := by
        simp only [numberRound, hnext, List.head?_cons, hd, if_false]
      rw [Dirlist.numberAt, if_neg hd]
      exact ⟨b₁, returns_loop_done ⟨0, fun k _ => hround k⟩, h₁⟩

theorem scanNumber_eq {β γ : Type} (b : β) (c : γ) (double : Bool) (num : Option Bytes) :
    scanNumber b double num = ((scanNumber c double num).1, (scanNumber c double num).2.1, b) := by
  cases num with
  | none => rfl
  | some num =>
    simp only [scanNumber]
    split <;> split <;> rfl

theorem At.number_token (sched : Schedule) (val : JsonVal) (h : At b u 1) :
    FindsToken (fun m => jsonParseNumber sched m val b) (numberToken val u) 1 := by
  obtain ⟨b₁, hpeek, h₁⟩ := h.peekc sched (Nat.le_refl 1)
  cases u with
  | nil =>
    simp only [jsonParseNumber, hpeek, List.head?_nil]
    exact ⟨b₁, returns_ok _, h₁⟩
  | cons c u =>
    simp only [jsonParseNumber, hpeek, List.head?_cons, numberToken]
    split
    · next hc =>
      obtain ⟨b', hr, h'⟩ := h₁.numberAt sched [] false (isPlain_of_numberStart hc).2
      refine ⟨b', hr.bind (returns_const ?_), ?_⟩
      · rw [scanNumber_eq b']
      · rwa [scanNumber_buffer]
    · exact ⟨b₁, returns_ok _, h₁⟩

theorem At.strallocAt (sched : Schedule) (sa : Bytes) (h : At b u 1) :
    ∃ ret b', Returns (fun m => loop (strallocRound sched true) m (b, sa)) (ret, (strallocAt sa u).1, b') ∧
      At b' (strallocAt sa u).2 1 := by
  induction hn : u.length using Nat.strongRecOn generalizing b u sa with
  | _ n ih =>
  obtain ⟨b₁, hpeek, h₁⟩ := h.peekc sched (Nat.le_refl 1)
  cases u with
  | nil =>
    have hround (k : Nat) : strallocRound sched true k (b, sa) = .ok (.inr (0, sa, b₁)) := by
      simp only [strallocRound, hpeek, List.head?_nil]
    exact ⟨0, b₁, returns_loop_done ⟨0, fun k _ => hround k⟩, h₁⟩
  | cons c u =>
    have hlen : u.length < n := by rw [← hn, List.length_cons]; exact Nat.lt_succ_self _
    by_cases h92 : c = 92
    · subst h92
      obtain ⟨b₂, hnext, h₂⟩ := h₁.nextc sched (by decide)
      cases u with
      | nil =>
        have hround (k : Nat) : strallocRound sched true k (b, sa) = .ok (.inr (0, sa, b₂)) := by
          simp only [strallocRound, hpeek, List.head?_cons, if_true, hnext, List.head?_nil]
        exact ⟨0, b₂, returns_loop_done ⟨0, fun k _ => hround k⟩, h₂⟩
      | cons d u =>
        obtain ⟨b₃, hskip, h₃⟩ := h₂.skip sched
        have hround (k : Nat) : strallocRound sched true k (b, sa) = .ok (.inl (b₃, sa ++ [d])) := by
          simp only [strallocRound, hpeek, List.head?_cons, if_true, hnext, hskip]
        obtain ⟨ret, b', hr, h'⟩ := ih u.length (Nat.lt_of_succ_lt hlen) (sa ++ [d]) (h₃.mono (by decide)) rfl
        rw [Dirlist.strallocAt, if_pos rfl]
        exact ⟨ret, b', returns_loop_next ⟨0, fun k _ => hround k⟩ hr, h'⟩
    · obtain ⟨b₂, hskip, h₂⟩ := h₁.skip sched
      have hstep : Dirlist.strallocAt sa (c :: u) =
          if c = 34 then (sa, u) else Dirlist.strallocAt (sa ++ [c]) u := by
        rw [Dirlist.strallocAt.eq_def]
        exact if_neg h92
      rw [hstep]
      by_cases h34 : c = 34
      · have hround (k : Nat) : strallocRound sched true k (b, sa) = .ok (.inr (1, sa, b₂)) := by
          simp [strallocRound, hpeek, h34, hskip]
        rw [if_pos h34]
        exact ⟨1, b₂, returns_loop_done ⟨0, fun k _ => hround k⟩, h₂.mono (by decide)⟩
      · have hround (k : Nat) : strallocRound sched true k (b, sa) = .ok (.inl (b₂, sa ++ [c])) := by
          simp [strallocRound, hpeek, h34, h92, hskip]
        obtain ⟨ret, b', hr, h'⟩ := ih u.length hlen (sa ++ [c]) (h₂.mono (by decide)) rfl
        rw [if_neg h34]
        exact ⟨ret, b', returns_loop_next ⟨0, fun k _ => hround k⟩ hr, h'⟩

theorem At.wordAt (sched : Schedule) {word : Bytes} (hz : 0 ∉ word) (h : At b u 1) :
    ∃ b', Returns (fun m => Dirlist.skipWord sched m b word) ((wordAt word u).1, b') ∧ At b' (wordAt word u).2 1 := by
  induction word generalizing b u with
  | nil => exact ⟨b, returns_ok _, h⟩
  | cons c word ih =>
    obtain ⟨hc, hz'⟩ : c ≠ 0 ∧ 0 ∉ word := by simpa [eq_comm] using hz
    cases u with
    | nil =>
      obtain ⟨b₁, hr₁, h₁⟩ := h.skipIfeq_ne sched (Nat.le_refl 1) hc (by simp)
      exact ⟨b₁, hr₁.bind (returns_ok _), h₁⟩
    | cons d u =>
      by_cases hd : d = c
      · subst hd
        obtain ⟨b₁, hr₁, h₁⟩ := h.skipIfeq_eq sched hc
        rw [Dirlist.wordAt, if_pos rfl]
        by_cases hu : u = []
        · subst hu
          exact ⟨b₁, hr₁.bind (returns_ok _), h₁⟩
        · rw [if_neg hu] at hr₁ ⊢
          obtain ⟨b', hr, h'⟩ := ih hz' h₁
          exact ⟨b', hr₁.bind hr, h'⟩
      · obtain ⟨b₁, hr₁, h₁⟩ := h.skipIfeq_ne sched (Nat.le_refl 1) hc (by simpa using hd)
        rw [Dirlist.wordAt, if_neg hd]
        exact ⟨b₁, hr₁.bind (returns_ok _), h₁⟩

theorem At.boolean_token (sched : Schedule) (val : JsonVal) (h : At b u 1) :
    FindsToken (fun m => jsonParseBoolean sched m val b) (booleanToken val u) 1 := by
  cases u with
  | nil => exact h.parseBoolean_other sched val (Nat.le_refl 1) (by simp)
  | cons c u =>
    by_cases hc : c ∈ [116, 102]
    · have hc0 : c ≠ 0 := by
        rintro rfl
        revert hc
        decide
      obtain ⟨b₁, hset, h₁⟩ := h.skipIfset_mem sched (Nat.le_refl 1) hc
      obtain ⟨b₂, hpeek, h₂⟩ := (h₁.mono (Nat.zero_le 1)).peekc sched (Nat.le_refl 1)
      have hz : 0 ∉ boolTail (decide (u.head? = some 114)) := by cases decide (u.head? = some 114) <;> decide
      obtain ⟨b₃, hr₃, h₃⟩ := h₂.wordAt sched hz
      simp only [jsonParseBoolean, hset, gt_iff_lt, toNat_pos_of_ne_zero hc0, if_true, hpeek, booleanToken, hc]
      rcases hword : Dirlist.wordAt (boolTail (decide (u.head? = some 114))) u with ⟨all, rest⟩
      rw [hword] at hr₃ h₃
      cases all with
      | true => exact ⟨b₃, hr₃.bind (returns_ok _), h₃⟩
      | false => exact ⟨b₃, hr₃.bind (returns_ok _), h₃⟩
    · rw [booleanToken]
      simp only [hc, if_false]
      exact h.parseBoolean_other sched val (Nat.le_refl 1) (by simpa using hc)

/-- A word like `null` that is none stays, with more of it looked at. -/
theorem At.null_token (sched : Schedule) (val : JsonVal) (h : At b u 1) :
    (nullToken val u).1 = 1 ∧ FindsToken (fun m => jsonParseNull sched m val b) (nullToken val u) 2 ∨
      nullToken val u = (0, val, u) ∧ ∃ b', Returns (fun m => jsonParseNull sched m val b) (0, val, b') ∧
        (At b' u 1 ∨ At b' u 5 ∧ u.head? = some 110) := by
  have hle := predCount_identifier_le nullWord 0 u
  have h4 : nullWord.length = 4 := rfl
  obtain ⟨b₁, hr₁, h₁⟩ := h.predLookahead sched (predicateIdentifier nullWord) (by omega)
  unfold nullToken
  by_cases hn : predCount (predicateIdentifier nullWord) 0 u ≥ 4
  · rw [if_pos hn]
    obtain ⟨s, rfl⟩ := predCount_ge_prefix nullWord [] nullWord rfl hn
    refine .inl ⟨rfl, charbufSkipn sched b₁ 4, hr₁.bind (returns_const (if_pos hn)), ?_⟩
    exact (h₁.skipn sched (by decide) (by omega)).mono (by omega)
  · rw [if_neg hn]
    refine .inr ⟨rfl, b₁, hr₁.bind (returns_const (if_neg hn)), ?_⟩
    by_cases h110 : u.head? = some 110
    · exact .inr ⟨h₁.mono (by omega), h110⟩
    · have hzero := predCount_null_other h110
      exact .inl (h₁.mono (by omega))

section
variable [Unwritten]

theorem escapeUtf8_returns (k : Nat) (s : Bytes) : ∃ out, escapeUtf8 k s = .ok out := by
  induction s generalizing k with
  | nil => exact ⟨[], by cases k <;> rfl⟩
  | cons c s ih =>
    cases k with
    | succ k => exact ih k
    | zero =>
      rw [escapeUtf8]
      split
      · obtain ⟨out, hout⟩ := ih 0
        exact ⟨_, by rw [hout, ok_bind]⟩
      · next r n _ =>
        split
        · obtain ⟨out, hout⟩ := ih (r - 1)
          exact ⟨_, by rw [hout, ok_bind]⟩
        · obtain ⟨out, hout⟩ := ih 0
          exact ⟨_, by rw [hout, ok_bind]⟩

theorem escapeUtf8_eq (s : Bytes) : escapeUtf8 0 s = .ok (escapedText s) := by
  obtain ⟨out, hout⟩ := escapeUtf8_returns 0 s
  rw [escapedText, hout]

theorem At.string_token (sched : Schedule) (val : JsonVal) (h : At b u 1) :
    FindsToken (fun m => jsonParseString sched m val b) (stringToken val u) 1 := by
  cases u with
  | nil => exact h.parseString_other sched val (Nat.le_refl 1) (by simp)
  | cons c u =>
    by_cases hc : c = 34
    · subst hc
      obtain ⟨b₁, hr₁, h₁⟩ := h.skipIfeq_eq sched (by decide)
      rw [stringToken]
      simp only [if_true]
      by_cases hu : u = []
      · subst hu
        exact ⟨b₁, hr₁.bind (returns_ok _), h₁⟩
      · rw [if_neg hu] at hr₁ ⊢
        obtain ⟨ret, b₂, hr₂, h₂⟩ := At.strallocAt sched [] h₁
        refine ⟨b₂, hr₁.bind ?_, h₂⟩
        refine Returns.bind (a := (ret, escapedText (Dirlist.strallocAt [] u).1, b₂))
          (hr₂.bind (returns_const ?_)) (returns_ok _)
        simp [escapeUtf8_eq]
    · rw [stringToken]
      simp only [hc, if_false]
      exact h.parseString_other sched val (Nat.le_refl 1) (by simpa using hc)

theorem At.objectKeyAt (sched : Schedule) (h : At b u 1) :
    ∃ b', Returns (fun m => Dirlist.parseKey sched m b) ((objectKeyAt u).1, b') ∧ At b' (objectKeyAt u).2 1 := by
  obtain ⟨b₁, hr₁, h₁⟩ := h.string_token sched .undefined
  rcases htok : stringToken .undefined u with ⟨r, key, rest⟩
  rw [htok] at hr₁ h₁
  obtain ⟨b₂, hr₂, h₂⟩ := At.number_token sched key h₁
  rcases hnum : numberToken key rest with ⟨r', key', rest'⟩
  rw [hnum] at hr₂ h₂
  simp only [Dirlist.objectKeyAt, htok]
  split
  · exact ⟨b₁, hr₁.bind (returns_ok _), h₁⟩
  · next hne =>
    have hbind (x : Bytes) (hx : Returns (fun _ => match r', key' with
        | 1, .int v => (.ok (fmtUlonglong (v % 2 ^ 64).toNat, b₂) : Exec (Bytes × Charbuf))
        | 1, .double text => .ok (fmtUlonglong (Unwritten.doubleBits text % 2 ^ 64), b₂)
        | _, _ => .ok ([], b₂)) (x, b₂)) : Returns (fun m => Dirlist.parseKey sched m b) (x, b₂) := by
      refine hr₁.bind ?_
      dsimp only
      split
      · next s => exact absurd rfl (hne s rfl)
      · exact hr₂.bind hx
    simp only [hnum]
    split
    · exact ⟨b₂, hbind _ (returns_ok _), h₂⟩
    · exact ⟨b₂, hbind _ (returns_ok _), h₂⟩
    · next hint hdouble =>
      refine ⟨b₂, hbind _ (returns_const ?_), h₂⟩
      split
      · next v => exact absurd rfl (hint v rfl)
      · next text => exact absurd rfl (hdouble text rfl)
      · rfl

end

/-- Nothing is taken but white space where no delimiter stands. -/
theorem At.delimiter_other (sched : Schedule) {close : UInt8} (h : At b u q) (hq : 1 ≤ q)
    (hne : ∀ c ∈ (dropWs u).head?, ¬(c = 44 ∨ c = close)) :
    ∃ b', Returns (fun m => Dirlist.skipDelimiter sched m b close) (false, b') ∧ At b' (dropWs u) q := by
  obtain ⟨r₁, b₁, hr₁, h₁⟩ := h.skipWs sched hq
  obtain ⟨b₂, hpeek, h₂⟩ := h₁.peekc sched hq
  refine ⟨b₂, hr₁.bind ⟨0, fun m _ => ?_⟩, h₂⟩
  dsimp only
  rw [hpeek]
  rcases hu : (dropWs u).head? with _ | c
  · rfl
  · rw [hu] at hne
    simp only [hne c rfl, if_false]

theorem Stands.delimiterAt (sched : Schedule) {close : UInt8} (hclose : close = 93 ∨ close = 125) (h : Stands b u) :
    ∃ b', Returns (fun m => Dirlist.skipDelimiter sched m b close) ((delimiterAt close u).1, b') ∧
      ((delimiterAt close u).1 = true → At b' (delimiterAt close u).2 1) ∧ Stands b' (delimiterAt close u).2 := by
  have hhead : ∀ c t, dropWs u = c :: t → Dirlist.delimiterAt close u =
      if c = 44 ∨ c = close then (decide (c = 44), dropWs t) else (false, c :: t) := by
    intro c t hu
    rw [Dirlist.delimiterAt, hu]
  rcases h with h | ⟨h, h110⟩
  · by_cases hc : ∃ c t, dropWs u = c :: t ∧ (c = 44 ∨ c = close)
    · obtain ⟨c, t, hu, hc⟩ := hc
      obtain ⟨b', hr, h'⟩ := h.skipDelimiter sched hu hc
      rw [hhead c t hu, if_pos hc]
      exact ⟨b', hr, fun _ => h', .inl (h'.mono (by decide))⟩
    · have hnot : Dirlist.delimiterAt close u = (false, dropWs u) := by
        cases hu : dropWs u with
        | nil => rw [Dirlist.delimiterAt, hu]
        | cons c t => rw [hhead c t hu, if_neg fun h => hc ⟨c, t, hu, h⟩]
      obtain ⟨b', hr, h'⟩ := h.delimiter_other sched (by decide) fun c hmem hd =>
        hc ⟨c, (dropWs u).tail, List.eq_cons_of_mem_head? hmem, hd⟩
      rw [hnot]
      exact ⟨b', hr, nofun, .inl h'⟩
  · obtain ⟨t, rfl⟩ : ∃ t, u = 110 :: t := ⟨u.tail, List.eq_cons_of_mem_head? h110⟩
    have hws : dropWs (110 :: t) = 110 :: t := dropWs_of_not (by simp; decide)
    have hc : ¬((110 : UInt8) = 44 ∨ 110 = close) := by
      rcases hclose with rfl | rfl <;> decide
    obtain ⟨b', hr, h'⟩ := @At.delimiter_other _ _ _ sched close h (by decide) (by simpa [hws] using hc)
    rw [hws] at h'
    rw [hhead _ _ hws, if_neg hc]
    exact ⟨b', hr, nofun, .inr ⟨h', rfl⟩⟩

end Dirlist
