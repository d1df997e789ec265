import Dirlist.Http.Defs
import Dirlist.Scan

/-! `http_get_header`. The length that is left grows by each line that is gone over, so behind the first
line with a byte in it the lookup goes by the bytes it looks for and not by the end of the data. -/

namespace Dirlist
open Run

/-- Whether `name` stands at `i`, where the first colon is `pos` bytes further on. -/
def headerNamed (data name : Bytes) (i pos : Nat) : Exec Bool :=
  if pos = name.length then do
    let r ← caseDiffb pos name (data.drop i)
    .ok (r = 0)
  else .ok false

/-- From the colon at `i` to the value. -/
def headerValue (data : Bytes) (i len : Nat) : Exec Nat :=
  let (i, len) := if len > 0 then (i + 1, len - 1) else (i, len)
  do
    let pos ← scanWhitenskipChecked len (data.drop i)
    .ok (i + pos)

/-- One round of `http_get_header`: `x` is at `i`, and `len` is what it takes to be left. -/
def getHeaderRound (data name : Bytes) (_ : Nat) : Nat × Nat → Exec (Nat × Nat ⊕ Option Nat)
  | (i, len) =>
    if len > 0 then do
      let pos ← byteChrChecked 58 len (data.drop i)
      let same ← headerNamed data name i pos
      if same then do
        let x ← headerValue data (i + pos) (len - pos)
        .ok (.inr (some x))
      else do
        let pos ← byteChrChecked 10 len (data.drop i)
        let (i, len) := (i + pos, len + pos)
        .ok (.inl (if len > 0 then (i + 1, len - 1) else (i, len)))
    else .ok (.inr none)

/-- `http_get_header`, as the index of the value in the data. -/
def httpGetHeader (n : Nat) (response : Option HttpResponse) (name : Bytes) : Exec (Option Nat) :=
  match response with
  | none => .ok none
  | some r =>
    let pos := byteChr 10 r.data
    let pos := if pos < r.data.length then pos + 1 else pos
    loop (getHeaderRound r.data name) n (pos, r.data.length - pos)

/-! ## What is looked up -/

/-- The first line of a text has a colon, with `name` before the first one. -/
def NamedLine (name x : Bytes) : Prop :=
  58 ∈ x.takeWhile (· ≠ 10) ∧ SameCase ((x.takeWhile (· ≠ 10)).takeWhile (· ≠ 58)) name

/-- A line that starts at `k` is a header with the name. -/
def HeaderAt (name x : Bytes) (k : Nat) : Prop := (k = 0 ∨ x[k - 1]? = some 10) ∧ NamedLine name (x.drop k)

structure FirstHeader (name x : Bytes) (k : Nat) : Prop where
  header : HeaderAt name x k
  first : ∀ j < k, ¬HeaderAt name x j

/-- Where the lines behind the status line start. -/
def headerStart (data : Bytes) : Nat := min (byteChr 10 data + 1) data.length

/-- Behind the colon and the blanks of the header at `k`. -/
def valueAt (name x : Bytes) (k : Nat) : Nat :=
  k + name.length + 1 + scanWhitenskip (x.drop (k + name.length + 1))

/-- The outcome of a lookup in the lines `x`, which start at `i`. -/
def LooksUp (name x : Bytes) (i : Nat) (f : Nat → Exec (Option Nat)) : Prop :=
  (∃ k, FirstHeader name x k ∧ Returns f (some (i + valueAt name x k))) ∨
    (∀ k, ¬HeaderAt name x k) ∧ Returns f none

/-- When the lookup of a name does not go past the data: `d` bytes too many are taken to be left. -/
def StaysInside (name x : Bytes) (d : Nat) : Prop :=
  (∃ k, FirstHeader name x k ∧
    ((d = 0 ∧ ∀ b ∈ x.take k, b = 10) ∨ ∃ b ∈ x.drop (k + name.length + 1), isspace b = false)) ∨
  (∀ k, ¬HeaderAt name x k) ∧ d = 0 ∧ ∀ b ∈ x, b = 10

variable {name x x' line data : Bytes} {k : Nat}

theorem takeWhile_line {d : UInt8} (hline : d ∉ line) (x' : Bytes) :
    (line ++ d :: x').takeWhile (· ≠ d) = line :=
  takeWhile_stop (fun c hc => by simpa using ne_of_mem_of_not_mem hc hline) (by simp)

theorem drop_line (line x' : Bytes) (j : Nat) : (line ++ 10 :: x').drop (line.length + 1 + j) = x'.drop j := by
  have hone : (line ++ 10 :: x').drop (line.length + 1) = x' := by
    rw [← List.drop_drop, List.drop_left]
    rfl
  rw [← List.drop_drop, hone]

theorem namedLine_congr (hline : 10 ∉ line) : NamedLine name (line ++ 10 :: x') ↔ NamedLine name line := by
  have hself : line.takeWhile (· ≠ 10) = line :=
    List.takeWhile_eq_self_iff.mpr fun c hc => by simpa using ne_of_mem_of_not_mem hc hline
  rw [NamedLine, NamedLine, takeWhile_line hline, hself]

/-- A header in a text of more lines is the first of them, or one in the rest. -/
theorem headerAt_line (hline : 10 ∉ line) : HeaderAt name (line ++ 10 :: x') k ↔
    (k = 0 ∧ NamedLine name line) ∨ ∃ j, k = line.length + 1 + j ∧ HeaderAt name x' j := by
  rcases Nat.lt_or_ge line.length k with hlt | hle
  · obtain ⟨j, rfl⟩ := Nat.exists_eq_add_of_le hlt
    have hdrop : (line ++ 10 :: x').drop (line.length + 1 + j) = x'.drop j := drop_line _ _ _
    have hbefore : (line ++ 10 :: x')[line.length + 1 + j - 1]? = (10 :: x')[j]? := by
      rw [List.getElem?_append_right (by omega)]
      congr 1
      omega
    rw [HeaderAt, hdrop, hbefore]
    constructor
    · rintro ⟨hstart, hnamed⟩
      refine .inr ⟨j, rfl, ?_, hnamed⟩
      cases j with
      | zero => exact .inl rfl
      | succ j => exact .inr (hstart.resolve_left (by omega))
    · rintro (⟨hzero, -⟩ | ⟨j', hj, hstart, hnamed⟩)
      · omega
      · obtain rfl : j = j' := Nat.add_left_cancel hj
        refine ⟨.inr ?_, hnamed⟩
        cases j with
        | zero => rfl
        | succ j => exact hstart.resolve_left (by omega)
  · constructor
    · rintro ⟨hstart, hnamed⟩
      rcases hstart with rfl | hstart
      · exact .inl ⟨rfl, (namedLine_congr hline).mp hnamed⟩
      · cases k with
        | zero => exact .inl ⟨rfl, (namedLine_congr hline).mp hnamed⟩
        | succ k =>
          rw [Nat.add_sub_cancel, List.getElem?_append_left hle] at hstart
          exact absurd (List.mem_of_getElem? hstart) hline
    · rintro (⟨rfl, hnamed⟩ | ⟨j, rfl, -⟩)
      · exact ⟨.inl rfl, (namedLine_congr hline).mpr hnamed⟩
      · omega

theorem firstHeader_line (hline : 10 ∉ line) (hnot : ¬NamedLine name line) :
    FirstHeader name (line ++ 10 :: x') k ↔ ∃ j, k = line.length + 1 + j ∧ FirstHeader name x' j := by
  constructor
  · rintro ⟨hheader, hfirst⟩
    obtain ⟨-, hnamed⟩ | ⟨j, rfl, hj⟩ := (headerAt_line hline).mp hheader
    · exact absurd hnamed hnot
    · refine ⟨j, rfl, hj, fun m hm hheader => ?_⟩
      exact hfirst (line.length + 1 + m) (Nat.add_lt_add_left hm _) ((headerAt_line hline).mpr (.inr ⟨m, rfl, hheader⟩))
  · rintro ⟨j, rfl, hheader, hfirst⟩
    refine ⟨(headerAt_line hline).mpr (.inr ⟨j, rfl, hheader⟩), fun m hm hm' => ?_⟩
    obtain ⟨-, hnamed⟩ | ⟨j', rfl, hj'⟩ := (headerAt_line hline).mp hm'
    · exact hnot hnamed
    · exact hfirst j' (Nat.lt_of_add_lt_add_left hm) hj'

theorem forall_not_headerAt_line (hline : 10 ∉ line) (hnot : ¬NamedLine name line) :
    (∀ k, ¬HeaderAt name (line ++ 10 :: x') k) ↔ ∀ k, ¬HeaderAt name x' k := by
  constructor
  · exact fun h j hj => h _ ((headerAt_line hline).mpr (.inr ⟨j, rfl, hj⟩))
  · intro h k hk
    obtain ⟨-, hnamed⟩ | ⟨j, -, hj⟩ := (headerAt_line hline).mp hk
    · exact hnot hnamed
    · exact h j hj

theorem firstHeader_zero (h : NamedLine name x) : FirstHeader name x 0 :=
  ⟨⟨.inl rfl, h⟩, fun _ hj => absurd hj (Nat.not_lt_zero _)⟩

theorem FirstHeader.eq_zero (h : FirstHeader name x k) (hnamed : NamedLine name x) : k = 0 := by
  by_contra hk
  exact h.first 0 (Nat.pos_of_ne_zero hk) (firstHeader_zero hnamed).header

theorem headerAt_last (hx : 10 ∉ x) : HeaderAt name x k ↔ k = 0 ∧ NamedLine name x := by
  constructor
  · rintro ⟨rfl | hstart, hnamed⟩
    · exact ⟨rfl, hnamed⟩
    · exact absurd (List.mem_of_getElem? hstart) hx
  · rintro ⟨rfl, hnamed⟩
    exact ⟨.inl rfl, hnamed⟩

theorem namedLine_iff : NamedLine name x ↔ ∃ w y, x = w ++ 58 :: y ∧ 10 ∉ w ∧ 58 ∉ w ∧ SameCase w name := by
  constructor
  · rintro ⟨hcolon, hsame⟩
    obtain ⟨line, rest, hx, hline, -, htake, -⟩ := exists_until 10 x
    rw [htake] at hcolon hsame
    obtain ⟨w, t, rfl, hw, ht, htake, -⟩ := exists_until 58 line
    rw [htake] at hsame
    obtain rfl | ⟨y, rfl⟩ := ht
    · exact absurd rfl (hw 58 (by simpa using hcolon))
    · refine ⟨w, y ++ rest, by simpa using hx, fun h => ?_, fun h => hw 58 h rfl, hsame⟩
      exact hline 10 (List.mem_append_left _ h) rfl
  · rintro ⟨w, y, rfl, hten, hcolon, hsame⟩
    have hline : (w ++ 58 :: y).takeWhile (· ≠ 10) = w ++ 58 :: y.takeWhile (· ≠ 10) := by
      rw [List.takeWhile_append_of_pos (fun c hc => by simpa using ne_of_mem_of_not_mem hc hten),
        List.takeWhile_cons, if_pos (by decide)]
    rw [NamedLine, hline, takeWhile_line hcolon]
    exact ⟨by simp, hsame⟩

theorem NamedLine.colon (h : NamedLine name x) : 58 ∈ x := (List.takeWhile_sublist _).subset h.1

theorem valueAt_line (line x' : Bytes) (j : Nat) :
    valueAt name (line ++ 10 :: x') (line.length + 1 + j) = line.length + 1 + valueAt name x' j := by
  have hassoc : line.length + 1 + j + name.length + 1 = line.length + 1 + (j + name.length + 1) := by omega
  rw [valueAt, valueAt, hassoc, drop_line]
  omega

/-- Behind a line that is not the one looked for, more bytes are taken to be left than there are. -/
theorem staysInside_line (hline : 10 ∉ line) (hnot : ¬NamedLine name line) (d : Nat) :
    StaysInside name (line ++ 10 :: x') d ↔ StaysInside name x' (d + 2 * line.length) := by
  have hdrift : (d + 2 * line.length = 0) ↔ d = 0 ∧ line = [] := by
    rw [← List.length_eq_zero_iff]
    omega
  have hempty (u : Bytes) : (d = 0 ∧ ∀ b ∈ line ++ 10 :: u, b = 10) ↔ d + 2 * line.length = 0 ∧ ∀ b ∈ u, b = 10 := by
    have hnil : (∀ b ∈ line, b = 10) ↔ line = [] :=
      ⟨fun h => List.eq_nil_iff_forall_not_mem.mpr fun b hb => hline (h b hb ▸ hb), fun h => by simp [h]⟩
    rw [List.forall_mem_append, List.forall_mem_cons, hnil, hdrift]
    tauto
  have htake (j : Nat) : (line ++ 10 :: x').take (line.length + 1 + j) = line ++ 10 :: x'.take j := by
    rw [Nat.add_assoc, List.take_length_add_append, Nat.add_comm 1 j, List.take_succ_cons]
  have hdrop (j : Nat) : (line ++ 10 :: x').drop (line.length + 1 + j + name.length + 1) =
      x'.drop (j + name.length + 1) := by
    rw [Nat.add_assoc _ j, Nat.add_assoc _ (j + name.length), drop_line]
  unfold StaysInside
  rw [forall_not_headerAt_line hline hnot, hempty]
  refine or_congr ?_ Iff.rfl
  constructor
  · rintro ⟨k, hfirst, hinside⟩
    obtain ⟨j, rfl, hj⟩ := (firstHeader_line hline hnot).mp hfirst
    rw [htake, hdrop, hempty] at hinside
    exact ⟨j, hj, hinside⟩
  · rintro ⟨j, hj, hinside⟩
    refine ⟨_, (firstHeader_line hline hnot).mpr ⟨j, rfl, hj⟩, ?_⟩
    rw [htake, hdrop, hempty]
    exact hinside

theorem looksUp_line (hline : 10 ∉ line) (hnot : ¬NamedLine name line) (i : Nat) (f : Nat → Exec (Option Nat)) :
    LooksUp name (line ++ 10 :: x') i f ↔ LooksUp name x' (i + (line.length + 1)) f := by
  unfold LooksUp
  rw [forall_not_headerAt_line hline hnot]
  refine or_congr ?_ Iff.rfl
  constructor
  · rintro ⟨k, hfirst, hreturns⟩
    obtain ⟨j, rfl, hj⟩ := (firstHeader_line hline hnot).mp hfirst
    rw [valueAt_line, ← Nat.add_assoc] at hreturns
    exact ⟨j, hj, hreturns⟩
  · rintro ⟨j, hj, hreturns⟩
    refine ⟨_, (firstHeader_line hline hnot).mpr ⟨j, rfl, hj⟩, ?_⟩
    rw [valueAt_line, ← Nat.add_assoc]
    exact hreturns

/-! ## A round -/

variable {i d pos : Nat}

theorem headerNamed_spec (name : Bytes) (hx : data.drop i = x) (hpos : pos ≤ x.length) :
    ∃ b, headerNamed data name i pos = .ok b ∧
      (b = true ↔ pos = name.length ∧ SameCase name (x.take pos)) := by
  unfold headerNamed
  by_cases hlen : pos = name.length
  · obtain ⟨r, hr, hsame⟩ := caseDiffb_spec (s := name) (Nat.le_of_eq hlen) hpos
    rw [if_pos hlen, hx, hr, ok_bind]
    refine ⟨_, rfl, ?_⟩
    rw [decide_eq_true_iff, hsame, List.take_of_length_le (Nat.le_of_eq hlen.symm)]
    exact (and_iff_right hlen).symm
  · exact ⟨false, if_neg hlen, by simp [hlen]⟩

/-- No colon comes before the end of the data. -/
theorem round_past_colon (hx : data.drop i = x) (h : 58 ∉ x) (k : Nat) :
    getHeaderRound data name k (i, x.length + (d + 1)) = .error .bounds := by
  have hpos : x.length + (d + 1) > 0 := Nat.succ_pos _
  rw [getHeaderRound, if_pos hpos, hx, byteChrChecked_past h]
  rfl

/-- The line is not the one, by what the code compares. -/
theorem round_next (hx : data.drop i = x) (hpos : 0 < x.length + d) (hcolon : 58 ∈ x ∨ d = 0)
    (hother : headerNamed data name i (byteChr 58 x) = .ok false) (hten : 10 ∈ x ∨ d = 0) (k : Nat) :
    getHeaderRound data name k (i, x.length + d) =
      .ok (.inl (i + byteChr 10 x + 1, x.length + d + byteChr 10 x - 1)) := by
  rw [getHeaderRound, if_pos hpos, hx, byteChrChecked_found hcolon, ok_bind, hother, ok_bind,
    if_neg Bool.false_ne_true, byteChrChecked_found hten, ok_bind,
    if_pos (Nat.lt_of_lt_of_le hpos (Nat.le_add_right _ _))]

theorem round_past_line (hx : data.drop i = x) (hcolon : 58 ∈ x) (hten : 10 ∉ x)
    (hother : headerNamed data name i (byteChr 58 x) = .ok false) (k : Nat) :
    getHeaderRound data name k (i, x.length + (d + 1)) = .error .bounds := by
  have hpos : x.length + (d + 1) > 0 := Nat.succ_pos _
  rw [getHeaderRound, if_pos hpos, hx, byteChrChecked_found (.inl hcolon), ok_bind, hother, ok_bind,
    if_neg Bool.false_ne_true, byteChrChecked_past hten]
  rfl

/-- The line is the one: the blanks behind its colon are skipped. -/
theorem round_named (hx : data.drop i = x) (hnamed : NamedLine name x) (k : Nat) :
    getHeaderRound data name k (i, x.length + d) =
      (scanWhitenskipChecked ((x.drop (name.length + 1)).length + d) (x.drop (name.length + 1))).map
        fun pos => .inr (some (i + name.length + 1 + pos)) := by
  obtain ⟨w, y, rfl, -, hcolon, hsame⟩ := namedLine_iff.mp hnamed
  have hlen := hsame.length_eq
  have hpos : (w ++ 58 :: y).length + d > 0 := by
    rw [List.length_append, List.length_cons]
    omega
  have hfound : byteChrChecked 58 ((w ++ 58 :: y).length + d) (w ++ 58 :: y) = .ok name.length := by
    rw [byteChrChecked_found (.inl (by simp)), byteChr_at hcolon, hlen]
  have hsame' : headerNamed data name i name.length = .ok true := by
    have hle : name.length ≤ (w ++ 58 :: y).length := by simp [← hlen]
    obtain ⟨b, hb, hiff⟩ := headerNamed_spec name hx hle
    have htake : (w ++ 58 :: y).take name.length = w := by rw [← hlen, List.take_left]
    rw [hb, hiff.mpr ⟨rfl, htake.symm ▸ hsame.symm⟩]
  have hdrop : (w ++ 58 :: y).drop (name.length + 1) = y := by
    rw [← hlen, ← List.drop_drop, List.drop_left]
    rfl
  have hvalue : data.drop (i + name.length + 1) = y := by
    rw [Nat.add_assoc, ← List.drop_drop, hx, hdrop]
  have hleft : (w ++ 58 :: y).length + d - name.length = y.length + d + 1 := by
    simp only [List.length_append, List.length_cons]
    omega
  rw [getHeaderRound, if_pos hpos, hx, hfound, ok_bind, hsame', ok_bind, if_pos rfl, headerValue, hleft, hdrop,
    if_pos (Nat.succ_pos _), Nat.add_sub_cancel]
  dsimp only
  rw [hvalue]
  cases scanWhitenskipChecked (y.length + d) y <;> rfl

/-! ## The lookup -/

theorem not_headerAt_of_no_colon (h : 58 ∉ x) (k : Nat) : ¬HeaderAt name x k :=
  fun hk => h ((List.drop_sublist k x).subset hk.2.colon)

theorem LooksUp.of_none (h : ∀ k, ¬HeaderAt name x k) {f : Nat → Exec (Option Nat)} :
    LooksUp name x i f ↔ Returns f none :=
  ⟨fun hl => hl.elim (fun ⟨_, hk, _⟩ => absurd hk.header (h _)) And.right, fun hr => .inr ⟨h, hr⟩⟩

theorem StaysInside.of_none (h : ∀ k, ¬HeaderAt name x k) : StaysInside name x d ↔ d = 0 ∧ ∀ b ∈ x, b = 10 :=
  ⟨fun hs => hs.elim (fun ⟨_, hk, _⟩ => absurd hk.header (h _)) And.right, fun hr => .inr ⟨h, hr⟩⟩

theorem lookup_named (hx : data.drop i = x) (hnamed : NamedLine name x) :
    LooksUp name x i (fun n => loop (getHeaderRound data name) n (i, x.length + d)) ↔ StaysInside name x d := by
  have hfirst := firstHeader_zero hnamed
  have hnone : ¬∀ k, ¬HeaderAt name x k := fun h => h 0 hfirst.header
  have hinside : StaysInside name x d ↔ (∃ b ∈ x.drop (name.length + 1), isspace b = false) ∨ d = 0 := by
    unfold StaysInside
    rw [or_iff_left (fun h => hnone h.1)]
    constructor
    · rintro ⟨k, hk, hinside⟩
      obtain rfl := hk.eq_zero hnamed
      rw [Nat.zero_add] at hinside
      exact hinside.symm.imp_right And.left
    · intro h
      refine ⟨0, hfirst, ?_⟩
      rw [Nat.zero_add]
      exact h.symm.imp_left fun hd => ⟨hd, by simp⟩
  rw [hinside]
  constructor
  · rintro (⟨k, -, hreturns⟩ | ⟨h, -⟩)
    · by_contra hpast
      obtain ⟨hblank, hd⟩ := not_or.mp hpast
      obtain ⟨d, rfl⟩ := Nat.exists_eq_succ_of_ne_zero hd
      refine not_returns_loop (e := .bounds) (fun n => ?_) _ hreturns
      rw [round_named hx hnamed, scanWhitenskipChecked_past (by simpa using hblank)]
      rfl
    · exact absurd h hnone
  · intro h
    have hround (k : Nat) : getHeaderRound data name k (i, x.length + d) =
        .ok (.inr (some (i + valueAt name x 0))) := by
      rw [round_named hx hnamed, scanWhitenskipChecked_found h, valueAt]
      simp only [Except.map, Nat.zero_add, Nat.add_assoc]
    exact .inl ⟨0, hfirst, returns_loop_done ((returns_ok _).congr hround)⟩

/-- What the code compares is the name of the first line, if the colon is there. -/
theorem namedLine_of_same (hname : 10 ∉ name) (hcolon : 58 ∈ x) (hpos : byteChr 58 x = name.length)
    (hsame : SameCase name (x.take (byteChr 58 x))) : NamedLine name x := by
  obtain ⟨w, t, rfl, hw, ht, -⟩ := exists_until 58 x
  obtain rfl | ⟨y, rfl⟩ := ht
  · exact absurd rfl (hw 58 (by simpa using hcolon))
  · have hfree : 58 ∉ w := fun h => hw 58 h rfl
    rw [byteChr_at hfree, List.take_left] at hsame
    exact namedLine_iff.mpr ⟨w, y, rfl, hsame.symm.not_mem_ten hname, hfree, hsame.symm⟩

/-- The end of the data is taken for a colon, and `name` stands before it. -/
theorem round_end_named (hx : data.drop i = x) (hpos : 0 < x.length) (hcolon : 58 ∉ x)
    (hsame : headerNamed data name i x.length = .ok true) (k : Nat) :
    getHeaderRound data name k (i, x.length + 0) = .ok (.inr (some (i + x.length))) := by
  rw [getHeaderRound, if_pos (Nat.lt_of_lt_of_le hpos (Nat.le_add_right _ _)), hx,
    byteChrChecked_found (.inr rfl), ok_bind, byteChr_free hcolon, hsame, ok_bind, if_pos rfl, headerValue,
    Nat.add_zero, Nat.sub_self, if_neg (Nat.lt_irrefl 0)]
  rfl

/-- A last line that is not the one is gone over, and the next search starts behind the end. -/
theorem not_returns_next (hx : data.drop i = x) (hten : 10 ∉ x) (hpos : 0 < x.length)
    (hother : headerNamed data name i (byteChr 58 x) = .ok false) (r : Option Nat) :
    ¬Returns (fun n => loop (getHeaderRound data name) n (i, x.length + 0)) r := by
  rw [returns_loop_iff (round_next hx hpos (.inr rfl) hother (.inr rfl))]
  have hend : data.drop (i + byteChr 10 x + 1) = [] := by
    rw [byteChr_free hten, Nat.add_assoc, ← List.drop_drop, hx]
    exact List.drop_of_length_le (Nat.le_succ _)
  have hlen : x.length + 0 + byteChr 10 x - 1 = ([] : Bytes).length + ((2 * x.length - 2) + 1) := by
    rw [byteChr_free hten, List.length_nil]
    omega
  rw [hlen]
  exact not_returns_loop (round_past_colon hend List.not_mem_nil) r

/-- The last line is not the one. The lookup only stops by itself where there is nothing to look at. -/
theorem not_returns_last (hname : 10 ∉ name) (hx : data.drop i = x) (hten : 10 ∉ x) (hnot : ¬NamedLine name x)
    (hpos : 0 < x.length + d) :
    ¬Returns (fun n => loop (getHeaderRound data name) n (i, x.length + d)) none := by
  obtain ⟨same, hsame, hiff⟩ := headerNamed_spec name hx (byteChr_le 58 x)
  by_cases hcolon : 58 ∈ x
  · have hother : same = false := by
      by_contra h
      obtain ⟨hlen, htake⟩ := hiff.mp (Bool.eq_true_of_not_eq_false h)
      exact hnot (namedLine_of_same hname hcolon hlen htake)
    rw [hother] at hsame
    cases d with
    | zero => exact not_returns_next hx hten hpos hsame none
    | succ d => exact not_returns_loop (round_past_line hx hcolon hten hsame) none
  · cases d with
    | zero =>
      cases same with
      | false => exact not_returns_next hx hten hpos hsame none
      | true =>
        rw [byteChr_free hcolon] at hsame
        have hsome := returns_loop_done ((returns_ok _).congr (round_end_named hx hpos hcolon hsame))
        exact fun hnone => absurd (hsome.unique hnone) (Option.some_ne_none _)
    | succ d => exact not_returns_loop (round_past_colon hx hcolon) none

theorem lookup_last (hname : 10 ∉ name) (hx : data.drop i = x) (hten : 10 ∉ x) (hnot : ¬NamedLine name x) :
    LooksUp name x i (fun n => loop (getHeaderRound data name) n (i, x.length + d)) ↔ StaysInside name x d := by
  have hnone : ∀ k, ¬HeaderAt name x k := fun k hk => hnot ((headerAt_last hten).mp hk).2
  rw [LooksUp.of_none hnone, StaysInside.of_none hnone]
  by_cases hend : x.length + d = 0
  · obtain ⟨hlen, rfl⟩ := Nat.add_eq_zero_iff.mp hend
    obtain rfl := List.length_eq_zero_iff.mp hlen
    exact iff_of_true (returns_loop_done (returns_ok _)) (by simp)
  · refine iff_of_false (not_returns_last hname hx hten hnot (Nat.pos_of_ne_zero hend)) ?_
    rintro ⟨rfl, hall⟩
    have hnil : x = [] := List.eq_nil_iff_forall_not_mem.mpr fun b hb => hten (hall b hb ▸ hb)
    exact hend (by rw [hnil, List.length_nil])

/-- The lookup from any line on, with `d` bytes too many taken to be left: by induction on the text. -/
theorem lookup_iff (hname : 10 ∉ name) (hx : data.drop i = x) :
    LooksUp name x i (fun n => loop (getHeaderRound data name) n (i, x.length + d)) ↔ StaysInside name x d := by
  induction hlen : x.length using Nat.strong_induction_on generalizing x i d with
  | _ m ih =>
    subst hlen
    by_cases hnamed : NamedLine name x
    · exact lookup_named hx hnamed
    · obtain ⟨line, rest, rfl, hfree, hrest, -⟩ := exists_until 10 x
      have hline : 10 ∉ line := fun h => hfree 10 h rfl
      obtain rfl | ⟨x', rfl⟩ := hrest
      · rw [List.append_nil] at hx hnamed ⊢
        exact lookup_last hname hx hline hnamed
      · have hnot : ¬NamedLine name line := fun h => hnamed ((namedLine_congr hline).mpr h)
        obtain ⟨same, hsame, hiff⟩ := headerNamed_spec name hx (byteChr_le 58 _)
        by_cases hcolon : 58 ∈ line ++ 10 :: x' ∨ d = 0
        · have hother : same = false := by
            by_contra h
            obtain ⟨hpos, htake⟩ := hiff.mp (Bool.eq_true_of_not_eq_false h)
            by_cases hmem : 58 ∈ line ++ 10 :: x'
            · exact hnamed (namedLine_of_same hname hmem hpos htake)
            · rw [byteChr_free hmem, List.take_length] at htake
              exact htake.symm.not_mem_ten hname (by simp)
          rw [hother] at hsame
          have hnext := round_next hx (by simp) hcolon hsame (.inl (by simp))
          have hstart : i + byteChr 10 (line ++ 10 :: x') + 1 = i + (line.length + 1) := by
            rw [byteChr_at hline, Nat.add_assoc]
          have hleft : (line ++ 10 :: x').length + d + byteChr 10 (line ++ 10 :: x') - 1 =
              x'.length + (d + 2 * line.length) := by
            rw [byteChr_at hline, List.length_append, List.length_cons]
            omega
          rw [hstart, hleft] at hnext
          have hx' : data.drop (i + (line.length + 1)) = x' := by
            rw [← List.drop_drop, hx]
            exact drop_line line x' 0
          have hshorter : x'.length < (line ++ 10 :: x').length := by
            rw [List.length_append, List.length_cons]
            omega
          rw [looksUp_line hline hnot, staysInside_line hline hnot, ← ih _ hshorter hx' rfl]
          unfold LooksUp
          simp only [returns_loop_iff hnext]
        · obtain ⟨hmem, hd⟩ := not_or.mp hcolon
          obtain ⟨d, rfl⟩ := Nat.exists_eq_succ_of_ne_zero hd
          have hnone : ∀ k, ¬HeaderAt name _ k := not_headerAt_of_no_colon hmem
          rw [LooksUp.of_none hnone, StaysInside.of_none hnone]
          exact iff_of_false (not_returns_loop (round_past_colon hx hmem) none) (fun h => hd h.1)

/-- `http_get_header` finds the value of the first header with the name, or nothing if there is none, just
when it does not go past the data on the way: if the lines before the header are empty or something but
blanks follows its colon, and without such a header if there are only line feeds. -/
theorem httpGetHeader_iff (hname : 10 ∉ name) (r : HttpResponse) :
    LooksUp name (r.data.drop (headerStart r.data)) (headerStart r.data)
        (fun n => httpGetHeader n (some r) name) ↔
      (∃ k, FirstHeader name (r.data.drop (headerStart r.data)) k ∧
        ((∀ b ∈ (r.data.drop (headerStart r.data)).take k, b = 10) ∨
          ∃ b ∈ (r.data.drop (headerStart r.data)).drop (k + name.length + 1), isspace b = false)) ∨
      (∀ k, ¬HeaderAt name (r.data.drop (headerStart r.data)) k) ∧
        ∀ b ∈ r.data.drop (headerStart r.data), b = 10 := by
  have hstart : (if byteChr 10 r.data < r.data.length then byteChr 10 r.data + 1 else byteChr 10 r.data) =
      headerStart r.data := by
    have hle := byteChr_le 10 r.data
    unfold headerStart
    split_ifs <;> omega
  have hlook := lookup_iff (d := 0) hname (rfl : r.data.drop (headerStart r.data) = _)
  rw [List.length_drop, Nat.add_zero] at hlook
  unfold httpGetHeader
  dsimp only
  rw [hstart, hlook]
  simp only [StaysInside, true_and]

/-- A response of two headers, asked for the first one. -/
def twoHeaders : HttpResponse where
  transfer := .undef
  status := .recvData
  -- HTTP/1.1 200, A: b and C: d
  data := [72, 84, 84, 80, 47, 49, 46, 49, 32, 50, 48, 48, 10, 65, 58, 32, 98, 10, 67, 58, 32, 100, 10]
  ptr := 0
  contentLength := 0
  chunkLength := 0

theorem httpGetHeader_iff_two :
    LooksUp [97] (twoHeaders.data.drop (headerStart twoHeaders.data)) (headerStart twoHeaders.data)
        (fun n => httpGetHeader n (some twoHeaders) [97]) ↔
      (∃ k, FirstHeader [97] (twoHeaders.data.drop (headerStart twoHeaders.data)) k ∧
        ((∀ b ∈ (twoHeaders.data.drop (headerStart twoHeaders.data)).take k, b = 10) ∨
          ∃ b ∈ (twoHeaders.data.drop (headerStart twoHeaders.data)).drop (k + 1 + 1), isspace b = false)) ∨
      (∀ k, ¬HeaderAt [97] (twoHeaders.data.drop (headerStart twoHeaders.data)) k) ∧
        ∀ b ∈ twoHeaders.data.drop (headerStart twoHeaders.data), b = 10 :=
  httpGetHeader_iff (by decide) twoHeaders

/-- The lookup of a header that is not there goes past the data. -/
theorem httpGetHeader_past : ¬∀ (name : Bytes) (r : HttpResponse), name ≠ [] → 10 ∉ name →
    LooksUp name (r.data.drop (headerStart r.data)) (headerStart r.data)
      (fun n => httpGetHeader n (some r) name) := by
  intro h
  have hpast (n : Nat) : httpGetHeader (n + 3) (some twoHeaders) [69] = .error .bounds := rfl
  have hnot (v : Option Nat) : ¬Returns (fun n => httpGetHeader n (some twoHeaders) [69]) v := by
    rintro ⟨N, hN⟩
    have hok := hN (N + 3) (Nat.le_add_right N 3)
    exact absurd ((hpast N).symm.trans hok) (by simp)
  rcases h [69] twoHeaders (by decide) (by decide) with ⟨k, -, hreturns⟩ | ⟨-, hreturns⟩
  · exact hnot _ hreturns
  · exact hnot _ hreturns

end Dirlist
