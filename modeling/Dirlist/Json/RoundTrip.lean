import Dirlist.Json.Exact
import Dirlist.Json.Print

/-! Printing and reading back. What the printer writes is a text of the value it was given,
and the reader takes it for that value if an empty array stands only where nothing but
closing brackets follows. -/

namespace Dirlist
open Run

/-! ## Texts that end in an empty array -/

mutual
/-- Nothing but closing brackets follows an empty array, and the keys fit the table. -/
def JsonText.EmptyLast : JsonText → Prop
  | .array _ items => items.EmptyLast
  | .object _ members => ShortKeys members.keys ∧ members.EmptyLast
  | _ => True

def ItemsText.EmptyLast : ItemsText → Prop
  | .last t _ => t.EmptyLast
  | .more t _ _ next => t.Every False ShortKeys ∧ next.EmptyLast

def MembersText.EmptyLast : MembersText → Prop
  | .last _ _ _ t _ => t.EmptyLast
  | .more _ _ _ t _ _ next => t.Every False ShortKeys ∧ next.EmptyLast
end

/-- A closing byte, and more of them with white space between. -/
def Closers (p : Bytes) : Prop :=
  ∃ c p', p = c :: p' ∧ (c = 93 ∨ c = 125) ∧ ∀ d ∈ p', isspace d = true ∨ d = 93 ∨ d = 125

theorem Closers.append {p : Bytes} (hp : Closers p) (w : Ws) {c : UInt8} (hc : c = 93 ∨ c = 125) :
    Closers (p ++ (w.text ++ [c])) := by
  obtain ⟨c₀, p', rfl, hc₀, hp'⟩ := hp
  refine ⟨c₀, p' ++ (w.text ++ [c]), rfl, hc₀, fun d hd => ?_⟩
  rcases List.mem_append.mp hd with hd | hd
  · exact hp' d hd
  rcases List.mem_append.mp hd with hd | hd
  · exact .inl (w.space d hd)
  · exact .inr (List.mem_singleton.mp hd ▸ hc)

/-- Without the first byte and the white space behind it, a closing byte is still in front. -/
theorem closers_dropWs {p : Bytes} (hp : ∀ d ∈ p, isspace d = true ∨ d = 93 ∨ d = 125) (w : Ws)
    {c : UInt8} (hc : c = 93 ∨ c = 125) (s : Bytes) :
    ∃ p', Closers p' ∧ dropWs (p ++ (w.text ++ c :: s)) = p' ++ s := by
  have hsp {d : UInt8} (hd : d = 93 ∨ d = 125) : isspace d = false := by
    rcases hd with rfl | rfl <;> rfl
  induction p with
  | nil =>
    refine ⟨[c], ⟨c, [], rfl, hc, by simp⟩, ?_⟩
    rw [List.nil_append, dropWs_append w.space, dropWs_of_not (by simpa using hsp hc)]
    rfl
  | cons d p ih =>
    have hp' : ∀ e ∈ p, isspace e = true ∨ e = 93 ∨ e = 125 := fun e he =>
      hp e (List.mem_cons_of_mem _ he)
    rcases hp d List.mem_cons_self with hd | hd
    · obtain ⟨p', hclose, heq⟩ := ih hp'
      refine ⟨p', hclose, ?_⟩
      rw [List.cons_append, dropWs, List.dropWhile_cons_of_pos hd]
      exact heq
    · have hfirst : Closers (d :: p) := ⟨d, p, rfl, hd, hp'⟩
      refine ⟨d :: p ++ (w.text ++ [c]), hfirst.append w hc, ?_⟩
      rw [List.cons_append, dropWs_of_not (by simpa using hsp hd)]
      simp

variable {sched : Schedule} {b : Charbuf} {rest : Bytes} {q : Nat}

/-- In front of the wrong closing byte nothing is skipped. -/
theorem At.skipDelimiter_other (sched : Schedule) {c close : UInt8} (h : At b (c :: rest) 2)
    (hsp : isspace c = false) (h44 : c ≠ 44) (hclose : c ≠ close) :
    ∃ b', Returns (fun m => Dirlist.skipDelimiter sched m b close) (false, b') ∧
      At b' (c :: rest) 2 := by
  obtain ⟨r₁, b₁, hr₁, h₁⟩ := h.skipWs sched (by decide)
  rw [dropWs_of_not (by simpa using hsp)] at h₁
  obtain ⟨b₂, hpeek, h₂⟩ := h₁.peekc sched (by decide)
  refine ⟨b₂, hr₁.bind ?_, h₂⟩
  dsimp only
  rw [hpeek]
  simp only [List.head?_cons, h44, hclose, or_self, if_false]
  exact returns_ok _

/-- What is left of the text and the brackets around it: nothing, or closing bytes. -/
def LeftOver (whole rest s : Bytes) : Prop := s = whole ∨ ∃ p, Closers p ∧ s = p ++ rest

/-- The delimiter behind the last item, whatever the item has left of it. -/
theorem skipDelimiter_last (sched : Schedule) {t : JsonText} {w : Ws} {close : UInt8} {s : Bytes}
    (hclose : close = 93 ∨ close = 125)
    (hs : LeftOver (t.left (w.text ++ close :: rest)) (w.text ++ close :: rest) s) :
    ∃ s', LeftOver (dropWs rest) rest s' ∧ ∀ b, At b s 2 →
      ∃ b', Returns (fun m => skipDelimiter sched m b close) (false, b') ∧ At b' s' 2 := by
  have hsp {d : UInt8} (hd : d = 93 ∨ d = 125) : isspace d = false ∧ d ≠ 44 := by
    rcases hd with rfl | rfl <;> decide
  have h44 : decide (close = 44) = false := decide_eq_false (hsp hclose).2
  rcases hs with rfl | ⟨p, ⟨c, p', rfl, hc, hp'⟩, rfl⟩
  · refine ⟨_, .inl rfl, fun b h => ?_⟩
    obtain ⟨b', hr, h'⟩ := h.skipDelimiter sched
      (dropWs_left_delimiter t w (hsp hclose).1 rest) (.inr rfl)
    rw [h44] at hr
    exact ⟨b', hr, h'.mono (by decide)⟩
  · by_cases heq : c = close
    · subst heq
      obtain ⟨p'', hp'', hdrop⟩ := closers_dropWs hp' w hc rest
      refine ⟨_, .inr ⟨p'', hp'', hdrop⟩, fun b h => ?_⟩
      obtain ⟨b', hr, h'⟩ := h.skipDelimiter sched (dropWs_of_not (by simpa using (hsp hc).1)) (.inr rfl)
      rw [h44] at hr
      exact ⟨b', hr, h'.mono (by decide)⟩
    · refine ⟨c :: p' ++ (w.text ++ close :: rest), .inr ⟨_, Closers.append ⟨c, p', rfl, hc, hp'⟩ w hclose,
        by simp⟩, fun b h => ?_⟩
      exact At.skipDelimiter_other sched h (hsp hc).1 (hsp hc).2 heq

theorem At.parse_emptyArray [Unwritten] (sched : Schedule) (d : Nat) {w : Ws}
    (h : At b (91 :: (w.text ++ 93 :: rest)) 1) : Parses sched (d + 1) b (.array []) (93 :: rest) := by
  refine h.parse_array sched d (by simp) fun b₁ h₁ => ?_
  rw [dropWs_of_not (by simp; decide)] at h₁
  obtain ⟨b₂, hpeek, h₂⟩ := h₁.peekc sched (Nat.le_refl 1)
  have hround (k : Nat) : Dirlist.arrayRound sched (jsonParse sched d) k (b₁, []) =
      .ok (.inr ([], b₂)) := by
    simp only [Dirlist.arrayRound, hpeek, List.head?_cons, if_true]
  exact ⟨b₂, returns_loop_done ⟨0, fun k _ => hround k⟩, h₂.mono (by decide)⟩

mutual
/-- Such a text is read as stored, though closing bytes may be left of it. -/
theorem JsonText.parses_last [Unwritten] (t : JsonText) (sched : Schedule) {rest : Bytes} {d : Nat}
    (hd : t.depth ≤ d) (ht : t.EmptyLast) (hend : t.EndsBefore rest) :
    ∃ s, LeftOver (t.left rest) rest s ∧
      ∀ b, At b (t.text ++ rest) 1 → Parses sched d b t.stored s := by
  obtain ⟨d, rfl⟩ : ∃ n, d = n + 1 := ⟨d - 1, by have := t.depth_pos; omega⟩
  cases t with
  | emptyArray w =>
    refine ⟨93 :: rest, .inr ⟨[93], ⟨93, [], rfl, .inl rfl, by simp⟩, rfl⟩, fun b h => ?_⟩
    rw [JsonText.text, List.cons_append, List.append_assoc] at h
    exact h.parse_emptyArray sched d
  | array w items =>
    obtain ⟨s, hs, hloop⟩ := items.parses_last sched rest (Nat.le_of_succ_le_succ hd) ht
    refine ⟨s, hs, fun b h => ?_⟩
    rw [JsonText.text, List.cons_append, List.append_assoc] at h
    refine h.parse_array sched d (items.text_ne_nil rest) fun b₁ h₁ => ?_
    rw [items.dropWs_text] at h₁
    exact hloop [] b₁ h₁
  | object w members =>
    obtain ⟨s, hs, hloop⟩ := members.parses_last sched rest (Nat.le_of_succ_le_succ hd)
      ht.1 ht.2
    refine ⟨s, hs, fun b h => ?_⟩
    rw [JsonText.text, List.cons_append, List.append_assoc] at h
    refine h.parse_object sched d (members.text_ne_nil rest) fun b₁ h₁ => ?_
    rw [members.dropWs_text] at h₁
    exact hloop [] b₁ h₁
  | null => exact ⟨_, .inl rfl, fun b h => JsonText.parses .null sched hd trivial hend h⟩
  | bool v => exact ⟨_, .inl rfl, fun b h => JsonText.parses (.bool v) sched hd trivial hend h⟩
  | int lit => exact ⟨_, .inl rfl, fun b h => JsonText.parses (.int lit) sched hd trivial hend h⟩
  | string lit => exact ⟨_, .inl rfl, fun b h => JsonText.parses (.string lit) sched hd trivial hend h⟩
  | emptyObject w =>
    exact ⟨_, .inl rfl, fun b h => JsonText.parses (.emptyObject w) sched hd trivial hend h⟩

theorem ItemsText.parses_last [Unwritten] (items : ItemsText) (sched : Schedule) (rest : Bytes) {d : Nat}
    (hd : items.depth ≤ d) (ht : items.EmptyLast) :
    ∃ s, LeftOver (dropWs rest) rest s ∧ ∀ done b, At b (items.text ++ rest) 1 →
      ∃ b', Returns (fun m => loop (arrayRound sched (jsonParse sched d)) m (b, done))
        (done ++ items.stored, b') ∧ At b' s 2 := by
  cases items with
  | last t w =>
    obtain ⟨s, hs, hitem⟩ := t.parses_last sched hd ht (t.endsBefore_delimiter w rest (c := 93) rfl)
    obtain ⟨s', hs', hdel⟩ := skipDelimiter_last sched (.inl rfl) hs
    refine ⟨s', hs', fun done b h => ?_⟩
    simp only [ItemsText.text, List.append_assoc, List.cons_append, List.nil_append] at h
    obtain ⟨b', hr, h'⟩ := h.arrayRound_item sched t done hitem hdel
    exact ⟨b', returns_loop_done hr, h'⟩
  | more t w w' next =>
    obtain ⟨s, hs, hloop⟩ := next.parses_last sched rest
      (Nat.le_trans (Nat.le_max_right _ _) hd) ht.2
    refine ⟨s, hs, fun done b h => ?_⟩
    simp only [ItemsText.text, List.append_assoc, List.cons_append] at h
    obtain ⟨b₁, hr₁, h₁⟩ := h.arrayRound sched t done (.inl rfl) fun b₁ h₁ =>
      t.parses sched (Nat.le_trans (Nat.le_max_left _ _) hd) ht.1
        (t.endsBefore_delimiter w _ (by decide)) h₁
    rw [dropWs_append w'.space, next.dropWs_text] at h₁
    obtain ⟨b', hr, h'⟩ := hloop (done ++ [t.stored]) b₁ h₁
    refine ⟨b', returns_loop_next hr₁ ?_, h'⟩
    simpa [ItemsText.stored] using hr

theorem MembersText.parses_last [Unwritten] (members : MembersText) (sched : Schedule) (rest : Bytes) {d : Nat}
    (hd : members.depth ≤ d) (hk : ShortKeys members.keys) (ht : members.EmptyLast) :
    ∃ s, LeftOver (dropWs rest) rest s ∧ ∀ done b, At b (members.text ++ rest) 1 →
      ∃ b', Returns (fun m => loop (objectRound sched (jsonParse sched d)) m (b, done))
        (members.stored done, b') ∧ At b' s 2 := by
  cases members with
  | last key wk wc t w =>
    obtain ⟨s, hs, hvalue⟩ := t.parses_last sched hd ht (t.endsBefore_delimiter w rest (c := 125) rfl)
    obtain ⟨s', hs', hdel⟩ := skipDelimiter_last sched (.inr rfl) hs
    refine ⟨s', hs', fun done b h => ?_⟩
    simp only [MembersText.text, List.append_assoc, List.cons_append, List.nil_append] at h
    obtain ⟨b', hr, h'⟩ := h.objectRound_value sched t done (hk _ List.mem_cons_self) hvalue hdel
    exact ⟨b', returns_loop_done hr, h'⟩
  | more key wk wc t w w' next =>
    obtain ⟨s, hs, hloop⟩ := next.parses_last sched rest
      (Nat.le_trans (Nat.le_max_right _ _) hd) (fun k hmem => hk k (List.mem_cons_of_mem _ hmem)) ht.2
    refine ⟨s, hs, fun done b h => ?_⟩
    simp only [MembersText.text, List.append_assoc, List.cons_append] at h
    obtain ⟨b₁, hr₁, h₁⟩ := h.objectRound sched t done (.inl rfl) (hk _ List.mem_cons_self)
      fun b₁ h₁ => t.parses sched (Nat.le_trans (Nat.le_max_left _ _) hd) ht.1
        (t.endsBefore_delimiter w _ (by decide)) h₁
    rw [dropWs_append w'.space, next.dropWs_text] at h₁
    obtain ⟨b', hr, h'⟩ := hloop _ b₁ h₁
    exact ⟨b', returns_loop_next hr₁ hr, h'⟩
end

/-! ## Values -/

/-- A printable ASCII character. -/
def IsPrint (c : UInt8) : Prop := 32 ≤ c ∧ c < 127

mutual
/-- Null, booleans, 64 bit integers, strings of printable characters, arrays, and objects
with distinct printable keys that fit the table. -/
def JsonVal.Printable : JsonVal → Prop
  | .null => True
  | .bool _ => True
  | .int v => -2 ^ 63 ≤ v ∧ v < 2 ^ 63
  | .string s => ∀ c ∈ s, IsPrint c
  | .array items => PrintableItems items
  | .object members => DistinctKeys (members.map Prod.fst) ∧ ShortKeys (members.map Prod.fst) ∧
    PrintableMembers members
  | _ => False

def PrintableItems : List JsonVal → Prop
  | [] => True
  | v :: vs => v.Printable ∧ PrintableItems vs

def PrintableMembers : List (Bytes × JsonVal) → Prop
  | [] => True
  | (key, v) :: members => (∀ c ∈ key, IsPrint c) ∧ v.Printable ∧ PrintableMembers members
end

mutual
/-- What printing keeps: no string has a backslash in front of a `u`, no key has a quote or a
backslash, and an empty array stands only at the very end, and there only if `last` holds. -/
def JsonVal.Kept (last : Prop) : JsonVal → Prop
  | .string s => ¬[92, 117] <:+: s
  | .array [] => last
  | .array (v :: vs) => KeptItems last (v :: vs)
  | .object members => KeptMembers last members
  | _ => True

def KeptItems (last : Prop) : List JsonVal → Prop
  | [] => True
  | v :: vs => v.Kept (last ∧ vs = []) ∧ KeptItems last vs

def KeptMembers (last : Prop) : List (Bytes × JsonVal) → Prop
  | [] => True
  | (key, v) :: members => (34 ∉ key ∧ 92 ∉ key) ∧ v.Kept (last ∧ members = []) ∧
    KeptMembers last members
end

/-! ## What the printer writes is a text -/

theorem fmtLonglong_lit {v : Int} (hv : -2 ^ 63 ≤ v ∧ v < 2 ^ 63) :
    ∃ lit : IntLit, fmtLonglong v = lit.text ∧ lit.value = v := by
  rw [fmtLonglong]
  by_cases hneg : v < 0
  · obtain ⟨hval, hne, hd⟩ := fmtFrom_digits (Nat.le_refl (-v).toNat)
    refine ⟨⟨true, fmtUlonglong (-v).toNat, hne, hd, ?_⟩, ?_, ?_⟩
    · rw [fmtUlonglong, hval]
      simp only [if_true]
      omega
    · rw [if_pos hneg]
      rfl
    · simp only [IntLit.value, if_true, fmtUlonglong, hval]
      omega
  · obtain ⟨hval, hne, hd⟩ := fmtFrom_digits (Nat.le_refl v.toNat)
    refine ⟨⟨false, fmtUlonglong v.toNat, hne, hd, ?_⟩, ?_, ?_⟩
    · rw [fmtUlonglong, hval]
      simp only [Bool.false_eq_true, if_false]
      omega
    · rw [if_neg hneg]
      rfl
    · simp only [IntLit.value, Bool.false_eq_true, if_false, fmtUlonglong, hval]
      omega

theorem IsPrint.ascii {c : UInt8} (hc : IsPrint c) : 32 ≤ c ∧ c < 128 :=
  ⟨hc.1, UInt8.lt_trans hc.2 (by decide)⟩

theorem jsonPrintChars_lit {s : Bytes} (hs : ∀ c ∈ s, IsPrint c) (hu : ¬[92, 117] <:+: s) :
    ∃ lit : StringLit, jsonPrintChars s = .ok (StringLit.body lit) ∧ StringLit.value lit = s := by
  induction s with
  | nil => exact ⟨[], rfl, rfl⟩
  | cons c s ih =>
    have hc := hs c List.mem_cons_self
    obtain ⟨lit, hprint, hval⟩ := ih (fun d hd => hs d (List.mem_cons_of_mem _ hd))
      fun h => hu (h.trans (List.infix_cons (List.infix_refl s)))
    have hc0 : c ≠ 0 := by
      rintro rfl
      exact absurd hc.1 (by decide)
    by_cases hesc : c = 34 ∨ c = 92
    · have hwrite : c = 34 ∨ (c = 92 ∧ s.head? ≠ some 117) := by
        refine hesc.imp_right fun h92 => ⟨h92, fun hhead => hu ?_⟩
        obtain ⟨s', rfl⟩ : ∃ s', s = 117 :: s' := ⟨s.tail, List.eq_cons_of_mem_head? hhead⟩
        exact h92 ▸ ⟨[], s', rfl⟩
      refine ⟨⟨true, c, hc.ascii, by simpa using hesc⟩ :: lit, ?_, ?_⟩
      · rw [jsonPrintChars, if_neg hc0, hprint]
        simp only [ok_bind, if_pos hwrite]
        rfl
      · exact congrArg (c :: ·) hval
    · have hwrite : ¬(c = 34 ∨ (c = 92 ∧ s.head? ≠ some 117)) := fun h => hesc (h.imp_right And.left)
      refine ⟨⟨false, c, hc.ascii, by simpa using hesc⟩ :: lit, ?_, ?_⟩
      · rw [jsonPrintChars, if_neg hc0, hprint]
        simp only [ok_bind, if_neg hwrite]
        rfl
      · exact congrArg (c :: ·) hval

/-- A key without quotes and backslashes is a string as it stands. -/
theorem jsonPrintKey_lit {key : Bytes} (hkey : ∀ c ∈ key, IsPrint c) (hq : 34 ∉ key ∧ 92 ∉ key) :
    ∃ lit : StringLit, jsonPrintKey key = StringLit.text lit ∧ StringLit.value lit = key := by
  have hbody : ∃ lit : StringLit, StringLit.body lit = key ∧ StringLit.value lit = key := by
    induction key with
    | nil => exact ⟨[], rfl, rfl⟩
    | cons c key ih =>
      simp only [List.mem_cons, not_or] at hq
      obtain ⟨lit, hb, hval⟩ := ih (fun d hd => hkey d (List.mem_cons_of_mem _ hd))
        ⟨hq.1.2, hq.2.2⟩
      refine ⟨⟨false, c, (hkey c List.mem_cons_self).ascii, ?_⟩ :: lit, ?_, ?_⟩
      · simpa [eq_comm] using And.intro hq.1.1 hq.2.1
      · rw [StringLit.body, List.flatMap_cons, ← StringLit.body, hb]
        rfl
      · exact congrArg (c :: ·) hval
  obtain ⟨lit, hb, hval⟩ := hbody
  exact ⟨lit, by rw [jsonPrintKey, StringLit.text, hb], hval⟩

/-! ## Separators -/

/-- The indentation is made of spaces. -/
theorem mem_indentation {depth k : Nat} {index : Int} {c : UInt8}
    (hc : c ∈ (List.replicate k (defaultPrinter depth index).indent).flatten) : c = 32 := by
  obtain ⟨l, hl, hcl⟩ := List.mem_flatten.mp hc
  obtain rfl := List.eq_of_mem_replicate hl
  simp only [defaultPrinter] at hcl
  split at hcl
  · cases hcl
  · simpa using hcl

theorem separator_ws {s : Bytes} (hs : ∀ c ∈ s, isspace c = true) (depth : Nat) (index : Int) :
    ∃ w : Ws, jsonPrintSeparator s (defaultPrinter depth index) = w.text := by
  refine ⟨⟨_, fun c hc => ?_⟩, rfl⟩
  rcases List.mem_append.mp hc with hc | hc
  · exact hs c hc
  · split at hc
    · rw [mem_indentation hc]
      rfl
    · exact absurd hc List.not_mem_nil

theorem newline_ws (depth : Nat) (index : Int) : ∃ w : Ws,
    jsonPrintSeparator (defaultPrinter depth index).newline (defaultPrinter depth index) = w.text := by
  refine separator_ws ?_ depth index
  simp only [defaultPrinter]
  split <;> decide

theorem spacing_ws (depth : Nat) (index : Int) : ∃ w : Ws,
    jsonPrintSeparator (defaultPrinter depth index).spacing (defaultPrinter depth index) = w.text :=
  separator_ws (by simp [defaultPrinter, isspace]) depth index

theorem separat_ws (depth : Nat) (index : Int) : ∃ w : Ws,
    jsonPrintSeparator (defaultPrinter depth index).separat (defaultPrinter depth index) =
      44 :: w.text := by
  have hcons : ∃ s, (defaultPrinter depth index).separat = 44 :: s ∧ ∀ c ∈ s, isspace c = true := by
    simp only [defaultPrinter]
    split
    · exact ⟨[10], rfl, by decide⟩
    · exact ⟨[32], rfl, by decide⟩
  obtain ⟨s, heq, hs⟩ := hcons
  obtain ⟨w, hw⟩ := separator_ws hs depth index
  refine ⟨w, ?_⟩
  rw [heq, ← hw]
  simp [jsonPrintSeparator]

/-! ## Printed values -/

/-- `t` denotes `v`, and can be read. -/
structure Spells (last : Prop) (v : JsonVal) (t : JsonText) : Prop where
  value : t.value = v
  distinct : t.Every True DistinctKeys
  solid : ¬last → t.Every False ShortKeys
  emptyLast : t.EmptyLast

structure SpellsItems (last : Prop) (vs : List JsonVal) (items : ItemsText) : Prop where
  values : items.values = vs
  distinct : items.Every True DistinctKeys
  solid : ¬last → items.Every False ShortKeys
  emptyLast : items.EmptyLast

structure SpellsMembers (last : Prop) (vs : List (Bytes × JsonVal)) (members : MembersText) : Prop where
  values : members.values = vs
  distinct : members.Every True DistinctKeys
  solid : ¬last → members.Every False ShortKeys
  emptyLast : members.EmptyLast

theorem Spells.mono {last last' : Prop} {v : JsonVal} {t : JsonText} (h : Spells last v t)
    (hl : last → last') : Spells last' v t :=
  ⟨h.value, h.distinct, fun hn => h.solid fun hl' => hn (hl hl'), h.emptyLast⟩

section
variable {last : Prop}

theorem SpellsItems.single {v : JsonVal} {t : JsonText} (h : Spells last v t) (w : Ws) :
    SpellsItems last [v] (.last t w) where
  values := congrArg (· :: []) h.value
  distinct := h.distinct
  solid := h.solid
  emptyLast := h.emptyLast

theorem SpellsItems.more {v : JsonVal} {vs : List JsonVal} {t : JsonText} {next : ItemsText}
    (h : Spells False v t) (hnext : SpellsItems last vs next) (w w' : Ws) :
    SpellsItems last (v :: vs) (.more t w w' next) where
  values := congrArg₂ List.cons h.value hnext.values
  distinct := ⟨h.distinct, hnext.distinct⟩
  solid hl := ⟨h.solid not_false, hnext.solid hl⟩
  emptyLast := ⟨h.solid not_false, hnext.emptyLast⟩

theorem SpellsMembers.single {key : Bytes} {lit : StringLit} {v : JsonVal} {t : JsonText}
    (hkey : StringLit.value lit = key) (h : Spells last v t) (wk wc w : Ws) :
    SpellsMembers last [(key, v)] (.last lit wk wc t w) where
  values := by rw [MembersText.values, hkey, h.value]
  distinct := h.distinct
  solid := h.solid
  emptyLast := h.emptyLast

theorem SpellsMembers.more {key : Bytes} {lit : StringLit} {v : JsonVal}
    {vs : List (Bytes × JsonVal)} {t : JsonText} {next : MembersText}
    (hkey : StringLit.value lit = key) (h : Spells False v t) (hnext : SpellsMembers last vs next)
    (wk wc w w' : Ws) : SpellsMembers last ((key, v) :: vs) (.more lit wk wc t w w' next) where
  values := by rw [MembersText.values, hkey, h.value, hnext.values]
  distinct := ⟨h.distinct, hnext.distinct⟩
  solid hl := ⟨h.solid not_false, hnext.solid hl⟩
  emptyLast := ⟨h.solid not_false, hnext.emptyLast⟩

theorem Spells.array {vs : List JsonVal} {items : ItemsText} (h : SpellsItems last vs items) (w : Ws) :
    Spells last (.array vs) (.array w items) where
  value := congrArg JsonVal.array h.values
  distinct := h.distinct
  solid := h.solid
  emptyLast := h.emptyLast

theorem Spells.object {vs : List (Bytes × JsonVal)} {members : MembersText}
    (hd : DistinctKeys (vs.map Prod.fst)) (hs : ShortKeys (vs.map Prod.fst))
    (h : SpellsMembers last vs members) (w : Ws) : Spells last (.object vs) (.object w members) := by
  rw [← h.values, members.keys_eq] at hd hs
  exact ⟨congrArg JsonVal.object h.values, ⟨hd, h.distinct⟩, fun hl => ⟨hs, h.solid hl⟩,
    ⟨hs, h.emptyLast⟩⟩
end

variable (putOther : JsonVal → Bytes)

mutual
/-- The printer writes a text of the value. -/
theorem print_spells (last : Prop) (depth : Nat) (v : JsonVal) (hv : v.Printable) (hk : v.Kept last) :
    ∃ t, jsonPrintVal putOther depth v = .ok t.text ∧ Spells last v t := by
  cases v with
  | undefined => exact hv.elim
  | unset double => exact hv.elim
  | double text => exact hv.elim
  | null => exact ⟨.null, rfl, rfl, trivial, fun _ => trivial, trivial⟩
  | bool v => exact ⟨.bool v, by cases v <;> rfl, rfl, trivial, fun _ => trivial, trivial⟩
  | int v =>
    obtain ⟨lit, htext, hval⟩ := fmtLonglong_lit hv
    exact ⟨.int lit, congrArg Except.ok htext, congrArg JsonVal.int hval, trivial, fun _ => trivial,
      trivial⟩
  | string s =>
    obtain ⟨lit, hchars, hval⟩ := jsonPrintChars_lit hv hk
    refine ⟨.string lit, ?_, congrArg JsonVal.string hval, trivial, fun _ => trivial, trivial⟩
    rw [jsonPrintVal, jsonPrintStr, hchars]
    rfl
  | array items =>
    cases items with
    | nil => exact ⟨.emptyArray noWs, rfl, rfl, trivial, fun hl => hl hk, trivial⟩
    | cons v vs =>
      obtain ⟨wo, hwo⟩ := newline_ws (depth + 1) 0
      obtain ⟨wc, hwc⟩ := newline_ws (depth + 1) (-2)
      obtain ⟨t, htext, ht⟩ := print_spells (last ∧ vs = []) (depth + 1) v hv.1 hk.1
      obtain ⟨rest, hrest, hitems⟩ := printItems_spells last depth 0 vs wc hv.2 hk.2
      obtain ⟨items, heq, hs⟩ := hitems v t ht
      refine ⟨.array wo items, ?_, .array hs wo⟩
      simp only [jsonPrintVal, jsonPrintItems, htext, hrest, ok_bind, hwo, hwc]
      simp [JsonText.text, heq]
  | object members =>
    obtain ⟨hd, hs, hv⟩ := hv
    obtain ⟨wc, hwc⟩ := newline_ws (depth + 1) (-2)
    cases members with
    | nil =>
      refine ⟨.emptyObject wc, ?_, rfl, trivial, fun _ => trivial, trivial⟩
      simp only [jsonPrintVal, jsonPrintMembers, ok_bind, hwc]
      rfl
    | cons member members =>
      obtain ⟨key, v⟩ := member
      obtain ⟨wo, hwo⟩ := newline_ws (depth + 1) 0
      obtain ⟨ws, hws⟩ := spacing_ws (depth + 1) 0
      obtain ⟨lit, hlit, hkey⟩ := jsonPrintKey_lit hv.1 hk.1
      obtain ⟨t, htext, ht⟩ := print_spells (last ∧ members = []) (depth + 1) v hv.2.1 hk.2.1
      obtain ⟨rest, hrest, hmembers⟩ := printMembers_spells last depth 0 members wc hv.2.2 hk.2.2
      obtain ⟨members', heq, hs'⟩ := hmembers key v lit ws t hkey ht
      refine ⟨.object wo members', ?_, .object hd hs hs' wo⟩
      simp only [jsonPrintVal, jsonPrintMembers, htext, hrest, ok_bind, hwc, hlit]
      simp [JsonText.text, heq, hwo, hws]

/-- The items behind one that is printed, up to the closing bracket. -/
theorem printItems_spells (last : Prop) (depth index : Nat) (vs : List JsonVal) (w : Ws)
    (hv : PrintableItems vs) (hk : KeptItems last vs) :
    ∃ rest, jsonPrintItems putOther depth (index + 1) vs = .ok rest ∧
      ∀ v t, Spells (last ∧ vs = []) v t → ∃ items : ItemsText,
        items.text = t.text ++ (rest ++ (w.text ++ [93])) ∧ SpellsItems last (v :: vs) items := by
  cases vs with
  | nil => exact ⟨[], rfl, fun v t ht => ⟨.last t w, rfl, .single (ht.mono And.left) w⟩⟩
  | cons v vs =>
    obtain ⟨ws, hws⟩ := separat_ws (depth + 1) (index + 1 : Nat)
    obtain ⟨t, htext, ht⟩ := print_spells (last ∧ vs = []) (depth + 1) v hv.1 hk.1
    obtain ⟨rest, hrest, hitems⟩ := printItems_spells last depth (index + 1) vs w hv.2 hk.2
    obtain ⟨next, hnext, hs⟩ := hitems v t ht
    refine ⟨44 :: (ws.text ++ (t.text ++ rest)), ?_, fun v' t' ht' => ?_⟩
    · simp only [jsonPrintItems, htext, hrest, ok_bind, Nat.zero_lt_succ, gt_iff_lt, if_true, hws]
      rfl
    · refine ⟨.more t' noWs ws next, ?_, .more (ht'.mono fun h => by cases h.2) hs noWs ws⟩
      simp [ItemsText.text, noWs, hnext]

theorem printMembers_spells (last : Prop) (depth index : Nat) (vs : List (Bytes × JsonVal)) (w : Ws)
    (hv : PrintableMembers vs) (hk : KeptMembers last vs) :
    ∃ rest, jsonPrintMembers putOther depth (index + 1) vs = .ok rest ∧
      ∀ key v lit (wc : Ws) t, StringLit.value lit = key → Spells (last ∧ vs = []) v t →
        ∃ members : MembersText,
          members.text = StringLit.text lit ++ 58 :: (wc.text ++ (t.text ++ (rest ++ (w.text ++ [125])))) ∧
          SpellsMembers last ((key, v) :: vs) members := by
  cases vs with
  | nil =>
    exact ⟨[], rfl, fun key v lit wc t hkey ht =>
      ⟨.last lit noWs wc t w, rfl, .single hkey (ht.mono And.left) noWs wc w⟩⟩
  | cons member vs =>
    obtain ⟨key, v⟩ := member
    obtain ⟨ws, hws⟩ := separat_ws (depth + 1) (index + 1 : Nat)
    obtain ⟨wc, hwc⟩ := spacing_ws (depth + 1) (index + 1 : Nat)
    obtain ⟨lit, hlit, hkey⟩ := jsonPrintKey_lit hv.1 hk.1
    obtain ⟨t, htext, ht⟩ := print_spells (last ∧ vs = []) (depth + 1) v hv.2.1 hk.2.1
    obtain ⟨rest, hrest, hmembers⟩ := printMembers_spells last depth (index + 1) vs w hv.2.2 hk.2.2
    obtain ⟨next, hnext, hs⟩ := hmembers key v lit wc t hkey ht
    refine ⟨44 :: (ws.text ++ (StringLit.text lit ++ 58 :: (wc.text ++ (t.text ++ rest)))), ?_,
      fun key' v' lit' wc' t' hkey' ht' => ?_⟩
    · simp only [jsonPrintMembers, htext, hrest, ok_bind, Nat.succ_ne_zero, if_false, hws, hlit, hwc]
      rfl
    · refine ⟨.more lit' noWs wc' t' noWs ws next, ?_,
        .more hkey' (ht'.mono fun h => by cases h.2) hs noWs wc' noWs ws⟩
      simp [MembersText.text, noWs, hnext]
end

/-! ## Round trips -/

/-- What is printed of `v` is read back as `v`, given enough stack. -/
def RoundTrips [Unwritten] (sched : Schedule) (lookahead : Nat) (v : JsonVal) : Prop :=
  ∃ text, jsonPrint putOther v = .ok text ∧ ∃ depth, ∀ d, depth ≤ d → ∀ j, ∃ b',
    Returns (fun m => jsonParse sched d m j (charbufInit text lookahead)) (1, v, b')

theorem JsonText.endsBefore_newline (t : JsonText) : t.EndsBefore [10] :=
  t.endsBefore_delimiter noWs [] (by decide)

theorem jsonParse_jsonPrint [Unwritten] (sched : Schedule) (lookahead : Nat)
    (ha : (charbufInit [] lookahead).a ≠ 0) (v : JsonVal) (hv : v.Printable) (hk : v.Kept True) :
    RoundTrips putOther sched lookahead v := by
  obtain ⟨t, htext, ht⟩ := print_spells putOther True 0 v hv hk
  refine ⟨t.text ++ [10], by rw [jsonPrint, htext]; rfl, t.depth, fun d hd j => ?_⟩
  obtain ⟨s, -, hparse⟩ := t.parses_last sched hd ht.emptyLast t.endsBefore_newline
  have hat : At (charbufInit (t.text ++ [10]) lookahead) (t.text ++ [10]) 1 := at_init ha
  obtain ⟨b', hr, -⟩ := hparse _ hat j
  rw [t.stored_eq_value_iff.mpr ht.distinct, ht.value] at hr
  exact ⟨b', hr⟩

/-- `{"a": ["\"\\", -7], "b": [[]]}` is printed and read back. -/
theorem jsonParse_jsonPrint_nested : RoundTrips (fun _ => []) (fun _ => 1) 5
    (.object [([97], .array [.string [34, 92], .int (-7)]), ([98], .array [.array []])]) := by
  refine jsonParse_jsonPrint (fun _ => []) (fun _ => 1) 5 (by decide) _ ?_ ?_
  · simp [JsonVal.Printable, PrintableItems, PrintableMembers, DistinctKeys, ShortKeys, IsPrint,
      maxSizeKey]
  · simp only [JsonVal.Kept, KeptItems, KeptMembers]
    decide

/-- An array that starts with an empty one ends at the bracket of that one. -/
theorem At.parse_emptyItem [Unwritten] (sched : Schedule) (d : Nat) {w : Ws}
    (h : At b (91 :: (w.text ++ ((JsonText.emptyArray noWs).text ++ rest))) 1) :
    Parses sched (d + 2) b (.array [.array []]) (dropWs rest) := by
  have hne : (JsonText.emptyArray noWs).text ++ rest ≠ [] := by simp [JsonText.text]
  refine h.parse_array sched (d + 1) hne fun b₁ h₁ => ?_
  rw [dropWs_text] at h₁
  obtain ⟨b', hr, h'⟩ := h₁.arrayRound_item sched (.emptyArray noWs) []
    (fun b₂ h₂ => At.parse_emptyArray sched d (w := noWs) h₂)
    (fun b₂ h₂ => h₂.skipDelimiter sched (dropWs_of_not (by simp; decide)) (.inr rfl))
  exact ⟨b', returns_loop_done hr, h'.mono (by decide)⟩

/-- `[[], null]` comes back without the `null`. -/
theorem jsonParse_jsonPrint_lost : ¬∀ v : JsonVal, v.Printable →
    RoundTrips (fun _ => []) (fun _ => 1) 5 v := by
  intro hall
  obtain ⟨text, htext, depth, hread⟩ := hall (.array [.array [], .null]) (by
    simp [JsonVal.Printable, PrintableItems])
  obtain ⟨b₁, hr₁⟩ := hread (depth + 2) (by omega) .undefined
  have ha : (charbufInit [] 5).a ≠ 0 := by decide
  have hat : At (charbufInit text 5) text 1 := at_init ha
  obtain rfl : [91, 10, 32, 32, 91, 93, 44, 10, 32, 32, 110, 117, 108, 108, 10, 93, 10] = text :=
    Except.ok.inj htext
  obtain ⟨b₂, hr₂, -⟩ := At.parse_emptyItem (fun _ => 1) depth (w := ⟨[10, 32, 32], by decide⟩) hat
    .undefined
  cases hr₁.unique hr₂

end Dirlist
