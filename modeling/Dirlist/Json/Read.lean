import Dirlist.Json.Scan

/-! Reading a text without empty arrays: every construct is read to its end, and each
object comes out as its table holds it. -/

namespace Dirlist
open Run

variable {sched : Schedule} {b : Charbuf} {rest : Bytes} {q : Nat}

theorem returns_firstOf_done {p : Parse} {ps : List Parse} {j v : JsonVal} {b b' : Charbuf}
    (h : Returns (fun m => p m j b) (1, v, b')) :
    Returns (fun m => firstOf (p :: ps) m j b) (1, v, b') :=
  h.bind (returns_ok _)

theorem returns_firstOf_next {p : Parse} {ps : List Parse} {j j' : JsonVal} {b b' : Charbuf}
    {r : Nat × JsonVal × Charbuf} (h : Returns (fun m => p m j b) (0, j', b'))
    (hps : Returns (fun m => firstOf ps m j' b') r) :
    Returns (fun m => firstOf (p :: ps) m j b) r :=
  h.bind hps

theorem At.parseObject_other [Unwritten] (sched : Schedule) (parse : Parse) (val : JsonVal) (h : At b rest q)
    (hq : 1 ≤ q) (hc : rest.head? ≠ some 123) :
    ∃ b', Returns (fun m => jsonParseObject sched parse m val b) (0, val, b') ∧ At b' rest q := by
  obtain ⟨b₁, hr₁, h₁⟩ := h.skipIfeq_ne sched hq (by decide) hc
  exact ⟨b₁, hr₁.bind (returns_ok _), h₁⟩

theorem At.parseArray_other (sched : Schedule) (parse : Parse) (val : JsonVal) (h : At b rest q)
    (hq : 1 ≤ q) (hc : rest.head? ≠ some 91) :
    ∃ b', Returns (fun m => jsonParseArray sched parse m val b) (0, val, b') ∧ At b' rest q := by
  obtain ⟨b₁, hr₁, h₁⟩ := h.skipIfeq_ne sched hq (by decide) hc
  exact ⟨b₁, hr₁.bind (returns_ok _), h₁⟩

/-- The closing byte or a comma behind an item, and the white space around it. -/
theorem At.skipDelimiter (sched : Schedule) {s : Bytes} {c close : UInt8} (h : At b s 2)
    (hs : dropWs s = c :: rest) (hc : c = 44 ∨ c = close) :
    ∃ b', Returns (fun m => skipDelimiter sched m b close) (decide (c = 44), b') ∧
      At b' (dropWs rest) 1 := by
  obtain ⟨r₁, b₁, hr₁, h₁⟩ := h.skipWs sched (by decide)
  rw [hs] at h₁
  obtain ⟨b₂, hpeek, h₂⟩ := h₁.peekc sched (by decide)
  obtain ⟨b₃, hskip, h₃⟩ := h₂.skip sched
  obtain ⟨r₄, b₄, hr₄, h₄⟩ := h₃.skipWs sched (Nat.le_refl 1)
  refine ⟨b₄, hr₁.bind ?_, h₄⟩
  dsimp only
  rw [hpeek]
  simp only [List.head?_cons, hc, if_true, hskip]
  exact hr₄.bind (returns_ok _)

/-! ## The first byte of a text -/

theorem ne_of_isdigit {c d : UInt8} (h : isdigit c = true) (hd : isdigit d = false) : c ≠ d := by
  rintro rfl
  rw [h] at hd
  cases hd

/-- No text starts with white space or a closing byte. -/
theorem JsonText.text_cons (t : JsonText) :
    ∃ c s, t.text = c :: s ∧ isspace c = false ∧ c ≠ 93 ∧ c ≠ 125 := by
  cases t with
  | null => exact ⟨_, _, rfl, by decide⟩
  | bool v => cases v <;> exact ⟨_, _, rfl, by decide⟩
  | int lit =>
    obtain ⟨c, ds, htext, hc, -⟩ := lit.text_cons
    refine ⟨c, ds, htext, ?_⟩
    rcases hc with hc | rfl
    · refine ⟨?_, ne_of_isdigit hc rfl, ne_of_isdigit hc rfl⟩
      by_contra hs
      simp only [isspace, isdigit, Bool.not_eq_false, Bool.or_eq_true, Bool.and_eq_true,
        decide_eq_true_eq, UInt8.le_iff_toNat_le] at hs hc
      have h48 : (48 : UInt8).toNat = 48 := rfl
      have h13 : (13 : UInt8).toNat = 13 := rfl
      rcases hs with rfl | hs
      · exact absurd hc.1 (by decide)
      · omega
    · decide
  | string lit => exact ⟨_, _, rfl, by decide⟩
  | emptyArray w => exact ⟨_, _, rfl, by decide⟩
  | array w items => exact ⟨_, _, rfl, by decide⟩
  | emptyObject w => exact ⟨_, _, rfl, by decide⟩
  | object w members => exact ⟨_, _, rfl, by decide⟩

theorem dropWs_text (t : JsonText) (s : Bytes) : dropWs (t.text ++ s) = t.text ++ s := by
  obtain ⟨c, s', htext, hc, -⟩ := t.text_cons
  rw [htext]
  exact dropWs_of_not (by simpa using hc)

/-- What follows lets a number or a word be read to its end. -/
def JsonText.EndsBefore : JsonText → Bytes → Prop
  | .int _, s => ∃ c ∈ s.head?, isNumberChar c = false
  | .bool _, s => s ≠ []
  | _, _ => True

/-- What is left behind the text: only a container takes the white space after it. -/
def JsonText.left : JsonText → Bytes → Bytes
  | .array _ _, s => dropWs s
  | .object _ _, s => dropWs s
  | _, s => s

theorem dropWs_idem (s : Bytes) : dropWs (dropWs s) = dropWs s := List.dropWhile_idempotent _ _

theorem dropWs_left (t : JsonText) (s : Bytes) : dropWs (t.left s) = dropWs s := by
  cases t <;> first | rfl | exact dropWs_idem s

/-- White space and a delimiter end every text. -/
theorem JsonText.endsBefore_delimiter (t : JsonText) (w : Ws) {c : UInt8} (s : Bytes)
    (hc : isNumberChar c = false) : t.EndsBefore (w.text ++ c :: s) := by
  have hhead : ∃ d ∈ (w.text ++ c :: s).head?, isNumberChar d = false := by
    obtain ⟨w, hw⟩ := w
    cases w with
    | nil => exact ⟨c, rfl, hc⟩
    | cons d w =>
      refine ⟨d, rfl, ?_⟩
      have hd := hw d List.mem_cons_self
      by_contra hn
      simp only [isspace, isNumberChar, isdigit, Bool.not_eq_false, Bool.or_eq_true,
        Bool.and_eq_true, decide_eq_true_eq, UInt8.le_iff_toNat_le] at hd hn
      have h48 : (48 : UInt8).toNat = 48 := rfl
      have h13 : (13 : UInt8).toNat = 13 := rfl
      rcases hd with rfl | hd
      · exact absurd hn (by decide)
      · rcases hn with ((hn | rfl) | rfl) | rfl
        · omega
        all_goals exact absurd hd.2 (by decide)
  cases t <;> first | exact hhead | exact trivial | simp [JsonText.EndsBefore]

/-! ## Whole texts -/

/-- The text is read as `v`, and `s` is left. -/
def Parses [Unwritten] (sched : Schedule) (d : Nat) (b : Charbuf) (v : JsonVal) (s : Bytes) : Prop :=
  ∀ j, ∃ b', Returns (fun m => jsonParse sched d m j b) (1, v, b') ∧ At b' s 2

/-- In front of a text that is no container, the container parsers fail. -/
theorem At.pastContainers [Unwritten] (sched : Schedule) (d : Nat) (j : JsonVal) {s : Bytes} (h : At b s 1)
    (hws : dropWs s = rest) (h123 : rest.head? ≠ some 123) (h91 : rest.head? ≠ some 91) :
    ∃ b₁, At b₁ rest 1 ∧ ∀ r, Returns (fun m => firstOf [jsonParseNull sched,
        jsonParseBoolean sched, jsonParseNumber sched, jsonParseString sched] m j b₁) r →
      Returns (fun m => jsonParse sched (d + 1) m j b) r := by
  obtain ⟨_, b₀, hr₀, h₀⟩ := h.skipWs sched (Nat.le_refl 1)
  rw [hws] at h₀
  obtain ⟨b₁, hr₁, h₁⟩ := h₀.parseObject_other sched (jsonParse sched d) j (Nat.le_refl 1) h123
  obtain ⟨b₂, hr₂, h₂⟩ := h₁.parseArray_other sched (jsonParse sched d) j (Nat.le_refl 1) h91
  exact ⟨b₂, h₂, fun r hr =>
    hr₀.bind (returns_firstOf_next hr₁ (returns_firstOf_next hr₂ hr))⟩

/-- In front of a number or a string, the word parsers fail too. -/
theorem At.pastWords [Unwritten] (sched : Schedule) (d : Nat) (j : JsonVal) {c : UInt8} (h : At b (c :: rest) 1)
    (hws : isspace c = false) (hc : c ≠ 123 ∧ c ≠ 91 ∧ c ≠ 110 ∧ c ≠ 116 ∧ c ≠ 102) :
    ∃ b₁, At b₁ (c :: rest) 1 ∧ ∀ r, Returns (fun m => firstOf [jsonParseNumber sched,
        jsonParseString sched] m j b₁) r → Returns (fun m => jsonParse sched (d + 1) m j b) r := by
  obtain ⟨h123, h91, h110, h116, h102⟩ := hc
  obtain ⟨b₁, h₁, hk₁⟩ := h.pastContainers sched d j (dropWs_of_not (by simpa using hws))
    (by simpa using h123) (by simpa using h91)
  obtain ⟨b₂, hr₂, h₂⟩ := h₁.parseNull_other sched j (by simpa using h110)
  obtain ⟨b₃, hr₃, h₃⟩ := h₂.parseBoolean_other sched j (Nat.le_refl 1) (by simp [h116, h102])
  exact ⟨b₃, h₃, fun r hr => hk₁ r (returns_firstOf_next hr₂ (returns_firstOf_next hr₃ hr))⟩

theorem At.parse_null [Unwritten] (sched : Schedule) (d : Nat) (h : At b (nullWord ++ rest) 1) :
    Parses sched (d + 1) b .null rest := by
  intro j
  obtain ⟨b₁, h₁, hk⟩ := h.pastContainers sched d j (dropWs_of_not (by simp [nullWord]; decide))
    (by simp [nullWord]) (by simp [nullWord])
  obtain ⟨b', hr, h'⟩ := h₁.parseNull sched j
  exact ⟨b', hk _ (returns_firstOf_done hr), h'⟩

/-- In front of a word that starts like `true` or `false`, all parsers before theirs fail. -/
theorem At.pastNull [Unwritten] (sched : Schedule) (d : Nat) (j : JsonVal) {c : UInt8} {s : Bytes}
    (hc : c = 116 ∨ c = 102) (h : At b s 1) (hws : dropWs s = c :: rest) :
    ∃ b₁, At b₁ (c :: rest) 1 ∧ ∀ r, Returns (fun m => firstOf [jsonParseBoolean sched,
        jsonParseNumber sched, jsonParseString sched] m j b₁) r →
      Returns (fun m => jsonParse sched (d + 1) m j b) r := by
  obtain ⟨h123, h91, h110⟩ : c ≠ 123 ∧ c ≠ 91 ∧ c ≠ 110 := by
    rcases hc with rfl | rfl <;> decide
  obtain ⟨b₁, h₁, hk⟩ := h.pastContainers sched d j hws (by simpa using h123) (by simpa using h91)
  obtain ⟨b₂, hr₂, h₂⟩ := h₁.parseNull_other sched j (by simpa using h110)
  exact ⟨b₂, h₂, fun r hr => hk r (returns_firstOf_next hr₂ hr)⟩

/-- The second letter decides what the word is read as. -/
theorem At.parse_bool [Unwritten] (sched : Schedule) (d : Nat) {c : UInt8} {s : Bytes} {v : Bool}
    (hc : c = 116 ∨ c = 102) (hrest : rest ≠ []) (h : At b s 1)
    (hws : dropWs s = c :: (boolTail v ++ rest)) : Parses sched (d + 1) b (.bool v) rest := by
  intro j
  obtain ⟨b₁, h₁, hk⟩ := h.pastNull sched d j hc hws
  obtain ⟨b', hr, h'⟩ := h₁.parseBoolean sched j hc hrest
  exact ⟨b', hk _ (returns_firstOf_done hr), h'.mono (by decide)⟩

theorem boolWord_head (v : Bool) : (if v then 116 else 102 : UInt8) = 116 ∨
    (if v then 116 else 102 : UInt8) = 102 := by
  cases v
  · exact .inr rfl
  · exact .inl rfl

theorem IntLit.start_ne {c : UInt8} (hc : isdigit c = true ∨ c = 45) :
    c ≠ 123 ∧ c ≠ 91 ∧ c ≠ 110 ∧ c ≠ 116 ∧ c ≠ 102 := by
  rcases hc with hc | rfl
  · refine ⟨?_, ?_, ?_, ?_, ?_⟩ <;> exact ne_of_isdigit hc rfl
  · decide

theorem At.parse_int [Unwritten] (sched : Schedule) (d : Nat) {lit : IntLit}
    (hrest : ∃ c ∈ rest.head?, isNumberChar c = false) (h : At b (lit.text ++ rest) 1) :
    Parses sched (d + 1) b (.int lit.value) rest := by
  intro j
  obtain ⟨e, he, hend⟩ := hrest
  obtain ⟨rest, rfl⟩ : ∃ s, rest = e :: s := ⟨rest.tail, List.eq_cons_of_mem_head? he⟩
  obtain ⟨c, ds, htext, hc, -⟩ := lit.text_cons
  obtain ⟨c', ds', htext', hws, -⟩ := (JsonText.int lit).text_cons
  obtain ⟨rfl, rfl⟩ : c' = c ∧ ds' = ds := List.cons.inj (htext'.symm.trans htext)
  rw [htext, List.cons_append] at h
  obtain ⟨b₁, h₁, hk⟩ := h.pastWords sched d j hws (IntLit.start_ne hc)
  rw [← List.cons_append, ← htext] at h₁
  obtain ⟨b', hr, h'⟩ := h₁.parseNumber sched j hend
  exact ⟨b', hk _ (returns_firstOf_done hr), h'.mono (by decide)⟩

theorem At.parse_string [Unwritten] (sched : Schedule) (d : Nat) {lit : StringLit}
    (h : At b (StringLit.text lit ++ rest) 1) :
    Parses sched (d + 1) b (.string (StringLit.value lit)) rest := by
  intro j
  obtain ⟨b₁, h₁, hk⟩ := At.pastWords sched d j h (by decide) (by decide)
  obtain ⟨b₂, hr₂, h₂⟩ := h₁.parseNumber_other sched j (Nat.le_refl 1) (by
    intro c hc
    obtain rfl : 34 = c := by simpa using hc
    decide)
  obtain ⟨b', hr, h'⟩ := h₂.parseString sched j
  exact ⟨b', hk _ (returns_firstOf_next hr₂ (returns_firstOf_done hr)), h'.mono (by decide)⟩

/-! ## Containers -/

/-- The opening bracket and the white space behind it. -/
theorem At.parse_array [Unwritten] (sched : Schedule) (d : Nat) {w : Ws} {items : List JsonVal} {s : Bytes}
    (h : At b (91 :: (w.text ++ rest)) 1) (hne : rest ≠ [])
    (hloop : ∀ b₁, At b₁ (dropWs rest) 1 → ∃ b',
      Returns (fun m => loop (arrayRound sched (jsonParse sched d)) m (b₁, [])) (items, b') ∧
      At b' s 2) : Parses sched (d + 1) b (.array items) s := by
  intro j
  obtain ⟨_, b₀, hr₀, h₀⟩ := h.skipWs sched (Nat.le_refl 1)
  rw [dropWs_of_not (by simp; decide)] at h₀
  obtain ⟨b₁, hr₁, h₁⟩ := h₀.parseObject_other sched (jsonParse sched d) j (Nat.le_refl 1) (by simp)
  obtain ⟨b₂, hr₂, h₂⟩ := h₁.skipIfeq_eq sched (by decide)
  rw [if_neg (by simp [hne])] at hr₂
  obtain ⟨_, b₃, hr₃, h₃⟩ := h₂.skipWs sched (by decide)
  rw [dropWs_append w.space] at h₃
  obtain ⟨b', hr, h'⟩ := hloop b₃ (h₃.mono (by decide))
  refine ⟨b', hr₀.bind (returns_firstOf_next hr₁ (returns_firstOf_done ?_)), h'⟩
  exact hr₂.bind (hr₃.bind (hr.bind (returns_ok _)))

theorem At.parse_object [Unwritten] (sched : Schedule) (d : Nat) {w : Ws} {members : List (Bytes × JsonVal)}
    {s : Bytes} (h : At b (123 :: (w.text ++ rest)) 1) (hne : rest ≠ [])
    (hloop : ∀ b₁, At b₁ (dropWs rest) 1 → ∃ b',
      Returns (fun m => loop (objectRound sched (jsonParse sched d)) m (b₁, [])) (members, b') ∧
      At b' s 2) : Parses sched (d + 1) b (.object members) s := by
  intro j
  obtain ⟨_, b₀, hr₀, h₀⟩ := h.skipWs sched (Nat.le_refl 1)
  rw [dropWs_of_not (by simp; decide)] at h₀
  obtain ⟨b₁, hr₁, h₁⟩ := h₀.skipIfeq_eq sched (by decide)
  rw [if_neg (by simp [hne])] at hr₁
  obtain ⟨_, b₂, hr₂, h₂⟩ := h₁.skipWs sched (by decide)
  rw [dropWs_append w.space] at h₂
  obtain ⟨b', hr, h'⟩ := hloop b₂ (h₂.mono (by decide))
  exact ⟨b', hr₀.bind (returns_firstOf_done (hr₁.bind (hr₂.bind (hr.bind (returns_ok _))))), h'⟩

/-- A round of the array loop: the item is read as `v`, and `s` is left for the delimiter. -/
theorem At.arrayRound_item [Unwritten] (sched : Schedule) {d : Nat} (t : JsonText) {v : JsonVal} {s s' : Bytes}
    {more : Bool} (items : List JsonVal) (h : At b (t.text ++ rest) 1)
    (ht : ∀ b₁, At b₁ (t.text ++ rest) 1 → Parses sched d b₁ v s)
    (hdel : ∀ b₂, At b₂ s 2 →
      ∃ b', Returns (fun m => Dirlist.skipDelimiter sched m b₂ 93) (more, b') ∧ At b' s' q) :
    ∃ b', Returns (fun m => arrayRound sched (jsonParse sched d) m (b, items))
        (if more then .inl (b', items ++ [v]) else .inr (items ++ [v], b')) ∧ At b' s' q := by
  obtain ⟨b₁, hpeek, h₁⟩ := h.peekc sched (Nat.le_refl 1)
  obtain ⟨b₂, hr₂, h₂⟩ := ht b₁ h₁ .undefined
  obtain ⟨b', hr, h'⟩ := hdel b₂ h₂
  refine ⟨b', ?_, h'⟩
  obtain ⟨c₀, s₀, htext, -, h93, -⟩ := t.text_cons
  rw [htext, List.cons_append, List.head?_cons] at hpeek
  simp only [Dirlist.arrayRound, hpeek, h93, if_false]
  refine hr₂.bind (hr.bind (returns_const ?_))
  cases more <;> rfl

theorem dropWs_left_delimiter (t : JsonText) (w : Ws) {c : UInt8} (hc : isspace c = false) (s : Bytes) :
    dropWs (t.left (w.text ++ c :: s)) = c :: s := by
  rw [dropWs_left, dropWs_append w.space, dropWs_of_not (by simpa using hc)]

/-- An item of an array and the delimiter behind it. -/
theorem At.arrayRound [Unwritten] (sched : Schedule) {d : Nat} (t : JsonText) {w : Ws} {c : UInt8} {v : JsonVal}
    (items : List JsonVal) (hc : c = 44 ∨ c = 93) (h : At b (t.text ++ (w.text ++ c :: rest)) 1)
    (ht : ∀ b₁, At b₁ (t.text ++ (w.text ++ c :: rest)) 1 →
      Parses sched d b₁ v (t.left (w.text ++ c :: rest))) :
    ∃ b', Returns (fun m => arrayRound sched (jsonParse sched d) m (b, items))
        (if c = 44 then .inl (b', items ++ [v]) else .inr (items ++ [v], b')) ∧
      At b' (dropWs rest) 1 := by
  have hsp : isspace c = false := by rcases hc with rfl | rfl <;> rfl
  obtain ⟨b', hr, h'⟩ := h.arrayRound_item sched t items ht fun b₂ h₂ =>
    h₂.skipDelimiter sched (dropWs_left_delimiter t w hsp rest) hc
  simp only [decide_eq_true_eq] at hr
  exact ⟨b', hr, h'⟩

theorem At.parseKey [Unwritten] (sched : Schedule) {key : StringLit} (h : At b (StringLit.text key ++ rest) 1) :
    ∃ b', Returns (fun m => parseKey sched m b) (StringLit.value key, b') ∧ At b' rest 1 := by
  obtain ⟨b', hr, h'⟩ := h.parseString sched .undefined
  exact ⟨b', hr.bind (returns_ok _), h'⟩

theorem mapInsert_of_short {key : Bytes} (hk : key.length < maxSizeKey)
    (members : List (Bytes × JsonVal)) (v : JsonVal) :
    mapInsert members key v = .ok (mapPut members key v) := by
  by_cases h : key = [] <;> simp [mapInsert, mapPut, h, hk]

/-- A round of the object loop: the value is read as `v`, and `s` is left for the delimiter. -/
theorem At.objectRound_value [Unwritten] (sched : Schedule) {d : Nat} {key : StringLit} {wk wc : Ws} (t : JsonText)
    {v : JsonVal} {s s' : Bytes} {more : Bool} (members : List (Bytes × JsonVal))
    (hk : (StringLit.value key).length < maxSizeKey)
    (h : At b (StringLit.text key ++ (wk.text ++ 58 :: (wc.text ++ (t.text ++ rest)))) 1)
    (ht : ∀ b₁, At b₁ (t.text ++ rest) 1 → Parses sched d b₁ v s)
    (hdel : ∀ b₂, At b₂ s 2 →
      ∃ b', Returns (fun m => Dirlist.skipDelimiter sched m b₂ 125) (more, b') ∧ At b' s' q) :
    ∃ b', Returns (fun m => objectRound sched (jsonParse sched d) m (b, members))
        (if more then .inl (b', mapPut members (StringLit.value key) v)
          else .inr (mapPut members (StringLit.value key) v, b')) ∧ At b' s' q := by
  obtain ⟨b₁, hpeek, h₁⟩ := h.peekc sched (Nat.le_refl 1)
  obtain ⟨b₂, hr₂, h₂⟩ := h₁.parseKey sched
  obtain ⟨_, b₃, hr₃, h₃⟩ := h₂.skipWs sched (Nat.le_refl 1)
  rw [dropWs_append wk.space, dropWs_of_not (by simp; decide)] at h₃
  obtain ⟨b₄, hr₄, h₄⟩ := h₃.skipIfeq_eq sched (by decide)
  have hne : wc.text ++ (t.text ++ rest) ≠ [] := by
    obtain ⟨c, ts, htext, -⟩ := t.text_cons
    simp [htext]
  rw [if_neg hne] at hr₄
  obtain ⟨_, b₅, hr₅, h₅⟩ := h₄.skipWs sched (by decide)
  rw [dropWs_append wc.space, dropWs_text] at h₅
  obtain ⟨b₆, hr₆, h₆⟩ := ht b₅ (h₅.mono (by decide)) .undefined
  obtain ⟨b', hr, h'⟩ := hdel b₆ h₆
  refine ⟨b', ?_, h'⟩
  rw [StringLit.text, List.cons_append, List.head?_cons] at hpeek
  have hins := mapInsert_of_short hk members v
  simp only [Dirlist.objectRound, hpeek, show (34 : UInt8) ≠ 125 by decide, if_false]
  refine hr₂.bind (hr₃.bind (hr₄.bind (hr₅.bind (hr₆.bind ?_))))
  refine Returns.bind (returns_const hins) (hr.bind (returns_const ?_))
  cases more <;> rfl

/-- A member of an object and the delimiter behind it. -/
theorem At.objectRound [Unwritten] (sched : Schedule) {d : Nat} {key : StringLit} {wk wc : Ws} (t : JsonText)
    {w : Ws} {c : UInt8} {v : JsonVal} (members : List (Bytes × JsonVal)) (hc : c = 44 ∨ c = 125)
    (hk : (StringLit.value key).length < maxSizeKey)
    (h : At b (StringLit.text key ++ (wk.text ++ 58 :: (wc.text ++ (t.text ++ (w.text ++ c :: rest))))) 1)
    (ht : ∀ b₁, At b₁ (t.text ++ (w.text ++ c :: rest)) 1 →
      Parses sched d b₁ v (t.left (w.text ++ c :: rest))) :
    ∃ b', Returns (fun m => objectRound sched (jsonParse sched d) m (b, members))
        (if c = 44 then .inl (b', mapPut members (StringLit.value key) v)
          else .inr (mapPut members (StringLit.value key) v, b')) ∧
      At b' (dropWs rest) 1 := by
  have hsp : isspace c = false := by rcases hc with rfl | rfl <;> rfl
  obtain ⟨b', hr, h'⟩ := h.objectRound_value sched t members hk ht fun b₂ h₂ =>
    h₂.skipDelimiter sched (dropWs_left_delimiter t w hsp rest) hc
  simp only [decide_eq_true_eq] at hr
  exact ⟨b', hr, h'⟩

theorem At.parse_emptyObject [Unwritten] (sched : Schedule) (d : Nat) {w : Ws}
    (h : At b (123 :: (w.text ++ 125 :: rest)) 1) : Parses sched (d + 1) b (.object []) rest := by
  refine h.parse_object sched d (by simp) fun b₁ h₁ => ?_
  rw [dropWs_of_not (by simp; decide)] at h₁
  obtain ⟨b₂, hpeek, h₂⟩ := h₁.peekc sched (Nat.le_refl 1)
  obtain ⟨b₃, hnext, h₃⟩ := h₂.nextc sched (by decide)
  have hround (k : Nat) : Dirlist.objectRound sched (jsonParse sched d) k (b₁, []) =
      .ok (.inr ([], b₃)) := by
    simp only [Dirlist.objectRound, hpeek, List.head?_cons, if_true, hnext]
  exact ⟨b₃, returns_loop_done ⟨0, fun k _ => hround k⟩, h₃.mono (by decide)⟩

theorem ItemsText.dropWs_text (items : ItemsText) (s : Bytes) :
    dropWs (items.text ++ s) = items.text ++ s := by
  cases items with
  | last t w => rw [ItemsText.text, List.append_assoc, Dirlist.dropWs_text]
  | more t w w' next => rw [ItemsText.text, List.append_assoc, Dirlist.dropWs_text]

theorem MembersText.dropWs_text (members : MembersText) (s : Bytes) :
    dropWs (members.text ++ s) = members.text ++ s := by
  have hquote : ∀ s : Bytes, dropWs (34 :: s) = 34 :: s := fun s => dropWs_of_not (by simp; decide)
  cases members with
  | last key wk wc t w => exact hquote _
  | more key wk wc t w w' next => exact hquote _

theorem ItemsText.text_ne_nil (items : ItemsText) (s : Bytes) : items.text ++ s ≠ [] := by
  cases items <;> simp [ItemsText.text]

theorem MembersText.text_ne_nil (members : MembersText) (s : Bytes) : members.text ++ s ≠ [] := by
  cases members <;> simp [MembersText.text]

/-! ## Whole texts -/

mutual
/-- A text without empty arrays, with keys that fit and followed by what ends it, is read as
stored. -/
theorem JsonText.parses [Unwritten] (t : JsonText) (sched : Schedule) {b : Charbuf} {rest : Bytes} {d : Nat}
    (hd : t.depth ≤ d) (ht : t.Every False ShortKeys) (hend : t.EndsBefore rest)
    (h : At b (t.text ++ rest) 1) : Parses sched d b t.stored (t.left rest) := by
  obtain ⟨d, rfl⟩ : ∃ n, d = n + 1 := ⟨d - 1, by have := t.depth_pos; omega⟩
  cases t with
  | null => exact h.parse_null sched d
  | bool v => exact h.parse_bool sched d (boolWord_head v) hend (dropWs_text (.bool v) rest)
  | int lit => exact h.parse_int sched d hend
  | string lit => exact h.parse_string sched d
  | emptyArray w => exact ht.elim
  | array w items =>
    rw [JsonText.text, List.cons_append, List.append_assoc] at h
    refine h.parse_array sched d (items.text_ne_nil rest) fun b₁ h₁ => ?_
    rw [items.dropWs_text] at h₁
    obtain ⟨b', hr, h'⟩ := items.parses sched (Nat.le_of_succ_le_succ hd) ht [] h₁
    exact ⟨b', hr, h'.mono (by decide)⟩
  | emptyObject w =>
    rw [JsonText.text, List.cons_append, List.append_assoc] at h
    exact h.parse_emptyObject sched d
  | object w members =>
    rw [JsonText.text, List.cons_append, List.append_assoc] at h
    refine h.parse_object sched d (members.text_ne_nil rest) fun b₁ h₁ => ?_
    rw [members.dropWs_text] at h₁
    obtain ⟨b', hr, h'⟩ := members.parses sched (Nat.le_of_succ_le_succ hd) ht.1 ht.2 [] h₁
    exact ⟨b', hr, h'.mono (by decide)⟩

theorem ItemsText.parses [Unwritten] (items : ItemsText) (sched : Schedule) {b : Charbuf} {rest : Bytes} {d : Nat}
    (hd : items.depth ≤ d)
    (ht : items.Every False ShortKeys) (done : List JsonVal) (h : At b (items.text ++ rest) 1) :
    ∃ b', Returns (fun m => loop (arrayRound sched (jsonParse sched d)) m (b, done))
      (done ++ items.stored, b') ∧ At b' (dropWs rest) 1 := by
  cases items with
  | last t w =>
    simp only [ItemsText.text, List.append_assoc, List.cons_append, List.nil_append] at h
    obtain ⟨b', hr, h'⟩ := h.arrayRound sched t done (.inr rfl) fun b₁ h₁ =>
      t.parses sched hd ht (t.endsBefore_delimiter w rest (by decide)) h₁
    exact ⟨b', returns_loop_done hr, h'⟩
  | more t w w' next =>
    simp only [ItemsText.text, List.append_assoc, List.cons_append] at h
    obtain ⟨b₁, hr₁, h₁⟩ := h.arrayRound sched t done (.inl rfl) fun b₁ h₁ =>
      t.parses sched (Nat.le_trans (Nat.le_max_left _ _) hd) ht.1
        (t.endsBefore_delimiter w _ (by decide)) h₁
    rw [dropWs_append w'.space, next.dropWs_text] at h₁
    obtain ⟨b', hr, h'⟩ := next.parses sched (Nat.le_trans (Nat.le_max_right _ _) hd) ht.2
      (done ++ [t.stored]) h₁
    refine ⟨b', returns_loop_next hr₁ ?_, h'⟩
    simpa [ItemsText.stored] using hr

theorem MembersText.parses [Unwritten] (members : MembersText) (sched : Schedule) {b : Charbuf} {rest : Bytes} {d : Nat}
    (hd : members.depth ≤ d)
    (hk : ShortKeys members.keys) (ht : members.Every False ShortKeys)
    (done : List (Bytes × JsonVal)) (h : At b (members.text ++ rest) 1) :
    ∃ b', Returns (fun m => loop (objectRound sched (jsonParse sched d)) m (b, done))
      (members.stored done, b') ∧ At b' (dropWs rest) 1 := by
  cases members with
  | last key wk wc t w =>
    simp only [MembersText.text, List.append_assoc, List.cons_append, List.nil_append] at h
    obtain ⟨b', hr, h'⟩ := h.objectRound sched t done (.inr rfl) (hk _ List.mem_cons_self)
      fun b₁ h₁ => t.parses sched hd ht (t.endsBefore_delimiter w rest (by decide)) h₁
    exact ⟨b', returns_loop_done hr, h'⟩
  | more key wk wc t w w' next =>
    simp only [MembersText.text, List.append_assoc, List.cons_append] at h
    obtain ⟨b₁, hr₁, h₁⟩ := h.objectRound sched t done (.inl rfl) (hk _ List.mem_cons_self)
      fun b₁ h₁ => t.parses sched (Nat.le_trans (Nat.le_max_left _ _) hd) ht.1
        (t.endsBefore_delimiter w _ (by decide)) h₁
    rw [dropWs_append w'.space, next.dropWs_text] at h₁
    obtain ⟨b', hr, h'⟩ := next.parses sched (Nat.le_trans (Nat.le_max_right _ _) hd)
      (fun k hmem => hk k (List.mem_cons_of_mem _ hmem)) ht.2 _ h₁
    exact ⟨b', returns_loop_next hr₁ hr, h'⟩
end

end Dirlist
