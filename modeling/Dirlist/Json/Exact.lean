import Dirlist.Json.Spoilt

/-! When the reader is exact: the value that is stored is the one the text denotes, and the
buffer stands at what follows. -/

namespace Dirlist
open Run

/-! ## Values as the table holds them -/

/-- The members with their values as stored, before they go through the table. -/
def MembersText.entries : MembersText → List (Bytes × JsonVal)
  | .last key _ _ t _ => [(StringLit.value key, t.stored)]
  | .more key _ _ t _ _ next => (StringLit.value key, t.stored) :: next.entries

theorem distinct_mapPut {members : List (Bytes × JsonVal)} (h : DistinctKeys (members.map Prod.fst))
    (key : Bytes) (v : JsonVal) : DistinctKeys ((mapPut members key v).map Prod.fst) := by
  unfold mapPut
  by_cases hk : key = []
  · rwa [if_pos hk]
  · rw [if_neg hk]
    refine ⟨?_, Dict.nodup_set h.2⟩
    rw [Dict.map_fst_set]
    split
    · exact h.1
    · rw [List.mem_append, not_or]
      exact ⟨h.1, by simpa using Ne.symm hk⟩

theorem MembersText.distinct_stored (members : MembersText) {done : List (Bytes × JsonVal)}
    (h : DistinctKeys (done.map Prod.fst)) : DistinctKeys ((members.stored done).map Prod.fst) :=
  match members with
  | .last key _ _ t _ => distinct_mapPut h (StringLit.value key) t.stored
  | .more key _ _ t _ _ next =>
    next.distinct_stored (distinct_mapPut h (StringLit.value key) t.stored)

theorem mapPut_new {done : List (Bytes × JsonVal)} {key : Bytes} (hk : key ≠ [])
    (hnew : key ∉ done.map Prod.fst) (v : JsonVal) : mapPut done key v = done ++ [(key, v)] := by
  rw [mapPut, if_neg hk]
  exact Dict.set_of_none (Dict.get?_eq_none.mpr hnew) v

/-- Distinct keys that are not there yet are put behind the others. -/
theorem MembersText.stored_eq (members : MembersText) (done : List (Bytes × JsonVal))
    (hk : DistinctKeys members.keys) (hnew : ∀ k ∈ members.keys, k ∉ done.map Prod.fst) :
    members.stored done = done ++ members.entries :=
  match members with
  | .last key _ _ t _ => by
    have hne : StringLit.value key ≠ [] := fun h => hk.1 (by rw [MembersText.keys, h]; simp)
    exact mapPut_new hne (hnew _ List.mem_cons_self) t.stored
  | .more key _ _ t _ _ next => by
    have hne : StringLit.value key ≠ [] := fun h => hk.1 (by rw [MembersText.keys, h]; simp)
    have hput := mapPut_new hne (hnew _ List.mem_cons_self) t.stored
    obtain ⟨hnot, hnodup⟩ := List.nodup_cons.mp hk.2
    have hnext := next.stored_eq (done ++ [(StringLit.value key, t.stored)])
      ⟨fun h => hk.1 (List.mem_cons_of_mem _ h), hnodup⟩ (by
        intro k hmem
        rw [List.map_append, List.mem_append, not_or]
        refine ⟨hnew k (List.mem_cons_of_mem _ hmem), ?_⟩
        simp only [List.map_cons, List.map_nil, List.mem_singleton]
        rintro rfl
        exact hnot hmem)
    rw [MembersText.stored, hput, hnext, List.append_assoc]
    rfl

theorem MembersText.keys_eq (members : MembersText) : members.values.map Prod.fst = members.keys :=
  match members with
  | .last _ _ _ _ _ => rfl
  | .more key _ _ _ _ _ next => congrArg (StringLit.value key :: ·) next.keys_eq

mutual
/-- The stored value is the denoted one exactly if the keys of each object are distinct and
not empty. -/
theorem JsonText.stored_eq_value_iff (t : JsonText) :
    t.stored = t.value ↔ t.Every True DistinctKeys := by
  cases t with
  | array w items =>
    rw [JsonText.stored, JsonText.value, JsonVal.array.injEq]
    exact items.stored_eq_values_iff
  | object w members =>
    rw [JsonText.stored, JsonText.value, JsonVal.object.injEq, JsonText.Every,
      ← members.entries_eq_values_iff]
    have hstart : DistinctKeys (([] : List (Bytes × JsonVal)).map Prod.fst) := by simp [DistinctKeys]
    constructor
    · intro h
      have hk : DistinctKeys members.keys := by
        rw [← members.keys_eq, ← h]
        exact members.distinct_stored hstart
      rw [members.stored_eq [] hk (by simp)] at h
      exact ⟨hk, h⟩
    · rintro ⟨hk, h⟩
      rw [members.stored_eq [] hk (by simp)]
      exact h
  | _ => exact iff_of_true rfl trivial

theorem ItemsText.stored_eq_values_iff (items : ItemsText) :
    items.stored = items.values ↔ items.Every True DistinctKeys := by
  cases items with
  | last t w =>
    rw [ItemsText.stored, ItemsText.values, List.cons.injEq, and_iff_left rfl]
    exact t.stored_eq_value_iff
  | more t w w' next =>
    rw [ItemsText.stored, ItemsText.values, List.cons.injEq]
    exact and_congr t.stored_eq_value_iff next.stored_eq_values_iff

theorem MembersText.entries_eq_values_iff (members : MembersText) :
    members.entries = members.values ↔ members.Every True DistinctKeys := by
  cases members with
  | last key wk wc t w =>
    rw [MembersText.entries, MembersText.values, List.cons.injEq, and_iff_left rfl, Prod.mk.injEq,
      and_iff_right rfl]
    exact t.stored_eq_value_iff
  | more key wk wc t w w' next =>
    rw [MembersText.entries, MembersText.values, List.cons.injEq, Prod.mk.injEq, and_iff_right rfl]
    exact and_congr t.stored_eq_value_iff next.entries_eq_values_iff
end

/-! ## Numbers and words at the end of the stream -/

variable {sched : Schedule} {b : Charbuf}

theorem At.numberLoop_end (sched : Schedule) {c : UInt8} {ds : Bytes} (num : Bytes) (hc : c ≠ 0)
    (hds : ∀ d ∈ ds, isdigit d = true) (h : At b (c :: ds) 1) :
    ∃ b', Returns (fun m => loop (numberRound sched) m (b, c, num, false)) (none, false, b') ∧
      At b' [] 1 := by
  induction ds generalizing b c num with
  | nil =>
    obtain ⟨b', hnext, h'⟩ := h.nextc sched hc
    have hround (k : Nat) : numberRound sched k (b, c, num, false) =
        .ok (.inr (none, false, b')) := by
      simp [numberRound, hnext]
    exact ⟨b', returns_loop_done ⟨0, fun k _ => hround k⟩, h'⟩
  | cons d ds ih =>
    have hd := hds d List.mem_cons_self
    obtain ⟨b₁, hnext, h₁⟩ := h.nextc sched hc
    have hround (k : Nat) : numberRound sched k (b, c, num, false) =
        .ok (.inl (b₁, d, num ++ [c], false)) := by
      simp [numberRound, hnext, hd, ne_of_isdigit hd (d := 46) rfl, ne_of_isdigit hd (d := 69) rfl,
        ne_of_isdigit hd (d := 101) rfl]
    obtain ⟨b', hr, h'⟩ := ih (num ++ [c]) (ne_of_isdigit hd rfl)
      (fun x hx => hds x (List.mem_cons_of_mem _ hx)) h₁
    exact ⟨b', returns_loop_next ⟨0, fun k _ => hround k⟩ hr, h'⟩

/-- A number that is not followed by anything is not read. -/
theorem At.parse_int_end [Unwritten] (sched : Schedule) (d : Nat) (j : JsonVal) {lit : IntLit}
    (h : At b lit.text 1) :
    ∃ v b', Returns (fun m => jsonParse sched (d + 1) m j b) (0, v, b') := by
  obtain ⟨c, ds, htext, hc, hds⟩ := lit.text_cons
  obtain ⟨c', ds', htext', hws, -⟩ := (JsonText.int lit).text_cons
  obtain ⟨rfl, rfl⟩ : c' = c ∧ ds' = ds := List.cons.inj (htext'.symm.trans htext)
  rw [htext] at h
  obtain ⟨b₁, h₁, hk⟩ := h.pastWords sched d j hws (IntLit.start_ne hc)
  obtain ⟨b₂, hpeek, h₂⟩ := h₁.peekc sched (Nat.le_refl 1)
  have hstart : isdigit c' = true ∨ c' = 45 ∨ c' = 46 ∨ c' = 43 := hc.imp_right .inl
  obtain ⟨b₃, hr₃, h₃⟩ := h₂.numberLoop_end sched [] (isPlain_of_numberStart hstart).2 hds
  have hnum : Returns (fun m => jsonParseNumber sched m j b₁) (0, .unset false, b₃) := by
    simp only [jsonParseNumber, hpeek, List.head?_cons, hstart, if_true]
    exact hr₃.bind (returns_ok _)
  obtain ⟨b₄, hr₄, -⟩ := h₃.parseString_other sched (.unset false) (Nat.le_refl 1) (by simp)
  exact ⟨_, b₄, hk _ (returns_firstOf_next hnum (returns_firstOf_next hr₄ (returns_ok _)))⟩

theorem At.skipWord_end (sched : Schedule) {word : Bytes} (hne : word ≠ []) (hz : 0 ∉ word)
    (h : At b word 1) :
    ∃ b', Returns (fun m => Dirlist.skipWord sched m b word) (false, b') ∧ At b' [] 1 := by
  induction word generalizing b with
  | nil => exact absurd rfl hne
  | cons c word ih =>
    obtain ⟨hc, hz'⟩ : c ≠ 0 ∧ 0 ∉ word := by simpa [eq_comm] using hz
    obtain ⟨b₁, hr₁, h₁⟩ := h.skipIfeq_eq sched hc
    by_cases hw : word = []
    · subst hw
      exact ⟨b₁, hr₁.bind (returns_ok _), h₁⟩
    · rw [if_neg hw] at hr₁
      obtain ⟨b', hr, h'⟩ := ih hw hz' h₁
      exact ⟨b', hr₁.bind hr, h'⟩

/-- Nor is a word. -/
theorem At.parse_bool_end [Unwritten] (sched : Schedule) (d : Nat) (j : JsonVal) {v : Bool}
    (h : At b (boolWord v) 1) :
    ∃ b', Returns (fun m => jsonParse sched (d + 1) m j b) (0, j, b') := by
  have hws : dropWs (boolWord v) = (if v then 116 else 102) :: (boolTail v ++ []) := by
    cases v <;> rfl
  obtain ⟨b₁, h₁, hk⟩ := h.pastNull sched d j (boolWord_head v) hws
  obtain ⟨b₂, h₂, heq⟩ := h₁.parseBoolean_first sched j (boolWord_head v)
  rw [List.append_nil] at h₂
  obtain ⟨b₃, hr₃, h₃⟩ := h₂.skipWord_end sched (by cases v <;> decide) (by cases v <;> decide)
  have hbool : Returns (fun m => jsonParseBoolean sched m j b₁) (0, j, b₃) :=
    Returns.congr (hr₃.bind (returns_ok _)) heq
  obtain ⟨b₄, hr₄, h₄⟩ := h₃.parseNumber_other sched j (Nat.le_refl 1) (by simp)
  obtain ⟨b₅, hr₅, -⟩ := h₄.parseString_other sched j (Nat.le_refl 1) (by simp)
  exact ⟨b₅, hk _ (returns_firstOf_next hbool (returns_firstOf_next hr₄
    (returns_firstOf_next hr₅ (returns_ok _))))⟩

/-! ## Exact reading -/

/-- What follows does not carry on a number. -/
def JsonText.Unextended : JsonText → Bytes → Prop
  | .int _, s => ∀ c ∈ s.head?, isNumberChar c = false
  | _, _ => True

/-- What follows ends the text and is itself found at once: only a container that is not
empty skips the white space behind it, and a number or a word needs a byte behind it. -/
def JsonText.SettledBefore : JsonText → Bytes → Prop
  | .array _ _, _ => True
  | .object _ _, _ => True
  | .int _, s => ∃ c ∈ s.head?, isspace c = false
  | .bool _, s => ∃ c ∈ s.head?, isspace c = false
  | _, s => ∀ c ∈ s.head?, isspace c = false

/-- `json_parse` returns 1 with the value of the text, and the buffer goes on with the first
byte after it that is not white space. -/
def JsonExact [Unwritten] (sched : Schedule) (lookahead : Nat) (t : JsonText) (rest : Bytes) : Prop :=
  ∃ d₀, ∀ d, d₀ ≤ d → ∀ j, ∃ b' consumed,
    Returns (fun m => jsonParse sched d m j (charbufInit (t.text ++ rest) lookahead))
      (1, t.value, b') ∧ View b' consumed (dropWs rest)

theorem View.rest_unique {consumed consumed' s s' : Bytes} (h : View b consumed s)
    (h' : View b consumed' s') : s = s' := h.unread.symm.trans h'.unread

theorem Stands.rest_unique {consumed s s' : Bytes} (h : Stands b s) (h' : View b consumed s') :
    s = s' := by
  obtain ⟨_, hv⟩ : ∃ consumed, View b consumed s := by
    rcases h with h | h
    · exact h.view
    · exact h.1.view
  exact hv.rest_unique h'

/-- Whoever has taken a whole text has no bracket open. -/
theorem JsonText.not_took_one (t : JsonText) (rest : Bytes) : ¬Took (t.text ++ rest) 1 (dropWs rest) := by
  rintro ⟨taken, htaken, h⟩
  have hsplit : rest.takeWhile isspace ++ dropWs rest = rest := List.takeWhile_append_dropWhile
  nth_rewrite 1 [← hsplit] at htaken
  rw [← List.append_assoc] at htaken
  have hlex : Dirlist.lex taken = (.plain, 0) := by
    rw [← List.append_cancel_right htaken]
    exact lex_join t.lex (lex_plain fun c hc => isPlain_of_isspace (List.mem_takeWhile_imp hc))
  rw [hlex] at h
  rcases h with ⟨-, h⟩ | ⟨h, -⟩
  · exact absurd h (by decide)
  · exact h rfl

theorem JsonText.SettledBefore.endsBefore {t : JsonText} {rest : Bytes} (h : t.SettledBefore rest)
    (hu : t.Unextended rest) : t.EndsBefore rest := by
  cases t with
  | int lit =>
    obtain ⟨c, hc, -⟩ := h
    exact ⟨c, hc, hu c hc⟩
  | bool v =>
    obtain ⟨c, hc, -⟩ := h
    rintro rfl
    cases hc
  | _ => trivial

theorem JsonText.SettledBefore.left_eq {t : JsonText} {rest : Bytes} (h : t.SettledBefore rest) :
    t.left rest = dropWs rest := by
  have hsome : (∃ c ∈ rest.head?, isspace c = false) → rest = dropWs rest := by
    rintro ⟨c, hc, hws⟩
    refine (dropWs_of_not fun d hd => ?_).symm
    rwa [← Option.mem_unique hc hd]
  cases t with
  | array w items => rfl
  | object w members => rfl
  | int lit => exact hsome h
  | bool v => exact hsome h
  | _ => exact (dropWs_of_not h).symm

/-- What is left is found at once only if it does not start with white space. -/
theorem head_of_dropWs_eq {rest : Bytes} (h : rest = dropWs rest) :
    ∀ c ∈ rest.head?, isspace c = false := by
  cases rest with
  | nil => nofun
  | cons c s =>
    intro d hd
    obtain rfl : c = d := by simpa using hd
    by_contra hws
    rw [Bool.not_eq_false] at hws
    have hlen := congrArg List.length h
    rw [dropWs, List.dropWhile_cons_of_pos hws, List.length_cons] at hlen
    have := (List.dropWhile_suffix isspace (l := s)).length_le
    omega

theorem JsonExact.settledBefore [Unwritten] {lookahead : Nat} {t : JsonText} {rest : Bytes}
    (ha : (charbufInit (t.text ++ rest) lookahead).a ≠ 0) (hu : t.Unextended rest)
    (ht : t.Every False ShortKeys) (h : JsonExact sched lookahead t rest) :
    t.SettledBefore rest := by
  obtain ⟨d₀, h⟩ := h
  obtain ⟨b', consumed, hr, hv⟩ := h (max d₀ t.depth) (le_max_left _ _) .undefined
  have hstart := at_init ha
  have hd : t.depth ≤ max d₀ t.depth := le_max_right _ _
  have hleft : t.EndsBefore rest → t.left rest = dropWs rest := by
    intro hend
    obtain ⟨b₁, hr₁, h₁⟩ := t.parses sched hd ht hend hstart .undefined
    obtain rfl : b' = b₁ := congrArg (fun x => x.2.2) (hr.unique hr₁)
    obtain ⟨_, hv₁⟩ := h₁.view
    exact hv₁.rest_unique hv
  obtain ⟨d, hd'⟩ : ∃ n, max d₀ t.depth = n + 1 :=
    ⟨max d₀ t.depth - 1, by have := t.depth_pos; omega⟩
  rw [hd'] at hr
  cases t with
  | array w items => trivial
  | object w members => trivial
  | int lit =>
    cases rest with
    | nil =>
      rw [List.append_nil] at hstart hr
      obtain ⟨v, b₁, hr₁⟩ := hstart.parse_int_end sched d .undefined
      exact absurd (congrArg Prod.fst (hr.unique hr₁)) Nat.one_ne_zero
    | cons c s => exact ⟨c, rfl, head_of_dropWs_eq (hleft ⟨c, rfl, hu c rfl⟩) c rfl⟩
  | bool v =>
    cases rest with
    | nil =>
      rw [List.append_nil] at hstart hr
      obtain ⟨b₁, hr₁⟩ := At.parse_bool_end sched d .undefined hstart
      exact absurd (congrArg Prod.fst (hr.unique hr₁)) Nat.one_ne_zero
    | cons c s => exact ⟨c, rfl, head_of_dropWs_eq (hleft (List.cons_ne_nil c s)) c rfl⟩
  | _ => exact head_of_dropWs_eq (hleft trivial)

/-- The reader is exact on a text exactly if no array in it is empty, the table can hold the
keys of every object, and what follows settles its end. -/
theorem jsonExact_iff [Unwritten] {lookahead : Nat} {t : JsonText} {rest : Bytes}
    (ha : (charbufInit (t.text ++ rest) lookahead).a ≠ 0) (hu : t.Unextended rest) :
    JsonExact sched lookahead t rest ↔
      t.Every False ShortKeys ∧ t.Every True DistinctKeys ∧ t.SettledBefore rest := by
  have hstart := at_init ha
  constructor
  · intro h
    have ht : t.Every False ShortKeys := by
      by_contra ht
      obtain ⟨d₀, hall⟩ := h
      obtain ⟨b', consumed, ⟨N, hN⟩, hv⟩ := hall (max d₀ t.depth) (le_max_left _ _) .undefined
      obtain ⟨s, hs, hb'⟩ := t.spoilt (le_max_right _ _) ht hstart (hN N (Nat.le_refl N))
      rw [hb'.rest_unique hv] at hs
      exact t.not_took_one rest hs
    have hset := h.settledBefore ha hu ht
    refine ⟨ht, t.stored_eq_value_iff.mp ?_, hset⟩
    obtain ⟨d₀, hall⟩ := h
    obtain ⟨b', consumed, hr, -⟩ := hall (max d₀ t.depth) (le_max_left _ _) .undefined
    obtain ⟨b₁, hr₁, -⟩ := t.parses sched (le_max_right d₀ t.depth) ht
      (hset.endsBefore hu) hstart .undefined
    exact (congrArg (fun x => x.2.1) (hr.unique hr₁)).symm
  · rintro ⟨ht, hdistinct, hset⟩
    refine ⟨t.depth, fun d hd j => ?_⟩
    obtain ⟨b', hr, h'⟩ := t.parses sched hd ht (hset.endsBefore hu) hstart j
    obtain ⟨consumed, hv⟩ := h'.view
    rw [t.stored_eq_value_iff.mpr hdistinct] at hr
    rw [hset.left_eq] at hv
    exact ⟨b', consumed, hr, hv⟩

/-! ## Words that are read as booleans -/

variable {b' : Charbuf} {u : Bytes} {m r d : Nat} {v val : JsonVal}

theorem At.skipWord_true {word : Bytes} (hz : 0 ∉ word) (hne : word ≠ []) (h : At b u 1)
    (hok : Dirlist.skipWord sched m b word = .ok (true, b')) : ∃ s, s ≠ [] ∧ u = word ++ s := by
  induction word generalizing b u with
  | nil => exact absurd rfl hne
  | cons c word ih =>
    obtain ⟨hc, hz'⟩ : c ≠ 0 ∧ 0 ∉ word := by simpa [eq_comm] using hz
    obtain ⟨⟨r₁, b₁⟩, hif, hok⟩ := bind_eq_ok hok
    rcases h.skipIfeq_ok hc hif with ⟨-, rfl, -⟩ | ⟨s, rfl, rfl, h₁⟩
    · cases hok
    · by_cases hs : s = []
      · simp [hs] at hok
      · simp only [hs, if_false, gt_iff_lt, Nat.zero_lt_one, if_true] at hok
        by_cases hw : word = []
        · exact ⟨s, hs, by rw [hw]; rfl⟩
        · obtain ⟨s', hs', rfl⟩ := ih hz' hw h₁ hok
          exact ⟨s', hs', rfl⟩

/-- A boolean comes of a word whose first letter is that of either. -/
theorem At.parseBoolean_value (h : At b u 1)
    (hok : jsonParseBoolean sched m val b = .ok (r, v, b')) :
    v = val ∨ ∃ c w s, v = .bool w ∧ (c = 116 ∨ c = 102) ∧ s ≠ [] ∧ u = c :: (boolTail w ++ s) := by
  by_cases hu : ∃ c s, u = c :: s ∧ (c = 116 ∨ c = 102)
  · obtain ⟨c, s, rfl, hc⟩ := hu
    have hc0 : c ≠ 0 := by rcases hc with rfl | rfl <;> decide
    obtain ⟨b₁, hset, h₁⟩ := h.skipIfset_mem sched (Nat.le_refl 1) (List.mem_pair.mpr hc)
    obtain ⟨b₂, hpeek, h₂⟩ := (h₁.mono (Nat.zero_le 1)).peekc sched (Nat.le_refl 1)
    simp only [jsonParseBoolean, hset, gt_iff_lt, toNat_pos_of_ne_zero hc0, if_true, hpeek] at hok
    obtain ⟨⟨all, b₃⟩, hword, hok⟩ := bind_eq_ok hok
    cases all with
    | false => exact .inl (congrArg (fun x => x.2.1) (Except.ok.inj hok)).symm
    | true =>
      have hv := congrArg (fun x => x.2.1) (Except.ok.inj hok)
      obtain ⟨s', hs', hsplit⟩ := h₂.skipWord_true (by split <;> decide) (by split <;> decide) hword
      refine .inr ⟨c, decide (s.head? = some 114), s', hv.symm, hc, hs', ?_⟩
      rw [List.cons.injEq]
      exact ⟨rfl, hsplit⟩
  · obtain ⟨b₁, hset, -⟩ := h.skipIfset_not_mem sched [116, 102] (Nat.le_refl 1) (by
      intro c hc hmem
      exact hu ⟨c, u.tail, List.eq_cons_of_mem_head? hc, List.mem_pair.mp hmem⟩)
    simp only [jsonParseBoolean, hset] at hok
    exact .inl (congrArg (fun x => x.2.1) (Except.ok.inj hok)).symm

theorem parseNumber_value (hok : jsonParseNumber sched m val b = .ok (r, v, b')) :
    v = val ∨ ∀ w, v ≠ .bool w := by
  rcases hpeek : charbufPeekc sched b with ⟨_ | c, b₁⟩
  · simp only [jsonParseNumber, hpeek] at hok
    exact .inl (congrArg (fun x => x.2.1) (Except.ok.inj hok)).symm
  · by_cases hc : isdigit c = true ∨ c = 45 ∨ c = 46 ∨ c = 43
    · simp only [jsonParseNumber, hpeek, hc, if_true] at hok
      obtain ⟨⟨num, double, b₂⟩, -, hok⟩ := bind_eq_ok hok
      have hv : v = (scanNumber b₂ double num).2.1 :=
        (congrArg (fun x => x.2.1) (Except.ok.inj hok)).symm
      rw [hv]
      refine .inr fun w hw => ?_
      cases num with
      | none => cases hw
      | some num =>
        simp only [scanNumber] at hw
        split at hw <;> split at hw <;> cases hw
    · simp only [jsonParseNumber, hpeek, hc, if_false] at hok
      exact .inl (congrArg (fun x => x.2.1) (Except.ok.inj hok)).symm

theorem parseString_value [Unwritten] (hok : jsonParseString sched m val b = .ok (r, v, b')) :
    v = val ∨ ∀ w, v ≠ .bool w := by
  obtain ⟨⟨r₁, b₁⟩, -, hok⟩ := bind_eq_ok hok
  by_cases hr : r₁ > 0
  · simp only [hr, if_true] at hok
    obtain ⟨_, -, hok⟩ := bind_eq_ok hok
    have hv := congrArg (fun x => x.2.1) (Except.ok.inj hok)
    exact .inr fun w hw => by
      rw [hw] at hv
      cases hv
  · simp only [hr, if_false] at hok
    exact .inl (congrArg (fun x => x.2.1) (Except.ok.inj hok)).symm

/-- A container parser that fails leaves the value alone, and takes at most all there is. -/
theorem At.parseObject_value [Unwritten] {parse : Parse} (h : At b u 1)
    (hok : jsonParseObject sched parse m val b = .ok (r, v, b')) :
    (r = 1 ∧ ∀ w, v ≠ .bool w) ∨ (r = 0 ∧ v = val ∧ (At b' u 1 ∨ At b' [] 1)) := by
  obtain ⟨⟨r₁, b₁⟩, hif, hok⟩ := bind_eq_ok hok
  by_cases hr : r₁ > 0
  · simp only [hr, if_true] at hok
    obtain ⟨_, -, hok⟩ := bind_eq_ok hok
    obtain ⟨_, -, hok⟩ := bind_eq_ok hok
    obtain ⟨rfl, rfl, -⟩ := Except.ok.inj hok
    exact .inl ⟨rfl, nofun⟩
  · simp only [hr, if_false] at hok
    obtain ⟨rfl, rfl, rfl⟩ := Except.ok.inj hok
    refine .inr ⟨rfl, rfl, ?_⟩
    rcases h.skipIfeq_ok (by decide) hif with ⟨-, -, h₁⟩ | ⟨s, -, rfl, h₁⟩
    · exact .inl h₁
    · by_cases hs : s = []
      · exact .inr (hs ▸ h₁)
      · exact absurd (by simp [hs]) hr

theorem At.parseArray_value {parse : Parse} (h : At b u 1)
    (hok : jsonParseArray sched parse m val b = .ok (r, v, b')) :
    (r = 1 ∧ ∀ w, v ≠ .bool w) ∨ (r = 0 ∧ v = val ∧ (At b' u 1 ∨ At b' [] 1)) := by
  obtain ⟨⟨r₁, b₁⟩, hif, hok⟩ := bind_eq_ok hok
  by_cases hr : r₁ > 0
  · simp only [hr, if_true] at hok
    obtain ⟨_, -, hok⟩ := bind_eq_ok hok
    obtain ⟨_, -, hok⟩ := bind_eq_ok hok
    obtain ⟨rfl, rfl, -⟩ := Except.ok.inj hok
    exact .inl ⟨rfl, nofun⟩
  · simp only [hr, if_false] at hok
    obtain ⟨rfl, rfl, rfl⟩ := Except.ok.inj hok
    refine .inr ⟨rfl, rfl, ?_⟩
    rcases h.skipIfeq_ok (by decide) hif with ⟨-, -, h₁⟩ | ⟨s, -, rfl, h₁⟩
    · exact .inl h₁
    · by_cases hs : s = []
      · exact .inr (hs ▸ h₁)
      · exact absurd (by simp [hs]) hr

theorem At.parse_bool_value [Unwritten] {w : Bool} (h : At b u 1)
    (hok : jsonParse sched d m .undefined b = .ok (r, .bool w, b')) :
    ∃ c s, (c = 116 ∨ c = 102) ∧ s ≠ [] ∧ dropWs u = c :: (boolTail w ++ s) := by
  cases d with
  | zero => cases hok
  | succ d =>
    obtain ⟨⟨r₀, b₀⟩, hws, hok⟩ := bind_eq_ok hok
    have h₀ := h.skipWs_ok (Nat.le_refl 1) hws
    obtain ⟨⟨r₁, v₁, b₁⟩, hobj, hok⟩ := firstOf_ok hok
    rcases h₀.parseObject_value hobj with ⟨rfl, hv₁⟩ | ⟨rfl, rfl, h₁⟩
    · rcases hok with ⟨-, -, rfl, -⟩ | ⟨hr, -⟩
      · exact absurd rfl (hv₁ w)
      · exact absurd hr Nat.one_ne_zero
    obtain ⟨-, hok⟩ := hok.resolve_left fun hx => Nat.lt_irrefl 0 hx.1
    -- From here on there is what there was, or nothing at all.
    obtain ⟨u₁, hu₁, h₁⟩ : ∃ u₁, (u₁ = dropWs u ∨ u₁ = []) ∧ At b₁ u₁ 1 := by
      rcases h₁ with h₁ | h₁
      · exact ⟨_, .inl rfl, h₁⟩
      · exact ⟨_, .inr rfl, h₁⟩
    obtain ⟨⟨r₂, v₂, b₂⟩, harr, hok⟩ := firstOf_ok hok
    rcases h₁.parseArray_value harr with ⟨rfl, hv₂⟩ | ⟨rfl, rfl, h₂⟩
    · rcases hok with ⟨-, -, rfl, -⟩ | ⟨hr, -⟩
      · exact absurd rfl (hv₂ w)
      · exact absurd hr Nat.one_ne_zero
    obtain ⟨-, hok⟩ := hok.resolve_left fun hx => Nat.lt_irrefl 0 hx.1
    obtain ⟨u₂, hu₂, h₂⟩ : ∃ u₂, (u₂ = dropWs u ∨ u₂ = []) ∧ At b₂ u₂ 1 := by
      rcases h₂ with h₂ | h₂
      · exact ⟨_, hu₁, h₂⟩
      · exact ⟨_, .inr rfl, h₂⟩
    obtain ⟨⟨r₃, v₃, b₃⟩, hnull, hok⟩ := firstOf_ok hok
    rcases h₂.parseNull_ok hnull with ⟨-, -, -, rfl, rfl⟩ | ⟨rfl, rfl, h₃⟩
    · rcases hok with ⟨-, hx⟩ | ⟨hr, -⟩
      · cases hx
      · exact absurd hr Nat.one_ne_zero
    obtain ⟨-, hok⟩ := hok.resolve_left fun hx => Nat.lt_irrefl 0 hx.1
    rcases h₃ with h₃ | ⟨h₃, h110⟩
    swap
    · cases (h₃.firstWord_null h110 hok).2
    obtain ⟨⟨r₄, v₄, b₄⟩, hbool, hok⟩ := firstOf_ok hok
    have hlast : v₄ = .bool w := by
      rcases hok with ⟨-, -, rfl, -⟩ | ⟨-, hok⟩
      · rfl
      obtain ⟨⟨r₅, v₅, b₅⟩, hnum, hok⟩ := firstOf_ok hok
      rcases hok with ⟨-, -, rfl, -⟩ | ⟨-, hok⟩
      · rcases parseNumber_value hnum with hv | hv
        · exact hv.symm
        · exact absurd rfl (hv w)
      obtain ⟨⟨r₆, v₆, b₆⟩, hstr, hok⟩ := firstOf_ok hok
      have hv₆ : v₆ = .bool w := by
        rcases hok with ⟨-, -, rfl, -⟩ | ⟨-, hok⟩
        · rfl
        · exact congrArg (fun x => x.2.1) (Except.ok.inj hok)
      have hv₅ : v₅ = .bool w := by
        rcases parseString_value hstr with hv | hv
        · exact hv.symm.trans hv₆
        · exact absurd hv₆ (hv w)
      rcases parseNumber_value hnum with hv | hv
      · exact hv.symm.trans hv₅
      · exact absurd hv₅ (hv w)
    rcases h₃.parseBoolean_value hbool with hv | ⟨c, w', s, hv, hc, hs, hu⟩
    · rw [hlast] at hv
      cases hv
    · obtain rfl : w = w' := JsonVal.bool.inj (hlast.symm.trans hv)
      rcases hu₂ with rfl | rfl
      · exact ⟨c, s, hc, hs, hu⟩
      · cases hu

/-- A boolean is stored only if the text starts with `true` or `false`. -/
def BoolExact [Unwritten] (sched : Schedule) (lookahead : Nat) (text : Bytes) : Prop :=
  ∀ d r w b', Returns (fun m => jsonParse sched d m .undefined (charbufInit text lookahead))
    (r, .bool w, b') → boolWord true <+: dropWs text ∨ boolWord false <+: dropWs text

/-- `frue` and `talse` -/
def mixedWord (w : Bool) : Bytes := (if w then 102 else 116) :: boolTail w

theorem boolExact_iff [Unwritten] {lookahead : Nat} {text : Bytes} (ha : (charbufInit text lookahead).a ≠ 0) :
    BoolExact sched lookahead text ↔ ∀ w e s, dropWs text ≠ mixedWord w ++ e :: s := by
  have hstart := at_init ha
  constructor
  · intro h w e s htext
    have hc : (if w then 102 else 116 : UInt8) = 116 ∨ (if w then 102 else 116 : UInt8) = 102 := by
      cases w
      · exact .inl rfl
      · exact .inr rfl
    obtain ⟨b', hr, -⟩ := hstart.parse_bool sched 0 hc (List.cons_ne_nil e s) htext .undefined
    have hword := h 1 1 w b' hr
    rw [htext] at hword
    revert hword
    cases w <;> simp [mixedWord, boolWord, boolTail]
  · rintro h d r w b' ⟨N, hN⟩
    obtain ⟨c, s, hc, hs, htext⟩ := hstart.parse_bool_value (hN N (Nat.le_refl N))
    obtain ⟨e, s, rfl⟩ := List.exists_cons_of_ne_nil hs
    have hne := h w e s
    rw [htext] at hne ⊢
    cases w with
    | false =>
      rcases hc with rfl | rfl
      · exact absurd rfl hne
      · exact .inr ⟨e :: s, rfl⟩
    | true =>
      rcases hc with rfl | rfl
      · exact .inl ⟨e :: s, rfl⟩
      · exact absurd rfl hne

/-- The reader is exact on a text exactly if no array in it is empty, the table can hold the
keys of every object and what follows settles its end; and it takes a text that is neither
`true` nor `false` for a boolean exactly if it starts like the one and goes on like the
other. -/
theorem jsonParse_exact_iff [Unwritten] (sched : Schedule) (lookahead : Nat)
    (ha : (charbufInit [] lookahead).a ≠ 0) :
    (∀ (t : JsonText) (rest : Bytes), t.Unextended rest → (JsonExact sched lookahead t rest ↔
      t.Every False ShortKeys ∧ t.Every True DistinctKeys ∧ t.SettledBefore rest)) ∧
    ∀ text : Bytes, BoolExact sched lookahead text ↔
      ∀ w e s, dropWs text ≠ mixedWord w ++ e :: s :=
  ⟨fun _ _ hu => jsonExact_iff ha hu, fun _ => boolExact_iff ha⟩

def noWs : Ws := ⟨[], by simp⟩

/-- `[true]` at the end of the stream. -/
theorem jsonParse_exact_iff_true :
    JsonExact (fun _ => 1) 5 (.array noWs (.last (.bool true) noWs)) [] :=
  ((jsonParse_exact_iff (fun _ => 1) 5 (by decide)).1 (.array noWs (.last (.bool true) noWs)) []
    trivial).mpr ⟨trivial, trivial, trivial⟩

/-- `[]` is read, but its closing bracket is left. -/
theorem jsonParse_inexact : ¬JsonExact (fun _ => 1) 5 (.emptyArray noWs) [] := by
  intro h
  have hu : (JsonText.emptyArray noWs).Unextended [] := trivial
  exact ((jsonExact_iff (by decide) hu).mp h).1

end Dirlist
