import Dirlist.Json.Balance

/-! Texts that cannot be read to their end: behind an empty array a bracket stays open for
good, and a key that does not fit the table ends the run. -/

namespace Dirlist
open Run

/-! ## Whole texts are balanced -/

theorem lex_stringBody (lit : StringLit) :
    (StringLit.body lit).foldl lexStep (.string, 0) = (.string, 0) := by
  induction lit with
  | nil => rfl
  | cons ch lit ih =>
    have hvalid := ch.valid
    rw [StringLit.body, List.flatMap_cons, List.foldl_append, ← StringLit.body]
    by_cases he : ch.escaped = true
    · rw [if_pos he]
      exact ih
    · rw [if_neg he] at hvalid ⊢
      have hstep : lexStep (.string, 0) ch.byte = (.string, 0) := by
        simp [lexStep, hvalid.1, hvalid.2]
      rw [List.foldl_cons, hstep]
      exact ih

theorem lex_join {s t : Bytes} {k l : Int} (hs : lex s = (.plain, k)) (ht : lex t = (.plain, l)) :
    lex (s ++ t) = (.plain, k + l) := by
  rw [lex_append (by rw [hs]), hs, ht]

theorem lex_cons {c : UInt8} {t : Bytes} {k l : Int} (hc : lexStep (.plain, 0) c = (.plain, k))
    (ht : lex t = (.plain, l)) : lex (c :: t) = (.plain, k + l) := lex_join (s := [c]) hc ht

theorem lex_string (lit : StringLit) : lex (StringLit.text lit) = (.plain, 0) := by
  have hopen : lexStep (.plain, 0) 34 = (.string, 0) := rfl
  rw [lex, StringLit.text, List.foldl_cons, hopen, List.foldl_append, lex_stringBody]
  rfl

theorem lex_ws (w : Ws) : lex w.text = (.plain, 0) :=
  lex_plain fun c hc => isPlain_of_isspace (w.space c hc)

theorem lexStep_open {c : UInt8} (hc : c = 91 ∨ c = 123) : lexStep (.plain, 0) c = (.plain, 1) := by
  rcases hc with rfl | rfl <;> rfl

theorem lexStep_between {c : UInt8} (hc : c = 44 ∨ c = 58) : lexStep (.plain, 0) c = (.plain, 0) := by
  rcases hc with rfl | rfl <;> rfl

theorem lex_close {c : UInt8} (hc : c = 93 ∨ c = 125) : lex [c] = (.plain, -1) := by
  rcases hc with rfl | rfl <;> rfl

mutual
theorem JsonText.lex (t : JsonText) : Dirlist.lex t.text = (.plain, 0) := by
  cases t with
  | null => rfl
  | bool v => cases v <;> rfl
  | int lit =>
    obtain ⟨c, ds, htext, hc, hds⟩ := lit.text_cons
    refine lex_plain fun d hd => ?_
    rw [JsonText.text, htext, List.mem_cons] at hd
    rcases hd with rfl | hd
    · exact (isPlain_of_numberStart (hc.imp_right .inl)).1
    · exact isPlain_of_isdigit (hds d hd)
  | string lit => exact lex_string lit
  | emptyArray w =>
    exact lex_cons (lexStep_open (.inl rfl)) (lex_join (lex_ws w) (lex_close (.inl rfl)))
  | array w items => exact lex_cons (lexStep_open (.inl rfl)) (lex_join (lex_ws w) items.lex)
  | emptyObject w =>
    exact lex_cons (lexStep_open (.inr rfl)) (lex_join (lex_ws w) (lex_close (.inr rfl)))
  | object w members => exact lex_cons (lexStep_open (.inr rfl)) (lex_join (lex_ws w) members.lex)

theorem ItemsText.lex (items : ItemsText) : Dirlist.lex items.text = (.plain, -1) := by
  cases items with
  | last t w => exact lex_join t.lex (lex_join (lex_ws w) (lex_close (.inl rfl)))
  | more t w w' next =>
    exact lex_join t.lex (lex_join (lex_ws w) (lex_cons (lexStep_between (.inl rfl))
      (lex_join (lex_ws w') next.lex)))

theorem MembersText.lex (members : MembersText) : Dirlist.lex members.text = (.plain, -1) := by
  cases members with
  | last key wk wc t w =>
    exact lex_join (lex_string key) (lex_join (lex_ws wk) (lex_cons (lexStep_between (.inr rfl))
      (lex_join (lex_ws wc) (lex_join t.lex (lex_join (lex_ws w) (lex_close (.inr rfl)))))))
  | more key wk wc t w w' next =>
    exact lex_join (lex_string key) (lex_join (lex_ws wk) (lex_cons (lexStep_between (.inr rfl))
      (lex_join (lex_ws wc) (lex_join t.lex (lex_join (lex_ws w) (lex_cons
        (lexStep_between (.inl rfl)) (lex_join (lex_ws w') next.lex)))))))
end

theorem took_of_lex {p : Bytes} {k : Int} (hp : lex p = (.plain, k)) (s : Bytes) : Took (p ++ s) k s := by
  refine ⟨p, rfl, .inl ?_⟩
  rw [hp]
  exact ⟨rfl, Int.le_refl k⟩

/-! ## Spoilt texts -/

variable {sched : Schedule} {b b' : Charbuf} {rest : Bytes} {d m r : Nat} {j v : JsonVal}

/-- A run over an array, up to its loop. -/
theorem At.parse_array_ok [Unwritten] {w : Ws} (h : At b (91 :: (w.text ++ rest)) 1) (hne : rest ≠ [])
    (hok : jsonParse sched (d + 1) m j b = .ok (r, v, b')) :
    ∃ b₁ items, At b₁ (dropWs rest) 1 ∧
      loop (Dirlist.arrayRound sched (jsonParse sched d)) m (b₁, []) = .ok (items, b') ∧
      v = .array items := by
  obtain ⟨⟨r₀, b₀⟩, hws, hok⟩ := bind_eq_ok hok
  have h₀ := h.skipWs_ok (Nat.le_refl 1) hws
  rw [dropWs_of_not (by simp; decide)] at h₀
  obtain ⟨⟨r₁, v₁, b₁⟩, hobj, hok⟩ := firstOf_ok hok
  obtain ⟨b₂, hr₂, h₂⟩ := h₀.parseObject_other sched (jsonParse sched d) j (Nat.le_refl 1) (by simp)
  obtain ⟨rfl, rfl, rfl⟩ := (steady_parseObject (steady_jsonParse sched d) j _).eq_of_ok hr₂ hobj
  obtain ⟨-, hok⟩ := hok.resolve_left fun hx => Nat.lt_irrefl 0 hx.1
  obtain ⟨y, harr, hok⟩ := firstOf_ok hok
  obtain ⟨⟨r₃, b₃⟩, hif, harr⟩ := bind_eq_ok harr
  rcases h₂.skipIfeq_ok (by decide) hif with ⟨hhead, -⟩ | ⟨s, hs, rfl, h₃⟩
  · exact absurd rfl hhead
  obtain rfl : w.text ++ rest = s := (List.cons.inj hs).2
  simp only [List.append_eq_nil_iff, hne, and_false, if_false, gt_iff_lt, Nat.zero_lt_one,
    if_true] at harr
  obtain ⟨⟨r₄, b₄⟩, hws₄, harr⟩ := bind_eq_ok harr
  obtain ⟨⟨items, b₅⟩, hloop, harr⟩ := bind_eq_ok harr
  obtain rfl := Except.ok.inj harr
  have h₄ := h₃.skipWs_ok (Nat.le_refl 1) hws₄
  rw [dropWs_append w.space] at h₄
  obtain ⟨-, -, rfl⟩ | ⟨hr, -⟩ := hok
  · exact ⟨b₄, items, h₄, hloop, rfl⟩
  · exact absurd hr Nat.one_ne_zero

theorem At.parse_object_ok [Unwritten] {w : Ws} (h : At b (123 :: (w.text ++ rest)) 1) (hne : rest ≠ [])
    (hok : jsonParse sched (d + 1) m j b = .ok (r, v, b')) :
    ∃ b₁ members, At b₁ (dropWs rest) 1 ∧
      loop (Dirlist.objectRound sched (jsonParse sched d)) m (b₁, []) = .ok (members, b') ∧
      v = .object members := by
  obtain ⟨⟨r₀, b₀⟩, hws, hok⟩ := bind_eq_ok hok
  have h₀ := h.skipWs_ok (Nat.le_refl 1) hws
  rw [dropWs_of_not (by simp; decide)] at h₀
  obtain ⟨y, hobj, hok⟩ := firstOf_ok hok
  obtain ⟨⟨r₁, b₁⟩, hif, hobj⟩ := bind_eq_ok hobj
  rcases h₀.skipIfeq_ok (by decide) hif with ⟨hhead, -⟩ | ⟨s, hs, rfl, h₁⟩
  · exact absurd rfl hhead
  obtain rfl : w.text ++ rest = s := (List.cons.inj hs).2
  simp only [List.append_eq_nil_iff, hne, and_false, if_false, gt_iff_lt, Nat.zero_lt_one,
    if_true] at hobj
  obtain ⟨⟨r₂, b₂⟩, hws₂, hobj⟩ := bind_eq_ok hobj
  obtain ⟨⟨members, b₃⟩, hloop, hobj⟩ := bind_eq_ok hobj
  obtain rfl := Except.ok.inj hobj
  have h₂ := h₁.skipWs_ok (Nat.le_refl 1) hws₂
  rw [dropWs_append w.space] at h₂
  obtain ⟨-, -, rfl⟩ | ⟨hr, -⟩ := hok
  · exact ⟨b₂, members, h₂, hloop, rfl⟩
  · exact absurd hr Nat.one_ne_zero

/-- One round of the array loop, whatever the item made of its text. -/
theorem At.arrayLoop_item [Unwritten] {t : JsonText} {s : Bytes} {k : Int} {done : List JsonVal}
    {x : List JsonVal × Charbuf} (h : At b (t.text ++ s) 1)
    (hitem : ∀ {b₁ m j r v b'}, At b₁ (t.text ++ s) 1 → jsonParse sched d m j b₁ = .ok (r, v, b') →
      ∃ s', Took (t.text ++ s) k s' ∧ Stands b' s')
    (hok : loop (Dirlist.arrayRound sched (jsonParse sched d)) m (b, done) = .ok x) :
    ∃ s', Took (t.text ++ s) (k - 1) s' ∧ Stands x.2 s' := by
  cases m with
  | zero => cases hok
  | succ m =>
    obtain ⟨y, hround, hok⟩ := bind_eq_ok hok
    obtain ⟨b₁, hpeek, h₁⟩ := h.peekc sched (Nat.le_refl 1)
    obtain ⟨c, ts, htext, -, h93, -⟩ := t.text_cons
    rw [htext, List.cons_append, List.head?_cons] at hpeek
    simp only [Dirlist.arrayRound, hpeek, h93, if_false] at hround
    obtain ⟨⟨r₂, v₂, b₂⟩, hparse, hround⟩ := bind_eq_ok hround
    obtain ⟨s₂, hs₂, h₂⟩ := hitem h₁ hparse
    obtain ⟨⟨more, b₃⟩, hdel, hround⟩ := bind_eq_ok hround
    obtain ⟨s₃, hmore, hlast⟩ := h₂.skipDelimiter_ok (.inl rfl) hdel
    cases more with
    | true =>
      obtain rfl := Except.ok.inj hround
      obtain ⟨hs₃, h₃⟩ := hmore rfl
      obtain ⟨s₄, hs₄, h₄⟩ := Balanced.arrayLoop_ok (balanced_jsonParse sched d) h₃ hok
      exact ⟨s₄, ((hs₂.trans hs₃).trans hs₄).mono (by omega), h₄⟩
    | false =>
      obtain rfl := Except.ok.inj hround
      obtain rfl := Except.ok.inj hok
      obtain ⟨hs₃, h₃⟩ := hlast rfl
      exact ⟨s₃, hs₂.trans hs₃, h₃⟩

/-- One round of the object loop over a member, up to its value. -/
theorem At.objectRound_member [Unwritten] {key : StringLit} {wk wc : Ws} {t : JsonText} {s : Bytes}
    {done : List (Bytes × JsonVal)}
    {x : Charbuf × List (Bytes × JsonVal) ⊕ List (Bytes × JsonVal) × Charbuf}
    (h : At b (StringLit.text key ++ (wk.text ++ 58 :: (wc.text ++ (t.text ++ s)))) 1)
    (hok : Dirlist.objectRound sched (jsonParse sched d) m (b, done) = .ok x) :
    ∃ b₁ r v b₂, At b₁ (t.text ++ s) 1 ∧ jsonParse sched d m .undefined b₁ = .ok (r, v, b₂) ∧
      (if r > 0 then do
        let members ← mapInsert done (StringLit.value key) v
        let (more, b) ← Dirlist.skipDelimiter sched m b₂ 125
        if more then .ok (.inl (b, members)) else .ok (.inr (members, b))
      else .ok (.inr (done, b₂)) :
        Exec (Charbuf × List (Bytes × JsonVal) ⊕ List (Bytes × JsonVal) × Charbuf)) = .ok x := by
  obtain ⟨b₁, hpeek, h₁⟩ := h.peekc sched (Nat.le_refl 1)
  obtain ⟨b₂, hr₂, h₂⟩ := h₁.parseKey sched
  rw [StringLit.text, List.cons_append, List.head?_cons] at hpeek
  simp only [Dirlist.objectRound, hpeek, show (34 : UInt8) ≠ 125 by decide, if_false] at hok
  obtain ⟨⟨key', b₃⟩, hkey, hok⟩ := bind_eq_ok hok
  obtain ⟨rfl, rfl⟩ := Prod.mk.inj ((steady_parseKey sched b₁).eq_of_ok hr₂ hkey)
  obtain ⟨⟨r₃, b₄⟩, hws, hok⟩ := bind_eq_ok hok
  have h₃ := h₂.skipWs_ok (Nat.le_refl 1) hws
  rw [dropWs_append wk.space, dropWs_of_not (by simp; decide)] at h₃
  obtain ⟨⟨r₄, b₅⟩, hif, hok⟩ := bind_eq_ok hok
  rcases h₃.skipIfeq_ok (by decide) hif with ⟨hhead, -⟩ | ⟨s', hs, rfl, h₄⟩
  · exact absurd rfl hhead
  obtain rfl := (List.cons.inj hs).2
  have hne : wc.text ++ (t.text ++ s) ≠ [] := by
    obtain ⟨c, ts, htext, -⟩ := t.text_cons
    simp [htext]
  simp only [hne, if_false, gt_iff_lt, Nat.zero_lt_one, if_true] at hok
  obtain ⟨⟨r₅, b₆⟩, hws₅, hok⟩ := bind_eq_ok hok
  have h₅ := h₄.skipWs_ok (Nat.le_refl 1) hws₅
  rw [dropWs_append wc.space, dropWs_text] at h₅
  obtain ⟨⟨r₆, v₆, b₇⟩, hparse, hok⟩ := bind_eq_ok hok
  exact ⟨b₆, r₆, v₆, b₇, h₅, hparse, hok⟩

theorem took_member {key : StringLit} {wk wc : Ws} {s s' : Bytes} {k : Int} (h : Took s k s') :
    Took (StringLit.text key ++ (wk.text ++ 58 :: (wc.text ++ s))) k s' := by
  have hpre := (took_of_lex (lex_string key) _).trans ((took_of_lex (lex_ws wk) _).trans
    ((took_cons (c := 58) (by decide) _).trans ((took_of_lex (lex_ws wc) s).trans h)))
  exact hpre.mono (by omega)

/-- One round of the object loop, if the value opens a bracket for good. -/
theorem At.objectLoop_member [Unwritten] {key : StringLit} {wk wc : Ws} {t : JsonText} {s : Bytes}
    {done : List (Bytes × JsonVal)} {x : List (Bytes × JsonVal) × Charbuf}
    (h : At b (StringLit.text key ++ (wk.text ++ 58 :: (wc.text ++ (t.text ++ s)))) 1)
    (hvalue : ∀ {b₁ m j r v b'}, At b₁ (t.text ++ s) 1 → jsonParse sched d m j b₁ = .ok (r, v, b') →
      ∃ s', Took (t.text ++ s) 1 s' ∧ Stands b' s')
    (hok : loop (Dirlist.objectRound sched (jsonParse sched d)) m (b, done) = .ok x) :
    ∃ s', Took (StringLit.text key ++ (wk.text ++ 58 :: (wc.text ++ (t.text ++ s)))) 0 s' ∧
      Stands x.2 s' := by
  cases m with
  | zero => cases hok
  | succ m =>
    obtain ⟨y, hround, hok⟩ := bind_eq_ok hok
    obtain ⟨b₁, r, v, b₂, h₁, hparse, hround⟩ := h.objectRound_member hround
    obtain ⟨s₂, hs₂, h₂⟩ := hvalue h₁ hparse
    by_cases hr : r > 0
    · rw [if_pos hr] at hround
      obtain ⟨members, -, hround⟩ := bind_eq_ok hround
      obtain ⟨⟨more, b₃⟩, hdel, hround⟩ := bind_eq_ok hround
      obtain ⟨s₃, hmore, hlast⟩ := h₂.skipDelimiter_ok (.inr rfl) hdel
      cases more with
      | true =>
        obtain rfl := Except.ok.inj hround
        obtain ⟨hs₃, h₃⟩ := hmore rfl
        obtain ⟨s₄, hs₄, h₄⟩ := Balanced.objectLoop_ok (balanced_jsonParse sched d) h₃ hok
        exact ⟨s₄, took_member ((hs₂.trans hs₃).trans hs₄), h₄⟩
      | false =>
        obtain rfl := Except.ok.inj hround
        obtain rfl := Except.ok.inj hok
        obtain ⟨hs₃, h₃⟩ := hlast rfl
        exact ⟨s₃, took_member (hs₂.trans hs₃), h₃⟩
    · rw [if_neg hr] at hround
      obtain rfl := Except.ok.inj hround
      obtain rfl := Except.ok.inj hok
      exact ⟨s₂, took_member (hs₂.mono (by decide)), h₂⟩

/-- A key that does not fit ends the run. -/
theorem At.objectLoop_long [Unwritten] {key : StringLit} {wk wc : Ws} {t : JsonText} {s s' : Bytes}
    {done : List (Bytes × JsonVal)} {x : List (Bytes × JsonVal) × Charbuf}
    (h : At b (StringLit.text key ++ (wk.text ++ 58 :: (wc.text ++ (t.text ++ s)))) 1)
    (hk : ¬(StringLit.value key).length < maxSizeKey)
    (ht : ∀ b₁, At b₁ (t.text ++ s) 1 → Parses sched d b₁ v s') :
    loop (Dirlist.objectRound sched (jsonParse sched d)) m (b, done) ≠ .ok x := by
  intro hok
  cases m with
  | zero => cases hok
  | succ m =>
    obtain ⟨y, hround, -⟩ := bind_eq_ok hok
    obtain ⟨b₁, r, v', b₂, h₁, hparse, hround⟩ := h.objectRound_member hround
    obtain ⟨b₃, hr₃, -⟩ := ht b₁ h₁ .undefined
    obtain ⟨rfl, rfl, rfl⟩ := (steady_jsonParse sched d _ b₁).eq_of_ok hr₃ hparse
    rw [if_pos Nat.zero_lt_one] at hround
    obtain ⟨members, hins, -⟩ := bind_eq_ok hround
    have hne : StringLit.value key ≠ [] := by
      intro hnil
      rw [hnil] at hk
      exact hk (by decide)
    simp [mapInsert, hne, hk] at hins

mutual
/-- If the reader comes back from a text with an empty array or a key that does not fit, it
has left a bracket open. -/
theorem JsonText.spoilt [Unwritten] (t : JsonText) {b b' : Charbuf} {rest : Bytes} {d m r : Nat} {j v : JsonVal}
    (hd : t.depth ≤ d) (ht : ¬t.Every False ShortKeys) (h : At b (t.text ++ rest) 1)
    (hok : jsonParse sched d m j b = .ok (r, v, b')) :
    ∃ s, Took (t.text ++ rest) 1 s ∧ Stands b' s := by
  obtain ⟨d, rfl⟩ : ∃ n, d = n + 1 := ⟨d - 1, by have := t.depth_pos; omega⟩
  cases t with
  | emptyArray w =>
    rw [JsonText.text, List.cons_append, List.append_assoc] at h ⊢
    obtain ⟨b₁, items, h₁, hloop, -⟩ := h.parse_array_ok (by simp) hok
    rw [List.singleton_append, dropWs_of_not (by simp; decide)] at h₁
    cases m with
    | zero => cases hloop
    | succ m =>
      obtain ⟨b₂, hpeek, h₂⟩ := h₁.peekc sched (Nat.le_refl 1)
      obtain ⟨y, hround, hloop⟩ := bind_eq_ok hloop
      simp only [arrayRound, hpeek, List.head?_cons, if_true, Except.ok.injEq] at hround
      subst hround
      obtain ⟨-, rfl⟩ := Prod.mk.inj (Except.ok.inj hloop)
      exact ⟨93 :: rest, (took_open (.inl rfl) _).trans (took_of_lex (lex_ws w) _),
        .inl (h₂.mono (by decide))⟩
  | array w items =>
    rw [JsonText.text, List.cons_append, List.append_assoc] at h ⊢
    obtain ⟨b₁, vs, h₁, hloop, -⟩ := h.parse_array_ok (items.text_ne_nil rest) hok
    rw [items.dropWs_text] at h₁
    obtain ⟨s, hs, h'⟩ := items.spoilt (Nat.le_of_succ_le_succ hd) ht h₁ hloop
    exact ⟨s, (took_open (.inl rfl) _).trans ((took_of_lex (lex_ws w) _).trans hs), h'⟩
  | object w members =>
    rw [JsonText.text, List.cons_append, List.append_assoc] at h ⊢
    obtain ⟨b₁, vs, h₁, hloop, -⟩ := h.parse_object_ok (members.text_ne_nil rest) hok
    rw [members.dropWs_text] at h₁
    obtain ⟨s, hs, h'⟩ := members.spoilt (Nat.le_of_succ_le_succ hd) ht h₁ hloop
    exact ⟨s, (took_open (.inr rfl) _).trans ((took_of_lex (lex_ws w) _).trans hs), h'⟩
  | _ => exact absurd trivial ht

theorem ItemsText.spoilt [Unwritten] (items : ItemsText) {b : Charbuf} {rest : Bytes} {d m : Nat}
    {done : List JsonVal} {x : List JsonVal × Charbuf} (hd : items.depth ≤ d)
    (ht : ¬items.Every False ShortKeys) (h : At b (items.text ++ rest) 1)
    (hok : loop (arrayRound sched (jsonParse sched d)) m (b, done) = .ok x) :
    ∃ s, Took (items.text ++ rest) 0 s ∧ Stands x.2 s := by
  cases items with
  | last t w =>
    rw [ItemsText.text, List.append_assoc] at h ⊢
    exact h.arrayLoop_item (k := 1) (fun h₁ hparse => t.spoilt hd ht h₁ hparse) hok
  | more t w w' next =>
    have hdt := Nat.le_trans (Nat.le_max_left t.depth next.depth) hd
    by_cases htgood : t.Every False ShortKeys
    · simp only [ItemsText.text, List.append_assoc, List.cons_append] at h ⊢
      obtain ⟨b₁, hr₁, h₁⟩ := h.arrayRound sched t done (.inl rfl) fun b₁ h₁ =>
        t.parses sched hdt htgood (t.endsBefore_delimiter w _ (by decide)) h₁
      rw [dropWs_append w'.space, next.dropWs_text] at h₁
      cases m with
      | zero => cases hok
      | succ m =>
        obtain ⟨y, hround, hok⟩ := bind_eq_ok hok
        obtain rfl := (steady_arrayRound (steady_jsonParse sched d) _).eq_of_ok hr₁ hround
        have hnext : ¬next.Every False ShortKeys := fun hn => ht ⟨htgood, hn⟩
        obtain ⟨s, hs, h'⟩ := next.spoilt (Nat.le_trans (Nat.le_max_right _ _) hd) hnext h₁ hok
        refine ⟨s, ?_, h'⟩
        exact (took_of_lex t.lex _).trans ((took_of_lex (lex_ws w) _).trans
          ((took_cons (by decide) _).trans ((took_of_lex (lex_ws w') _).trans hs)))
    · rw [ItemsText.text, List.append_assoc] at h ⊢
      exact h.arrayLoop_item (k := 1) (fun h₁ hparse => t.spoilt hdt htgood h₁ hparse) hok

theorem MembersText.spoilt [Unwritten] (members : MembersText) {b : Charbuf} {rest : Bytes} {d m : Nat}
    {done : List (Bytes × JsonVal)} {x : List (Bytes × JsonVal) × Charbuf}
    (hd : members.depth ≤ d) (ht : ¬(ShortKeys members.keys ∧ members.Every False ShortKeys))
    (h : At b (members.text ++ rest) 1)
    (hok : loop (objectRound sched (jsonParse sched d)) m (b, done) = .ok x) :
    ∃ s, Took (members.text ++ rest) 0 s ∧ Stands x.2 s := by
  cases members with
  | last key wk wc t w =>
    simp only [MembersText.text, List.append_assoc, List.cons_append, List.nil_append] at h ⊢
    by_cases htgood : t.Every False ShortKeys
    · -- Then it is the key that does not fit.
      have hlong : ¬(StringLit.value key).length < maxSizeKey := fun hk =>
        ht ⟨by simpa [ShortKeys, MembersText.keys] using hk, htgood⟩
      exact absurd hok (h.objectLoop_long hlong fun b₁ h₁ =>
        t.parses sched hd htgood (t.endsBefore_delimiter w rest (by decide)) h₁)
    · exact h.objectLoop_member (fun h₁ hparse => t.spoilt hd htgood h₁ hparse) hok
  | more key wk wc t w w' next =>
    have hdt := Nat.le_trans (Nat.le_max_left t.depth next.depth) hd
    simp only [MembersText.text, List.append_assoc, List.cons_append] at h ⊢
    by_cases htgood : t.Every False ShortKeys
    · by_cases hk : (StringLit.value key).length < maxSizeKey
      · obtain ⟨b₁, hr₁, h₁⟩ := h.objectRound sched t done (.inl rfl) hk fun b₁ h₁ =>
          t.parses sched hdt htgood (t.endsBefore_delimiter w _ (by decide)) h₁
        rw [dropWs_append w'.space, next.dropWs_text] at h₁
        cases m with
        | zero => cases hok
        | succ m =>
          obtain ⟨y, hround, hok⟩ := bind_eq_ok hok
          obtain rfl := (steady_objectRound (steady_jsonParse sched d) _).eq_of_ok hr₁ hround
          have hnext : ¬(ShortKeys next.keys ∧ next.Every False ShortKeys) := fun hn =>
            ht ⟨by simpa [ShortKeys, MembersText.keys, hk] using hn.1, htgood, hn.2⟩
          obtain ⟨s, hs, h'⟩ := next.spoilt (Nat.le_trans (Nat.le_max_right _ _) hd) hnext h₁ hok
          refine ⟨s, took_member ?_, h'⟩
          exact (took_of_lex t.lex _).trans ((took_of_lex (lex_ws w) _).trans
            ((took_cons (by decide) _).trans ((took_of_lex (lex_ws w') _).trans hs)))
      · exact absurd hok (h.objectLoop_long hk fun b₁ h₁ =>
          t.parses sched hdt htgood (t.endsBefore_delimiter w _ (by decide)) h₁)
    · exact h.objectLoop_member (fun h₁ hparse => t.spoilt hdt htgood h₁ hparse) hok
end

end Dirlist
