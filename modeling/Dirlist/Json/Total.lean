import Dirlist.Json.Bytes

/-! `json_parse` on any bytes: it reads what the function of the bytes says, and so it comes back, with every
byte taken at most once, unless a key is too long for its tuple. -/

namespace Dirlist
open Run

variable {sched : Schedule} {b : Charbuf} {u : Bytes} {q : Nat}

/-! ## Containers -/

theorem At.unread_eq (h : At b u q) : b.unread = u := by
  obtain ⟨consumed, hv⟩ := h.view
  exact hv.unread

theorem At.shorter {b' : Charbuf} {s : Bytes} {q' : Nat} (h : At b u q) (hp : Progresses b b') (h' : At b' s q') :
    s.length < u.length := by
  obtain ⟨taken, hne, ht⟩ := hp
  have hbytes := ht.bytes
  rw [h.unread_eq, h'.unread_eq] at hbytes
  have hpos := List.length_pos_iff.mpr hne
  rw [hbytes, List.length_append]
  omega

theorem At.notLonger {b' : Charbuf} {s : Bytes} {q' : Nat} (h : At b u q) (ha : Advances b b') (h' : At b' s q') :
    s.length ≤ u.length := by
  obtain ⟨taken, ht⟩ := ha
  have hbytes := ht.bytes
  rw [h.unread_eq, h'.unread_eq] at hbytes
  rw [hbytes, List.length_append]
  exact Nat.le_add_left _ _

/-- On fewer than `n` bytes the reader does what `value` says, or runs over a tuple where a key is too long. -/
def ReadsBelow (parse : Parse) (value : JsonVal → Bytes → Reading) (n : Nat) : Prop :=
  ∀ (j : JsonVal) (b : Charbuf) (u : Bytes), At b u 1 → u.length < n →
    Run.Ends .bounds (ShortKeys (value j u).keys)
      (fun x => x.1 = (value j u).ret ∧ x.2.1 = (value j u).val ∧ Stands x.2.2 (value j u).rest)
      (fun m => parse m j b)

theorem shortKeys_nil : ShortKeys [] := by simp [ShortKeys]

theorem shortKeys_append {k l : List Bytes} : ShortKeys (k ++ l) ↔ ShortKeys k ∧ ShortKeys l := List.forall_mem_append

theorem shortKeys_cons {key : Bytes} {l : List Bytes} :
    ShortKeys (key :: l) ↔ key.length < maxSizeKey ∧ ShortKeys l := List.forall_mem_cons

variable {parse : Parse} {value : JsonVal → Bytes → Reading} {n : Nat}

theorem ReadsBelow.items (hp : ReadsBelow parse value n) (ha : Advancing parse) (sched : Schedule) {k : Nat}
    (items : List JsonVal) (hk : u.length < k) (hn : u.length < n) (h : At b u 1) :
    Run.Ends .bounds (ShortKeys (itemsAt value k items u).2.1)
      (fun x => x.1 = (itemsAt value k items u).1 ∧ Stands x.2 (itemsAt value k items u).2.2)
      (fun m => loop (arrayRound sched parse) m (b, items)) := by
  induction k generalizing b u items with
  | zero => exact absurd hk (Nat.not_lt_zero _)
  | succ k ih =>
    refine Run.Ends.loop ?_
    obtain ⟨b₁, hpeek, h₁⟩ := h.peekc sched (Nat.le_refl 1)
    cases u with
    | nil =>
      simp only [arrayRound, hpeek, List.head?_nil, ok_bind, Sum.elim_inr]
      exact ends_returns (returns_ok _) ⟨rfl, .inl (h₁.mono (by decide))⟩ shortKeys_nil
    | cons c t =>
      by_cases hc : c = 93
      · subst hc
        simp only [arrayRound, hpeek, List.head?_cons, if_true, ok_bind, Sum.elim_inr]
        exact ends_returns (returns_ok _) ⟨rfl, .inl (h₁.mono (by decide))⟩ shortKeys_nil
      · have hparse := (hp .undefined b₁ _ h₁ hn).gives fun m => ha m .undefined b₁
        simp only [arrayRound, hpeek, List.head?_cons, hc, if_false, bind_assoc, itemsAt]
        generalize value .undefined (c :: t) = x at hparse ⊢
        rcases hdel : Dirlist.delimiterAt 93 x.rest with ⟨more, rest⟩
        cases more with
        | true =>
          simp only [if_true, shortKeys_append]
          refine hparse.bind ?_
          rintro ⟨r, v, b₂⟩ ⟨⟨rfl, rfl, h₂⟩, hadv⟩
          obtain ⟨b₃, hr₃, h₃, -⟩ := h₂.delimiterAt sched (.inl rfl)
          have hprog := hr₃.gives fun m => advances_skipDelimiter sched m b₂ 93
          rw [hdel] at hr₃ h₃ hprog
          refine ends_bind hr₃ ?_
          have hlt : rest.length < (c :: t).length := h₁.shorter (hadv.progresses (hprog.2 rfl)) (h₃ rfl)
          simp only [if_true, ok_bind, Sum.elim_inl]
          exact ih (items ++ [x.val]) (by omega) (by omega) (h₃ rfl)
        | false =>
          simp only [Bool.false_eq_true, if_false]
          refine hparse.returns ?_
          rintro ⟨r, v, b₂⟩ ⟨⟨rfl, rfl, h₂⟩, -⟩
          obtain ⟨b₃, hr₃, -, h₃⟩ := h₂.delimiterAt sched (.inl rfl)
          rw [hdel] at hr₃ h₃
          exact ⟨_, hr₃.bind (returns_ok _), rfl, h₃⟩

theorem mapInsert_ends (members : List (Bytes × JsonVal)) (key : Bytes) (v : JsonVal) :
    Run.Ends .bounds (key.length < maxSizeKey) (fun x => x = mapPut members key v)
      fun _ => mapInsert members key v := by
  by_cases hk : key.length < maxSizeKey
  · exact ends_returns (returns_const (mapInsert_of_short hk members v)) rfl hk
  · refine ends_error ⟨0, fun _ _ => ?_⟩ hk
    have hne : key ≠ [] := by
      rintro rfl
      exact hk (by decide)
    simp only [mapInsert, hne, hk, if_false]

theorem ReadsBelow.members [Unwritten] (hp : ReadsBelow parse value n) (ha : Advancing parse) (sched : Schedule)
    {k : Nat}
    (members : List (Bytes × JsonVal)) (hk : u.length < k) (hn : u.length < n) (h : At b u 1) :
    Run.Ends .bounds (ShortKeys (membersAt value k members u).2.1)
      (fun x => x.1 = (membersAt value k members u).1 ∧ Stands x.2 (membersAt value k members u).2.2)
      (fun m => loop (objectRound sched parse) m (b, members)) := by
  induction k generalizing b u members with
  | zero => exact absurd hk (Nat.not_lt_zero _)
  | succ k ih =>
    refine Run.Ends.loop ?_
    obtain ⟨b₁, hpeek, h₁⟩ := h.peekc sched (Nat.le_refl 1)
    cases u with
    | nil =>
      simp only [objectRound, hpeek, List.head?_nil, ok_bind, Sum.elim_inr]
      exact ends_returns (returns_ok _) ⟨rfl, .inl (h₁.mono (by decide))⟩ shortKeys_nil
    | cons c t =>
      by_cases hc : c = 125
      · subst hc
        obtain ⟨b₂, hnext, h₂⟩ := h₁.nextc sched (by decide)
        simp only [objectRound, hpeek, List.head?_cons, if_true, hnext, ok_bind, Sum.elim_inr]
        exact ends_returns (returns_ok _) ⟨rfl, .inl (h₂.mono (by decide))⟩ shortKeys_nil
      obtain ⟨b₂, hr₂, h₂⟩ := h₁.objectKeyAt sched
      have hadv₂ := hr₂.gives fun m => advances_parseKey sched m b₁
      rcases hkey : Dirlist.objectKeyAt (c :: t) with ⟨key, rest⟩
      rw [hkey] at hr₂ h₂ hadv₂
      obtain ⟨r₃, b₃, hr₃, h₃⟩ := h₂.skipWs sched (Nat.le_refl 1)
      have hadv₃ := hr₃.gives fun m => advances_skipWs sched m b₂
      simp only [objectRound, hpeek, List.head?_cons, hc, if_false, bind_assoc, membersAt, hkey]
      refine ends_bind hr₂ (ends_bind hr₃ ?_)
      dsimp only
      cases hrest : dropWs rest with
      | nil =>
        rw [hrest] at h₃
        obtain ⟨b₄, hr₄, h₄⟩ := h₃.skipIfeq_ne sched (c := 58) (Nat.le_refl 1) (by decide) (by simp)
        refine ends_bind hr₄ ?_
        simp only [gt_iff_lt, Nat.lt_irrefl, if_false, ok_bind, Sum.elim_inr]
        exact ends_returns (returns_ok _) ⟨rfl, .inl (h₄.mono (by decide))⟩ shortKeys_nil
      | cons c' s =>
        rw [hrest] at h₃
        by_cases h58 : c' = 58
        · subst h58
          obtain ⟨b₄, hr₄, h₄⟩ := h₃.skipIfeq_eq sched (by decide)
          have hadv₄ := hr₄.gives fun m => advances_skipIfeq sched m b₃ 58
          refine ends_bind hr₄ ?_
          by_cases hs : s = []
          · subst hs
            simp only [if_true, gt_iff_lt, Nat.lt_irrefl, if_false, ok_bind, Sum.elim_inr]
            exact ends_returns (returns_ok _) ⟨rfl, .inl (h₄.mono (by decide))⟩ shortKeys_nil
          simp only [hs, if_false, gt_iff_lt, Nat.zero_lt_one, if_true, bind_assoc]
          obtain ⟨r₅, b₅, hr₅, h₅⟩ := h₄.skipWs sched (Nat.le_refl 1)
          have hadv₅ := hr₅.gives fun m => advances_skipWs sched m b₄
          refine ends_bind hr₅ ?_
          have hadv := ((hadv₂.trans hadv₃).trans hadv₄).trans hadv₅
          have hle := h₁.notLonger hadv h₅
          have hparse := (hp .undefined b₅ _ h₅ (Nat.lt_of_le_of_lt hle hn)).gives fun m => ha m .undefined b₅
          generalize value .undefined (dropWs s) = x at hparse ⊢
          by_cases hret : x.ret > 0
          · simp only [hret, if_true]
            rcases hdel : Dirlist.delimiterAt 125 x.rest with ⟨more, rest'⟩
            cases more with
            | true =>
              simp only [if_true, shortKeys_append, shortKeys_cons]
              refine hparse.bind ?_
              rintro ⟨r, v, b₆⟩ ⟨⟨rfl, rfl, h₆⟩, hadv₆⟩
              obtain ⟨b₇, hr₇, h₇, -⟩ := h₆.delimiterAt sched (.inr rfl)
              have hprog := hr₇.gives fun m => advances_skipDelimiter sched m b₆ 125
              rw [hdel] at hr₇ h₇ hprog
              have hlt : rest'.length < (c :: t).length :=
                h₁.shorter ((hadv.trans hadv₆).progresses (hprog.2 rfl)) (h₇ rfl)
              simp only [hret, if_true, bind_assoc]
              refine (mapInsert_ends members key x.val).bind ?_
              rintro _ rfl
              refine ends_bind hr₇ ?_
              simp only [if_true, ok_bind, Sum.elim_inl]
              exact ih (mapPut members key x.val) (by omega) (by omega) (h₇ rfl)
            | false =>
              simp only [Bool.false_eq_true, if_false, shortKeys_append, shortKeys_cons]
              refine hparse.bind ?_
              rintro ⟨r, v, b₆⟩ ⟨⟨rfl, rfl, h₆⟩, -⟩
              obtain ⟨b₇, hr₇, -, h₇⟩ := h₆.delimiterAt sched (.inr rfl)
              rw [hdel] at hr₇ h₇
              simp only [hret, if_true, bind_assoc]
              refine (mapInsert_ends members key x.val).bind ?_
              rintro _ rfl
              refine ends_bind hr₇ ?_
              simp only [Bool.false_eq_true, if_false, ok_bind, Sum.elim_inr]
              exact ends_returns (returns_ok _) ⟨rfl, h₇⟩ shortKeys_nil
          · simp only [hret, if_false]
            refine hparse.returns ?_
            rintro ⟨r, v, b₆⟩ ⟨⟨rfl, rfl, h₆⟩, -⟩
            simp only [hret, if_false, ok_bind, Sum.elim_inr]
            exact ⟨_, returns_ok _, rfl, h₆⟩
        · obtain ⟨b₄, hr₄, h₄⟩ := h₃.skipIfeq_ne sched (c := 58) (Nat.le_refl 1) (by decide) (by simpa using h58)
          refine ends_bind hr₄ ?_
          simp only [h58, gt_iff_lt, Nat.lt_irrefl, if_false, ok_bind, Sum.elim_inr]
          exact ends_returns (returns_ok _) ⟨rfl, .inl (h₄.mono (by decide))⟩ shortKeys_nil

theorem dropWs_length_le (s : Bytes) : (dropWs s).length ≤ s.length := (List.dropWhile_sublist _).length_le

theorem ReadsBelow.array (hp : ReadsBelow parse value n) (ha : Advancing parse) (sched : Schedule) (j : JsonVal)
    (hu : u ≠ []) (hn : u.length < n) (h : At b (91 :: u) 1) :
    Run.Ends .bounds (ShortKeys (itemsAt value (u.length + 1) [] (dropWs u)).2.1)
      (fun x => x.1 = 1 ∧ x.2.1 = .array (itemsAt value (u.length + 1) [] (dropWs u)).1 ∧
        Stands x.2.2 (itemsAt value (u.length + 1) [] (dropWs u)).2.2)
      (fun m => jsonParseArray sched parse m j b) := by
  have hle := dropWs_length_le u
  obtain ⟨b₁, hr₁, h₁⟩ := h.skipIfeq_eq sched (by decide)
  rw [if_neg hu] at hr₁
  obtain ⟨_, b₂, hr₂, h₂⟩ := h₁.skipWs sched (Nat.le_refl 1)
  refine ends_bind hr₁ (ends_bind hr₂ ((hp.items ha sched [] (by omega) (by omega) h₂).returns ?_))
  rintro ⟨items, b₃⟩ ⟨rfl, h₃⟩
  exact ⟨_, returns_ok _, rfl, rfl, h₃⟩

theorem ReadsBelow.object [Unwritten] (hp : ReadsBelow parse value n) (ha : Advancing parse) (sched : Schedule)
    (j : JsonVal)
    (hu : u ≠ []) (hn : u.length < n) (h : At b (123 :: u) 1) :
    Run.Ends .bounds (ShortKeys (membersAt value (u.length + 1) [] (dropWs u)).2.1)
      (fun x => x.1 = 1 ∧ x.2.1 = .object (membersAt value (u.length + 1) [] (dropWs u)).1 ∧
        Stands x.2.2 (membersAt value (u.length + 1) [] (dropWs u)).2.2)
      (fun m => jsonParseObject sched parse m j b) := by
  have hle := dropWs_length_le u
  obtain ⟨b₁, hr₁, h₁⟩ := h.skipIfeq_eq sched (by decide)
  rw [if_neg hu] at hr₁
  obtain ⟨_, b₂, hr₂, h₂⟩ := h₁.skipWs sched (Nat.le_refl 1)
  refine ends_bind hr₁ (ends_bind hr₂ ((hp.members ha sched [] (by omega) (by omega) h₂).returns ?_))
  rintro ⟨members, b₃⟩ ⟨rfl, h₃⟩
  exact ⟨_, returns_ok _, rfl, rfl, h₃⟩

/-! ## Values -/

/-- The first parser that succeeds decides. -/
theorem ends_firstOf {e : Fault} {q : Prop} {Q : Nat × JsonVal × Charbuf → Prop} {p : Parse} {ps : List Parse}
    {j : JsonVal} (h : Run.Ends e q (fun x => x.1 = 1 ∧ Q x) fun m => p m j b) :
    Run.Ends e q (fun x => x.1 = 1 ∧ Q x) fun m => firstOf (p :: ps) m j b := by
  refine h.returns ?_
  rintro ⟨r, v, b'⟩ ⟨rfl, hQ⟩
  exact ⟨_, returns_ok _, rfl, hQ⟩

theorem finds_firstOf {l : List (Parse × TokenReader)} (hl : ∀ x ∈ l, ∀ {j b u}, At b u 1 →
    FindsToken (fun m => x.1 m j b) (x.2 j u) 1) {j : JsonVal} (h : At b u 1) :
    FindsToken (fun m => firstOf (l.map Prod.fst) m j b) (firstToken (l.map Prod.snd) j u) 1 := by
  induction l generalizing j b u with
  | nil => exact ⟨b, returns_ok _, h⟩
  | cons x l ih =>
    obtain ⟨hx, hl⟩ := List.forall_mem_cons.mp hl
    obtain ⟨b₁, hr₁, h₁⟩ := hx h
    rw [List.map_cons, List.map_cons, firstToken]
    generalize x.2 j u = y at hr₁ h₁ ⊢
    obtain ⟨r, v, rest⟩ := y
    by_cases hr : r > 0
    · simp only [hr, if_true]
      refine ⟨b₁, hr₁.bind ?_, h₁⟩
      simp only [hr, if_true]
      exact returns_ok _
    · obtain ⟨b₂, hr₂, h₂⟩ := ih hl (j := v) h₁
      simp only [hr, if_false]
      refine ⟨b₂, hr₁.bind ?_, h₂⟩
      simp only [hr, if_false]
      exact hr₂

section
variable [Unwritten]

/-- Nothing but `null` starts with an n. -/
theorem At.firstOf_n (sched : Schedule) (j : JsonVal) (h : At b u 5) (h110 : u.head? = some 110) :
    ∃ b', Returns (fun m => firstOf [jsonParseBoolean sched, jsonParseNumber sched, jsonParseString sched] m j b)
      (0, j, b') ∧ At b' u 5 := by
  obtain ⟨b₁, hr₁, h₁⟩ := h.parseBoolean_other sched j (by decide) (by
    rw [h110]
    decide)
  obtain ⟨b₂, hr₂, h₂⟩ := h₁.parseNumber_other sched j (by decide) (by
    rw [h110]
    decide)
  obtain ⟨b₃, hr₃, h₃⟩ := h₂.parseString_other sched j (by decide) (by
    rw [h110]
    decide)
  exact ⟨b₃, returns_firstOf_next hr₁ (returns_firstOf_next hr₂ (returns_firstOf_next hr₃ (returns_ok _))), h₃⟩

theorem firstToken_n {j : JsonVal} (h110 : u.head? = some 110) :
    firstToken [booleanToken, numberToken, stringToken] j u = (0, j, u) := by
  obtain ⟨t, rfl⟩ : ∃ t, u = 110 :: t := ⟨u.tail, List.eq_cons_of_mem_head? h110⟩
  rfl

theorem At.scalar_token (sched : Schedule) (j : JsonVal) (h : At b u 1) :
    ∃ b', Returns (fun m => firstOf [jsonParseNull sched, jsonParseBoolean sched, jsonParseNumber sched,
        jsonParseString sched] m j b) ((scalarToken j u).1, (scalarToken j u).2.1, b') ∧
      Stands b' (scalarToken j u).2.2 := by
  rw [scalarToken, firstToken]
  rcases h.null_token sched j with ⟨hone, b₁, hr₁, h₁⟩ | ⟨hzero, b₁, hr₁, h₁⟩
  · generalize nullToken j u = y at hone hr₁ h₁ ⊢
    obtain ⟨r, v, rest⟩ := y
    obtain rfl : r = 1 := hone
    exact ⟨b₁, returns_firstOf_done hr₁, .inl h₁⟩
  · simp only [hzero, gt_iff_lt, Nat.lt_irrefl, if_false]
    rcases h₁ with h₁ | ⟨h₁, h110⟩
    · have hfinds := finds_firstOf (l := [(jsonParseBoolean sched, booleanToken),
        (jsonParseNumber sched, numberToken), (jsonParseString sched, stringToken)]) (j := j) (by
          simp only [List.forall_mem_cons, List.not_mem_nil, false_imp_iff, implies_true, and_true]
          exact ⟨fun h => h.boolean_token sched _, fun h => h.number_token sched _,
            fun h => h.string_token sched _⟩) h₁
      obtain ⟨b₂, hr₂, h₂⟩ := hfinds
      exact ⟨b₂, returns_firstOf_next hr₁ hr₂, .inl (h₂.mono (by decide))⟩
    · obtain ⟨b₂, hr₂, h₂⟩ := h₁.firstOf_n sched j h110
      rw [firstToken_n h110]
      exact ⟨b₂, returns_firstOf_next hr₁ hr₂, .inr ⟨h₂, h110⟩⟩

theorem scalarToken_nil (j : JsonVal) : scalarToken j [] = (0, j, []) := rfl

theorem jsonValueAt_nil {e : Nat} {j : JsonVal} (hws : dropWs u = []) : jsonValueAt (e + 1) j u = ⟨0, j, [], []⟩ := by
  rw [jsonValueAt, hws]

/-- What is read off the bytes behind white space. -/
theorem jsonValueAt_cons {e : Nat} {j : JsonVal} {c : UInt8} {t : Bytes} (hws : dropWs u = c :: t) :
    jsonValueAt (e + 1) j u =
      if c = 123 ∨ c = 91 then
        if t = [] then ⟨0, j, [], []⟩
        else if c = 123 then
          ⟨1, .object (membersAt (jsonValueAt e) (t.length + 1) [] (dropWs t)).1,
            (membersAt (jsonValueAt e) (t.length + 1) [] (dropWs t)).2.1,
            (membersAt (jsonValueAt e) (t.length + 1) [] (dropWs t)).2.2⟩
        else
          ⟨1, .array (itemsAt (jsonValueAt e) (t.length + 1) [] (dropWs t)).1,
            (itemsAt (jsonValueAt e) (t.length + 1) [] (dropWs t)).2.1,
            (itemsAt (jsonValueAt e) (t.length + 1) [] (dropWs t)).2.2⟩
      else ⟨(scalarToken j (c :: t)).1, (scalarToken j (c :: t)).2.1, [], (scalarToken j (c :: t)).2.2⟩ := by
  rw [jsonValueAt, hws]

/-- The reader and the function of the bytes agree, however much of either's nesting is left. -/
theorem reads_jsonParse (sched : Schedule) {d e : Nat} (hd : n ≤ d) (he : n ≤ e) :
    ReadsBelow (jsonParse sched d) (jsonValueAt e) n := by
  induction n generalizing d e with
  | zero => exact fun _ _ _ _ hu => absurd hu (Nat.not_lt_zero _)
  | succ n ih =>
    obtain ⟨d, rfl⟩ := Nat.exists_eq_succ_of_ne_zero (Nat.ne_of_gt (Nat.lt_of_lt_of_le (Nat.succ_pos n) hd))
    obtain ⟨e, rfl⟩ := Nat.exists_eq_succ_of_ne_zero (Nat.ne_of_gt (Nat.lt_of_lt_of_le (Nat.succ_pos n) he))
    have hinner := ih (Nat.le_of_succ_le_succ hd) (Nat.le_of_succ_le_succ he)
    have hadv := advancing_jsonParse sched d
    intro j b u h hu
    obtain ⟨_, b₀, hr₀, h₀⟩ := h.skipWs sched (Nat.le_refl 1)
    have hle := dropWs_length_le u
    refine ends_bind hr₀ ?_
    dsimp only
    -- where no container opens, both container parsers leave the bytes as they are
    have hscalar {b₁ : Charbuf} {s : Bytes} (h₁ : At b₁ s 1) (hskip : ∀ r,
        Returns (fun m => firstOf [jsonParseNull sched, jsonParseBoolean sched, jsonParseNumber sched,
          jsonParseString sched] m j b₁) r → Returns (fun m => firstOf [jsonParseObject sched (jsonParse sched d),
          jsonParseArray sched (jsonParse sched d), jsonParseNull sched, jsonParseBoolean sched,
          jsonParseNumber sched, jsonParseString sched] m j b₀) r)
        (hval : jsonValueAt (e + 1) j u = ⟨(scalarToken j s).1, (scalarToken j s).2.1, [], (scalarToken j s).2.2⟩) :
        Run.Ends .bounds (ShortKeys (jsonValueAt (e + 1) j u).keys) (fun x => x.1 = (jsonValueAt (e + 1) j u).ret ∧
          x.2.1 = (jsonValueAt (e + 1) j u).val ∧ Stands x.2.2 (jsonValueAt (e + 1) j u).rest) fun m =>
          firstOf [jsonParseObject sched (jsonParse sched d), jsonParseArray sched (jsonParse sched d),
            jsonParseNull sched, jsonParseBoolean sched, jsonParseNumber sched, jsonParseString sched] m j b₀ := by
      obtain ⟨b₂, hr₂, h₂⟩ := h₁.scalar_token sched j
      rw [hval]
      exact ends_returns (hskip _ hr₂) ⟨rfl, rfl, h₂⟩ shortKeys_nil
    cases hws : dropWs u with
    | nil =>
      rw [hws] at h₀
      obtain ⟨b₁, hr₁, h₁⟩ := h₀.parseObject_other sched (jsonParse sched d) j (Nat.le_refl 1) (by simp)
      obtain ⟨b₂, hr₂, h₂⟩ := h₁.parseArray_other sched (jsonParse sched d) j (Nat.le_refl 1) (by simp)
      exact hscalar h₂ (fun r hr => returns_firstOf_next hr₁ (returns_firstOf_next hr₂ hr)) (jsonValueAt_nil hws)
    | cons c t =>
      rw [hws] at h₀ hle
      rw [List.length_cons] at hle
      have hval := jsonValueAt_cons (e := e) (j := j) hws
      by_cases h123 : c = 123
      · subst h123
        simp only [true_or, if_true] at hval
        by_cases ht : t = []
        · subst ht
          obtain ⟨b₁, hr₁, h₁⟩ := h₀.skipIfeq_eq sched (by decide)
          obtain ⟨b₂, hr₂, h₂⟩ := h₁.parseArray_other sched (jsonParse sched d) j (Nat.le_refl 1) (by simp)
          refine hscalar h₂ (fun r hr => returns_firstOf_next (hr₁.bind (returns_ok _))
            (returns_firstOf_next hr₂ hr)) ?_
          rw [hval, if_pos rfl, scalarToken_nil]
        · rw [if_neg ht] at hval
          rw [hval]
          exact ends_firstOf (hinner.object hadv sched j ht (by omega) h₀)
      obtain ⟨b₁, hr₁, h₁⟩ := h₀.parseObject_other sched (jsonParse sched d) j (Nat.le_refl 1) (by simpa using h123)
      by_cases h91 : c = 91
      · subst h91
        simp only [or_true, if_true] at hval
        by_cases ht : t = []
        · subst ht
          obtain ⟨b₂, hr₂, h₂⟩ := h₁.skipIfeq_eq sched (by decide)
          refine hscalar h₂ (fun r hr => returns_firstOf_next hr₁
            (returns_firstOf_next (hr₂.bind (returns_ok _)) hr)) ?_
          rw [hval, if_pos rfl, scalarToken_nil]
        · rw [if_neg ht, if_neg (by decide)] at hval
          rw [hval]
          exact ends_bind hr₁ (ends_firstOf (hinner.array hadv sched j ht (by omega) h₁))
      · obtain ⟨b₂, hr₂, h₂⟩ := h₁.parseArray_other sched (jsonParse sched d) j (Nat.le_refl 1) (by simpa using h91)
        refine hscalar h₂ (fun r hr => returns_firstOf_next hr₁ (returns_firstOf_next hr₂ hr)) ?_
        rw [hval, if_neg (by simp [h123, h91])]

/-! ## Termination -/

/-- The keys of a value do not depend on what was in its place. -/
theorem jsonValueAt_keys (e : Nat) (j j' : JsonVal) (s : Bytes) :
    (jsonValueAt e j s).keys = (jsonValueAt e j' s).keys := by
  cases e with
  | zero => rfl
  | succ e =>
    cases hws : dropWs s with
    | nil => rw [jsonValueAt_nil hws, jsonValueAt_nil hws]
    | cons c t =>
      rw [jsonValueAt_cons hws, jsonValueAt_cons hws]
      split_ifs <;> rfl

/-- On this stream `json_parse` returns however deep it may nest, and no byte is taken twice; a round of a
container that goes on has taken one. -/
structure JsonTerminates (sched : Schedule) (lookahead : Nat) (stream : Bytes) : Prop where
  returns : ∀ d j, stream.length < d → ∃ x, Returns (fun m => jsonParse sched d m j (charbufInit stream lookahead)) x
  once : ∀ d m j x, jsonParse sched d m j (charbufInit stream lookahead) = .ok x →
    Advances (charbufInit stream lookahead) x.2.2
  array : ∀ d m b items s, arrayRound sched (jsonParse sched d) m (b, items) = .ok (.inl s) → Progresses b s.1
  object : ∀ d m b members s, objectRound sched (jsonParse sched d) m (b, members) = .ok (.inl s) → Progresses b s.1

theorem jsonParse_ends (sched : Schedule) {lookahead d : Nat} {stream : Bytes} (j : JsonVal)
    (ha : (charbufInit stream lookahead).a ≠ 0) (hd : stream.length < d) :
    Run.Ends .bounds (ShortKeys (jsonKeys stream)) (fun _ => True)
      fun m => jsonParse sched d m j (charbufInit stream lookahead) := by
  have h := reads_jsonParse sched hd (Nat.le_refl (stream.length + 1)) j _ stream (at_init ha) (Nat.lt_succ_self _)
  rw [jsonValueAt_keys _ j .undefined] at h
  exact h.congr Iff.rfl fun _ _ => trivial

theorem JsonTerminates.shortKeys {lookahead : Nat} {stream : Bytes} (ha : (charbufInit stream lookahead).a ≠ 0)
    (h : JsonTerminates sched lookahead stream) : ShortKeys (jsonKeys stream) := by
  by_contra hlong
  obtain ⟨x, hx⟩ := h.returns _ .undefined (Nat.lt_succ_self _)
  have hends := jsonParse_ends sched .undefined ha (Nat.lt_succ_self stream.length)
  exact absurd (Settles.unique hx (hends.2 hlong)) (by simp)

theorem jsonParse_terminates_iff {lookahead : Nat} {stream : Bytes} (ha : (charbufInit stream lookahead).a ≠ 0) :
    JsonTerminates sched lookahead stream ↔ ShortKeys (jsonKeys stream) := by
  refine ⟨fun h => h.shortKeys ha, fun h => ⟨?_, ?_, ?_, ?_⟩⟩
  · intro d j hd
    obtain ⟨x, hx, -⟩ := (jsonParse_ends sched j ha hd).1 h
    exact ⟨x, hx⟩
  · exact fun d m j x hx => advancing_jsonParse sched d m j _ x hx
  · exact fun d m b items s hs => (advancing_jsonParse sched d).arrayRound sched m b items _ hs
  · exact fun d m b members s hs => (advancing_jsonParse sched d).objectRound sched m b members _ hs

end

/-- The text that ends in the midst of an array. -/
theorem jsonParse_terminates_cut : ShortKeys (jsonKeys [123, 34, 97, 34, 58, 91, 49, 44]) ∧
    JsonTerminates (fun _ => 1) 5 [123, 34, 97, 34, 58, 91, 49, 44] :=
  have hkeys : ShortKeys (jsonKeys [123, 34, 97, 34, 58, 91, 49, 44]) :=
    shortKeys_cons.mpr ⟨by decide, shortKeys_nil⟩
  ⟨hkeys, (jsonParse_terminates_iff (by decide)).mpr hkeys⟩

/-- An object with one member whose key is as long as a tuple's. -/
def longKeyText : Bytes := [123, 34] ++ List.replicate maxSizeKey 97 ++ [34, 58, 49, 125]

theorem longKeyText_keys : ¬ShortKeys (jsonKeys longKeyText) := by
  have hlong : ¬∀ key ∈ jsonKeys longKeyText, key.length < maxSizeKey := by decide +kernel
  exact hlong

theorem jsonParse_terminates_not : ¬JsonTerminates (fun _ => 1) 5 longKeyText :=
  fun h => longKeyText_keys (h.shortKeys (by decide))

end Dirlist
