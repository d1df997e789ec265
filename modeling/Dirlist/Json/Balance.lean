import Dirlist.Json.Steady

/-! What holds of the reader on any bytes at all: if it comes back, the brackets it has taken
are closed at most as often as they were opened. The one construct that never takes its
closing bracket, the empty array, therefore cannot be made up for. -/

namespace Dirlist
open Run

/-! ## Open brackets -/

inductive LexMode
  | plain
  | string
  | escape
deriving DecidableEq

/-- Read a byte, inside a string or outside, and count the open brackets. -/
def lexStep : LexMode × Int → UInt8 → LexMode × Int
  | (.plain, d), c =>
    if c = 34 then (.string, d)
    else if c = 91 ∨ c = 123 then (.plain, d + 1)
    else if c = 93 ∨ c = 125 then (.plain, d - 1)
    else (.plain, d)
  | (.string, d), c => if c = 92 then (.escape, d) else if c = 34 then (.plain, d) else (.string, d)
  | (.escape, d), _ => (.string, d)

def lex (s : Bytes) : LexMode × Int := s.foldl lexStep (.plain, 0)

theorem lexStep_shift (m : LexMode) (d e : Int) (c : UInt8) :
    lexStep (m, d + e) c = ((lexStep (m, e) c).1, d + (lexStep (m, e) c).2) := by
  cases m with
  | plain =>
    simp only [lexStep]
    split
    · rfl
    · split
      · simp [Int.add_assoc]
      · split
        · simp [Int.add_sub_assoc]
        · rfl
  | string =>
    simp only [lexStep]
    split
    · rfl
    · split <;> rfl
  | escape => rfl

theorem foldl_lexStep_shift (m : LexMode) (d e : Int) (s : Bytes) :
    s.foldl lexStep (m, d + e) = ((s.foldl lexStep (m, e)).1, d + (s.foldl lexStep (m, e)).2) := by
  induction s generalizing m e with
  | nil => rfl
  | cons c s ih =>
    rw [List.foldl_cons, List.foldl_cons, lexStep_shift, ih]

theorem lex_append {s t : Bytes} (hs : (lex s).1 = .plain) :
    lex (s ++ t) = ((lex t).1, (lex s).2 + (lex t).2) := by
  have hpair : lex s = (.plain, (lex s).2 + 0) := by rw [← hs, Int.add_zero]
  rw [lex, List.foldl_append, ← lex, hpair, foldl_lexStep_shift, Int.add_zero]
  rfl

/-- A byte that is no bracket and no quote. -/
def isPlain (c : UInt8) : Bool := c ≠ 34 && c ≠ 91 && c ≠ 93 && c ≠ 123 && c ≠ 125

theorem lex_plain {s : Bytes} (hs : ∀ c ∈ s, isPlain c = true) : lex s = (.plain, 0) := by
  unfold lex
  induction s with
  | nil => rfl
  | cons c s ih =>
    have hc := hs c List.mem_cons_self
    simp only [isPlain, Bool.and_eq_true, ne_eq, decide_not,
      Bool.not_eq_eq_eq_not, Bool.not_true, decide_eq_false_iff_not] at hc
    obtain ⟨⟨⟨⟨h34, h91⟩, h93⟩, h123⟩, h125⟩ := hc
    have hstep : lexStep (.plain, 0) c = (.plain, 0) := by
      simp [lexStep, h34, h91, h93, h123, h125]
    rw [List.foldl_cons, hstep]
    exact ih fun d hd => hs d (List.mem_cons_of_mem _ hd)

/-- From `whole` down to `s`, brackets were opened at least `k` times more than closed. Only
at the end of the stream may this be within a string. -/
def Took (whole : Bytes) (k : Int) (s : Bytes) : Prop :=
  ∃ taken, whole = taken ++ s ∧
    ((lex taken).1 = .plain ∧ k ≤ (lex taken).2 ∨ (lex taken).1 ≠ .plain ∧ s = [])

theorem Took.refl (s : Bytes) : Took s 0 s := ⟨[], rfl, .inl ⟨rfl, Int.le_refl 0⟩⟩

theorem Took.trans {u s t : Bytes} {k l : Int} (h₁ : Took u k s) (h₂ : Took s l t) :
    Took u (k + l) t := by
  obtain ⟨p₁, rfl, h₁⟩ := h₁
  obtain ⟨p₂, rfl, h₂⟩ := h₂
  refine ⟨p₁ ++ p₂, (List.append_assoc _ _ _).symm, ?_⟩
  rcases h₁ with ⟨hm₁, hk₁⟩ | ⟨hm₁, hnil⟩
  · rw [lex_append hm₁]
    rcases h₂ with ⟨hm₂, hk₂⟩ | ⟨hm₂, hnil⟩
    · exact .inl ⟨hm₂, Int.add_le_add hk₁ hk₂⟩
    · exact .inr ⟨hm₂, hnil⟩
  · obtain ⟨rfl, rfl⟩ := List.append_eq_nil_iff.mp hnil
    rw [List.append_nil]
    exact .inr ⟨hm₁, rfl⟩

theorem Took.mono {u s : Bytes} {k l : Int} (h : Took u k s) (hl : l ≤ k) : Took u l s := by
  obtain ⟨p, hp, h⟩ := h
  refine ⟨p, hp, h.imp_left fun h => ⟨h.1, Int.le_trans hl h.2⟩⟩

theorem took_plain {p : Bytes} (hp : ∀ c ∈ p, isPlain c = true) (s : Bytes) : Took (p ++ s) 0 s := by
  refine ⟨p, rfl, .inl ?_⟩
  rw [lex_plain hp]
  exact ⟨rfl, Int.le_refl 0⟩

theorem took_cons {c : UInt8} (hc : isPlain c = true) (s : Bytes) : Took (c :: s) 0 s :=
  took_plain (p := [c]) (by simpa using hc) s

theorem took_open {c : UInt8} (hc : c = 91 ∨ c = 123) (s : Bytes) : Took (c :: s) 1 s := by
  refine ⟨[c], rfl, .inl ?_⟩
  rcases hc with rfl | rfl <;> decide

theorem took_close {c : UInt8} (hc : c = 93 ∨ c = 125) (s : Bytes) : Took (c :: s) (-1) s := by
  refine ⟨[c], rfl, .inl ?_⟩
  rcases hc with rfl | rfl <;> decide

theorem isPlain_of_isspace {c : UInt8} (hc : isspace c = true) : isPlain c = true := by
  simp only [isspace, Bool.or_eq_true, Bool.and_eq_true, decide_eq_true_eq,
    UInt8.le_iff_toNat_le] at hc
  have hlt : c.toNat ≤ 32 := by
    rcases hc with rfl | hc
    · decide
    · have h13 : (13 : UInt8).toNat = 13 := rfl
      omega
  have hne : ∀ d : UInt8, 32 < d.toNat → c ≠ d := by
    rintro d hd rfl
    omega
  simp [isPlain, hne 34 (by decide), hne 91 (by decide), hne 93 (by decide), hne 123 (by decide),
    hne 125 (by decide)]

theorem took_dropWs (s : Bytes) : Took s 0 (dropWs s) := by
  have h := took_plain (p := s.takeWhile isspace)
    (fun c hc => isPlain_of_isspace (List.mem_takeWhile_imp hc)) (dropWs s)
  have hsplit : s.takeWhile isspace ++ dropWs s = s := List.takeWhile_append_dropWhile
  rwa [hsplit] at h

/-! ## Tokens -/

variable {sched : Schedule} {b b' : Charbuf} {u : Bytes} {q m r : Nat} {v : JsonVal}

theorem At.skipWs_ok (h : At b u q) (hq : 1 ≤ q) (hok : charbufSkipWs sched m b = .ok (r, b')) :
    At b' (dropWs u) q := by
  obtain ⟨r₁, b₁, hr, h₁⟩ := h.skipWs sched hq
  have heq := (steady_charbufPredSkip sched b _).eq_of_ok hr hok
  rw [Prod.mk.injEq] at heq
  rw [heq.2]
  exact h₁

/-- `charbuf_skip_ifeq` takes the byte if it is there, and says so unless it was the last. -/
theorem At.skipIfeq_ok {c : UInt8} (h : At b u 1) (hc : c ≠ 0)
    (hok : charbufSkipIfeq sched m b c = .ok (r, b')) :
    (u.head? ≠ some c ∧ r = 0 ∧ At b' u 1) ∨
      ∃ s, u = c :: s ∧ r = (if s = [] then 0 else 1) ∧ At b' s 1 := by
  by_cases hu : u.head? = some c
  · obtain ⟨s, rfl⟩ : ∃ s, u = c :: s := ⟨u.tail, List.eq_cons_of_mem_head? hu⟩
    obtain ⟨b₁, hr, h₁⟩ := h.skipIfeq_eq sched hc
    have heq := (steady_charbufPredSkip sched b _).eq_of_ok hr hok
    rw [Prod.mk.injEq] at heq
    rw [heq.1, heq.2]
    exact .inr ⟨s, rfl, rfl, h₁⟩
  · obtain ⟨b₁, hr, h₁⟩ := h.skipIfeq_ne sched (Nat.le_refl 1) hc hu
    have heq := (steady_charbufPredSkip sched b _).eq_of_ok hr hok
    rw [Prod.mk.injEq] at heq
    rw [heq.1, heq.2]
    exact .inl ⟨hu, rfl, h₁⟩

theorem isPlain_of_isdigit {c : UInt8} (hc : isdigit c = true) : isPlain c = true := by
  have hne : ∀ d : UInt8, isdigit d = false → c ≠ d := fun d hd => ne_of_isdigit hc hd
  simp [isPlain, hne 34 rfl, hne 91 rfl, hne 93 rfl, hne 123 rfl, hne 125 rfl]

theorem isPlain_of_numberStart {c : UInt8} (hc : isdigit c = true ∨ c = 45 ∨ c = 46 ∨ c = 43) :
    isPlain c = true ∧ c ≠ 0 := by
  rcases hc with hc | rfl | rfl | rfl
  · exact ⟨isPlain_of_isdigit hc, ne_of_isdigit hc rfl⟩
  all_goals decide

/-- The bytes of a number are plain. The byte at hand has not been taken yet. -/
theorem At.numberLoop_ok {c : UInt8} {x : Option Bytes × Bool × Charbuf} (hc : isPlain c = true)
    (hz : c ≠ 0) (h : At b (c :: u) 1) (hok : loop (numberRound sched) m (b, c, [], false) = .ok x) :
    ∃ s, Took (c :: u) 0 s ∧ At x.2.2 s 1 := by
  refine loop_inv
    (fun s => ∃ t, isPlain s.2.1 = true ∧ s.2.1 ≠ 0 ∧ Took (c :: u) 0 (s.2.1 :: t) ∧
      At s.1 (s.2.1 :: t) 1)
    (fun x => ∃ t, Took (c :: u) 0 t ∧ At x.2.2 t 1) ?_ ?_ ⟨u, hc, hz, Took.refl _, h⟩ hok
  · rintro n ⟨b, c₁, num, double⟩ s' ⟨t, hp, hz, ht, ha⟩ hround
    obtain ⟨b₂, hnext, h₂⟩ := ha.nextc sched hz
    cases t with
    | nil => simp [numberRound, hnext] at hround
    | cons c₂ t =>
      simp only [numberRound, hnext, List.head?_cons] at hround
      split at hround
      · next hcond =>
        simp only [Except.ok.injEq, Sum.inl.injEq] at hround
        subst hround
        have hplain : isPlain c₂ = true ∧ c₂ ≠ 0 := by
          rcases hcond with hd | (rfl | rfl | rfl) | ⟨-, rfl⟩
          · exact ⟨isPlain_of_isdigit hd, ne_of_isdigit hd rfl⟩
          all_goals decide
        exact ⟨t, hplain.1, hplain.2, ht.trans (took_cons hp _), h₂⟩
      · simp at hround
  · rintro n ⟨b, c₁, num, double⟩ x ⟨t, hp, hz, ht, ha⟩ hround
    obtain ⟨b₂, hnext, h₂⟩ := ha.nextc sched hz
    have htook := ht.trans (took_cons hp t)
    cases t with
    | nil =>
      simp only [numberRound, hnext, List.head?_nil, Except.ok.injEq, Sum.inr.injEq] at hround
      subst hround
      exact ⟨[], htook, h₂⟩
    | cons c₂ t =>
      simp only [numberRound, hnext, List.head?_cons] at hround
      split at hround
      · simp at hround
      · simp only [Except.ok.injEq, Sum.inr.injEq] at hround
        subst hround
        exact ⟨_, htook, h₂⟩

theorem At.parseNumber_ok {val : JsonVal} (h : At b u 1)
    (hok : jsonParseNumber sched m val b = .ok (r, v, b')) : ∃ s, Took u 0 s ∧ At b' s 1 := by
  obtain ⟨b₁, hpeek, h₁⟩ := h.peekc sched (Nat.le_refl 1)
  cases u with
  | nil =>
    simp only [jsonParseNumber, hpeek, List.head?_nil, Except.ok.injEq, Prod.mk.injEq] at hok
    obtain ⟨-, -, rfl⟩ := hok
    exact ⟨[], Took.refl _, h₁⟩
  | cons c u =>
    by_cases hc : isdigit c = true ∨ c = 45 ∨ c = 46 ∨ c = 43
    · simp only [jsonParseNumber, hpeek, List.head?_cons, hc, if_true] at hok
      obtain ⟨⟨num, double, b₂⟩, hloop, hok⟩ := bind_eq_ok hok
      obtain ⟨hp, hz⟩ := isPlain_of_numberStart hc
      have hb : b' = b₂ := by
        rw [← scanNumber_buffer b₂ double num]
        exact (congrArg (fun x => x.2.2) (Except.ok.inj hok)).symm
      rw [hb]
      exact h₁.numberLoop_ok hp hz hloop
    · simp only [jsonParseNumber, hpeek, List.head?_cons, hc, if_false, Except.ok.injEq,
        Prod.mk.injEq] at hok
      obtain ⟨-, -, rfl⟩ := hok
      exact ⟨_, Took.refl _, h₁⟩

/-- A string is taken with both its quotes, or the stream ends within it. -/
theorem At.strallocLoop_ok {x : Nat × Bytes × Charbuf} (h : At b u 1)
    (hok : loop (strallocRound sched true) m (b, []) = .ok x) :
    ∃ s, Took (34 :: u) 0 s ∧ At x.2.2 s 1 := by
  refine loop_inv
    (fun s => ∃ p t, 34 :: u = p ++ t ∧ lex p = (.string, 0) ∧ At s.1 t 1)
    (fun x => ∃ t, Took (34 :: u) 0 t ∧ At x.2.2 t 1) ?_ ?_ ⟨[34], u, rfl, rfl, h⟩ hok
  · rintro n ⟨b, sa⟩ s' ⟨p, t, hu, hp, ha⟩ hround
    obtain ⟨b₁, hpeek, h₁⟩ := ha.peekc sched (Nat.le_refl 1)
    cases t with
    | nil => simp [strallocRound, hpeek] at hround
    | cons c t =>
      have hlex : ∀ s, lex (p ++ s) = s.foldl lexStep (.string, 0) := by
        intro s
        rw [lex, List.foldl_append, ← lex, hp]
      by_cases h92 : c = 92
      · subst h92
        obtain ⟨b₂, hnext, h₂⟩ := h₁.nextc sched (by decide)
        cases t with
        | nil => simp [strallocRound, hpeek, hnext] at hround
        | cons d t =>
          obtain ⟨b₃, hskip, h₃⟩ := h₂.skip sched
          simp only [strallocRound, hpeek, List.head?_cons, if_true, hnext, hskip, Except.ok.injEq,
            Sum.inl.injEq] at hround
          subst hround
          exact ⟨p ++ [92, d], t, by rw [hu, List.append_assoc]; rfl, hlex _, h₃.mono (by decide)⟩
      · obtain ⟨b₂, hskip, h₂⟩ := h₁.skip sched
        by_cases h34 : c = 34
        · simp [strallocRound, hpeek, h34] at hround
        · simp only [strallocRound, hpeek, List.head?_cons, h92, h34, if_false, and_false,
            not_true_eq_false, false_and, hskip, Except.ok.injEq, Sum.inl.injEq] at hround
          subst hround
          refine ⟨p ++ [c], t, by rw [hu, List.append_assoc]; rfl, ?_, h₂.mono (by decide)⟩
          rw [hlex]
          simp [lexStep, h92, h34]
  · rintro n ⟨b, sa⟩ x ⟨p, t, hu, hp, ha⟩ hround
    obtain ⟨b₁, hpeek, h₁⟩ := ha.peekc sched (Nat.le_refl 1)
    cases t with
    | nil =>
      simp only [strallocRound, hpeek, List.head?_nil, Except.ok.injEq, Sum.inr.injEq] at hround
      subst hround
      exact ⟨[], ⟨p, hu, .inr ⟨by rw [hp]; decide, rfl⟩⟩, h₁⟩
    | cons c t =>
      have hlex : lex (p ++ [c]) = lexStep (.string, 0) c := by
        rw [lex, List.foldl_append, ← lex, hp]
        rfl
      have hsplit : ∀ s, 34 :: u = p ++ c :: s → 34 :: u = (p ++ [c]) ++ s := by
        intro s hs
        rw [hs, List.append_assoc]
        rfl
      by_cases h92 : c = 92
      · subst h92
        obtain ⟨b₂, hnext, h₂⟩ := h₁.nextc sched (by decide)
        cases t with
        | nil =>
          simp only [strallocRound, hpeek, List.head?_cons, if_true, hnext, List.head?_nil,
            Except.ok.injEq, Sum.inr.injEq] at hround
          subst hround
          exact ⟨[], ⟨p ++ [92], hsplit [] hu, .inr ⟨by rw [hlex]; decide, rfl⟩⟩, h₂⟩
        | cons d t => simp [strallocRound, hpeek, hnext] at hround
      · obtain ⟨b₂, hskip, h₂⟩ := h₁.skip sched
        by_cases h34 : c = 34
        · subst h34
          simp only [strallocRound, hpeek, List.head?_cons, h92, if_false, and_true, if_true, hskip,
            Except.ok.injEq, Sum.inr.injEq] at hround
          subst hround
          refine ⟨t, ⟨p ++ [34], hsplit t hu, .inl ?_⟩, h₂.mono (by decide)⟩
          rw [hlex]
          decide
        · simp [strallocRound, hpeek, h92, h34] at hround

theorem At.parseString_ok [Unwritten] {val : JsonVal} (h : At b u 1)
    (hok : jsonParseString sched m val b = .ok (r, v, b')) : ∃ s, Took u 0 s ∧ At b' s 1 := by
  obtain ⟨⟨r₁, b₁⟩, hif, hok⟩ := bind_eq_ok hok
  rcases h.skipIfeq_ok (by decide) hif with ⟨-, rfl, h₁⟩ | ⟨s, rfl, rfl, h₁⟩
  · simp only [gt_iff_lt, Nat.lt_irrefl, if_false, Except.ok.injEq, Prod.mk.injEq] at hok
    obtain ⟨-, -, rfl⟩ := hok
    exact ⟨u, Took.refl u, h₁⟩
  · by_cases hs : s = []
    · subst hs
      simp only [if_true, gt_iff_lt, Nat.lt_irrefl, if_false, Except.ok.injEq, Prod.mk.injEq] at hok
      obtain ⟨-, -, rfl⟩ := hok
      exact ⟨[], ⟨[34], rfl, .inr ⟨by decide, rfl⟩⟩, h₁⟩
    · simp only [hs, if_false, gt_iff_lt, Nat.lt_one_iff, if_true, jsonParseStralloc] at hok
      obtain ⟨⟨ret, out, b₂⟩, hstr, hok⟩ := bind_eq_ok hok
      obtain ⟨⟨ret', sa, b₃⟩, hloop, hstr⟩ := bind_eq_ok hstr
      obtain ⟨out', -, hstr⟩ := bind_eq_ok hstr
      have hb₂ : b₃ = b₂ := congrArg (fun x => x.2.2) (Except.ok.inj hstr)
      have hb₃ : b₂ = b' := congrArg (fun x => x.2.2) (Except.ok.inj hok)
      rw [← hb₃, ← hb₂]
      exact h₁.strallocLoop_ok hloop

theorem At.skipWord_ok {word : Bytes} {all : Bool} (hword : ∀ c ∈ word, isPlain c = true ∧ c ≠ 0)
    (h : At b u 1) (hok : Dirlist.skipWord sched m b word = .ok (all, b')) : ∃ s, Took u 0 s ∧ At b' s 1 := by
  induction word generalizing b u with
  | nil =>
    obtain ⟨-, rfl⟩ := Prod.mk.inj (Except.ok.inj hok)
    exact ⟨u, Took.refl u, h⟩
  | cons c word ih =>
    obtain ⟨hp, hz⟩ := hword c List.mem_cons_self
    obtain ⟨⟨r₁, b₁⟩, hif, hok⟩ := bind_eq_ok hok
    rcases h.skipIfeq_ok hz hif with ⟨-, rfl, h₁⟩ | ⟨s, rfl, hr₁, h₁⟩
    · obtain ⟨-, rfl⟩ := Prod.mk.inj (Except.ok.inj hok)
      exact ⟨u, Took.refl u, h₁⟩
    · by_cases hpos : r₁ > 0
      · simp only [hpos, if_true] at hok
        obtain ⟨t, ht, h'⟩ := ih (fun d hd => hword d (List.mem_cons_of_mem _ hd)) h₁ hok
        exact ⟨t, (took_cons hp s).trans ht, h'⟩
      · simp only [hpos, if_false] at hok
        obtain ⟨-, rfl⟩ := Prod.mk.inj (Except.ok.inj hok)
        exact ⟨s, took_cons hp s, h₁⟩

theorem At.parseBoolean_ok {val : JsonVal} (h : At b u 1)
    (hok : jsonParseBoolean sched m val b = .ok (r, v, b')) : ∃ s, Took u 0 s ∧ At b' s 1 := by
  by_cases hu : ∃ c s, u = c :: s ∧ c ∈ [116, 102]
  · obtain ⟨c, s, rfl, hc⟩ := hu
    have hplain : isPlain c = true ∧ c ≠ 0 := by
      rcases List.mem_pair.mp hc with rfl | rfl <;> decide
    obtain ⟨b₁, hset, h₁⟩ := h.skipIfset_mem sched (Nat.le_refl 1) hc
    obtain ⟨b₂, hpeek, h₂⟩ := (h₁.mono (Nat.zero_le 1)).peekc sched (Nat.le_refl 1)
    simp only [jsonParseBoolean, hset, gt_iff_lt, toNat_pos_of_ne_zero hplain.2, if_true,
      hpeek] at hok
    obtain ⟨⟨all, b₃⟩, hword, hok⟩ := bind_eq_ok hok
    have hb : b₃ = b' := by
      cases all <;> exact congrArg (fun x => x.2.2) (Except.ok.inj hok)
    have hletters : ∀ d ∈ (if decide (s.head? = some 114) = true then [114, 117, 101]
        else [97, 108, 115, 101]), isPlain d = true ∧ d ≠ 0 := by
      split <;> decide
    obtain ⟨t, ht, h'⟩ := h₂.skipWord_ok hletters hword
    exact ⟨t, (took_cons hplain.1 s).trans ht, hb ▸ h'⟩
  · obtain ⟨b₁, hset, h₁⟩ := h.skipIfset_not_mem sched [116, 102] (Nat.le_refl 1) (by
      intro c hc hmem
      exact hu ⟨c, u.tail, List.eq_cons_of_mem_head? hc, hmem⟩)
    simp only [jsonParseBoolean, hset] at hok
    have hb : b₁ = b' := congrArg (fun x => x.2.2) (Except.ok.inj hok)
    exact ⟨u, Took.refl u, hb ▸ h₁⟩

/-- Where the reader may stand after a value: a word that only starts like `null` was looked
at but not taken, and then nothing more is read. -/
def Stands (b : Charbuf) (s : Bytes) : Prop := At b s 2 ∨ At b s 5 ∧ s.head? = some 110

theorem predCount_ge_prefix (word pre post : Bytes) (hw : pre ++ post = word) {s : Bytes}
    (h : post.length ≤ predCount (predicateIdentifier word) pre.length s) : post <+: s := by
  induction post generalizing pre s with
  | nil => exact List.nil_prefix
  | cons c post ih =>
    cases s with
    | nil => exact absurd h (by simp [predCount])
    | cons d s =>
      by_cases hp : predicateIdentifier word d pre.length = true
      · have hd : c = d := by
          rw [predicateIdentifier, if_pos (by simp [← hw])] at hp
          simpa [← hw] using hp
        rw [predCount, if_pos hp, List.length_cons] at h
        have hnext := ih (pre ++ [c]) (by simpa using hw) (s := s) (by
          rw [List.length_append, List.length_singleton]
          omega)
        rw [hd]
        exact (List.prefix_cons_inj d).mpr hnext
      · rw [predCount, if_neg hp] at h
        simp at h

theorem At.parseNull_ok {val : JsonVal} (h : At b u 1)
    (hok : jsonParseNull sched m val b = .ok (r, v, b')) :
    (∃ s, Took u 0 s ∧ At b' s 2 ∧ r = 1 ∧ v = .null) ∨
      (r = 0 ∧ v = val ∧ (At b' u 1 ∨ At b' u 5 ∧ u.head? = some 110)) := by
  have hle := predCount_identifier_le nullWord 0 u
  have h4 : nullWord.length = 4 := rfl
  obtain ⟨b₁, hr₁, h₁⟩ := h.predLookahead sched (predicateIdentifier nullWord) (by omega)
  obtain ⟨⟨n, b₂⟩, hlook, hok⟩ := bind_eq_ok hok
  obtain ⟨rfl, rfl⟩ := Prod.mk.inj ((steady_charbufPredLookahead sched b _).eq_of_ok hr₁ hlook)
  by_cases hn : predCount (predicateIdentifier nullWord) 0 u ≥ 4
  · simp only [hn, if_true, Except.ok.injEq, Prod.mk.injEq] at hok
    obtain ⟨rfl, rfl, rfl⟩ := hok
    obtain ⟨s, rfl⟩ := predCount_ge_prefix nullWord [] nullWord rfl hn
    refine .inl ⟨s, took_plain (by decide) s, ?_, rfl, rfl⟩
    exact (h₁.skipn sched (by decide) (by omega)).mono (by omega)
  · simp only [hn, if_false, Except.ok.injEq, Prod.mk.injEq] at hok
    obtain ⟨rfl, rfl, rfl⟩ := hok
    refine .inr ⟨rfl, rfl, ?_⟩
    by_cases h110 : u.head? = some 110
    · exact .inr ⟨h₁.mono (by omega), h110⟩
    · have hzero := predCount_null_other h110
      exact .inl (h₁.mono (by omega))

theorem At.parseKey_ok [Unwritten] {key : Bytes} (h : At b u 1) (hok : Dirlist.parseKey sched m b = .ok (key, b')) :
    ∃ s, Took u 0 s ∧ At b' s 1 := by
  obtain ⟨⟨r₁, v₁, b₁⟩, hstr, hok⟩ := bind_eq_ok hok
  obtain ⟨s, hs, h₁⟩ := h.parseString_ok hstr
  dsimp only at hok
  split at hok
  · obtain ⟨-, rfl⟩ := Prod.mk.inj (Except.ok.inj hok)
    exact ⟨s, hs, h₁⟩
  · obtain ⟨⟨r₂, v₂, b₂⟩, hnum, hok⟩ := bind_eq_ok hok
    obtain ⟨t, ht, h₂⟩ := h₁.parseNumber_ok hnum
    have hb : b₂ = b' := by
      dsimp only at hok
      split at hok <;> exact congrArg Prod.snd (Except.ok.inj hok)
    exact ⟨t, hs.trans ht, hb ▸ h₂⟩

/-! ## Containers -/

/-- Behind an item at most one closing byte is taken, and none if more items follow. -/
theorem Stands.skipDelimiter_ok {close : UInt8} {more : Bool} (hclose : close = 93 ∨ close = 125)
    (h : Stands b u) (hok : skipDelimiter sched m b close = .ok (more, b')) :
    ∃ s, (more = true → Took u 0 s ∧ At b' s 1) ∧ (more = false → Took u (-1) s ∧ Stands b' s) := by
  obtain ⟨⟨r₁, b₁⟩, hws, hok⟩ := bind_eq_ok hok
  rcases h with h | ⟨h, h110⟩
  · have h₁ := h.skipWs_ok (by decide) hws
    have htook := took_dropWs u
    obtain ⟨b₂, hpeek, h₂⟩ := h₁.peekc sched (by decide)
    cases hu : dropWs u with
    | nil =>
      rw [hu] at hpeek h₂ htook
      simp only [hpeek, List.head?_nil, Except.ok.injEq, Prod.mk.injEq] at hok
      obtain ⟨rfl, rfl⟩ := hok
      exact ⟨[], nofun, fun _ => ⟨htook.mono (by decide), .inl h₂⟩⟩
    | cons c t =>
      rw [hu] at hpeek h₂ htook
      by_cases hc : c = 44 ∨ c = close
      · obtain ⟨b₃, hskip, h₃⟩ := h₂.skip sched
        simp only [hpeek, List.head?_cons, hc, if_true, hskip] at hok
        obtain ⟨⟨r₄, b₄⟩, hws₄, hok⟩ := bind_eq_ok hok
        have h₄ := h₃.skipWs_ok (Nat.le_refl 1) hws₄
        obtain ⟨rfl, rfl⟩ := Prod.mk.inj (Except.ok.inj hok)
        refine ⟨dropWs t, fun hm => ⟨?_, h₄⟩, fun hm => ⟨?_, .inl (h₄.mono (by decide))⟩⟩
        · obtain rfl : c = 44 := by simpa using hm
          exact htook.trans ((took_cons (by decide) t).trans (took_dropWs t))
        · have hc93 : c = 93 ∨ c = 125 := by
            have hne : c ≠ 44 := by simpa using hm
            rw [hc.resolve_left hne]
            exact hclose
          exact htook.trans ((took_close hc93 t).trans (took_dropWs t))
      · simp only [hpeek, List.head?_cons, hc, if_false, Except.ok.injEq, Prod.mk.injEq] at hok
        obtain ⟨rfl, rfl⟩ := hok
        exact ⟨c :: t, nofun, fun _ => ⟨htook.mono (by decide), .inl h₂⟩⟩
  · have hws110 : dropWs u = u := dropWs_of_not (by
      rw [h110]
      decide)
    have h₁ := h.skipWs_ok (by decide) hws
    rw [hws110] at h₁
    obtain ⟨b₂, hpeek, h₂⟩ := h₁.peekc sched (by decide)
    have hne : ¬((110 : UInt8) = 44 ∨ 110 = close) := by
      rcases hclose with rfl | rfl <;> decide
    simp only [hpeek, h110, hne, if_false, Except.ok.injEq, Prod.mk.injEq] at hok
    obtain ⟨rfl, rfl⟩ := hok
    exact ⟨u, nofun, fun _ => ⟨(Took.refl u).mono (by decide), .inr ⟨h₂, h110⟩⟩⟩

/-- What is to be shown of `json_parse`. -/
def Balanced (parse : Parse) : Prop :=
  ∀ {m j b r v b' u}, At b u 1 → parse m j b = .ok (r, v, b') → ∃ s, Took u 0 s ∧ Stands b' s

section
variable {parse : Parse} (hp : Balanced parse)
include hp

theorem Balanced.arrayRound_ok {items : List JsonVal}
    {x : Charbuf × List JsonVal ⊕ List JsonVal × Charbuf} (h : At b u 1)
    (hok : arrayRound sched parse m (b, items) = .ok x) :
    ∃ s, match x with
      | .inl y => Took u 0 s ∧ At y.1 s 1
      | .inr y => Took u (-1) s ∧ Stands y.2 s := by
  obtain ⟨b₁, hpeek, h₁⟩ := h.peekc sched (Nat.le_refl 1)
  have hstay : Took u (-1) u ∧ Stands b₁ u :=
    ⟨(Took.refl u).mono (by decide), .inl (h₁.mono (by decide))⟩
  cases u with
  | nil =>
    simp only [arrayRound, hpeek, List.head?_nil, Except.ok.injEq] at hok
    subst hok
    exact ⟨_, hstay⟩
  | cons c t =>
    by_cases hc : c = 93
    · simp only [arrayRound, hpeek, List.head?_cons, hc, if_true, Except.ok.injEq] at hok
      subst hok
      exact ⟨_, hstay⟩
    · simp only [arrayRound, hpeek, List.head?_cons, hc, if_false] at hok
      obtain ⟨⟨r₂, v₂, b₂⟩, hparse, hok⟩ := bind_eq_ok hok
      obtain ⟨s, hs, h₂⟩ := hp h₁ hparse
      obtain ⟨⟨more, b₃⟩, hdel, hok⟩ := bind_eq_ok hok
      obtain ⟨t, hmore, hlast⟩ := h₂.skipDelimiter_ok (.inl rfl) hdel
      refine ⟨t, ?_⟩
      cases more with
      | true =>
        obtain rfl := Except.ok.inj hok
        exact ⟨hs.trans (hmore rfl).1, (hmore rfl).2⟩
      | false =>
        obtain rfl := Except.ok.inj hok
        exact ⟨hs.trans (hlast rfl).1, (hlast rfl).2⟩

theorem Balanced.arrayLoop_ok {items : List JsonVal} {x : List JsonVal × Charbuf} (h : At b u 1)
    (hok : loop (arrayRound sched parse) m (b, items) = .ok x) :
    ∃ s, Took u (-1) s ∧ Stands x.2 s := by
  refine loop_inv (fun s => ∃ t, Took u 0 t ∧ At s.1 t 1) (fun x => ∃ t, Took u (-1) t ∧ Stands x.2 t)
    ?_ ?_ ⟨u, Took.refl u, h⟩ hok
  · rintro n ⟨b, items⟩ s' ⟨t, ht, ha⟩ hround
    obtain ⟨t', ht', ha'⟩ := hp.arrayRound_ok ha hround
    exact ⟨t', ht.trans ht', ha'⟩
  · rintro n ⟨b, items⟩ x ⟨t, ht, ha⟩ hround
    obtain ⟨t', ht', ha'⟩ := hp.arrayRound_ok ha hround
    exact ⟨t', ht.trans ht', ha'⟩

theorem Balanced.objectRound_ok [Unwritten] {members : List (Bytes × JsonVal)}
    {x : Charbuf × List (Bytes × JsonVal) ⊕ List (Bytes × JsonVal) × Charbuf} (h : At b u 1)
    (hok : objectRound sched parse m (b, members) = .ok x) :
    ∃ s, match x with
      | .inl y => Took u 0 s ∧ At y.1 s 1
      | .inr y => Took u (-1) s ∧ Stands y.2 s := by
  obtain ⟨b₁, hpeek, h₁⟩ := h.peekc sched (Nat.le_refl 1)
  cases u with
  | nil =>
    simp only [objectRound, hpeek, List.head?_nil, Except.ok.injEq] at hok
    subst hok
    exact ⟨_, (Took.refl _).mono (by decide), .inl (h₁.mono (by decide))⟩
  | cons c t =>
    by_cases hc : c = 125
    · subst hc
      obtain ⟨b₂, hnext, h₂⟩ := h₁.nextc sched (by decide)
      simp only [objectRound, hpeek, List.head?_cons, if_true, hnext, Except.ok.injEq] at hok
      subst hok
      exact ⟨t, took_close (.inr rfl) t, .inl (h₂.mono (by decide))⟩
    · simp only [objectRound, hpeek, List.head?_cons, hc, if_false] at hok
      obtain ⟨⟨key, b₂⟩, hkey, hok⟩ := bind_eq_ok hok
      obtain ⟨s₂, hs₂, h₂⟩ := h₁.parseKey_ok hkey
      obtain ⟨⟨r₃, b₃⟩, hws₃, hok⟩ := bind_eq_ok hok
      have h₃ := h₂.skipWs_ok (Nat.le_refl 1) hws₃
      have hs₃ := hs₂.trans (took_dropWs s₂)
      obtain ⟨⟨r₄, b₄⟩, hif, hok⟩ := bind_eq_ok hok
      obtain ⟨s₄, hs₄, h₄⟩ : ∃ s, Took (dropWs s₂) 0 s ∧ At b₄ s 1 := by
        rcases h₃.skipIfeq_ok (by decide) hif with ⟨-, -, h₄⟩ | ⟨s, hcons, -, h₄⟩
        · exact ⟨_, Took.refl _, h₄⟩
        · rw [hcons]
          exact ⟨s, took_cons (by decide) s, h₄⟩
      have hs₄ := hs₃.trans hs₄
      by_cases hr₄ : r₄ > 0
      · simp only [hr₄, if_true] at hok
        obtain ⟨⟨r₅, b₅⟩, hws₅, hok⟩ := bind_eq_ok hok
        have h₅ := h₄.skipWs_ok (Nat.le_refl 1) hws₅
        obtain ⟨⟨r₆, v₆, b₆⟩, hparse, hok⟩ := bind_eq_ok hok
        obtain ⟨s₆, hs₆, h₆⟩ := hp h₅ hparse
        have hs₆ := (hs₄.trans (took_dropWs s₄)).trans hs₆
        by_cases hr₆ : r₆ > 0
        · simp only [hr₆, if_true] at hok
          obtain ⟨members', -, hok⟩ := bind_eq_ok hok
          obtain ⟨⟨more, b₇⟩, hdel, hok⟩ := bind_eq_ok hok
          obtain ⟨t, hmore, hlast⟩ := h₆.skipDelimiter_ok (.inr rfl) hdel
          refine ⟨t, ?_⟩
          cases more with
          | true =>
            obtain rfl := Except.ok.inj hok
            exact ⟨hs₆.trans (hmore rfl).1, (hmore rfl).2⟩
          | false =>
            obtain rfl := Except.ok.inj hok
            exact ⟨hs₆.trans (hlast rfl).1, (hlast rfl).2⟩
        · simp only [hr₆, if_false, Except.ok.injEq] at hok
          subst hok
          exact ⟨s₆, hs₆.mono (by decide), h₆⟩
      · simp only [hr₄, if_false, Except.ok.injEq] at hok
        subst hok
        exact ⟨s₄, hs₄.mono (by decide), .inl (h₄.mono (by decide))⟩

theorem Balanced.objectLoop_ok [Unwritten] {members : List (Bytes × JsonVal)}
    {x : List (Bytes × JsonVal) × Charbuf} (h : At b u 1)
    (hok : loop (objectRound sched parse) m (b, members) = .ok x) :
    ∃ s, Took u (-1) s ∧ Stands x.2 s := by
  refine loop_inv (fun s => ∃ t, Took u 0 t ∧ At s.1 t 1) (fun x => ∃ t, Took u (-1) t ∧ Stands x.2 t)
    ?_ ?_ ⟨u, Took.refl u, h⟩ hok
  · rintro n ⟨b, members⟩ s' ⟨t, ht, ha⟩ hround
    obtain ⟨t', ht', ha'⟩ := hp.objectRound_ok ha hround
    exact ⟨t', ht.trans ht', ha'⟩
  · rintro n ⟨b, members⟩ x ⟨t, ht, ha⟩ hround
    obtain ⟨t', ht', ha'⟩ := hp.objectRound_ok ha hround
    exact ⟨t', ht.trans ht', ha'⟩

theorem Balanced.parseArray_ok {val : JsonVal} (h : At b u 1)
    (hok : jsonParseArray sched parse m val b = .ok (r, v, b')) :
    (r = 0 ∧ ∃ s, Took u 0 s ∧ At b' s 1) ∨ (r = 1 ∧ ∃ s, Took u 0 s ∧ Stands b' s) := by
  obtain ⟨⟨r₁, b₁⟩, hif, hok⟩ := bind_eq_ok hok
  rcases h.skipIfeq_ok (by decide) hif with ⟨-, rfl, h₁⟩ | ⟨s, rfl, rfl, h₁⟩
  · simp only [gt_iff_lt, Nat.lt_irrefl, if_false, Except.ok.injEq, Prod.mk.injEq] at hok
    obtain ⟨rfl, -, rfl⟩ := hok
    exact .inl ⟨rfl, u, Took.refl u, h₁⟩
  · by_cases hs : s = []
    · subst hs
      simp only [if_true, gt_iff_lt, Nat.lt_irrefl, if_false, Except.ok.injEq, Prod.mk.injEq] at hok
      obtain ⟨rfl, -, rfl⟩ := hok
      exact .inl ⟨rfl, [], (took_open (.inl rfl) []).mono (by decide), h₁⟩
    · simp only [hs, if_false, gt_iff_lt, Nat.zero_lt_one, if_true] at hok
      obtain ⟨⟨r₂, b₂⟩, hws, hok⟩ := bind_eq_ok hok
      obtain ⟨⟨items, b₃⟩, hloop, hok⟩ := bind_eq_ok hok
      obtain ⟨t, ht, h₃⟩ := hp.arrayLoop_ok (h₁.skipWs_ok (Nat.le_refl 1) hws) hloop
      simp only [Except.ok.injEq, Prod.mk.injEq] at hok
      obtain ⟨rfl, -, rfl⟩ := hok
      exact .inr ⟨rfl, t, (took_open (.inl rfl) s).trans ((took_dropWs s).trans ht), h₃⟩

theorem Balanced.parseObject_ok [Unwritten] {val : JsonVal} (h : At b u 1)
    (hok : jsonParseObject sched parse m val b = .ok (r, v, b')) :
    (r = 0 ∧ ∃ s, Took u 0 s ∧ At b' s 1) ∨ (r = 1 ∧ ∃ s, Took u 0 s ∧ Stands b' s) := by
  obtain ⟨⟨r₁, b₁⟩, hif, hok⟩ := bind_eq_ok hok
  rcases h.skipIfeq_ok (by decide) hif with ⟨-, rfl, h₁⟩ | ⟨s, rfl, rfl, h₁⟩
  · simp only [gt_iff_lt, Nat.lt_irrefl, if_false, Except.ok.injEq, Prod.mk.injEq] at hok
    obtain ⟨rfl, -, rfl⟩ := hok
    exact .inl ⟨rfl, u, Took.refl u, h₁⟩
  · by_cases hs : s = []
    · subst hs
      simp only [if_true, gt_iff_lt, Nat.lt_irrefl, if_false, Except.ok.injEq, Prod.mk.injEq] at hok
      obtain ⟨rfl, -, rfl⟩ := hok
      exact .inl ⟨rfl, [], (took_open (.inr rfl) []).mono (by decide), h₁⟩
    · simp only [hs, if_false, gt_iff_lt, Nat.zero_lt_one, if_true] at hok
      obtain ⟨⟨r₂, b₂⟩, hws, hok⟩ := bind_eq_ok hok
      obtain ⟨⟨members, b₃⟩, hloop, hok⟩ := bind_eq_ok hok
      obtain ⟨t, ht, h₃⟩ := hp.objectLoop_ok (h₁.skipWs_ok (Nat.le_refl 1) hws) hloop
      simp only [Except.ok.injEq, Prod.mk.injEq] at hok
      obtain ⟨rfl, -, rfl⟩ := hok
      exact .inr ⟨rfl, t, (took_open (.inr rfl) s).trans ((took_dropWs s).trans ht), h₃⟩

end

theorem firstOf_ok {p : Parse} {ps : List Parse} {j : JsonVal} {x : Nat × JsonVal × Charbuf}
    (hok : firstOf (p :: ps) m j b = .ok x) :
    ∃ y, p m j b = .ok y ∧ (y.1 > 0 ∧ x = y ∨ y.1 = 0 ∧ firstOf ps m y.2.1 y.2.2 = .ok x) := by
  obtain ⟨y, hy, hok⟩ := bind_eq_ok hok
  refine ⟨y, hy, ?_⟩
  by_cases hr : y.1 > 0
  · simp only [hr, if_true] at hok
    exact .inl ⟨hr, (Except.ok.inj hok).symm⟩
  · simp only [hr, if_false] at hok
    exact .inr ⟨Nat.eq_zero_of_not_pos hr, hok⟩

/-- From the words on, the reader stands at a plain token or at a word like `null`. -/
theorem At.firstWord_ok [Unwritten] {j : JsonVal} (h : At b u 1)
    (hok : firstOf [jsonParseBoolean sched, jsonParseNumber sched, jsonParseString sched] m j b =
      .ok (r, v, b')) : ∃ s, Took u 0 s ∧ At b' s 1 := by
  obtain ⟨⟨r₁, v₁, b₁⟩, hbool, hok⟩ := firstOf_ok hok
  obtain ⟨s₁, hs₁, h₁⟩ := h.parseBoolean_ok hbool
  rcases hok with ⟨-, hx⟩ | ⟨-, hok⟩
  · obtain ⟨-, -, rfl⟩ := hx
    exact ⟨s₁, hs₁, h₁⟩
  obtain ⟨⟨r₂, v₂, b₂⟩, hnum, hok⟩ := firstOf_ok hok
  obtain ⟨s₂, hs₂, h₂⟩ := h₁.parseNumber_ok hnum
  rcases hok with ⟨-, hx⟩ | ⟨-, hok⟩
  · obtain ⟨-, -, rfl⟩ := hx
    exact ⟨s₂, hs₁.trans hs₂, h₂⟩
  obtain ⟨⟨r₃, v₃, b₃⟩, hstr, hok⟩ := firstOf_ok hok
  obtain ⟨s₃, hs₃, h₃⟩ := h₂.parseString_ok hstr
  have hb : b' = b₃ := by
    rcases hok with ⟨-, hx⟩ | ⟨-, hok⟩
    · exact congrArg (fun x => x.2.2) hx
    · exact (congrArg (fun x => x.2.2) (Except.ok.inj hok)).symm
  exact ⟨s₃, (hs₁.trans hs₂).trans hs₃, hb ▸ h₃⟩

/-- Nothing else starts like `null`. -/
theorem At.firstWord_null [Unwritten] {j : JsonVal} (h : At b u 5) (h110 : u.head? = some 110)
    (hok : firstOf [jsonParseBoolean sched, jsonParseNumber sched, jsonParseString sched] m j b =
      .ok (r, v, b')) : At b' u 5 ∧ v = j := by
  obtain ⟨b₁, hr₁, h₁⟩ := h.parseBoolean_other sched j (by decide) (by
    rw [h110]
    decide)
  obtain ⟨b₂, hr₂, h₂⟩ := h₁.parseNumber_other sched j (by decide) (by
    rw [h110]
    decide)
  obtain ⟨b₃, hr₃, h₃⟩ := h₂.parseString_other sched j (by decide) (by
    rw [h110]
    decide)
  have hall : Returns (fun m => firstOf [jsonParseBoolean sched, jsonParseNumber sched,
      jsonParseString sched] m j b) (0, j, b₃) :=
    returns_firstOf_next hr₁ (returns_firstOf_next hr₂ (returns_firstOf_next hr₃ (returns_ok _)))
  have hsteady : Steady (fun m => firstOf [jsonParseBoolean sched, jsonParseNumber sched,
      jsonParseString sched] m j b) := by
    refine steady_firstOf ?_ _ _
    simp only [List.forall_mem_cons, List.not_mem_nil, false_imp_iff, implies_true, and_true]
    exact ⟨steady_parseBoolean sched, steady_parseNumber sched, steady_parseString sched⟩
  obtain ⟨-, rfl, rfl⟩ := hsteady.eq_of_ok hall hok
  exact ⟨h₃, rfl⟩

theorem balanced_jsonParse [Unwritten] (sched : Schedule) (d : Nat) : Balanced (jsonParse sched d) := by
  induction d with
  | zero =>
    intro m j b r v b' u _ hok
    cases hok
  | succ d ih =>
    intro m j b r v b' u h hok
    obtain ⟨⟨r₀, b₀⟩, hws, hok⟩ := bind_eq_ok hok
    have h₀ := h.skipWs_ok (Nat.le_refl 1) hws
    have hs₀ := took_dropWs u
    obtain ⟨⟨r₁, v₁, b₁⟩, hobj, hok⟩ := firstOf_ok hok
    rcases ih.parseObject_ok h₀ hobj with ⟨rfl, s₁, hs₁, h₁⟩ | ⟨rfl, s₁, hs₁, h₁⟩
    swap
    · rcases hok with ⟨-, hx⟩ | ⟨hr, -⟩
      · obtain ⟨-, -, rfl⟩ := hx
        exact ⟨s₁, hs₀.trans hs₁, h₁⟩
      · exact absurd hr Nat.one_ne_zero
    have hs₁ := hs₀.trans hs₁
    obtain ⟨-, hok⟩ := hok.resolve_left fun hx => Nat.lt_irrefl 0 hx.1
    obtain ⟨⟨r₂, v₂, b₂⟩, harr, hok⟩ := firstOf_ok hok
    rcases ih.parseArray_ok h₁ harr with ⟨rfl, s₂, hs₂, h₂⟩ | ⟨rfl, s₂, hs₂, h₂⟩
    swap
    · rcases hok with ⟨-, hx⟩ | ⟨hr, -⟩
      · obtain ⟨-, -, rfl⟩ := hx
        exact ⟨s₂, hs₁.trans hs₂, h₂⟩
      · exact absurd hr Nat.one_ne_zero
    have hs₂ := hs₁.trans hs₂
    obtain ⟨-, hok⟩ := hok.resolve_left fun hx => Nat.lt_irrefl 0 hx.1
    obtain ⟨⟨r₃, v₃, b₃⟩, hnull, hok⟩ := firstOf_ok hok
    rcases h₂.parseNull_ok hnull with ⟨s₃, hs₃, h₃, rfl, -⟩ | ⟨rfl, -, h₃⟩
    · rcases hok with ⟨-, hx⟩ | ⟨hr, -⟩
      · obtain ⟨-, -, rfl⟩ := hx
        exact ⟨s₃, hs₂.trans hs₃, .inl h₃⟩
      · exact absurd hr Nat.one_ne_zero
    obtain ⟨-, hok⟩ := hok.resolve_left fun hx => Nat.lt_irrefl 0 hx.1
    rcases h₃ with h₃ | ⟨h₃, h110⟩
    · obtain ⟨s₄, hs₄, h₄⟩ := h₃.firstWord_ok hok
      exact ⟨s₄, hs₂.trans hs₄, .inl (h₄.mono (by decide))⟩
    · exact ⟨s₂, hs₂, .inr ⟨(h₃.firstWord_null h110 hok).1, h110⟩⟩

end Dirlist
