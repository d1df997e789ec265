import Dirlist.Json.Defs

/-! How a buffer moves on while a text is read: bytes leave it only at the front, each of them once and
counted once, and a round of a container that goes on has taken at least one. -/

namespace Dirlist
open Run

def Charbuf.unread (b : Charbuf) : Bytes := b.window ++ b.source

/-- From `b` to `b'` the bytes `taken` left the front of the buffer. -/
structure Takes (b : Charbuf) (taken : Bytes) (b' : Charbuf) : Prop where
  bytes : b.unread = taken ++ b'.unread
  count : b'.offset % 2 ^ 64 = (b.offset + taken.length) % 2 ^ 64

/-- No byte is taken that had been taken before. -/
def Advances (b b' : Charbuf) : Prop := ∃ taken, Takes b taken b'

def Progresses (b b' : Charbuf) : Prop := ∃ taken, taken ≠ [] ∧ Takes b taken b'

variable {sched : Schedule} {b b₁ b₂ : Charbuf} {s t : Bytes} {m : Nat}

theorem takes_refl (b : Charbuf) : Takes b [] b := ⟨rfl, rfl⟩

theorem Takes.trans (h : Takes b s b₁) (h' : Takes b₁ t b₂) : Takes b (s ++ t) b₂ := by
  refine ⟨by rw [h.bytes, h'.bytes, List.append_assoc], ?_⟩
  rw [h'.count, Nat.add_mod, h.count, ← Nat.add_mod, List.length_append, Nat.add_assoc]

theorem Advances.refl (b : Charbuf) : Advances b b := ⟨[], takes_refl b⟩

theorem Takes.advances (h : Takes b s b₁) : Advances b b₁ := ⟨s, h⟩

theorem Advances.trans (h : Advances b b₁) (h' : Advances b₁ b₂) : Advances b b₂ := by
  obtain ⟨s, hs⟩ := h
  obtain ⟨t, ht⟩ := h'
  exact ⟨s ++ t, hs.trans ht⟩

theorem Progresses.advances (h : Progresses b b₁) : Advances b b₁ := by
  obtain ⟨s, -, hs⟩ := h
  exact ⟨s, hs⟩

theorem Advances.progresses (h : Advances b b₁) (h' : Progresses b₁ b₂) : Progresses b b₂ := by
  obtain ⟨s, hs⟩ := h
  obtain ⟨t, hne, ht⟩ := h'
  exact ⟨s ++ t, by simp [hne], hs.trans ht⟩

theorem Progresses.trans (h : Progresses b b₁) (h' : Advances b₁ b₂) : Progresses b b₂ := by
  obtain ⟨s, hne, hs⟩ := h
  obtain ⟨t, ht⟩ := h'
  exact ⟨s ++ t, by simp [hne], hs.trans ht⟩

/-! ## Calls of the buffer -/

theorem takes_stubbornRead (sched : Schedule) (b : Charbuf) (max : Nat) :
    Takes b [] (charbufStubbornRead sched b max).2 := by
  unfold charbufStubbornRead
  split
  · exact takes_refl b
  · refine ⟨?_, rfl⟩
    have hsplit := List.prefix_iff_eq_append.mp (List.take_prefix
      (min (min (b.a - b.window.length) max) (Max.max 1 (sched b.reads))) b.source)
    simp only [Charbuf.unread, charbufOp, List.nil_append, List.append_assoc]
    rw [hsplit]

/-- A byte that was looked at is the first of the window. -/
theorem takes_peekc (sched : Schedule) (b : Charbuf) :
    Takes b [] (charbufPeekc sched b).2 ∧ (charbufPeekc sched b).1 = (charbufPeekc sched b).2.window.head? := by
  unfold charbufPeekc
  split
  · next c w hw => exact ⟨takes_refl b, by rw [hw, List.head?_cons]⟩
  · exact ⟨takes_stubbornRead sched b 1, rfl⟩

theorem peekc_some {c : UInt8} (h : charbufPeekc sched b = (some c, b₁)) :
    Takes b [] b₁ ∧ ∃ w, b₁.window = c :: w := by
  obtain ⟨ht, hc⟩ := takes_peekc sched b
  rw [h] at ht hc
  exact ⟨ht, _, List.eq_cons_of_mem_head? hc.symm⟩

theorem advances_peekc {c : Option UInt8} (h : charbufPeekc sched b = (c, b₁)) : Advances b b₁ := by
  have ht := (takes_peekc sched b).1
  rw [h] at ht
  exact ht.advances

/-- A byte of the window is skipped as the next one. -/
theorem takes_count {c : UInt8} {w : Bytes} (hw : b.window = c :: w) :
    Takes b [c] { charbufCount b c with window := b.window.tail } := by
  unfold charbufCount
  split <;> exact ⟨by simp [Charbuf.unread, hw], Nat.mod_mod _ _⟩

theorem skip_window {c : UInt8} {w : Bytes} (hw : b.window = c :: w) : Progresses b (charbufSkip sched b).2 := by
  have hpeek : charbufPeekc sched b = (some c, b) := by simp only [charbufPeekc, hw]
  simp only [charbufSkip, charbufSkipc, hpeek]
  exact ⟨[c], by simp, takes_count hw⟩

theorem advances_skip (sched : Schedule) (b : Charbuf) : Advances b (charbufSkip sched b).2 := by
  rcases hpeek : charbufPeekc sched b with ⟨_ | c, b₁⟩
  · simp only [charbufSkip, charbufSkipc, hpeek]
    exact advances_peekc hpeek
  · obtain ⟨ht, w, hw⟩ := peekc_some hpeek
    simp only [charbufSkip, charbufSkipc, hpeek]
    exact ht.advances.trans (takes_count hw).advances

theorem advances_nextc {c : Option UInt8} (h : charbufNextc sched b = (c, b₁)) : Advances b b₁ := by
  have hskip := advances_skip sched b
  rcases heq : charbufSkip sched b with ⟨r, b'⟩
  rw [heq] at hskip
  simp only [charbufNextc, heq] at h
  split at h
  · exact hskip.trans (advances_peekc h)
  · rwa [← (Prod.mk.inj h).2]

theorem advances_skipIfset {r : Nat} {set : Bytes} (h : charbufSkipIfset sched b set = (r, b₁)) : Advances b b₁ := by
  rcases hpeek : charbufPeekc sched b with ⟨_ | c, b'⟩
  · simp only [charbufSkipIfset, hpeek] at h
    rw [← (Prod.mk.inj h).2]
    exact advances_peekc hpeek
  · simp only [charbufSkipIfset, hpeek] at h
    split at h
    · have hskip := advances_skip sched b'
      rw [h] at hskip
      exact (advances_peekc hpeek).trans hskip
    · rw [← (Prod.mk.inj h).2]
      exact advances_peekc hpeek

theorem advances_skipn (sched : Schedule) (b : Charbuf) (n : Nat) : Advances b (charbufSkipn sched b n) := by
  induction n generalizing b with
  | zero => exact Advances.refl b
  | succ n ih =>
    rcases hpeek : charbufPeekc sched b with ⟨_ | c, b₁⟩
    · simp only [charbufSkipn, hpeek]
      exact advances_peekc hpeek
    · have hskip := advances_skip sched b₁
      simp only [charbufSkipn, hpeek]
      split
      · exact (advances_peekc hpeek).trans (hskip.trans (ih _))
      · exact (advances_peekc hpeek).trans hskip

theorem advances_predSkip (sched : Schedule) (m : Nat) (b : Charbuf) (pred : UInt8 → Nat → Bool) :
    Gives (charbufPredSkip sched m b pred) fun x => Advances b x.2 := by
  refine Gives.loop (I := fun s => Advances b s.1) ?_ (Advances.refl b)
  rintro k ⟨b₀, n⟩ h₀
  rcases hpeek : charbufPeekc sched b₀ with ⟨_ | c, b₁⟩
  · simp only [predSkipRound, hpeek]
    exact gives_ok (h₀.trans (advances_peekc hpeek))
  · have h₁ := h₀.trans (advances_peekc hpeek)
    have h₂ := h₁.trans (advances_skip sched b₁)
    simp only [predSkipRound, hpeek]
    split
    · split
      · exact gives_ok h₂
      · exact gives_ok h₂
    · exact gives_ok h₁

theorem advances_peekn (sched : Schedule) (m : Nat) (b : Charbuf) (n : Nat) :
    Gives (charbufPeekn sched m b n) fun x => Advances b x.2 := by
  unfold charbufPeekn
  split
  · refine Gives.loop (I := fun b' => Advances b b') ?_ (Advances.refl b)
    intro k b₁ h₁
    have h₂ := h₁.trans (takes_stubbornRead sched b₁ ((n + (2 ^ 32 - b₁.window.length)) % 2 ^ 32)).advances
    unfold peeknRound
    split
    · exact gives_ok h₁
    · dsimp only
      split
      · exact gives_ok h₂
      · exact gives_ok h₂
  · exact gives_error

theorem advances_predLookahead (sched : Schedule) (m : Nat) (b : Charbuf) (pred : UInt8 → Nat → Bool) :
    Gives (charbufPredLookahead sched m b pred) fun x => Advances b x.2 := by
  refine Gives.loop (I := fun s => Advances b s.1) ?_ (Advances.refl b)
  rintro k ⟨b₀, n⟩ h₀
  refine (advances_peekn sched k b₀ (n + 1)).bind fun x hx => ?_
  have h₁ := h₀.trans hx
  obtain ⟨v, b₁⟩ := x
  dsimp only
  split
  · split
    · exact gives_ok h₁
    · exact gives_ok h₁
  · exact gives_ok h₁

/-! ## Tokens -/

theorem advances_parseNumber (sched : Schedule) (m : Nat) (val : JsonVal) (b : Charbuf) :
    Gives (jsonParseNumber sched m val b) fun x => Advances b x.2.2 := by
  rcases hpeek : charbufPeekc sched b with ⟨_ | c, b₁⟩
  · simp only [jsonParseNumber, hpeek]
    exact gives_ok (advances_peekc hpeek)
  · have h₁ := advances_peekc hpeek
    simp only [jsonParseNumber, hpeek]
    split
    · refine Gives.bind (P := fun x => Advances b x.2.2) ?_ ?_
      · refine Gives.loop (I := fun s => Advances b s.1) ?_ h₁
        rintro k ⟨b₀, c, num, double⟩ h₀
        rcases hnext : charbufNextc sched b₀ with ⟨_ | c', b₂⟩
        · simp only [numberRound, hnext]
          exact gives_ok (h₀.trans (advances_nextc hnext))
        · have h₂ := h₀.trans (advances_nextc hnext)
          simp only [numberRound, hnext]
          split
          · exact gives_ok h₂
          · exact gives_ok h₂
      · rintro ⟨num, double, b₂⟩ h₂
        refine gives_ok ?_
        rwa [scanNumber_buffer]
    · exact gives_ok h₁

theorem advances_skipIfeq (sched : Schedule) (m : Nat) (b : Charbuf) (c : UInt8) :
    Gives (charbufSkipIfeq sched m b c) fun x => Advances b x.2 := advances_predSkip sched m b _

theorem advances_skipWs (sched : Schedule) (m : Nat) (b : Charbuf) :
    Gives (charbufSkipWs sched m b) fun x => Advances b x.2 := advances_predSkip sched m b _

theorem advances_skipWord (sched : Schedule) (m : Nat) (b : Charbuf) (word : Bytes) :
    Gives (skipWord sched m b word) fun x => Advances b x.2 := by
  induction word generalizing b with
  | nil => exact gives_ok (Advances.refl b)
  | cons c word ih =>
    refine (advances_skipIfeq sched m b c).bind ?_
    rintro ⟨r, b₁⟩ h₁
    dsimp only
    split
    · exact (ih b₁).mono fun x hx => h₁.trans hx
    · exact gives_ok h₁

theorem advances_parseBoolean (sched : Schedule) (m : Nat) (val : JsonVal) (b : Charbuf) :
    Gives (jsonParseBoolean sched m val b) fun x => Advances b x.2.2 := by
  rcases hset : charbufSkipIfset sched b [116, 102] with ⟨r, b₁⟩
  have h₁ := advances_skipIfset hset
  simp only [jsonParseBoolean, hset]
  split
  · rcases hpeek : charbufPeekc sched b₁ with ⟨c, b₂⟩
    have h₂ := h₁.trans (advances_peekc hpeek)
    refine (advances_skipWord sched m b₂ _).bind ?_
    rintro ⟨all, b₃⟩ h₃
    dsimp only
    split
    · exact gives_ok (h₂.trans h₃)
    · exact gives_ok (h₂.trans h₃)
  · exact gives_ok h₁

theorem advances_parseNull (sched : Schedule) (m : Nat) (val : JsonVal) (b : Charbuf) :
    Gives (jsonParseNull sched m val b) fun x => Advances b x.2.2 := by
  refine (advances_predLookahead sched m b _).bind ?_
  rintro ⟨n, b₁⟩ h₁
  dsimp only
  split
  · exact gives_ok (h₁.trans (advances_skipn sched b₁ 4))
  · exact gives_ok h₁

/-- Behind an item a comma was taken if more items follow. -/
theorem advances_skipDelimiter (sched : Schedule) (m : Nat) (b : Charbuf) (close : UInt8) :
    Gives (skipDelimiter sched m b close) fun x => Advances b x.2 ∧ (x.1 = true → Progresses b x.2) := by
  refine (advances_skipWs sched m b).bind ?_
  rintro ⟨r, b₁⟩ h₁
  rcases hpeek : charbufPeekc sched b₁ with ⟨_ | c, b₂⟩
  · simp only [hpeek]
    exact gives_ok ⟨h₁.trans (advances_peekc hpeek), nofun⟩
  · have h₂ := h₁.trans (advances_peekc hpeek)
    simp only [hpeek]
    split
    · obtain ⟨-, w, hw⟩ := peekc_some hpeek
      have hskip : Progresses _ (charbufSkip sched _).2 := skip_window hw
      have h₃ := h₂.progresses hskip
      refine (advances_skipWs sched m _).bind ?_
      rintro ⟨r, b₄⟩ h₄
      exact gives_ok ⟨(h₃.trans h₄).advances, fun _ => h₃.trans h₄⟩
    · exact gives_ok ⟨h₂, nofun⟩

section
variable [Unwritten]

theorem advances_parseStralloc (sched : Schedule) (m : Nat) (b : Charbuf) (quoted : Bool) :
    Gives (jsonParseStralloc sched m b quoted) fun x => Advances b x.2.2 := by
  refine Gives.bind (P := fun x => Advances b x.2.2) ?_ ?_
  · refine Gives.loop (I := fun s => Advances b s.1) ?_ (Advances.refl b)
    rintro k ⟨b₀, sa⟩ h₀
    rcases hpeek : charbufPeekc sched b₀ with ⟨_ | c, b₁⟩
    · simp only [strallocRound, hpeek]
      exact gives_ok (h₀.trans (advances_peekc hpeek))
    · have h₁ := h₀.trans (advances_peekc hpeek)
      have h₂ := h₁.trans (advances_skip sched b₁)
      simp only [strallocRound, hpeek]
      split
      · rcases hnext : charbufNextc sched b₁ with ⟨_ | d, b₃⟩
        · exact gives_ok (h₁.trans (advances_nextc hnext))
        · exact gives_ok (h₁.trans ((advances_nextc hnext).trans (advances_skip sched b₃)))
      · split
        · exact gives_ok h₂
        · split
          · exact gives_ok h₁
          · exact gives_ok h₂
  · rintro ⟨ret, sa, b₁⟩ h₁
    have hout : ∀ x : Exec Bytes, Gives x fun _ => True := fun _ _ _ => trivial
    dsimp only
    split
    · exact (hout _).bind fun _ _ => gives_ok h₁
    · exact (hout _).bind fun _ _ => gives_ok h₁

theorem advances_parseString (sched : Schedule) (m : Nat) (val : JsonVal) (b : Charbuf) :
    Gives (jsonParseString sched m val b) fun x => Advances b x.2.2 := by
  refine (advances_skipIfeq sched m b 34).bind ?_
  rintro ⟨r, b₁⟩ h₁
  dsimp only
  split
  · exact (advances_parseStralloc sched m b₁ true).bind fun x hx => gives_ok (h₁.trans hx)
  · exact gives_ok h₁

theorem advances_parseKey (sched : Schedule) (m : Nat) (b : Charbuf) :
    Gives (parseKey sched m b) fun x => Advances b x.2 := by
  refine (advances_parseString sched m .undefined b).bind ?_
  rintro ⟨r, key, b₁⟩ h₁
  dsimp only
  split
  · exact gives_ok h₁
  · refine (advances_parseNumber sched m _ b₁).bind ?_
    rintro ⟨r, key, b₂⟩ h₂
    dsimp only
    split
    all_goals exact gives_ok (h₁.trans h₂)

end

/-! ## Containers -/

/-- What is to be shown of `json_parse`. -/
def Advancing (parse : Parse) : Prop := ∀ m j b, Gives (parse m j b) fun x => Advances b x.2.2

section
variable {parse : Parse} (hp : Advancing parse)
include hp

/-- A round that goes on has taken a comma. -/
theorem Advancing.arrayRound (sched : Schedule) (m : Nat) (b : Charbuf) (items : List JsonVal) :
    Gives (arrayRound sched parse m (b, items)) (Sum.elim (fun s => Progresses b s.1) fun r => Advances b r.2) := by
  rcases hpeek : charbufPeekc sched b with ⟨_ | c, b₁⟩
  · simp only [Dirlist.arrayRound, hpeek]
    exact gives_ok (advances_peekc hpeek)
  · have h₁ := advances_peekc hpeek
    simp only [Dirlist.arrayRound, hpeek]
    split
    · exact gives_ok h₁
    · refine (hp m .undefined b₁).bind ?_
      rintro ⟨r, v, b₂⟩ h₂
      refine (advances_skipDelimiter sched m b₂ 93).bind ?_
      rintro ⟨more, b₃⟩ ⟨h₃, hmore⟩
      dsimp only
      split
      · next h => exact gives_ok ((h₁.trans h₂).progresses (hmore h))
      · exact gives_ok ((h₁.trans h₂).trans h₃)

theorem Advancing.parseArray (sched : Schedule) (m : Nat) (val : JsonVal) (b : Charbuf) :
    Gives (jsonParseArray sched parse m val b) fun x => Advances b x.2.2 := by
  refine (advances_skipIfeq sched m b 91).bind ?_
  rintro ⟨r, b₁⟩ h₁
  dsimp only
  split
  · refine (advances_skipWs sched m b₁).bind ?_
    rintro ⟨r, b₂⟩ h₂
    refine Gives.bind (P := fun x => Advances b x.2) ?_ fun x hx => gives_ok hx
    refine Gives.loop (I := fun s => Advances b s.1) ?_ (h₁.trans h₂)
    rintro k ⟨b₃, items⟩ h₃
    refine (hp.arrayRound sched k b₃ items).mono ?_
    rintro (s | s) hs
    · exact h₃.trans hs.advances
    · exact h₃.trans hs
  · exact gives_ok h₁

variable [Unwritten]

theorem Advancing.objectRound (sched : Schedule) (m : Nat) (b : Charbuf) (members : List (Bytes × JsonVal)) :
    Gives (objectRound sched parse m (b, members))
      (Sum.elim (fun s => Progresses b s.1) fun r => Advances b r.2) := by
  rcases hpeek : charbufPeekc sched b with ⟨_ | c, b₁⟩
  · simp only [Dirlist.objectRound, hpeek]
    exact gives_ok (advances_peekc hpeek)
  · have h₁ := advances_peekc hpeek
    simp only [Dirlist.objectRound, hpeek]
    split
    · rcases hnext : charbufNextc sched b₁ with ⟨c, b₂⟩
      exact gives_ok (h₁.trans (advances_nextc hnext))
    · refine (advances_parseKey sched m b₁).bind ?_
      rintro ⟨key, b₂⟩ h₂
      refine (advances_skipWs sched m b₂).bind ?_
      rintro ⟨r, b₃⟩ h₃
      refine (advances_skipIfeq sched m b₃ 58).bind ?_
      rintro ⟨r, b₄⟩ h₄
      have h₄ := ((h₁.trans h₂).trans h₃).trans h₄
      dsimp only
      split
      · refine (advances_skipWs sched m b₄).bind ?_
        rintro ⟨r, b₅⟩ h₅
        refine (hp m .undefined b₅).bind ?_
        rintro ⟨r, v, b₆⟩ h₆
        have h₆ := (h₄.trans h₅).trans h₆
        dsimp only
        split
        · have hins : Gives (mapInsert members key v) fun _ => True := fun _ _ => trivial
          refine hins.bind fun members' _ => ?_
          refine (advances_skipDelimiter sched m b₆ 125).bind ?_
          rintro ⟨more, b₇⟩ ⟨h₇, hmore⟩
          dsimp only
          split
          · next h => exact gives_ok (h₆.progresses (hmore h))
          · exact gives_ok (h₆.trans h₇)
        · exact gives_ok h₆
      · exact gives_ok h₄

theorem Advancing.parseObject (sched : Schedule) (m : Nat) (val : JsonVal) (b : Charbuf) :
    Gives (jsonParseObject sched parse m val b) fun x => Advances b x.2.2 := by
  refine (advances_skipIfeq sched m b 123).bind ?_
  rintro ⟨r, b₁⟩ h₁
  dsimp only
  split
  · refine (advances_skipWs sched m b₁).bind ?_
    rintro ⟨r, b₂⟩ h₂
    refine Gives.bind (P := fun x => Advances b x.2) ?_ fun x hx => gives_ok hx
    refine Gives.loop (I := fun s => Advances b s.1) ?_ (h₁.trans h₂)
    rintro k ⟨b₃, members⟩ h₃
    refine (hp.objectRound sched k b₃ members).mono ?_
    rintro (s | s) hs
    · exact h₃.trans hs.advances
    · exact h₃.trans hs
  · exact gives_ok h₁

end

theorem advances_firstOf {ps : List Parse} (hps : ∀ p ∈ ps, Advancing p) : Advancing (firstOf ps) := by
  intro m j b
  induction ps generalizing j b with
  | nil => exact gives_ok (Advances.refl b)
  | cons p ps ih =>
    obtain ⟨hp, hps⟩ := List.forall_mem_cons.mp hps
    refine (hp m j b).bind ?_
    rintro ⟨r, j₁, b₁⟩ h₁
    dsimp only
    split
    · exact gives_ok h₁
    · exact (ih hps j₁ b₁).mono fun x hx => h₁.trans hx

theorem advancing_jsonParse [Unwritten] (sched : Schedule) (d : Nat) : Advancing (jsonParse sched d) := by
  induction d with
  | zero => exact fun _ _ _ => gives_error
  | succ d ih =>
    intro m j b
    refine (advances_skipWs sched m b).bind ?_
    rintro ⟨r, b₁⟩ h₁
    refine (advances_firstOf ?_ m j b₁).mono fun x hx => h₁.trans hx
    simp only [List.forall_mem_cons, List.not_mem_nil, false_imp_iff, implies_true, and_true]
    exact ⟨ih.parseObject sched, ih.parseArray sched, advances_parseNull sched, advances_parseBoolean sched,
      advances_parseNumber sched, advances_parseString sched⟩

end Dirlist
