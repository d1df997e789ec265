import Dirlist.Mainscan.Defs

/-! Where `main_scan` finds `main`. A text is described as the scan goes through it, and of such
a text the scan says what a reader of the whole text says. -/

namespace Dirlist
open Run

def CommentStart (l : Bytes) : Prop := l.head? = some 47 ∧ (l.tail.head? = some 42 ∨ l.tail.head? = some 47)

instance (l : Bytes) : Decidable (CommentStart l) := inferInstanceAs (Decidable (_ ∧ (_ ∨ _)))

/-! ## Reading the text -/

theorem mainCall_length {l : Bytes} (h : mainCall l = true) : 6 ≤ l.length := by
  obtain ⟨-, -, hlen⟩ := of_decide_eq_true h
  have hle := (List.dropWhile_sublist (l := l.drop 4) isspace).length_le
  rw [List.length_drop] at hle
  omega

theorem mainCall_head {c : UInt8} {l : Bytes} (h : mainCall (c :: l) = true) : c = 109 := by
  obtain ⟨hword, -⟩ := of_decide_eq_true h
  exact (List.cons.inj hword).1

theorem mainCall_take {l : Bytes} (h : l.take 4 ≠ mainName) : mainCall l = false :=
  decide_eq_false fun hcall => h hcall.1

theorem hasMain_code {c : UInt8} {l : Bytes} (h : ¬CommentStart (c :: l)) (ident : Bool) :
    hasMain (.code ident) (c :: l) =
      ((!ident && mainCall (c :: l)) || hasMain (.code (isIdent c)) l) := by
  have hblock : ¬(c = 47 ∧ l.head? = some 42) := fun hc => h ⟨congrArg some hc.1, .inl hc.2⟩
  have hline : ¬(c = 47 ∧ l.head? = some 47) := fun hc => h ⟨congrArg some hc.1, .inr hc.2⟩
  rw [hasMain, if_neg hblock, if_neg hline]

/-- Between two identifiers the next one may be `main`. -/
theorem hasMain_false (l : Bytes) :
    hasMain (.code false) l = (mainCall l || hasMain (.code true) l) := by
  cases l with
  | nil => rfl
  | cons c l =>
    by_cases h : CommentStart (c :: l)
    · have hcall : mainCall (c :: l) = false := by
        by_contra hne
        have hc := mainCall_head (Bool.not_eq_false _ ▸ hne)
        have h47 : c = 47 := Option.some.inj h.1
        rw [hc] at h47
        exact absurd h47 (by decide)
      rw [hcall, Bool.false_or, hasMain, hasMain]
      have hhead : c = 47 := Option.some.inj h.1
      rcases h.2 with h2 | h2
      · rw [if_pos ⟨hhead, h2⟩, if_pos ⟨hhead, h2⟩]
      · have h2' : l.head? = some 47 := h2
        have hblock : ¬(c = 47 ∧ l.head? = some 42) := by simp [h2']
        rw [if_neg hblock, if_neg hblock, if_pos ⟨hhead, h2⟩, if_pos ⟨hhead, h2⟩]
    · rw [hasMain_code h, hasMain_code h]
      simp

theorem hasMain_of_no_call {l : Bytes} (h : mainCall l = false) :
    hasMain (.code false) l = hasMain (.code true) l := by
  rw [hasMain_false, h, Bool.false_or]

theorem hasMain_length {l : Bytes} {s : Lexis} (h : hasMain s l = true) : 6 ≤ l.length := by
  induction l generalizing s with
  | nil => cases s <;> cases h
  | cons c l ih =>
    have hstep {s : Lexis} (hs : hasMain s l = true) : 6 ≤ (c :: l).length :=
      Nat.le_succ_of_le (ih hs)
    cases s with
    | code ident =>
      rw [hasMain] at h
      split_ifs at h
      · exact hstep h
      · exact hstep h
      · rcases Bool.or_eq_true _ _ ▸ h with h | h
        · exact mainCall_length (Bool.and_eq_true _ _ ▸ h).2
        · exact hstep h
    | line =>
      rw [hasMain] at h
      split_ifs at h <;> exact hstep h
    | opening => exact hstep h
    | block =>
      rw [hasMain] at h
      split_ifs at h <;> exact hstep h
    | closing => exact hstep h

/-- A `main` behind the first byte takes seven bytes. -/
theorem hasMain_true_length {l : Bytes} (h : hasMain (.code true) l = true) : 7 ≤ l.length := by
  cases l with
  | nil => cases h
  | cons c l =>
    have hl : 6 ≤ l.length := by
      rw [hasMain] at h
      split_ifs at h
      · exact hasMain_length h
      · exact hasMain_length h
      · rw [Bool.not_true, Bool.false_and, Bool.false_or] at h
        exact hasMain_length h
    exact Nat.succ_le_succ hl

theorem hasMain_short {l : Bytes} (h : l.length < 6) (s : Lexis) : hasMain s l = false := by
  by_contra hne
  have hlen := hasMain_length (Bool.not_eq_false _ ▸ hne)
  omega

/-- Behind a byte that opens no comment and that no `main` follows. -/
theorem hasMain_pass {c : UInt8} {l : Bytes} (hc : ¬CommentStart (c :: l)) (hl : mainCall l = false) :
    hasMain (.code true) (c :: l) = hasMain (.code true) l := by
  rw [hasMain_code hc, Bool.not_true, Bool.false_and, Bool.false_or]
  cases isIdent c
  · exact hasMain_of_no_call hl
  · rfl

theorem not_commentStart {c : UInt8} (hc : c ≠ 47) (l : Bytes) : ¬CommentStart (c :: l) :=
  fun h => hc (Option.some.inj h.1)

theorem hasMain_ident {c : UInt8} (hc : isIdent c = true) (hslash : c ≠ 47) (l : Bytes) :
    hasMain (.code true) (c :: l) = hasMain (.code true) l := by
  rw [hasMain_code (not_commentStart hslash l), Bool.not_true, Bool.false_and, Bool.false_or, hc]

theorem hasMain_mainName (l : Bytes) :
    hasMain (.code true) (mainName ++ l) = hasMain (.code true) l := by
  show hasMain (.code true) (109 :: 97 :: 105 :: 110 :: l) = _
  rw [hasMain_ident (by decide) (by decide), hasMain_ident (by decide) (by decide),
    hasMain_ident (by decide) (by decide), hasMain_ident (by decide) (by decide)]

theorem isspace_cases {c : UInt8} (h : isspace c = true) : c = 32 ∨ c.toNat < 14 := by
  simp only [isspace, Bool.or_eq_true, Bool.and_eq_true, decide_eq_true_eq, UInt8.le_iff_toNat_le] at h
  rcases h with h | ⟨-, h⟩
  · exact .inl h
  · exact .inr (Nat.lt_succ_of_le h)

theorem isIdent_isspace {c : UInt8} (h : isspace c = true) : isIdent c = false := by
  rcases isspace_cases h with rfl | hlt
  · decide
  · simp only [isIdent, isalpha, isdigit, UInt8.le_iff_toNat_le, ← UInt8.toNat_inj]
    have h65 : (65 : UInt8).toNat = 65 := rfl
    have h97 : (97 : UInt8).toNat = 97 := rfl
    have h48 : (48 : UInt8).toNat = 48 := rfl
    have h95 : (95 : UInt8).toNat = 95 := rfl
    simp
    omega

theorem hasMain_blanks {w : Bytes} (hw : ∀ b ∈ w, isspace b = true) (ident : Bool) (r : Bytes) :
    hasMain (.code ident) (w ++ r) = hasMain (.code (ident && decide (w = []))) r := by
  induction w generalizing ident with
  | nil => simp
  | cons c w ih =>
    obtain ⟨hc, hw⟩ := List.forall_mem_cons.mp hw
    have hslash : c ≠ 47 := by
      rintro rfl
      exact absurd hc (by decide)
    have hcall : mainCall (c :: (w ++ r)) = false := by
      by_contra hne
      obtain rfl := mainCall_head (Bool.not_eq_false _ ▸ hne)
      exact absurd hc (by decide)
    rw [List.cons_append, hasMain_code (not_commentStart hslash _), hcall, Bool.and_false,
      Bool.false_or, ih hw, isIdent_isspace hc]
    simp

/-! ## Comments -/

theorem hasMain_line {w : Bytes} (hw : 10 ∉ w) (r : Bytes) :
    hasMain .line (w ++ 10 :: r) = hasMain (.code false) r := by
  induction w with
  | nil => rw [List.nil_append, hasMain, if_pos rfl]
  | cons c w ih =>
    obtain ⟨hc, hw⟩ : c ≠ 10 ∧ 10 ∉ w := by simpa [eq_comm] using hw
    rw [List.cons_append, hasMain, if_neg hc, ih hw]

theorem hasMain_line_open {w : Bytes} (hw : 10 ∉ w) : hasMain .line w = false := by
  induction w with
  | nil => rfl
  | cons c w ih =>
    obtain ⟨hc, hw⟩ : c ≠ 10 ∧ 10 ∉ w := by simpa [eq_comm] using hw
    rw [hasMain, if_neg hc, ih hw]

/-- Nothing closes a block comment. -/
def NoClose (w : Bytes) : Prop := ¬[42, 47] <:+: w

theorem NoClose.tail {c : UInt8} {w : Bytes} (h : NoClose (c :: w)) : NoClose w :=
  fun hw => h (List.infix_cons hw)

theorem NoClose.cons {c : UInt8} {w : Bytes} (hc : c ≠ 42) (h : NoClose w) : NoClose (c :: w) := by
  intro hw
  rcases List.infix_cons_iff.mp hw with hw | hw
  · exact hc (List.cons_prefix_cons.mp hw).1.symm
  · exact h hw

theorem NoClose.head {c : UInt8} {w : Bytes} (h : NoClose (c :: w)) :
    ¬(c = 42 ∧ w.head? = some 47) := by
  rintro ⟨rfl, hw⟩
  cases w with
  | nil => cases hw
  | cons d w =>
    cases hw
    exact h (List.prefix_append [42, 47] w).isInfix

theorem hasMain_block {w : Bytes} (hw : NoClose (w ++ [42])) (r : Bytes) :
    hasMain .block (w ++ 42 :: 47 :: r) = hasMain (.code false) r := by
  induction w with
  | nil => rw [List.nil_append, hasMain, if_pos ⟨rfl, rfl⟩, hasMain]
  | cons c w ih =>
    have hc : ¬(c = 42 ∧ (w ++ 42 :: 47 :: r).head? = some 47) := by
      have h := hw.head
      cases w with
      | nil => simp
      | cons d w => simpa using h
    rw [List.cons_append, hasMain, if_neg hc, ih hw.tail]

theorem hasMain_block_open {w : Bytes} (hw : NoClose w) : hasMain .block w = false := by
  induction w with
  | nil => rfl
  | cons c w ih => rw [hasMain, if_neg hw.head, ih hw.tail]

/-! ## The searches -/

theorem byteEqualChecked_ok {s what : Bytes} (h : what.length ≤ s.length) :
    byteEqualChecked s what = .ok (decide (s.take what.length = what)) := by
  induction what generalizing s with
  | nil => simp [byteEqualChecked]
  | cons w what ih =>
    cases s with
    | nil => simp at h
    | cons b s =>
      have hlen : what.length ≤ s.length := by simpa using h
      rw [byteEqualChecked]
      by_cases hb : b = w
      · rw [if_pos hb, ih hlen]
        simp [hb]
      · rw [if_neg hb]
        simp [hb]

/-- The second byte is only looked at behind a star. -/
theorem byteEqualChecked_close {c : UInt8} {w : Bytes} (h : ¬(c = 42 ∧ w.head? = some 47))
    (hend : c = 42 → w ≠ []) : byteEqualChecked (c :: w) [42, 47] = .ok false := by
  rw [byteEqualChecked]
  by_cases hc : c = 42
  · cases w with
    | nil => exact absurd rfl (hend hc)
    | cons d w =>
      have hd : d ≠ 47 := fun hd => h ⟨hc, congrArg some hd⟩
      rw [if_pos hc, byteEqualChecked, if_neg hd]
  · rw [if_neg hc]

theorem findbRounds_close {w : Bytes} (hw : NoClose (w ++ [42])) (r : Bytes) {rounds : Nat}
    (h : w.length < rounds) (i : Nat) :
    findbRounds [42, 47] rounds i (w ++ 42 :: 47 :: r) = .ok (some (i + w.length)) := by
  induction w generalizing rounds i with
  | nil =>
    obtain ⟨k, rfl⟩ := Nat.exists_eq_succ_of_ne_zero (Nat.ne_of_gt h)
    have hfound : byteEqualChecked (42 :: 47 :: r) [42, 47] = .ok true := by simp [byteEqualChecked]
    rw [List.nil_append, findbRounds, hfound, ok_bind, if_pos rfl, List.length_nil, Nat.add_zero]
  | cons c w ih =>
    obtain ⟨k, rfl⟩ := Nat.exists_eq_succ_of_ne_zero (Nat.ne_of_gt (Nat.zero_lt_of_lt h))
    have hc : ¬(c = 42 ∧ (w ++ 42 :: 47 :: r).head? = some 47) := by
      have hhead := hw.head
      cases w with
      | nil => simp
      | cons d w => simpa using hhead
    rw [List.cons_append, findbRounds, byteEqualChecked_close hc fun _ => by simp, ok_bind,
      if_neg Bool.false_ne_true, List.tail_cons, ih hw.tail (Nat.lt_of_succ_lt_succ h)]
    rw [List.length_cons, Nat.add_assoc, Nat.add_comm 1]

/-- A search that closes nothing may still leave the text, at a star that ends it. -/
theorem findbRounds_open {w : Bytes} (hw : NoClose w) {rounds : Nat} (h : rounds ≤ w.length)
    (hend : rounds = w.length → w.getLast? ≠ some 42) (i : Nat) :
    findbRounds [42, 47] rounds i w = .ok none := by
  induction rounds generalizing w i with
  | zero => rfl
  | succ rounds ih =>
    cases w with
    | nil => simp at h
    | cons c w =>
      have hle : rounds ≤ w.length := by simpa using h
      have hstar : c = 42 → w ≠ [] := by
        rintro rfl rfl
        have hr : rounds = 0 := by simpa using hle
        exact hend (by simp [hr]) rfl
      have hlast : rounds = w.length → w.getLast? ≠ some 42 := by
        intro hr
        cases w with
        | nil => simp
        | cons d w => simpa using hend (by simp [hr])
      rw [findbRounds, byteEqualChecked_close hw.head hstar, ok_bind, if_neg Bool.false_ne_true,
        List.tail_cons, ih hw.tail hle hlast]

/-! ## A round -/

/-- A letter or an underscore: nothing that `main` may follow. -/
def WordStart (c : UInt8) : Prop := isalpha c = true ∨ c = 95

theorem WordStart.isIdent {c : UInt8} (h : WordStart c) : isIdent c = true := by
  rcases h with h | h <;> simp [Dirlist.isIdent, h]

theorem WordStart.ne_slash {c : UInt8} (h : WordStart c) : c ≠ 47 := by
  rintro rfl
  revert h
  unfold WordStart
  decide

section Rounds

variable (n k : Nat) {c : UInt8} {l : Bytes}

theorem mainRound_slash (h : 5 ≤ l.length) : mainRound n k (47 :: l) = mainSlash n (47 :: l) := by
  have hlen : 5 < (47 :: l).length := Nat.succ_le_succ h
  rw [mainRound, if_pos hlen]
  rfl

theorem mainRound_word (hc : WordStart c) (h : 5 ≤ l.length) : mainRound n k (c :: l) = .ok (.inl l) := by
  have hlen : 5 < (c :: l).length := Nat.succ_le_succ h
  have hne : ¬(isalpha c = false ∧ c ≠ 95) := by
    rintro ⟨halpha, hbar⟩
    rcases hc with hc | hc
    · rw [hc] at halpha
      cases halpha
    · exact hbar hc
  rw [mainRound, if_pos hlen]
  show (if c = 47 then _ else _) = _
  rw [if_neg hc.ne_slash, if_neg hne]
  rfl

/-- At a byte that `main` may follow. -/
theorem mainRound_other (hc : ¬WordStart c) (hslash : c ≠ 47) (h : 5 ≤ l.length) :
    mainRound n k (c :: l) = if l.take 4 = mainName then mainWord (c :: l) else .ok (.inl l) := by
  have hlen : 5 < (c :: l).length := Nat.succ_le_succ h
  have hword : isalpha c = false ∧ c ≠ 95 := by
    constructor
    · exact Bool.eq_false_iff.mpr fun halpha => hc (.inl halpha)
    · exact fun hbar => hc (.inr hbar)
  have hfour : mainName.length ≤ l.length := Nat.le_of_succ_le h
  have heq : byteEqualChecked ((c :: l).drop 1) mainName = .ok (decide (l.take 4 = mainName)) :=
    byteEqualChecked_ok hfour
  rw [mainRound, if_pos hlen]
  show (if c = 47 then _ else _) = _
  rw [if_neg hslash, if_pos hword, heq]
  simp

theorem mainSlash_slash (h : ¬CommentStart (47 :: l)) (hl : l ≠ []) :
    mainSlash n (47 :: l) = .ok (.inl l) := by
  cases l with
  | nil => exact absurd rfl hl
  | cons d l =>
    have hstar : d ≠ 42 := fun hd => h ⟨rfl, .inl (congrArg some hd)⟩
    have hslash : d ≠ 47 := fun hd => h ⟨rfl, .inr (congrArg some hd)⟩
    show (if d = 42 then _ else if d = 47 then _ else _) = _
    rw [if_neg hstar, if_neg hslash]
    rfl

theorem mainSlash_line {w : Bytes} (hw : 10 ∉ w) (r : Bytes)
    (h : (47 :: 47 :: (w ++ 10 :: r)).length ≤ n) :
    mainSlash n (47 :: 47 :: (w ++ 10 :: r)) = .ok (.inl r.tail) := by
  have hw' : (10 : UInt8) ∉ 47 :: 47 :: w := by simpa using hw
  have hlen : (47 :: 47 :: w).length < n := by
    simp only [List.length_cons, List.length_append] at h ⊢
    omega
  have hchr : byteChrChecked 10 n (47 :: 47 :: (w ++ 10 :: r)) = .ok (w.length + 2) :=
    byteChrChecked_at hw' r hlen
  show (do
    let i ← byteChrChecked 10 n (47 :: 47 :: (w ++ 10 :: r))
    Except.ok (Sum.inl ((47 :: 47 :: (w ++ 10 :: r)).drop (i + 1 + 1)))) = _
  rw [hchr, ok_bind]
  show Except.ok (Sum.inl ((w ++ 10 :: r).drop (w.length + 2))) = _
  rw [← List.drop_drop, List.drop_left]
  cases r <;> rfl

theorem mainSlash_lineEnd {w : Bytes} (hw : 10 ∉ w) (h : (47 :: 47 :: w).length = n) :
    mainSlash n (47 :: 47 :: w) = .ok (.inl []) := by
  have hw' : (10 : UInt8) ∉ 47 :: 47 :: w := by simpa using hw
  have hchr : byteChrChecked 10 n (47 :: 47 :: w) = .ok n := by
    subst h
    exact byteChrChecked_free hw'
  show (do
    let i ← byteChrChecked 10 n (47 :: 47 :: w)
    Except.ok (Sum.inl ((47 :: 47 :: w).drop (i + 1 + 1)))) = _
  rw [hchr, ok_bind, List.drop_eq_nil_of_le (by omega)]

theorem mainSlash_block (hlen : 2 ≤ n) (hl : l.head? = some 42) {i : Option Nat}
    (hi : findbRounds [42, 47] (n - 1) 0 (47 :: l) = .ok i) :
    mainSlash n (47 :: l) = .ok (.inl ((47 :: l).drop (i.getD n))) := by
  have hskip : skipComment (47 :: l) n = .ok (i.getD n) := by
    have hrounds : n - ([42, 47] : Bytes).length + 1 = n - 1 := by
      show n - 2 + 1 = n - 1
      omega
    have hshort : ¬n < ([42, 47] : Bytes).length := Nat.not_lt.mpr hlen
    rw [skipComment, byteFindbChecked, if_neg hshort, hrounds, hi, ok_bind]
  cases l with
  | nil => cases hl
  | cons d l =>
    cases hl
    show (do
      let i ← skipComment (47 :: 42 :: l) n
      Except.ok (Sum.inl ((47 :: 42 :: l).drop i))) = _
    rw [hskip, ok_bind]

/-- A closed comment is left at the two bytes that close it. -/
theorem mainSlash_close {w : Bytes} (hw : NoClose (42 :: w ++ [42])) (r : Bytes)
    (h : (47 :: 42 :: (w ++ 42 :: 47 :: r)).length ≤ n) :
    mainSlash n (47 :: 42 :: (w ++ 42 :: 47 :: r)) = .ok (.inl (42 :: 47 :: r)) := by
  simp only [List.length_cons, List.length_append] at h
  have hw' : NoClose ((47 :: 42 :: w) ++ [42]) := hw.cons (by decide)
  have hrounds : (47 :: 42 :: w).length < n - 1 := by
    simp only [List.length_cons]
    omega
  have hi : findbRounds [42, 47] (n - 1) 0 (47 :: 42 :: (w ++ 42 :: 47 :: r)) =
      .ok (some (0 + (47 :: 42 :: w).length)) := findbRounds_close hw' r hrounds 0
  have hdrop : ((47 :: 42 :: w) ++ 42 :: 47 :: r).drop (47 :: 42 :: w).length = 42 :: 47 :: r := List.drop_left
  rw [mainSlash_block n (by omega) rfl hi, Option.getD_some, Nat.zero_add]
  exact congrArg (fun s => Except.ok (Sum.inl s)) hdrop

theorem mainSlash_blockEnd {w : Bytes} (hw : NoClose (42 :: w)) (h : (47 :: 42 :: w).length ≤ n)
    (hn : n ≤ (47 :: 42 :: w).length + 1)
    (hend : n = (47 :: 42 :: w).length + 1 → (42 :: w).getLast? ≠ some 42) :
    mainSlash n (47 :: 42 :: w) = .ok (.inl []) := by
  have hw' : NoClose (47 :: 42 :: w) := hw.cons (by decide)
  have hlen : 2 ≤ n := Nat.le_trans (by simp) h
  have hlast : n - 1 = (47 :: 42 :: w).length → (47 :: 42 :: w).getLast? ≠ some 42 := by
    intro heq
    rw [List.getLast?_cons_cons]
    exact hend (by omega)
  have hi := findbRounds_open hw' (by omega : n - 1 ≤ (47 :: 42 :: w).length) hlast 0
  rw [mainSlash_block n hlen rfl hi, Option.getD_none, List.drop_eq_nil_of_le h]

end Rounds

/-- Where a `main` and the blanks behind it leave the scan. -/
theorem mainWord_eq {c : UInt8} {w r : Bytes} (hw : ∀ b ∈ w, isspace b = true)
    (hr : ∀ b ∈ r.head?, isspace b = false) (h : 5 ≤ (mainName ++ (w ++ r)).length) :
    mainWord (c :: (mainName ++ (w ++ r))) = if r = [] then .ok (.inr 0)
      else if 1 < r.length ∧ r.head? = some 40 then .ok (.inr 1) else .ok (.inl r.tail) := by
  have hlen : ¬(c :: (mainName ++ (w ++ r))).length ≤ 5 := by
    rw [List.length_cons]
    omega
  have hdrop : (c :: (mainName ++ (w ++ r))).drop 5 = w ++ r := rfl
  have hskip : scanWhitenskip (w ++ r) = w.length := by rw [scanWhitenskip, takeWhile_stop hw hr]
  rw [mainWord, if_neg hlen, hdrop]
  simp only [hskip, List.length_append, List.drop_left]
  cases r with
  | nil =>
    have hend : w.length ≥ w.length + ([] : Bytes).length := Nat.le_refl _
    rw [if_pos hend, if_pos rfl]
  | cons b r =>
    have hmore : ¬w.length ≥ w.length + (b :: r).length := by simp
    rw [if_neg hmore, if_neg (List.cons_ne_nil b r), List.drop_one]

theorem mainRound_call (n k : Nat) {c : UInt8} {l : Bytes} (hc : ¬WordStart c) (hslash : c ≠ 47)
    (h : mainCall l = true) : mainRound n k (c :: l) = .ok (.inr 1) := by
  obtain ⟨hword, hopen, hmore⟩ := of_decide_eq_true h
  have hlen : 5 ≤ l.length := Nat.le_of_succ_le (mainCall_length h)
  have hw : ∀ b ∈ (l.drop 4).takeWhile isspace, isspace b = true := fun b hb => List.mem_takeWhile_imp hb
  have hr := head_dropWhile isspace (l.drop 4)
  have hsplit : l = mainName ++ ((l.drop 4).takeWhile isspace ++ (l.drop 4).dropWhile isspace) := by
    rw [List.takeWhile_append_dropWhile, ← hword, List.take_append_drop]
  rw [mainRound_other n k hc hslash hlen, if_pos hword]
  rw [hsplit] at hlen ⊢
  have hne : (l.drop 4).dropWhile isspace ≠ [] := by
    intro hnil
    rw [hnil] at hopen
    cases hopen
  rw [mainWord_eq hw hr hlen, if_neg hne, if_pos ⟨hmore, hopen⟩]

theorem mainCall_eq {w r : Bytes} (hw : ∀ b ∈ w, isspace b = true)
    (hr : ∀ b ∈ r.head?, isspace b = false) :
    mainCall (mainName ++ (w ++ r)) = decide (1 < r.length ∧ r.head? = some 40) := by
  have htake : (mainName ++ (w ++ r)).take 4 = mainName := rfl
  have hdrop : (mainName ++ (w ++ r)).drop 4 = w ++ r := rfl
  have hblanks : (w ++ r).dropWhile isspace = r := by
    rw [List.dropWhile_append_of_pos hw]
    cases r with
    | nil => rfl
    | cons b r => rw [List.dropWhile_cons_of_neg (by simp [hr b rfl])]
  rw [mainCall, htake, hdrop, hblanks]
  simp [and_comm]

/-! ## The texts that are read rightly -/

/-- The scan passes over the byte that a newline or a `main` leaves it at. That is harmless if no
comment begins there and no `main` there or right behind it. -/
def passOver (ident : Bool) : Bytes → Bool
  | [] => true
  | b :: r => (ident || !mainCall (b :: r)) &&
      (r.length < 6 || (!decide (CommentStart (b :: r)) && (isIdent b || !mainCall r)))

/-- A text of `n` bytes from a byte on that no `main` begins at, as the scan goes through it. -/
inductive Scannable (n : Nat) : Bytes → Prop
  | short {l : Bytes} : l.length < 6 → Scannable n l
  | word {c : UInt8} {l : Bytes} : WordStart c → Scannable n l → Scannable n (c :: l)
  | slash {l : Bytes} : ¬CommentStart (47 :: l) → mainCall l = false → Scannable n l →
      Scannable n (47 :: l)
  -- the byte behind the newline is passed over
  | line {w r : Bytes} : 10 ∉ w → passOver false r = true → Scannable n r.tail →
      Scannable n (47 :: 47 :: (w ++ 10 :: r))
  | lineEnd {w : Bytes} : 10 ∉ w → (47 :: 47 :: w).length = n → Scannable n (47 :: 47 :: w)
  -- the star that opens a comment is also taken for one that closes it, and the slash that closes
  -- one for one that opens the next
  | block {w r : Bytes} : NoClose (42 :: w ++ [42]) → (CommentStart (47 :: r) → r.length < 5) →
      Scannable n (47 :: r) → Scannable n (47 :: 42 :: (w ++ 42 :: 47 :: r))
  | blockEnd {w : Bytes} : NoClose (42 :: w) → n ≤ (47 :: 42 :: w).length + 1 →
      (n = (47 :: 42 :: w).length + 1 → (42 :: w).getLast? ≠ some 42) → Scannable n (47 :: 42 :: w)
  | other {c : UInt8} {l : Bytes} : ¬WordStart c → c ≠ 47 → l.take 4 ≠ mainName → Scannable n l →
      Scannable n (c :: l)
  | call {c : UInt8} {l : Bytes} : isIdent c = false → c ≠ 47 → mainCall l = true →
      Scannable n (c :: l)
  | blanks {c : UInt8} {w : Bytes} : ¬WordStart c → c ≠ 47 → (∀ b ∈ w, isspace b = true) →
      Scannable n (c :: (mainName ++ w))
  -- so is the byte behind a `main` that is not called
  | mention {c : UInt8} {w r : Bytes} : ¬WordStart c → c ≠ 47 → (∀ b ∈ w, isspace b = true) →
      (∀ b ∈ r.head?, isspace b = false) → mainCall (mainName ++ (w ++ r)) = false →
      passOver (w = []) r = true → Scannable n r.tail → Scannable n (c :: (mainName ++ (w ++ r)))

theorem hasMain_passOver {ident : Bool} {r : Bytes} (h : passOver ident r = true) :
    hasMain (.code ident) r = hasMain (.code true) r.tail := by
  cases r with
  | nil => rfl
  | cons b r =>
    rw [passOver, Bool.and_eq_true] at h
    obtain ⟨hcall, hnext⟩ := h
    have hident : hasMain (.code ident) (b :: r) = hasMain (.code true) (b :: r) := by
      cases ident with
      | true => rfl
      | false =>
        rw [Bool.false_or, Bool.not_eq_true'] at hcall
        exact hasMain_of_no_call hcall
    rw [hident, List.tail_cons]
    rcases Bool.or_eq_true _ _ ▸ hnext with hlen | hnext
    · have hlen' : r.length < 6 := of_decide_eq_true hlen
      rw [hasMain_short hlen']
      by_contra hne
      have h7 := hasMain_true_length (Bool.not_eq_false _ ▸ hne)
      rw [List.length_cons] at h7
      omega
    · rw [Bool.and_eq_true] at hnext
      have hcomment : ¬CommentStart (b :: r) := by simpa using hnext.1
      rw [hasMain_code hcomment, Bool.not_true, Bool.false_and, Bool.false_or]
      rcases Bool.or_eq_true _ _ ▸ hnext.2 with hb | hb
      · rw [hb]
      · rw [Bool.not_eq_true'] at hb
        cases isIdent b
        · exact hasMain_of_no_call hb
        · rfl

/-- From here on the scan comes back, with what a reader finds behind the byte it stands at. -/
def MainScans (n : Nat) (l : Bytes) : Prop :=
  Returns (fun k => loop (mainRound n) k l) (hasMain (.code true) l).toNat

theorem scans_short (n : Nat) {l : Bytes} (h : l.length < 6) : MainScans n l := by
  unfold MainScans
  rw [hasMain_short h]
  apply returns_loop_done
  have hround (k : Nat) : mainRound n k l = .ok (.inr 0) := by
    rw [mainRound, if_neg (by omega)]
  simp only [hround]
  exact returns_ok _

theorem scans_of_long {n : Nat} {l : Bytes} (h : 6 ≤ l.length → MainScans n l) : MainScans n l := by
  rcases Nat.lt_or_ge l.length 6 with hlt | hge
  · exact scans_short n hlt
  · exact h hge

theorem scans_next {n : Nat} {l l' : Bytes} (hround : ∀ k, mainRound n k l = .ok (.inl l'))
    (hmain : hasMain (.code true) l = hasMain (.code true) l') (h : MainScans n l') : MainScans n l := by
  unfold MainScans
  rw [hmain]
  exact (returns_loop_iff hround _).mpr h

theorem scans_done {n : Nat} {l : Bytes}
    (hround : ∀ k, mainRound n k l = .ok (.inr (hasMain (.code true) l).toNat)) : MainScans n l := by
  unfold MainScans
  apply returns_loop_done
  simp only [hround]
  exact returns_ok _

theorem hasMain_nil (s : Lexis) : hasMain s [] = false := by cases s <;> rfl

theorem hasMain_open_line (w : Bytes) : hasMain (.code true) (47 :: 47 :: w) = hasMain .line w := by
  rw [hasMain, if_neg (by simp), if_pos ⟨rfl, rfl⟩, hasMain, if_neg (by decide)]

theorem hasMain_open_block (w : Bytes) : hasMain (.code true) (47 :: 42 :: w) = hasMain .block w := by
  rw [hasMain, if_pos ⟨rfl, rfl⟩, hasMain]

/-- The end of a comment takes two rounds, and `main` is looked for in neither. -/
theorem scans_close {n : Nat} {w r : Bytes} (hw : NoClose (42 :: w ++ [42]))
    (hr : CommentStart (47 :: r) → r.length < 5)
    (hlen : (47 :: 42 :: (w ++ 42 :: 47 :: r)).length ≤ n) (h : MainScans n (47 :: r)) :
    MainScans n (47 :: 42 :: (w ++ 42 :: 47 :: r)) := by
  have hmain : hasMain (.code true) (47 :: 42 :: (w ++ 42 :: 47 :: r)) = hasMain (.code true) (47 :: r) := by
    rw [hasMain_open_block, hasMain_block hw.tail]
    by_cases hc : CommentStart (47 :: r)
    · have hlt : (47 :: r).length < 6 := Nat.succ_lt_succ (hr hc)
      rw [hasMain_short hlt, hasMain_short (Nat.lt_of_succ_lt hlt)]
    · rw [hasMain_code hc]
      rfl
  have hstar : hasMain (.code true) (42 :: 47 :: r) = hasMain (.code true) (47 :: r) :=
    hasMain_pass (not_commentStart (by decide) _) (mainCall_take (by simp [mainName]))
  refine scans_of_long fun hlong => ?_
  refine scans_next (fun k => ?_) (hmain.trans hstar.symm) ?_
  · rw [mainRound_slash n k (Nat.le_of_succ_le_succ hlong), mainSlash_close n hw r hlen]
  refine scans_of_long fun hlong => scans_next (fun k => ?_) hstar h
  rw [mainRound_other n k (by unfold WordStart; decide) (by decide) (Nat.le_of_succ_le_succ hlong),
    if_neg (by simp [mainName])]

/-- The scan behind a byte that a `main` follows. -/
theorem hasMain_mention {c : UInt8} {w r : Bytes} (hc : c ≠ 47) (hw : ∀ b ∈ w, isspace b = true)
    (hcall : mainCall (mainName ++ (w ++ r)) = false) :
    hasMain (.code true) (c :: (mainName ++ (w ++ r))) = hasMain (.code (w = [])) r := by
  rw [hasMain_pass (not_commentStart hc _) hcall, hasMain_mainName, hasMain_blanks hw, Bool.true_and]

theorem mainRound_mention {n k : Nat} {c : UInt8} {w r : Bytes} (hc : ¬WordStart c) (hslash : c ≠ 47)
    (hw : ∀ b ∈ w, isspace b = true) (hr : ∀ b ∈ r.head?, isspace b = false)
    (hlong : 6 ≤ (c :: (mainName ++ (w ++ r))).length)
    (hcall : mainCall (mainName ++ (w ++ r)) = false) :
    mainRound n k (c :: (mainName ++ (w ++ r))) = .ok (if r = [] then .inr 0 else .inl r.tail) := by
  have hlen : 5 ≤ (mainName ++ (w ++ r)).length := Nat.le_of_succ_le_succ hlong
  have hopen : ¬(1 < r.length ∧ r.head? = some 40) := by
    rw [mainCall_eq hw hr] at hcall
    exact of_decide_eq_false hcall
  have hword : (mainName ++ (w ++ r)).take 4 = mainName := rfl
  rw [mainRound_other n k hc hslash hlen, if_pos hword, mainWord_eq hw hr hlen, if_neg hopen]
  split <;> rfl

theorem Scannable.scans {n : Nat} {l : Bytes} (h : Scannable n l) (hl : l.length ≤ n) : MainScans n l := by
  induction h with
  | short h => exact scans_short n h
  | word hc _ ih =>
    refine scans_of_long fun hlong => scans_next (fun k => ?_) ?_ (ih (Nat.le_of_succ_le hl))
    · exact mainRound_word n k hc (Nat.le_of_succ_le_succ hlong)
    · exact hasMain_ident hc.isIdent hc.ne_slash _
  | @slash l hcomment hcall _ ih =>
    refine scans_of_long fun hlong => scans_next (fun k => ?_) ?_ (ih (Nat.le_of_succ_le hl))
    · have hne : l ≠ [] := by
        rintro rfl
        simp at hlong
      rw [mainRound_slash n k (Nat.le_of_succ_le_succ hlong), mainSlash_slash n hcomment hne]
    · exact hasMain_pass hcomment hcall
  | @line w r hw hpass _ ih =>
    have hr : r.tail.length ≤ n := by
      simp only [List.length_cons, List.length_append, List.length_tail] at hl ⊢
      omega
    refine scans_of_long fun hlong => scans_next (fun k => ?_) ?_ (ih hr)
    · rw [mainRound_slash n k (Nat.le_of_succ_le_succ hlong), mainSlash_line n hw r hl]
    · rw [hasMain_open_line, hasMain_line hw, hasMain_passOver hpass]
  | lineEnd hw hn =>
    refine scans_of_long fun hlong => scans_next (fun k => ?_) ?_ (scans_short n (l := []) (by decide))
    · rw [mainRound_slash n k (Nat.le_of_succ_le_succ hlong), mainSlash_lineEnd n hw hn]
    · rw [hasMain_open_line, hasMain_line_open hw, hasMain_nil]
  | @block w r hw hcomment _ ih =>
    have hr : (47 :: r).length ≤ n := by
      simp only [List.length_cons, List.length_append] at hl ⊢
      omega
    exact scans_close hw hcomment hl (ih hr)
  | blockEnd hw hn hend =>
    refine scans_of_long fun hlong => scans_next (fun k => ?_) ?_ (scans_short n (l := []) (by decide))
    · rw [mainRound_slash n k (Nat.le_of_succ_le_succ hlong), mainSlash_blockEnd n hw hl hn hend]
    · rw [hasMain_open_block, hasMain_block_open hw.tail, hasMain_nil]
  | other hc hslash hmain _ ih =>
    refine scans_of_long fun hlong => scans_next (fun k => ?_) ?_ (ih (Nat.le_of_succ_le hl))
    · rw [mainRound_other n k hc hslash (Nat.le_of_succ_le_succ hlong), if_neg hmain]
    · exact hasMain_pass (not_commentStart hslash _) (mainCall_take hmain)
  | @call c l hc hslash hcall =>
    have hword : ¬WordStart c := fun h => by simp [h.isIdent] at hc
    have hmain : hasMain (.code true) (c :: l) = true := by
      rw [hasMain_code (not_commentStart hslash l), hc, hasMain_false, hcall]
      simp
    refine scans_done fun k => ?_
    rw [hmain, mainRound_call n k hword hslash hcall]
    rfl
  | @blanks c w hc hslash hw =>
    have hcall : mainCall (mainName ++ (w ++ [])) = false := by
      rw [mainCall_eq hw (by simp)]
      rfl
    have hmain := hasMain_mention hslash hw hcall
    rw [← List.append_nil w]
    refine scans_of_long fun hlong => scans_done fun k => ?_
    rw [hmain, hasMain_nil, mainRound_mention hc hslash hw (by simp) hlong hcall]
    rfl
  | @mention c w r hc hslash hw hr hcall hpass _ ih =>
    have hmain := hasMain_mention hslash hw hcall
    rw [hasMain_passOver hpass] at hmain
    have htail : r.tail.length ≤ n := by
      simp only [List.length_cons, List.length_append, List.length_tail] at hl ⊢
      omega
    refine scans_of_long fun hlong => ?_
    by_cases hnil : r = []
    · subst hnil
      refine scans_done fun k => ?_
      rw [hmain, mainRound_mention hc hslash hw hr hlong hcall]
      rfl
    · refine scans_next (fun k => ?_) hmain (ih htail)
      rw [mainRound_mention hc hslash hw hr hlong hcall, if_neg hnil]

/-- `main_scan` on a text that does not begin with `main` and that it reads rightly. -/
theorem mainScan_exact {p : Bytes} (hmain : mainCall p = false) (h : Scannable p.length p) :
    Returns (fun fuel => mainScan fuel p) (hasMain (.code false) p).toNat := by
  rw [hasMain_of_no_call hmain]
  exact h.scans (Nat.le_refl _)

/-- `/**/ int main(){}` -/
def commentedMain : Bytes :=
  [47, 42, 42, 47, 32, 105, 110, 116, 32, 109, 97, 105, 110, 40, 41, 123, 125]

theorem scannable_commentedMain : Scannable commentedMain.length commentedMain := by
  refine .block (w := []) (by unfold NoClose; decide) (by decide) ?_
  refine .slash (by decide) (by decide) (.other (by unfold WordStart; decide) (by decide) (by decide) ?_)
  refine .word (.inl (by decide)) (.word (.inl (by decide)) (.word (.inl (by decide)) ?_))
  exact .call (by decide) (by decide) (by decide)

theorem mainScan_commented : Returns (fun fuel => mainScan fuel commentedMain) 1 :=
  mainScan_exact (p := commentedMain) (by decide) scannable_commentedMain

/-- `main(){}`, where the first word of the text is not looked at. -/
def firstMain : Bytes := [109, 97, 105, 110, 40, 41, 123, 125]

theorem mainScan_first :
    hasMain (.code false) firstMain = true ∧ Returns (fun fuel => mainScan fuel firstMain) 0 := by
  refine ⟨by decide, ?_⟩
  have hsteady : Steady fun fuel => mainScan fuel firstMain :=
    steady_loop (fun x => steady_const (mainRound firstMain.length 0 x)) firstMain
  exact hsteady.returns (n := 4) (by decide)

end Dirlist
