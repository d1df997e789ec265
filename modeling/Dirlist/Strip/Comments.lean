import Dirlist.Charbuf.Reader
import Dirlist.Strip.Queue

/-! What `strip_comments` leaves of a text. It takes a block comment to end at a star behind its
`/*` or behind another star, so that comments are scanned well as long as their stars stand apart. -/

namespace Dirlist
open Run

/-! ## Comments -/

/-- Where in a text a byte stands. The second byte of `/*` and of `*/` has a place of its own. -/
inductive Place
  | code
  | line
  | opening
  | block
  | closing

/-- The bytes outside of comments. -/
def outside : Place → Bytes → Bytes
  | _, [] => []
  | .code, c :: s =>
    if c = 47 ∧ s.head? = some 47 then outside .line s
    else if c = 47 ∧ s.head? = some 42 then outside .opening s
    else c :: outside .code s
  | .line, c :: s => if c = 10 then c :: outside .code s else outside .line s
  | .opening, _ :: s => outside .block s
  | .block, c :: s => if c = 42 ∧ s.head? = some 47 then outside .closing s else outside .block s
  | .closing, _ :: s => outside .code s

/-- The bytes the scanner leaves. A comment with two stars together ends behind the second. -/
def kept : Place → Bytes → Bytes
  | _, [] => []
  | .code, c :: s =>
    if c = 47 ∧ s.head? = some 47 then kept .line s
    else if c = 47 ∧ s.head? = some 42 then kept .opening s
    else c :: kept .code s
  | .line, c :: s => if c = 10 then c :: kept .code s else kept .line s
  | .opening, _ :: s => if s.head? = some 42 then kept .closing s else kept .block s
  | .block, c :: s =>
    if c = 42 ∧ (s.head? = some 47 ∨ s.head? = some 42) then kept .closing s else kept .block s
  | .closing, _ :: s => kept .code s

/-- No block comment has a star behind its `/*` or behind another star, the one of its `*/`
included. -/
def StarsApart : Place → Bytes → Prop
  | _, [] => True
  | .code, c :: s =>
    if c = 47 ∧ s.head? = some 47 then StarsApart .line s
    else if c = 47 ∧ s.head? = some 42 then StarsApart .opening s
    else StarsApart .code s
  | .line, c :: s => if c = 10 then StarsApart .code s else StarsApart .line s
  | .opening, _ :: s => s.head? ≠ some 42 ∧ StarsApart .block s
  | .block, c :: s =>
    if c = 42 ∧ s.head? = some 47 then StarsApart .closing s
    else (c = 42 → s.head? ≠ some 42) ∧ StarsApart .block s
  | .closing, _ :: s => StarsApart .code s

instance decidableStarsApart : ∀ p s, Decidable (StarsApart p s)
  | _, [] => isTrue (by unfold StarsApart; trivial)
  | .code, c :: s =>
    have := fun p => decidableStarsApart p s
    inferInstanceAs (Decidable (if c = 47 ∧ s.head? = some 47 then _
      else if c = 47 ∧ s.head? = some 42 then _ else _))
  | .line, c :: s =>
    have := fun p => decidableStarsApart p s
    inferInstanceAs (Decidable (if c = 10 then _ else _))
  | .opening, _ :: s =>
    have := decidableStarsApart .block s
    inferInstanceAs (Decidable (s.head? ≠ some 42 ∧ _))
  | .block, c :: s =>
    have := fun p => decidableStarsApart p s
    inferInstanceAs (Decidable (if c = 42 ∧ s.head? = some 47 then _ else (c = 42 → _) ∧ _))
  | .closing, _ :: s => decidableStarsApart .code s

/-! ## Block comments -/

variable {b : Charbuf} {s w t : Bytes}

theorem kept_eq_outside {p : Place} (h : StarsApart p s) : kept p s = outside p s := by
  induction s generalizing p with
  | nil => cases p <;> rfl
  | cons c s ih =>
    cases p with
    | code =>
      simp only [StarsApart] at h
      rw [kept, outside]
      by_cases hline : c = 47 ∧ s.head? = some 47
      · rw [if_pos hline] at h
        rw [if_pos hline, if_pos hline, ih h]
      · by_cases hblock : c = 47 ∧ s.head? = some 42
        · rw [if_neg hline, if_pos hblock] at h
          rw [if_neg hline, if_pos hblock, if_neg hline, if_pos hblock, ih h]
        · rw [if_neg hline, if_neg hblock] at h
          rw [if_neg hline, if_neg hblock, if_neg hline, if_neg hblock, ih h]
    | line =>
      simp only [StarsApart] at h
      rw [kept, outside]
      by_cases hend : c = 10
      · rw [if_pos hend] at h
        rw [if_pos hend, if_pos hend, ih h]
      · rw [if_neg hend] at h
        rw [if_neg hend, if_neg hend, ih h]
    | opening => rw [kept, outside, if_neg h.1, ih h.2]
    | block =>
      simp only [StarsApart] at h
      rw [kept, outside]
      by_cases hend : c = 42 ∧ s.head? = some 47
      · rw [if_pos hend] at h
        rw [if_pos ⟨hend.1, .inl hend.2⟩, if_pos hend, ih h]
      · rw [if_neg hend] at h
        have hnot : ¬ (c = 42 ∧ (s.head? = some 47 ∨ s.head? = some 42)) := by
          rintro ⟨hc, hnext | hnext⟩
          · exact hend ⟨hc, hnext⟩
          · exact h.1 hc hnext
        rw [if_neg hnot, if_neg hend, ih h.2]
    | closing => exact ih h

theorem kept_opening (s : Bytes) :
    kept .opening (42 :: s) = if s.head? = some 42 then kept .closing s else kept .block s := rfl

theorem kept_line_append (h : ∀ c ∈ w, c ≠ 10) : kept .line (w ++ t) = kept .line t := by
  induction w with
  | nil => rfl
  | cons c w ih =>
    rw [List.forall_mem_cons] at h
    rw [List.cons_append, kept, if_neg h.1, ih h.2]

theorem kept_block_append (h : ∀ c ∈ w, c ≠ 42) : kept .block (w ++ t) = kept .block t := by
  induction w with
  | nil => rfl
  | cons c w ih =>
    rw [List.forall_mem_cons] at h
    rw [List.cons_append, kept, if_neg fun hc => h.1 hc.1, ih h.2]

theorem getD_ne {d : UInt8} (hd : d ≠ 0) (h : s.head? ≠ some d) : (s.head?.getD 0).toNat ≠ d.toNat := by
  cases s with
  | nil => exact fun heq => hd (UInt8.toNat_inj.mp heq).symm
  | cons c s => exact fun heq => h (congrArg some (UInt8.toNat_inj.mp heq))

/-- The loop over a block comment goes to where the comment is taken to end. The last byte is
skipped behind it. -/
theorem block_returns (sched : Schedule) (h : At b s 1) (hz : 0 ∉ s) :
    ∃ b' u, Returns (fun k => loop (blockRound sched) k b) b' ∧ At (charbufSkip sched b').2 u 1 ∧ u <:+ s ∧
      kept .opening (42 :: s) = kept .code u := by
  induction hlen : s.length using Nat.strongRecOn generalizing s b with
  | _ len ih =>
    obtain ⟨w, t, rfl, hw, ht, htake, hdrop⟩ := exists_until 42 s
    obtain ⟨b₁, hskip, h₁⟩ := h.skipUntil sched 42 (Nat.le_refl 1) hz
    rw [htake] at hskip
    rw [hdrop] at h₁
    rcases ht with rfl | ⟨t, rfl⟩
    · -- no star is left: the rest of the text is comment
      obtain ⟨b₂, hlast, h₂⟩ := h₁.skip_nil sched (Nat.le_refl 1)
      refine ⟨b₁, [], returns_loop_done (hskip.bind (returns_const ?_)), ?_, List.nil_suffix, ?_⟩
      · simp [skipResult]
      · rw [hlast]
        exact h₂
      · rw [kept_opening, if_neg, kept_block_append hw]
        · rfl
        · intro hhead
          rw [List.append_nil] at hhead
          exact hw 42 (List.mem_of_head? hhead) rfl
    · obtain ⟨b₂, hstar, h₂⟩ := h₁.skip sched
      by_cases hw0 : w = []
      · -- a star at once: nothing was skipped, which the loop takes for the end of the text
        subst hw0
        refine ⟨b₁, t, returns_loop_done (hskip.bind (returns_const ?_)), ?_, List.suffix_cons .., rfl⟩
        · simp [skipResult]
        · rw [hstar]
          exact h₂.mono (Nat.zero_le 1)
      · have hpos := List.length_pos_iff.mpr hw0
        have hne : skipResult (w ++ 42 :: t) 0 w.length ≠ 0 := by
          rw [skipResult, List.length_append, List.length_cons, if_neg (by omega)]
          omega
        have hhead : (w ++ 42 :: t).head? ≠ some 42 := by
          rw [List.head?_append_of_ne_nil _ hw0]
          exact fun hhead => hw 42 (List.mem_of_head? hhead) rfl
        rw [kept_opening, if_neg hhead, kept_block_append hw, kept]
        obtain ⟨b₃, hpeek, h₃⟩ := (h₂.mono (Nat.zero_le 1)).peek sched (Nat.le_refl 1)
        by_cases hslash : t.head? = some 47
        · obtain ⟨u, rfl⟩ : ∃ u, t = 47 :: u := by
            cases t with
            | nil => cases hslash
            | cons c u => exact ⟨u, by rw [Option.some.inj hslash]⟩
          obtain ⟨b₄, hlast, h₄⟩ := h₃.skip sched
          refine ⟨b₃, u, returns_loop_done (hskip.bind (returns_const ?_)), ?_, ?_, ?_⟩
          · simp [hne, hstar, hpeek]
          · rw [hlast]
            exact h₄.mono (Nat.zero_le 1)
          · exact ⟨w ++ [42, 47], by simp⟩
          · rw [if_pos ⟨rfl, .inl rfl⟩, kept]
        · obtain ⟨b₄, u, hr, hu, hsuf, hkept⟩ := ih t.length (by simp at hlen; omega) h₃
            (fun hmem => hz (by simp [hmem])) rfl
          refine ⟨b₄, u, returns_loop_next (hskip.bind (returns_const ?_)) hr, hu, ?_, ?_⟩
          · have hpeek' : (t.head?.getD 0).toNat ≠ 47 := getD_ne (d := 47) (by decide) hslash
            simp [hne, hstar, hpeek, hpeek']
          · exact hsuf.trans ⟨w ++ [42], by simp⟩
          · rw [← hkept, kept_opening]
            simp only [true_and, hslash, false_or]

/-! ## The scanner -/

/-- What was written, what is queued and the line make up the bytes kept so far. -/
structure Holds (st : Strip) (done : Bytes) : Prop where
  ready : Ready st.queue
  clean : 0 ∉ st.line
  same : nonspace (st.out ++ (st.queue ++ st.line)) = nonspace done

theorem keepByte_returns {st : Strip} {done : Bytes} {c : UInt8} (h : Holds st done) (hc : c ≠ 0) :
    ∃ st', Returns (fun k => keepByte k st c.toNat) st' ∧ st'.input = st.input ∧
      Holds st' (done ++ [c]) := by
  by_cases hnl : c = 10
  · subst hnl
    obtain ⟨q, v, hr, hq, hnon⟩ := putLine_returns h.ready h.clean st.out
    refine ⟨{ st with line := [], queue := q, out := st.out ++ v }, hr.bind (returns_ok _), rfl, hq,
      by simp, ?_⟩
    rw [nonspace_concat (by decide), ← h.same, List.append_nil, List.append_assoc, nonspace_append, hnon,
      ← nonspace_append]
  · have hne : c.toNat ≠ 10 := fun heq => hnl (UInt8.toNat_inj.mp heq)
    refine ⟨{ st with line := st.line ++ [c] }, (returns_ok _).congr fun k => ?_, rfl, h.ready, ?_, ?_⟩
    · rw [keepByte, if_neg hne, UInt8.ofNat_toNat]
    · simpa using ⟨h.clean, hc.symm⟩
    · rw [← List.append_assoc, ← List.append_assoc, nonspace_append, List.append_assoc, h.same,
        nonspace_append]

/-- Before a round: the input is at `rest`, and all that is kept in the end is the same. -/
structure Scans (st : Strip) (rest all : Bytes) : Prop where
  input : At st.input rest 1
  clean : 0 ∉ rest
  holds : ∃ done, Holds st done ∧ done ++ kept .code rest = all

theorem Holds.setInput {st : Strip} {done : Bytes} (h : Holds st done) (b : Charbuf) :
    Holds { st with input := b } done := ⟨h.ready, h.clean, h.same⟩

theorem kept_line_end (h : t = [] ∨ ∃ t', t = 10 :: t') : kept .line t = kept .code t := by
  rcases h with rfl | ⟨t', rfl⟩
  · rfl
  · rw [kept, kept, if_pos rfl, if_neg (by simp), if_neg (by simp)]

/-- A byte that stands in no comment. -/
theorem Scans.keep {st : Strip} {all : Bytes} {c : UInt8} (h : Scans st (c :: s) all)
    (hcode : kept .code (c :: s) = c :: kept .code s) (hb : At b s 1) :
    ∃ st', Returns (fun k => keepByte k { st with input := b } c.toNat) st' ∧ Scans st' s all := by
  obtain ⟨done, hdone, hall⟩ := h.holds
  obtain ⟨hc, hz⟩ : c ≠ 0 ∧ 0 ∉ s := by simpa [eq_comm] using h.clean
  obtain ⟨st', hr, hinput, hholds⟩ := keepByte_returns (hdone.setInput b) hc
  refine ⟨st', hr, hinput ▸ hb, hz, _, hholds, ?_⟩
  rw [← hall, hcode, List.append_assoc, List.singleton_append]

theorem stripRound_returns (sched : Schedule) {st : Strip} {rest all : Bytes} (h : Scans st rest all) :
    (∃ st', Returns (fun k => stripRound sched k st) (.inr st') ∧ Holds st' all) ∨
      ∃ st' rest', Returns (fun k => stripRound sched k st) (.inl st') ∧ Scans st' rest' all ∧
        rest'.length < rest.length := by
  obtain ⟨done, hdone, hall⟩ := h.holds
  cases rest with
  | nil =>
    obtain ⟨b₁, hget, -⟩ := h.input.get_nil sched (Nat.le_refl 1)
    refine .inl ⟨{ st with input := b₁ }, (returns_ok _).congr fun k => ?_, ?_⟩
    · simp [stripRound, hget]
    · rw [← hall]
      simpa [kept] using hdone.setInput b₁
  | cons c s =>
    right
    obtain ⟨hc, hz⟩ : c ≠ 0 ∧ 0 ∉ s := by simpa [eq_comm] using h.clean
    obtain ⟨b₁, hget, h₁⟩ := h.input.get sched (Nat.le_refl 1) hc
    by_cases hslash : c = 47
    · subst hslash
      have h47' : UInt8.toNat 47 = 47 := rfl
      obtain ⟨b₂, hpeek, h₂⟩ := (h₁.mono (Nat.zero_le 1)).peek sched (Nat.le_refl 1)
      by_cases hline : s.head? = some 47
      · obtain ⟨w, t, rfl, hw, ht, htake, hdrop⟩ := exists_until 10 s
        obtain ⟨b₃, hskip, h₃⟩ := h₂.skipUntil sched 10 (Nat.le_refl 1) hz
        rw [hdrop] at h₃
        refine ⟨{ st with input := b₃ }, t,
          (hskip.bind (g := fun _ r => .ok (.inl { st with input := r.2 })) (returns_ok _)).congr
            fun k => ?_,
          ⟨h₃, fun hmem => hz (List.mem_append_right _ hmem), done, hdone.setInput b₃, ?_⟩, ?_⟩
        · simp only [stripRound, hget, hpeek, hline, h47', Option.getD_some, if_true]
          rfl
        · rw [← hall, kept, if_pos ⟨rfl, hline⟩, kept_line_append hw, kept_line_end ht]
        · rw [List.length_cons, List.length_append]
          omega
      · by_cases hblock : s.head? = some 42
        · obtain ⟨u, rfl⟩ : ∃ u, s = 42 :: u := by
            cases s with
            | nil => cases hblock
            | cons d u => exact ⟨u, by rw [Option.some.inj hblock]⟩
          obtain ⟨b₃, hstar, h₃⟩ := h₂.skip sched
          obtain ⟨b₄, v, hr, h₄, hsuf, hkept⟩ := block_returns sched
            (h₃.mono (Nat.zero_le 1)) fun hmem => hz (List.mem_cons_of_mem _ hmem)
          refine ⟨{ st with input := (charbufSkip sched b₄).2 }, v,
            (hr.bind (g := fun _ b => .ok (.inl { st with input := (charbufSkip sched b).2 }))
              (returns_ok _)).congr fun k => ?_,
            ⟨h₄, fun hmem => hz (List.mem_cons_of_mem _ (hsuf.subset hmem)), done,
              hdone.setInput _, ?_⟩, ?_⟩
          · simp only [stripRound, hget, hpeek, hstar, h47', List.head?_cons, Option.getD_some, if_true]
            rfl
          · rw [← hall, kept, if_neg fun hh => hline hh.2, if_pos ⟨rfl, hblock⟩, hkept]
          · have := hsuf.length_le
            rw [List.length_cons, List.length_cons]
            omega
        · obtain ⟨st', hr, hscan⟩ := h.keep (by rw [kept, if_neg fun hh => hline hh.2,
            if_neg fun hh => hblock hh.2]) h₂
          refine ⟨st', s, (hr.bind (g := fun _ st => .ok (.inl st)) (returns_ok _)).congr fun k => ?_,
            hscan, Nat.lt_succ_self _⟩
          have h47 : (s.head?.getD 0).toNat ≠ 47 := getD_ne (d := 47) (by decide) hline
          have h42 : (s.head?.getD 0).toNat ≠ 42 := getD_ne (d := 42) (by decide) hblock
          simp only [stripRound, hget, hpeek, h47, h42, h47', if_false, if_true]
          rfl
    · obtain ⟨st', hr, hscan⟩ := h.keep (by rw [kept, if_neg fun hh => hslash hh.1,
        if_neg fun hh => hslash hh.1]) (h₁.mono (Nat.zero_le 1))
      refine ⟨st', s, (hr.bind (g := fun _ st => .ok (.inl st)) (returns_ok _)).congr fun k => ?_, hscan,
        Nat.lt_succ_self _⟩
      have hc0 : c.toNat ≠ 0 := Nat.pos_iff_ne_zero.mp (toNat_pos_of_ne_zero hc)
      have h47 : c.toNat ≠ 47 := fun heq => hslash (UInt8.toNat_inj.mp heq)
      simp only [stripRound, hget, hc0, h47, if_false]

theorem strip_returns (sched : Schedule) {st : Strip} {rest all : Bytes} (h : Scans st rest all) :
    ∃ st', Returns (fun k => loop (stripRound sched) k st) st' ∧ Holds st' all := by
  induction hlen : rest.length using Nat.strongRecOn generalizing st rest with
  | _ len ih =>
    rcases stripRound_returns sched h with ⟨st', hr, hholds⟩ | ⟨st', rest', hr, hscan, hlt⟩
    · exact ⟨st', returns_loop_done hr, hholds⟩
    · obtain ⟨st'', hr', hholds⟩ := ih rest'.length (hlen ▸ hlt) hscan rfl
      exact ⟨st'', returns_loop_next hr hr', hholds⟩

/-- The program writes what the scanner leaves, up to white space. -/
theorem stripComments_returns (sched : Schedule) {input : Bytes} (h0 : 0 ∉ input) :
    ∃ out, Returns (fun k => stripComments sched k (charbufInit input 2)) out ∧
      nonspace out = nonspace (kept .code input) := by
  have hscan : Scans ⟨charbufInit input 2, [], [], []⟩ input (kept .code input) :=
    ⟨at_init (show 8 ≠ 0 by decide), h0, [], ⟨ready_nil, by simp, rfl⟩, rfl⟩
  obtain ⟨st, hr, hholds⟩ := strip_returns sched hscan
  obtain ⟨v, hflush, hnon⟩ := flushLine_returns hholds.ready hholds.clean st.out
  refine ⟨st.out ++ v, hr.bind hflush, ?_⟩
  rw [nonspace_append, hnon, ← nonspace_append, hholds.same]

/-- Exactly the comments are left out where the stars of every one stand apart, or where it comes
to the same if they do not. -/
theorem stripComments_iff (sched : Schedule) {input : Bytes} (h0 : 0 ∉ input) :
    (∃ out, Returns (fun k => stripComments sched k (charbufInit input 2)) out ∧
      nonspace out = nonspace (outside .code input)) ↔
      StarsApart .code input ∨ nonspace (kept .code input) = nonspace (outside .code input) := by
  obtain ⟨out, hr, hout⟩ := stripComments_returns sched h0
  constructor
  · rintro ⟨out', hr', hout'⟩
    obtain rfl := hr.unique hr'
    exact .inr (hout.symm.trans hout')
  · rintro (hapart | hsame)
    · exact ⟨out, hr, by rw [hout, kept_eq_outside hapart]⟩
    · exact ⟨out, hr, hout.trans hsame⟩

/-- `a/* b * c */d // e` -/
theorem stripComments_ad : ∃ out,
    Returns (fun k => stripComments (fun _ => 1) k (charbufInit [97, 47, 42, 32, 98, 32, 42, 32, 99, 32, 42, 47,
      100, 32, 47, 47, 32, 101] 2)) out ∧ nonspace out = [97, 100] :=
  (stripComments_iff _ (by decide)).mpr (.inl (by decide))

/-- `/** x */` is left as `x */`. -/
theorem stripComments_doc : ¬∀ (sched : Schedule) (input : Bytes), 0 ∉ input → 34 ∉ input → 39 ∉ input →
    ∃ out, Returns (fun k => stripComments sched k (charbufInit input 2)) out ∧
      nonspace out = nonspace (outside .code input) := by
  intro hall
  obtain ⟨out, hr, hout⟩ := hall (fun _ => 1) [47, 42, 42, 32, 120, 32, 42, 47] (by decide) (by decide)
    (by decide)
  obtain ⟨out', hr', hout'⟩ := stripComments_returns (fun _ => 1)
    (show 0 ∉ [47, 42, 42, 32, 120, 32, 42, 47] by decide)
  obtain rfl := hr.unique hr'
  rw [hout] at hout'
  exact absurd hout' (by decide)

end Dirlist
