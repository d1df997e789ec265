import Dirlist.Charbuf.View

/-! What a parser over a character buffer needs to know of it: the bytes that are left, and
how many of them were looked at. Each call of charbuf.h is described in these terms. -/

namespace Dirlist
open Run

/-- The buffer is about to deliver `rest`, with at most `q` bytes looked at. The size is
what looking ahead for a word of four letters takes. -/
structure At (b : Charbuf) (rest : Bytes) (q : Nat) : Prop where
  view : ∃ consumed, View b consumed rest
  size : 8 ≤ b.a
  ahead : b.window.length ≤ q

variable {sched : Schedule} {b : Charbuf} {rest : Bytes} {q : Nat}

theorem at_init {stream : Bytes} {lookahead : Nat} (ha : (charbufInit stream lookahead).a ≠ 0) :
    At (charbufInit stream lookahead) stream 1 := by
  have h8 : (charbufInit stream lookahead).a % 8 = 0 := by
    show (lookahead + 7) % 2 ^ 32 / 8 * 8 % 2 ^ 12 % 8 = 0
    omega
  exact ⟨⟨[], view_init (Nat.pos_of_ne_zero ha)⟩, by omega, Nat.zero_le _⟩

theorem At.mono {q' : Nat} (h : At b rest q) (hq : q ≤ q') : At b rest q' :=
  ⟨h.view, h.size, Nat.le_trans h.ahead hq⟩

theorem At.peekc (sched : Schedule) (h : At b rest q) (hq : 1 ≤ q) :
    ∃ b', charbufPeekc sched b = (rest.head?, b') ∧ At b' rest q := by
  obtain ⟨consumed, hv⟩ := h.view
  obtain ⟨b', heq, hv', ha, hw⟩ := hv.peekc sched
  have := h.ahead
  refine ⟨b', heq, ⟨consumed, hv'⟩, ha ▸ h.size, ?_⟩
  rw [hw, List.length_take]
  omega

theorem At.skip (sched : Schedule) {c : UInt8} (h : At b (c :: rest) q) :
    ∃ b', charbufSkip sched b = (c.toNat, b') ∧ At b' rest (q - 1) := by
  obtain ⟨consumed, hv⟩ := h.view
  obtain ⟨b', heq, hv', ha, hw⟩ := hv.skip sched
  have := h.ahead
  refine ⟨b', heq, ⟨_, hv'⟩, ha ▸ h.size, ?_⟩
  rw [hw, List.length_take]
  omega

theorem At.nextc (sched : Schedule) {c : UInt8} (h : At b (c :: rest) q) (hc : c ≠ 0) :
    ∃ b', charbufNextc sched b = (rest.head?, b') ∧ At b' rest (max 1 (q - 1)) := by
  obtain ⟨b₁, hskip, h₁⟩ := h.skip sched
  obtain ⟨b₂, hpeek, h₂⟩ := (h₁.mono (Nat.le_max_right 1 _)).peekc sched (Nat.le_max_left 1 _)
  refine ⟨b₂, ?_, h₂⟩
  simp only [charbufNextc, hskip, gt_iff_lt, toNat_pos_of_ne_zero hc, if_true, hpeek]

theorem At.predSkip (sched : Schedule) (pred : UInt8 → Nat → Bool) (h : At b rest q)
    (hz : ∀ n, pred 0 n = false) :
    ∃ b', Returns (fun m => charbufPredSkip sched m b pred)
        (skipResult rest 0 (predCount pred 0 rest), b') ∧
      At b' (rest.drop (predCount pred 0 rest)) (max 1 (q - predCount pred 0 rest)) := by
  have hne : ∀ (s : Bytes) (n : Nat), 0 ∉ s.take (predCount pred n s) := by
    intro s
    induction s with
    | nil => simp
    | cons c s ih =>
      intro n
      by_cases hp : pred c n = true
      · have hc : c ≠ 0 := by
          rintro rfl
          rw [hz] at hp
          cases hp
        rw [predCount, if_pos hp, List.take_succ_cons, List.mem_cons, not_or]
        exact ⟨hc.symm, ih (n + 1)⟩
      · rw [predCount, if_neg hp, List.take_zero]
        exact List.not_mem_nil
  obtain ⟨consumed, hv⟩ := h.view
  obtain ⟨b', hr, hv', ha, hw⟩ := hv.predSkip sched pred (hne rest 0)
  have := h.ahead
  refine ⟨b', hr, ⟨_, hv'⟩, ha ▸ h.size, ?_⟩
  rw [hw, List.length_take]
  omega

/-! ## White space -/

theorem drop_takeWhile (p : UInt8 → Bool) (s : Bytes) : s.drop (s.takeWhile p).length = s.dropWhile p := by
  have hsplit := congrArg (List.drop (s.takeWhile p).length)
    (List.takeWhile_append_dropWhile (p := p) (l := s))
  rw [List.drop_left] at hsplit
  exact hsplit.symm

theorem predCount_of_all {p : UInt8 → Bool} (n : Nat) (s : Bytes) :
    predCount (fun c _ => p c) n s = (s.takeWhile p).length := by
  induction s generalizing n with
  | nil => rfl
  | cons c s ih =>
    by_cases hp : p c = true
    · rw [predCount, if_pos hp, ih, List.takeWhile_cons_of_pos hp, List.length_cons]
    · rw [predCount, if_neg hp, List.takeWhile_cons_of_neg hp, List.length_nil]

/-- What is left behind white space. -/
def dropWs (s : Bytes) : Bytes := s.dropWhile isspace

theorem dropWs_append {w s : Bytes} (hw : ∀ c ∈ w, isspace c = true) : dropWs (w ++ s) = dropWs s := by
  induction w with
  | nil => rfl
  | cons c w ih =>
    rw [List.cons_append, dropWs, List.dropWhile_cons_of_pos (hw c List.mem_cons_self)]
    exact ih fun d hd => hw d (List.mem_cons_of_mem _ hd)

theorem dropWs_of_not {s : Bytes} (hs : ∀ c ∈ s.head?, isspace c = false) : dropWs s = s := by
  cases s with
  | nil => rfl
  | cons c s => exact List.dropWhile_cons_of_neg (by simp [hs c rfl])

theorem At.skipWs (sched : Schedule) (h : At b rest q) (hq : 1 ≤ q) :
    ∃ r b', Returns (fun m => charbufSkipWs sched m b) (r, b') ∧ At b' (dropWs rest) q := by
  obtain ⟨b', hr, h'⟩ := h.predSkip sched (fun c _ => isspace c) fun _ => rfl
  rw [predCount_of_all] at hr h'
  refine ⟨_, b', hr, ?_⟩
  rw [drop_takeWhile] at h'
  exact h'.mono (by omega)

/-! ## Single bytes -/

theorem predCount_samechar_pos (c : UInt8) (n : Nat) (s : Bytes) :
    predCount (isSamechar c) (n + 1) s = 0 := by
  cases s <;> simp [predCount, isSamechar]

/-- `charbuf_skip_ifeq` on another byte, or at the end. -/
theorem At.skipIfeq_ne (sched : Schedule) {c : UInt8} (h : At b rest q) (hq : 1 ≤ q) (hc : c ≠ 0)
    (hne : rest.head? ≠ some c) :
    ∃ b', Returns (fun m => charbufSkipIfeq sched m b c) (0, b') ∧ At b' rest q := by
  have hz : ∀ n, isSamechar c 0 n = false := by
    intro n
    simp [isSamechar, hc.symm]
  have hcount : predCount (isSamechar c) 0 rest = 0 := by
    cases rest with
    | nil => rfl
    | cons d rest =>
      have hd : d ≠ c := fun hd => hne (by rw [hd]; rfl)
      simp [predCount, isSamechar, hd]
  obtain ⟨b', hr, h'⟩ := h.predSkip sched (isSamechar c) hz
  rw [hcount] at hr h'
  refine ⟨b', ?_, h'.mono (by omega)⟩
  have hres : skipResult rest 0 0 = 0 := by
    unfold skipResult
    split <;> rfl
  rwa [hres] at hr

theorem At.skipIfeq_eq (sched : Schedule) {c : UInt8} (h : At b (c :: rest) q) (hc : c ≠ 0) :
    ∃ b', Returns (fun m => charbufSkipIfeq sched m b c) (if rest = [] then 0 else 1, b') ∧
      At b' rest (max 1 (q - 1)) := by
  have hz : ∀ n, isSamechar c 0 n = false := by
    intro n
    simp [isSamechar, hc.symm]
  have hcount : predCount (isSamechar c) 0 (c :: rest) = 1 := by
    rw [predCount, if_pos (by simp [isSamechar]), predCount_samechar_pos]
  obtain ⟨b', hr, h'⟩ := h.predSkip sched (isSamechar c) hz
  rw [hcount] at hr h'
  refine ⟨b', ?_, h'⟩
  have hres : skipResult (c :: rest) 0 1 = if rest = [] then 0 else 1 := by
    cases rest <;> rfl
  rwa [hres] at hr

/-- `charbuf_skip_ifset` on a byte of the set. -/
theorem At.skipIfset_mem (sched : Schedule) {c : UInt8} {set : Bytes} (h : At b (c :: rest) q)
    (hq : 1 ≤ q) (hc : c ∈ set) :
    ∃ b', charbufSkipIfset sched b set = (c.toNat, b') ∧ At b' rest (q - 1) := by
  obtain ⟨b₁, hpeek, h₁⟩ := h.peekc sched hq
  obtain ⟨b₂, hskip, h₂⟩ := h₁.skip sched
  exact ⟨b₂, by simp only [charbufSkipIfset, hpeek, List.head?_cons, hc, if_true, hskip], h₂⟩

theorem At.skipIfset_not_mem (sched : Schedule) (set : Bytes) (h : At b rest q) (hq : 1 ≤ q)
    (hc : ∀ c ∈ rest.head?, c ∉ set) :
    ∃ b', charbufSkipIfset sched b set = (0, b') ∧ At b' rest q := by
  obtain ⟨b₁, hpeek, h₁⟩ := h.peekc sched hq
  refine ⟨b₁, ?_, h₁⟩
  cases rest with
  | nil => simp only [charbufSkipIfset, hpeek, List.head?_nil]
  | cons c rest =>
    have hc := hc c rfl
    simp only [charbufSkipIfset, hpeek, List.head?_cons, hc, if_false]

theorem At.skipn (sched : Schedule) {s : Bytes} (h : At b (s ++ rest) q) (hz : 0 ∉ s) (hq : 1 ≤ q) :
    At (charbufSkipn sched b s.length) rest (max 1 (q - s.length)) := by
  induction s generalizing b q with
  | nil => exact h.mono (by rw [List.length_nil]; omega)
  | cons c s ih =>
    obtain ⟨hc, hz'⟩ : c ≠ 0 ∧ 0 ∉ s := by simpa [eq_comm] using hz
    rw [List.cons_append] at h
    obtain ⟨b₁, hpeek, h₁⟩ := h.peekc sched hq
    obtain ⟨b₂, hskip, h₂⟩ := h₁.skip sched
    have heq : charbufSkipn sched b (c :: s).length = charbufSkipn sched b₂ s.length := by
      simp only [List.length_cons, charbufSkipn, hpeek, List.head?_cons, hskip, gt_iff_lt,
        toNat_pos_of_ne_zero hc, if_true]
    rw [heq]
    exact (ih (h₂.mono (Nat.le_max_right 1 _)) hz' (Nat.le_max_left 1 _)).mono (by
      rw [List.length_cons]
      omega)

theorem At.peek (sched : Schedule) (h : At b rest q) (hq : 1 ≤ q) :
    ∃ b', charbufPeek sched b = ((rest.head?.getD 0).toNat, b') ∧ At b' rest q := by
  obtain ⟨b', heq, h'⟩ := h.peekc sched hq
  refine ⟨b', ?_, h'⟩
  rw [charbufPeek, heq]
  cases rest <;> rfl

theorem At.get (sched : Schedule) {c : UInt8} (h : At b (c :: rest) q) (hq : 1 ≤ q) (hc : c ≠ 0) :
    ∃ b', charbufGet sched b = (c.toNat, b') ∧ At b' rest (q - 1) := by
  obtain ⟨b₁, hpeek, h₁⟩ := h.peek sched hq
  obtain ⟨b₂, hskip, h₂⟩ := h₁.skip sched
  refine ⟨b₂, ?_, h₂⟩
  simp only [charbufGet, hpeek, List.head?_cons, Option.getD_some, gt_iff_lt, toNat_pos_of_ne_zero hc,
    if_true, hskip]

theorem At.get_nil (sched : Schedule) (h : At b [] q) (hq : 1 ≤ q) :
    ∃ b', charbufGet sched b = (0, b') ∧ At b' [] q := by
  obtain ⟨b', hpeek, h'⟩ := h.peek sched hq
  refine ⟨b', ?_, h'⟩
  simp [charbufGet, hpeek]

theorem At.skip_nil (sched : Schedule) (h : At b [] q) (hq : 1 ≤ q) :
    ∃ b', charbufSkip sched b = (0, b') ∧ At b' [] q := by
  obtain ⟨b', hpeek, h'⟩ := h.peekc sched hq
  refine ⟨b', ?_, h'⟩
  simp [charbufSkip, charbufSkipc, hpeek]

theorem At.skipUntil (sched : Schedule) (c : UInt8) (h : At b rest q) (hq : 1 ≤ q) (hz : 0 ∉ rest) :
    ∃ b', Returns (fun m => charbufSkipUntil sched m b c)
        (skipResult rest 0 (rest.takeWhile (· ≠ c)).length, b') ∧
      At b' (rest.dropWhile (· ≠ c)) q := by
  obtain ⟨consumed, hv⟩ := h.view
  obtain ⟨b', hr, hv', ha, hw⟩ := hv.skipUntil sched c hz
  rw [predCount_of_all] at hr hv' hw
  rw [drop_takeWhile] at hv' hw
  have := h.ahead
  refine ⟨b', hr, ⟨_, hv'⟩, ha ▸ h.size, ?_⟩
  rw [hw, List.length_take]
  omega

theorem At.predLookahead (sched : Schedule) (pred : UInt8 → Nat → Bool) (h : At b rest 1)
    (hfit : predCount pred 0 rest + 1 < 8) :
    ∃ b', Returns (fun m => charbufPredLookahead sched m b pred) (predCount pred 0 rest, b') ∧
      At b' rest (predCount pred 0 rest + 1) := by
  obtain ⟨consumed, hv⟩ := h.view
  obtain ⟨b', hr, hv', ha, hw⟩ := hv.predLookahead sched pred h.ahead
    (Nat.lt_of_lt_of_le hfit h.size)
  refine ⟨b', hr, ⟨consumed, hv'⟩, ha ▸ h.size, ?_⟩
  rw [hw, List.length_take]
  omega

end Dirlist
