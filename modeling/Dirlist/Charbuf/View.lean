import Dirlist.Charbuf.Defs

/-! A character buffer as a view of a stream: what was consumed and what is left. Every
operation is described once in these terms, together with what it needs of the window. -/

namespace Dirlist
open Run

def columnOf (consumed : Bytes) : Nat := (consumed.reverse.takeWhile (· ≠ 10)).length

/-- `rest` is what the stream still has: the window and what the source holds. -/
structure View (b : Charbuf) (consumed rest : Bytes) : Prop where
  unread : b.window ++ b.source = rest
  eof : b.eof = true → b.source = []
  room : b.window.length ≤ b.a
  pos : 0 < b.a
  small : b.a < 2 ^ 12
  offset : b.offset = consumed.length % 2 ^ 64
  line : b.line = consumed.count 10 % 2 ^ 32
  column : b.column = columnOf consumed % 2 ^ 32

variable {sched : Schedule} {b : Charbuf} {consumed rest : Bytes}

theorem view_init {stream : Bytes} {lookahead : Nat} (ha : 0 < (charbufInit stream lookahead).a) :
    View (charbufInit stream lookahead) [] stream := by
  refine ⟨rfl, nofun, Nat.zero_le _, ha, ?_, rfl, rfl, rfl⟩
  exact Nat.mod_lt _ (by decide)

theorem View.window_eq (hv : View b consumed rest) : b.window = rest.take b.window.length := by
  rw [← hv.unread, List.take_left]

theorem View.window_le (hv : View b consumed rest) : b.window.length ≤ rest.length := by
  rw [← hv.unread, List.length_append]
  omega

/-! ## Reading from the source -/

theorem charbufOp_eq_nil {len : Nat} (hlen : 0 < len) (h : charbufOp sched b len = []) :
    b.source = [] := by
  rw [charbufOp, List.take_eq_nil_iff] at h
  rcases h with h | h
  · omega
  · exact h

theorem charbufOp_length_le (len : Nat) : (charbufOp sched b len).length ≤ len := by
  rw [charbufOp, List.length_take]
  omega

/-- A read with room moves bytes from the source to the window; it brings none only at
the end of the stream. -/
theorem View.stubbornRead (sched : Schedule) (hv : View b consumed rest) {max : Nat}
    (hmax : 0 < max) (hroom : b.window.length + max ≤ b.a) :
    ∃ got b', charbufStubbornRead sched b max = (got.length, b') ∧ View b' consumed rest ∧
      b'.window = b.window ++ got ∧ b'.a = b.a ∧ got.length ≤ max ∧ (got = [] → rest = b.window) := by
  by_cases he : b.eof = true
  · have heq : charbufStubbornRead sched b max = (0, b) := by simp [charbufStubbornRead, he]
    refine ⟨[], b, heq, hv, (List.append_nil _).symm, rfl, Nat.zero_le _, fun _ => ?_⟩
    rw [← hv.unread, hv.eof he, List.append_nil]
  · have hmin : min (b.a - b.window.length) max = max := by omega
    obtain ⟨got, hgot⟩ : ∃ got, charbufOp sched b max = got := ⟨_, rfl⟩
    have heq : charbufStubbornRead sched b max = (got.length, { b with
        window := b.window ++ got
        eof := got.length = 0
        source := b.source.drop got.length
        reads := b.reads + 1 }) := by
      simp only [charbufStubbornRead, he, hmin, hgot]
      rfl
    have htake : b.source.take got.length = got := by
      rw [← hgot, charbufOp, List.length_take, List.take_eq_take_iff]
      omega
    have hle : got.length ≤ max := hgot ▸ charbufOp_length_le max
    refine ⟨got, _, heq, ⟨?_, ?_, ?_, hv.pos, hv.small, hv.offset, hv.line, hv.column⟩, rfl, rfl,
      hle, ?_⟩
    · dsimp only
      rw [List.append_assoc]
      nth_rewrite 1 [← htake]
      rw [List.take_append_drop]
      exact hv.unread
    · intro hz
      have hnil : got = [] := List.length_eq_zero_iff.mp (by simpa using hz)
      have hsrc := charbufOp_eq_nil hmax (hgot.trans hnil)
      simp [hsrc]
    · simp only [List.length_append]
      omega
    · intro hnil
      rw [← hv.unread, charbufOp_eq_nil hmax (hgot.trans hnil), List.append_nil]

/-! ## Peeking and skipping one byte -/

/-- Every operation leaves a window whose extent depends on the stream alone, however the
source splits it. -/
theorem View.peekc (sched : Schedule) (hv : View b consumed rest) :
    ∃ b', charbufPeekc sched b = (rest.head?, b') ∧ View b' consumed rest ∧ b'.a = b.a ∧
      b'.window = rest.take (max 1 b.window.length) := by
  cases hw : b.window with
  | cons c w =>
    have heq : charbufPeekc sched b = (some c, b) := by simp only [charbufPeekc, hw]
    have hrest : rest = c :: (w ++ b.source) := by rw [← hv.unread, hw, List.cons_append]
    have hmax : max 1 (c :: w).length = (c :: w).length := by
      rw [List.length_cons]
      omega
    refine ⟨b, by rw [heq, hrest, List.head?_cons], hv, rfl, ?_⟩
    rw [hmax, ← hw]
    exact hv.window_eq
  | nil =>
    have hroom : b.window.length + 1 ≤ b.a := by
      rw [hw]
      exact hv.pos
    obtain ⟨got, b', heq, hv', hwin, ha, hle, hend⟩ := hv.stubbornRead sched Nat.one_pos hroom
    rw [hw, List.nil_append] at hwin
    have hrest : rest = got ++ b'.source := by rw [← hv'.unread, hwin]
    have hpeek : charbufPeekc sched b = (got.head?, b') := by
      simp only [charbufPeekc, hw, heq, hwin]
    have hnil : got = [] → rest = [] := fun h => (hend h).trans hw
    refine ⟨b', ?_, hv', ha, ?_⟩
    · rw [hpeek]
      cases hg : got with
      | nil => rw [hnil hg]
      | cons c got => rw [hrest, hg, List.cons_append, List.head?_cons, List.head?_cons]
    · rw [hwin]
      cases hg : got with
      | nil => rw [hnil hg, List.take_nil]
      | cons c got =>
        have hone : got = [] := List.length_eq_zero_iff.mp (by simpa [hg] using hle)
        rw [hrest, hg, hone]
        rfl

theorem columnOf_concat (consumed : Bytes) (c : UInt8) :
    columnOf (consumed ++ [c]) = if c = 10 then 0 else columnOf consumed + 1 := by
  by_cases hc : c = 10
  · simp [columnOf, hc]
  · simp [columnOf, hc]

/-- The byte at the front of the window leaves it. -/
theorem View.drop {c : UInt8} (hv : View b consumed (c :: rest)) (hw : b.window ≠ []) :
    View { charbufCount b c with window := b.window.tail } (consumed ++ [c]) rest := by
  obtain ⟨d, w, hdw⟩ := List.exists_cons_of_ne_nil hw
  have hun := hv.unread
  rw [hdw, List.cons_append, List.cons.injEq] at hun
  have hroom := hv.room
  rw [hdw, List.length_cons] at hroom
  have hoff : (b.offset + 1) % 2 ^ 64 = (consumed ++ [c]).length % 2 ^ 64 := by
    rw [hv.offset, List.length_append, List.length_singleton, Nat.mod_add_mod]
  have hcount : (consumed ++ [c]).count 10 = consumed.count 10 + if c = 10 then 1 else 0 := by
    rw [List.count_append, List.count_singleton]
    simp
  unfold charbufCount
  by_cases hc : c = 10
  · rw [if_pos hc]
    refine ⟨?_, hv.eof, ?_, hv.pos, hv.small, hoff, ?_, ?_⟩
    · rw [hdw]
      exact hun.2
    · rw [hdw]
      exact Nat.le_of_succ_le hroom
    · rw [hcount, if_pos hc, hv.line, Nat.mod_add_mod]
    · rw [columnOf_concat, if_pos hc, Nat.zero_mod]
  · rw [if_neg hc]
    refine ⟨?_, hv.eof, ?_, hv.pos, hv.small, hoff, ?_, ?_⟩
    · rw [hdw]
      exact hun.2
    · rw [hdw]
      exact Nat.le_of_succ_le hroom
    · rw [hcount, if_neg hc, hv.line, Nat.add_zero]
    · rw [columnOf_concat, if_neg hc, hv.column, Nat.mod_add_mod]

theorem charbufCount_window (b : Charbuf) (c : UInt8) :
    (charbufCount b c).window = b.window ∧ (charbufCount b c).a = b.a := by
  unfold charbufCount
  split <;> exact ⟨rfl, rfl⟩

theorem View.skipc_nil (sched : Schedule) (hv : View b consumed []) :
    ∃ b', charbufSkipc sched b = (none, b') ∧ View b' consumed [] ∧ b'.a = b.a := by
  obtain ⟨b', heq, hv', ha, -⟩ := hv.peekc sched
  exact ⟨b', by simp only [charbufSkipc, heq, List.head?_nil], hv', ha⟩

theorem View.skipc (sched : Schedule) {c : UInt8} (hv : View b consumed (c :: rest)) :
    ∃ b', charbufSkipc sched b = (some c, b') ∧ View b' (consumed ++ [c]) rest ∧ b'.a = b.a ∧
      b'.window = rest.take (b.window.length - 1) := by
  obtain ⟨b', heq, hv', ha, hwin⟩ := hv.peekc sched
  have hmax : max 1 b.window.length = b.window.length - 1 + 1 := by omega
  rw [hmax, List.take_succ_cons] at hwin
  have hne : b'.window ≠ [] := by
    rw [hwin]
    exact List.cons_ne_nil _ _
  refine ⟨_, by simp only [charbufSkipc, heq, List.head?_cons], hv'.drop hne, ?_, ?_⟩
  · exact ((charbufCount_window b' c).2).trans ha
  · rw [hwin, List.tail_cons]

/-- A byte other than zero is skipped as it stands. -/
theorem View.skip (sched : Schedule) {c : UInt8} (hv : View b consumed (c :: rest)) :
    ∃ b', charbufSkip sched b = (c.toNat, b') ∧ View b' (consumed ++ [c]) rest ∧ b'.a = b.a ∧
      b'.window = rest.take (b.window.length - 1) := by
  obtain ⟨b', heq, hv', ha, hlen⟩ := hv.skipc sched
  exact ⟨b', by simp only [charbufSkip, heq], hv', ha, hlen⟩

theorem View.getc (sched : Schedule) {c : UInt8} (hv : View b consumed (c :: rest)) :
    ∃ b', charbufGetc sched b = (some c, b') ∧ View b' (consumed ++ [c]) rest ∧ b'.a = b.a ∧
      b'.window = rest.take (b.window.length - 1) := by
  obtain ⟨b₁, heq₁, hv₁, ha₁, hwin₁⟩ := hv.peekc sched
  obtain ⟨b₂, heq₂, hv₂, ha₂, hwin₂⟩ := hv₁.skip sched
  have hlen : b₁.window.length - 1 = min rest.length (b.window.length - 1) := by
    rw [hwin₁, List.length_take, List.length_cons]
    omega
  refine ⟨b₂, by simp only [charbufGetc, heq₁, List.head?_cons, heq₂], hv₂, ha₂.trans ha₁, ?_⟩
  rw [hwin₂, hlen, List.take_eq_take_iff]
  omega

theorem View.getc_nil (sched : Schedule) (hv : View b consumed []) :
    ∃ b', charbufGetc sched b = (none, b') ∧ View b' consumed [] ∧ b'.a = b.a := by
  obtain ⟨b₁, heq₁, hv₁, ha₁, -⟩ := hv.peekc sched
  exact ⟨b₁, by simp only [charbufGetc, heq₁, List.head?_nil], hv₁, ha₁⟩

/-! ## Peeking several bytes -/

/-- If no more than `n` bytes are in the window, `charbuf_peekn` gives the next `n` bytes
or, where there are fewer, nothing. -/
theorem View.peekn (sched : Schedule) (hv : View b consumed rest) {n : Nat} (hn : n < b.a)
    (hw : b.window.length ≤ n) :
    ∃ b', Returns (fun m => charbufPeekn sched m b n)
        (if n ≤ rest.length then some (rest.take n) else none, b') ∧
      View b' consumed rest ∧ b'.a = b.a ∧ b'.window = rest.take n := by
  have hsmall := hv.small
  suffices h : ∃ b', Returns (fun m => loop (peeknRound sched n) m b)
      (if n ≤ rest.length then some (rest.take n) else none, b') ∧
      View b' consumed rest ∧ b'.a = b.a ∧ b'.window = rest.take n by
    obtain ⟨b', hr, h'⟩ := h
    refine ⟨b', ?_, h'⟩
    unfold charbufPeekn
    simpa only [hn, if_true] using hr
  induction hd : n - b.window.length using Nat.strongRecOn generalizing b with
  | _ d ih =>
    by_cases he : b.window.length = n
    · have hwin : b.window = rest.take n := he ▸ hv.window_eq
      have hround (k : Nat) : peeknRound sched n k b =
          .ok (.inr (if n ≤ rest.length then some (rest.take n) else none, b)) := by
        unfold peeknRound
        rw [if_pos he, if_pos (he ▸ hv.window_le), hwin, List.take_take, Nat.min_self]
      exact ⟨b, returns_loop_done ⟨0, fun k _ => hround k⟩, hv, rfl, hwin⟩
    · have hsub : (n + (2 ^ 32 - b.window.length)) % 2 ^ 32 = n - b.window.length := by omega
      obtain ⟨got, b₁, hread, hv₁, hwin, ha, hgot, hend⟩ :=
        hv.stubbornRead sched (show 0 < n - b.window.length by omega) (by omega)
      by_cases hg : got = []
      · have hrest := hend hg
        have hround (k : Nat) : peeknRound sched n k b =
            .ok (.inr (if n ≤ rest.length then some (rest.take n) else none, b₁)) := by
          unfold peeknRound
          rw [if_neg he, hsub, hread, hg]
          dsimp only [List.length_nil]
          rw [if_neg (Nat.lt_irrefl 0), if_neg (by rw [hrest]; omega)]
        refine ⟨b₁, returns_loop_done ⟨0, fun k _ => hround k⟩, hv₁, ha, ?_⟩
        rw [hwin, hg, List.append_nil, ← hrest, List.take_of_length_le (by rw [hrest]; exact hw)]
      · have hpos : 0 < got.length := List.length_pos_iff.mpr hg
        have hlen : b₁.window.length = b.window.length + got.length := by
          rw [hwin, List.length_append]
        obtain ⟨b', hr, hv', ha', hwin'⟩ := ih (n - b₁.window.length) (by omega) hv₁ (ha ▸ hn)
          (by omega) (ha ▸ hsmall) rfl
        have hround (k : Nat) : peeknRound sched n k b = .ok (.inl b₁) := by
          unfold peeknRound
          rw [if_neg he, hsub, hread]
          dsimp only
          rw [if_pos hpos]
        exact ⟨b', returns_loop_next ⟨0, fun k _ => hround k⟩ hr, hv', ha'.trans ha, hwin'⟩

/-! ## Predicates -/

/-- How many bytes from the front satisfy the predicate, the first at position `n`. -/
def predCount (pred : UInt8 → Nat → Bool) (n : Nat) : Bytes → Nat
  | [] => 0
  | c :: s => if pred c n then predCount pred (n + 1) s + 1 else 0

/-- What a skipping call returns after `k` bytes of `rest`, with `n` skipped before: the
count, or nothing where it ran into the end. -/
def skipResult (rest : Bytes) (n k : Nat) : Nat := if k = rest.length then 0 else n + k

theorem skipResult_cons (c : UInt8) (rest : Bytes) (n k : Nat) :
    skipResult (c :: rest) n (k + 1) = skipResult rest (n + 1) k := by
  unfold skipResult
  rw [List.length_cons]
  split <;> split <;> omega

theorem toNat_pos_of_ne_zero {c : UInt8} (h : c ≠ 0) : 0 < c.toNat := by
  rw [Nat.pos_iff_ne_zero]
  exact fun h0 => h (UInt8.toNat_inj.mp h0)

/-- Both skipping loops, by what a round does on a stream in which no byte that is skipped
is zero. -/
theorem View.skipLoop (sched : Schedule) (pred : UInt8 → Nat → Bool)
    {round : Nat → Charbuf × Nat → Exec (Charbuf × Nat ⊕ Nat × Charbuf)}
    (heq : ∀ {b consumed s} (k n : Nat), View b consumed s → s <:+ rest →
      round k (b, n) = predSkipRound sched pred k (b, n))
    (hv : View b consumed rest) (n : Nat) (hz : 0 ∉ rest.take (predCount pred n rest)) :
    ∃ b', Returns (fun m => loop round m (b, n))
        (skipResult rest n (predCount pred n rest), b') ∧
      View b' (consumed ++ rest.take (predCount pred n rest)) (rest.drop (predCount pred n rest)) ∧
      b'.a = b.a ∧ b'.window = (rest.drop (predCount pred n rest)).take
        (max 1 (b.window.length - predCount pred n rest)) := by
  induction rest generalizing b consumed n with
  | nil =>
    obtain ⟨b₁, hpeek, hv₁, ha₁, hwin₁⟩ := hv.peekc sched
    have hround (k : Nat) : round k (b, n) = .ok (.inr (0, b₁)) := by
      simp only [heq k n hv (List.suffix_refl _), predSkipRound, hpeek, List.head?_nil]
    refine ⟨b₁, returns_loop_done ⟨0, fun k _ => hround k⟩, ?_, ha₁, ?_⟩
    · simpa [predCount] using hv₁
    · simpa using hwin₁
  | cons c rest ih =>
    by_cases hp : pred c n = true
    · have hcount : predCount pred n (c :: rest) = predCount pred (n + 1) rest + 1 := by
        rw [predCount, if_pos hp]
      obtain ⟨hc, hz'⟩ : c ≠ 0 ∧ 0 ∉ rest.take (predCount pred (n + 1) rest) := by
        rw [hcount, List.take_succ_cons] at hz
        simpa [eq_comm] using hz
      obtain ⟨b₁, hpeek, hv₁, ha₁, hwin₁⟩ := hv.peekc sched
      obtain ⟨b₂, hskip, hv₂, ha₂, hwin₂⟩ := hv₁.skip sched
      obtain ⟨b', hr, hv', ha', hwin'⟩ :=
        ih (fun k n hv hs => heq k n hv (hs.trans (List.suffix_cons c rest))) hv₂ (n + 1) hz'
      have hround (k : Nat) : round k (b, n) = .ok (.inl (b₂, n + 1)) := by
        simp only [heq k n hv (List.suffix_refl _), predSkipRound, hpeek, List.head?_cons, hp,
          if_true, hskip, toNat_pos_of_ne_zero hc]
      refine ⟨b', ?_, ?_, ha'.trans (ha₂.trans ha₁), ?_⟩
      · rw [hcount, skipResult_cons]
        exact returns_loop_next ⟨0, fun k _ => hround k⟩ hr
      · rw [hcount, List.take_succ_cons, List.drop_succ_cons]
        simpa using hv'
      · have hlen : b₂.window.length = min rest.length (b.window.length - 1) := by
          rw [hwin₂, hwin₁]
          simp only [List.length_take, List.length_cons]
          omega
        rw [hwin', hcount, List.drop_succ_cons, List.take_eq_take_iff, hlen, List.length_drop]
        omega
    · obtain ⟨b₁, hpeek, hv₁, ha₁, hwin₁⟩ := hv.peekc sched
      have hcount : predCount pred n (c :: rest) = 0 := by rw [predCount, if_neg hp]
      have hround (k : Nat) : round k (b, n) = .ok (.inr (n, b₁)) := by
        simp only [heq k n hv (List.suffix_refl _), predSkipRound, hpeek, List.head?_cons, hp]
        rfl
      refine ⟨b₁, ?_, ?_, ha₁, ?_⟩
      · rw [hcount, skipResult, if_neg (by simp), Nat.add_zero]
        exact returns_loop_done ⟨0, fun k _ => hround k⟩
      · simpa [hcount] using hv₁
      · rw [hcount, List.drop_zero, Nat.sub_zero]
        exact hwin₁

/-- `charbuf_pred_skip` consumes the bytes that satisfy the predicate. -/
theorem View.predSkip (sched : Schedule) (pred : UInt8 → Nat → Bool)
    (hv : View b consumed rest) (hz : 0 ∉ rest.take (predCount pred 0 rest)) :
    ∃ b', Returns (fun m => charbufPredSkip sched m b pred)
        (skipResult rest 0 (predCount pred 0 rest), b') ∧
      View b' (consumed ++ rest.take (predCount pred 0 rest)) (rest.drop (predCount pred 0 rest)) ∧
      b'.a = b.a ∧ b'.window = (rest.drop (predCount pred 0 rest)).take
        (max 1 (b.window.length - predCount pred 0 rest)) :=
  hv.skipLoop sched pred (fun _ _ _ _ => rfl) 0 hz

/-- On bytes other than zero, `charbuf_skip_until` skips what is not the byte. -/
theorem skipUntilRound_eq (sched : Schedule) {c : UInt8} (hv : View b consumed rest) (hz : 0 ∉ rest)
    (k n : Nat) :
    skipUntilRound sched c k (b, n) = predSkipRound sched (fun d _ => d ≠ c) k (b, n) := by
  obtain ⟨b₁, hpeek, hv₁, -, -⟩ := hv.peekc sched
  cases rest with
  | nil => simp only [skipUntilRound, predSkipRound, hpeek, List.head?_nil]
  | cons d rest =>
    obtain ⟨hd, -⟩ : d ≠ 0 ∧ 0 ∉ rest := by simpa [eq_comm] using hz
    obtain ⟨b₂, hskip, -, -, -⟩ := hv₁.skip sched
    by_cases hdc : d = c
    · simp [skipUntilRound, predSkipRound, hpeek, hdc ▸ hd, hdc]
    · simp [skipUntilRound, predSkipRound, hpeek, hd, hdc, hskip, toNat_pos_of_ne_zero hd]

theorem View.skipUntil (sched : Schedule) (c : UInt8) (hv : View b consumed rest) (hz : 0 ∉ rest) :
    ∃ b', Returns (fun m => charbufSkipUntil sched m b c)
        (skipResult rest 0 (predCount (fun d _ => d ≠ c) 0 rest), b') ∧
      View b' (consumed ++ rest.take (predCount (fun d _ => d ≠ c) 0 rest))
        (rest.drop (predCount (fun d _ => d ≠ c) 0 rest)) ∧
      b'.a = b.a ∧ b'.window = (rest.drop (predCount (fun d _ => d ≠ c) 0 rest)).take
        (max 1 (b.window.length - predCount (fun d _ => d ≠ c) 0 rest)) :=
  hv.skipLoop sched _ (fun k n hv hs => skipUntilRound_eq sched hv (fun h => hz (hs.subset h)) k n) 0
    fun h => hz (List.mem_of_mem_take h)

/-- `charbuf_pred_lookahead` counts the bytes that satisfy the predicate, if they and one
more fit in the window. -/
theorem View.predLookaheadLoop (sched : Schedule) (pred : UInt8 → Nat → Bool)
    (hv : View b consumed rest) {n k : Nat} (hk : predCount pred n (rest.drop n) = k)
    (hw : b.window.length ≤ n + 1) (hfit : n + k + 1 < b.a) (hn : n ≤ rest.length) :
    ∃ b', Returns (fun m => loop (predLookaheadRound sched pred) m (b, n)) (n + k, b') ∧
      View b' consumed rest ∧ b'.a = b.a ∧ b'.window = rest.take (n + k + 1) := by
  induction k generalizing b n with
  | zero =>
    obtain ⟨b₁, hpeek, hv₁, ha₁, hwin₁⟩ := hv.peekn sched (show n + 1 < b.a by omega) hw
    refine ⟨b₁, returns_loop_done (hpeek.bind ?_), hv₁, ha₁, hwin₁⟩
    cases hd : rest[n]? with
    | none =>
      have hlen : rest.length ≤ n := List.getElem?_eq_none_iff.mp hd
      rw [if_neg (by omega)]
      exact returns_ok _
    | some c =>
      obtain ⟨hlt, hc⟩ := List.getElem?_eq_some_iff.mp hd
      rw [List.drop_eq_getElem_cons hlt, hc, predCount] at hk
      have hp : ¬pred c n = true := by
        intro hp
        rw [if_pos hp] at hk
        omega
      rw [if_pos (by omega)]
      refine returns_const ?_
      simp [hd, hp]
  | succ k ih =>
    have hlt : n < rest.length := by
      by_contra hlt
      rw [List.drop_eq_nil_of_le (by omega)] at hk
      simp [predCount] at hk
    have hsome : rest[n]? = some rest[n] := List.getElem?_eq_getElem hlt
    rw [List.drop_eq_getElem_cons hlt, predCount] at hk
    have hp : pred rest[n] n = true := by
      by_contra hp
      rw [if_neg hp] at hk
      omega
    rw [if_pos hp] at hk
    obtain ⟨b₁, hpeek, hv₁, ha₁, hwin₁⟩ := hv.peekn sched (show n + 1 < b.a by omega) hw
    have hw₁ : b₁.window.length ≤ n + 1 + 1 := by
      rw [hwin₁, List.length_take]
      omega
    obtain ⟨b', hr, hv', ha', hwin'⟩ := ih hv₁ (by omega) hw₁ (by omega) (by omega)
    rw [Nat.add_right_comm n 1 k] at hr hwin'
    refine ⟨b', returns_loop_next (hpeek.bind ?_) hr, hv', ha'.trans ha₁, hwin'⟩
    rw [if_pos (by omega)]
    refine returns_const ?_
    simp [hsome, hp]

theorem View.predLookahead (sched : Schedule) (pred : UInt8 → Nat → Bool)
    (hv : View b consumed rest) (hw : b.window.length ≤ 1)
    (hfit : predCount pred 0 rest + 1 < b.a) :
    ∃ b', Returns (fun m => charbufPredLookahead sched m b pred) (predCount pred 0 rest, b') ∧
      View b' consumed rest ∧ b'.a = b.a ∧ b'.window = rest.take (predCount pred 0 rest + 1) := by
  obtain ⟨b', hr, h'⟩ := hv.predLookaheadLoop sched pred (n := 0) (by rw [List.drop_zero]) hw
    (by omega) (Nat.zero_le _)
  rw [Nat.zero_add] at hr h'
  exact ⟨b', hr, h'⟩

/-! ## Fuel -/

theorem steady_charbufPeekn (sched : Schedule) (b : Charbuf) (n : Nat) :
    Steady (fun m => charbufPeekn sched m b n) := by
  unfold charbufPeekn
  split
  · exact steady_loop (fun b => steady_const (peeknRound sched n 0 b)) b
  · exact steady_const _

theorem steady_charbufPredSkip (sched : Schedule) (b : Charbuf) (pred : UInt8 → Nat → Bool) :
    Steady (fun m => charbufPredSkip sched m b pred) :=
  steady_loop (fun s => steady_const (predSkipRound sched pred 0 s)) (b, 0)

theorem steady_charbufPredLookahead (sched : Schedule) (b : Charbuf) (pred : UInt8 → Nat → Bool) :
    Steady (fun m => charbufPredLookahead sched m b pred) := by
  have hround : ∀ s, Steady (fun m => predLookaheadRound sched pred m s) :=
    fun s => (steady_charbufPeekn sched s.1 (s.2 + 1)).bind fun _ => steady_const _
  exact steady_loop hround (b, 0)

end Dirlist
