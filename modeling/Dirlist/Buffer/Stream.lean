import Dirlist.Buffer.Defs

/-! A buffer as what is still to be read. Each call is described once in these terms, whatever the
size of the buffer and of the pieces that the source gives. -/

namespace Dirlist
open Run

/-- `s` is what is left: the window and what the source holds, which is nothing for a mapped file. -/
structure Delivers (mapped : Bool) (b : Buffer) (s : Bytes) : Prop where
  unread : b.window ++ b.source = s
  room : b.p + b.window.length ≤ b.a
  size : b.source ≠ [] → 0 < b.a
  kind : b.mapped = mapped
  whole : mapped = true → b.source = []

variable {sched : Schedule} {w : Bool} {b : Buffer} {s : Bytes}

theorem delivers_init {a : Nat} (ha : 0 < a) (s : Bytes) : Delivers false (bufferInit a s) s :=
  ⟨rfl, Nat.zero_le a, fun _ => ha, rfl, fun h => by cases h⟩

theorem delivers_whole (s : Bytes) : Delivers true (bufferWhole s) s :=
  ⟨List.append_nil s, by simp [bufferWhole], fun h => absurd rfl h, rfl, fun _ => rfl⟩

theorem Delivers.window_le (h : Delivers w b s) : b.window.length ≤ s.length := by
  rw [← h.unread, List.length_append]
  exact Nat.le_add_right _ _

/-- A read into an empty window brings a byte unless nothing is left. -/
theorem Delivers.stubbornRead (sched : Schedule) (h : Delivers w b s) (hwindow : b.window = []) {len : Nat}
    (hlen : b.source ≠ [] → 0 < len) (hroom : b.p + len ≤ b.a) :
    ∃ b', bufferStubbornRead sched b len = (b'.window.length, b') ∧ Delivers w b' s ∧ (b'.window = [] → s = []) := by
  have hsource : b.source = s := by rw [← h.unread, hwindow, List.nil_append]
  have htake : b.source.take (bufferOp sched b len).length = bufferOp sched b len := by
    rw [bufferOp, List.length_take, List.take_eq_take_iff]
    omega
  have hle : (bufferOp sched b len).length ≤ len := by
    rw [bufferOp, List.length_take]
    omega
  have heq : bufferStubbornRead sched b len = ((bufferOp sched b len).length, { b with
      window := bufferOp sched b len
      source := b.source.drop (bufferOp sched b len).length
      reads := b.reads + 1 }) := by
    rw [bufferStubbornRead, hwindow, List.nil_append]
  refine ⟨{ b with
      window := bufferOp sched b len
      source := b.source.drop (bufferOp sched b len).length
      reads := b.reads + 1 }, heq, ⟨?_, ?_, ?_, h.kind, ?_⟩, ?_⟩
  · show bufferOp sched b len ++ b.source.drop (bufferOp sched b len).length = s
    nth_rewrite 1 [← htake]
    rw [List.take_append_drop, hsource]
  · exact Nat.le_trans (Nat.add_le_add_left hle b.p) hroom
  · intro hne
    refine h.size fun hnil => hne ?_
    show b.source.drop _ = []
    rw [hnil, List.drop_nil]
  · intro hmapped
    show b.source.drop _ = []
    rw [h.whole hmapped, List.drop_nil]
  · intro hnil
    have hop : bufferOp sched b len = [] := hnil
    rw [bufferOp, List.take_eq_nil_iff] at hop
    rw [← hsource]
    by_contra hne
    have hpos := hlen hne
    rcases hop with hop | hop
    · omega
    · exact hne hop

theorem Delivers.feed (sched : Schedule) (h : Delivers w b s) :
    ∃ b', bufferFeed sched b = (b'.window.length, b') ∧ Delivers w b' s ∧ (b'.window = [] → s = []) := by
  by_cases hwindow : b.window = []
  · have hfront : Delivers w { b with p := 0 } s := by
      refine ⟨h.unread, ?_, h.size, h.kind, h.whole⟩
      rw [hwindow]
      exact Nat.zero_le _
    obtain ⟨b', hb', hholds, hnil⟩ := hfront.stubbornRead sched hwindow h.size (by simp)
    exact ⟨b', by rw [bufferFeed, if_pos hwindow, hb'], hholds, hnil⟩
  · exact ⟨b, by rw [bufferFeed, if_neg hwindow], h, fun hnil => absurd hnil hwindow⟩

/-- The window is filled if it is empty. -/
theorem Delivers.filled (sched : Schedule) (h : Delivers w b s) :
    ∃ b', (if b.window = [] then bufferFeed sched b else (b.window.length, b)) = (b'.window.length, b') ∧
      Delivers w b' s ∧ (b'.window = [] → s = []) := by
  by_cases hwindow : b.window = []
  · rw [if_pos hwindow]
    exact h.feed sched
  · rw [if_neg hwindow]
    exact ⟨b, rfl, h, fun hnil => absurd hnil hwindow⟩

theorem Delivers.head (h : Delivers w b s) (hnil : b.window = [] → s = []) : b.window.head? = s.head? := by
  rw [← h.unread]
  cases hw : b.window with
  | nil =>
    have hs := hnil hw
    rw [← h.unread, hw] at hs
    rw [hs]
  | cons c window => rfl

theorem Delivers.skip (h : Delivers w b s) (hne : b.window ≠ []) :
    Delivers w { b with window := b.window.tail, p := b.p + 1 } s.tail := by
  obtain ⟨c, window, hw⟩ := List.exists_cons_of_ne_nil hne
  refine ⟨?_, ?_, h.size, h.kind, h.whole⟩
  · rw [← h.unread, hw]
    rfl
  · have hroom := h.room
    rw [hw, List.length_cons] at hroom
    show b.p + 1 + b.window.tail.length ≤ b.a
    rw [hw, List.tail_cons]
    omega

/-! ## Looking at a byte -/

/-- The loop that looks for one byte makes at most one read. -/
theorem Delivers.prefetchLoop (sched : Schedule) (h : Delivers w b s) (hp : b.p < b.a) :
    ∃ b', Returns (fun m => loop (prefetchRound sched 1) m b) (b'.window.length, b') ∧ Delivers w b' s ∧
      (b'.window = [] → s = []) := by
  by_cases hw : b.window = []
  · have hroom : b.p + (b.a - (b.p + b.window.length)) ≤ b.a := by
      have hle := h.room
      omega
    have hlen : b.source ≠ [] → 0 < b.a - (b.p + b.window.length) := by
      intro _
      rw [hw, List.length_nil]
      omega
    obtain ⟨b', hread, hb', hnil⟩ := h.stubbornRead sched hw hlen hroom
    have hround (m : Nat) : prefetchRound sched 1 m b =
        if b'.window.length = 0 then .ok (.inr (b'.window.length, b')) else .ok (.inl b') := by
      have hlt : b.window.length < 1 := by simp [hw]
      simp only [prefetchRound, if_pos hlt, hread]
    refine ⟨b', ?_, hb', hnil⟩
    by_cases hz : b'.window.length = 0
    · apply returns_loop_done
      simp only [hround, if_pos hz]
      exact returns_ok _
    · have hround' (m : Nat) : prefetchRound sched 1 m b' = .ok (.inr (b'.window.length, b')) := by
        rw [prefetchRound, if_neg (by omega)]
      have hnext (m : Nat) : prefetchRound sched 1 m b = .ok (.inl b') := by rw [hround, if_neg hz]
      rw [returns_loop_iff hnext]
      apply returns_loop_done
      simp only [hround']
      exact returns_ok _
  · have hpos : 0 < b.window.length := List.length_pos_iff.mpr hw
    have hround (m : Nat) : prefetchRound sched 1 m b = .ok (.inr (b.window.length, b)) := by
      rw [prefetchRound, if_neg (by omega)]
    refine ⟨b, ?_, h, fun hnil => absurd hnil hw⟩
    apply returns_loop_done
    simp only [hround]
    exact returns_ok _

/-- A window that is empty only at the end tells the end. -/
theorem Delivers.length_le_zero (h : Delivers w b s) (hnil : b.window = [] → s = []) :
    (b.window.length : Int) ≤ 0 ↔ s = [] := by
  constructor
  · intro hle
    exact hnil (List.length_eq_zero_iff.mp (by omega))
  · rintro rfl
    have hle := h.window_le
    rw [List.length_nil] at hle
    omega

/-- A buffer without room is at the end. -/
theorem Delivers.no_room (h : Delivers w b s) (ha : b.a = 0) : s = [] := by
  have hroom := h.room
  have hw : b.window = [] := List.length_eq_zero_iff.mp (by omega)
  have hsource : b.source = [] := by
    by_contra hne
    have hpos := h.size hne
    omega
  rw [← h.unread, hw, hsource, List.append_nil]

theorem Delivers.prefetch (sched : Schedule) (h : Delivers w b s) :
    ∃ r b', Returns (fun m => bufferPrefetch sched m b 1) (r, b') ∧ Delivers w b' s ∧ (r ≤ 0 ↔ s = []) ∧
      (b'.window = [] → s = []) := by
  by_cases hmapped : b.p ≠ 0 ∧ b.p + 1 ≥ b.a ∧ b.mapped = true
  · have hwindow : b.window = s := by rw [← h.unread, h.whole (h.kind ▸ hmapped.2.2), List.append_nil]
    have hnil : b.window = [] → s = [] := fun hnil => by rw [← hwindow, hnil]
    refine ⟨b.window.length, b, ?_, h, h.length_le_zero hnil, hnil⟩
    simp only [bufferPrefetch, if_pos hmapped]
    exact returns_ok _
  · obtain ⟨b₁, hb₁⟩ : ∃ b₁, (if b.p ≠ 0 ∧ b.p + 1 ≥ b.a then { b with p := 0 } else b) = b₁ := ⟨_, rfl⟩
    have hmoved : Delivers w b₁ s ∧ (b₁.p ≠ 0 → b₁.p + 1 < b₁.a) := by
      rw [← hb₁]
      split
      · refine ⟨⟨h.unread, ?_, h.size, h.kind, h.whole⟩, fun hp => absurd rfl hp⟩
        show 0 + b.window.length ≤ b.a
        exact Nat.le_trans (by omega) h.room
      · refine ⟨h, fun hp => ?_⟩
        omega
    obtain ⟨h₁, hspace⟩ := hmoved
    -- one byte is asked for, or none where there is no room
    have hcount : (if b₁.p + 1 ≥ b₁.a then b₁.a - b₁.p else 1) = min 1 b₁.a := by
      split <;> omega
    have heq (m : Nat) : bufferPrefetch sched m b 1 =
        if min 1 b₁.a = 0 then .ok (-1, b₁) else loop (prefetchRound sched (min 1 b₁.a)) m b₁ := by
      rw [bufferPrefetch, if_neg hmapped, ← hcount, ← hb₁]
    simp only [heq]
    by_cases ha : b₁.a = 0
    · have hs := h₁.no_room ha
      refine ⟨-1, b₁, ?_, h₁, by simp [hs], fun _ => hs⟩
      simp only [ha, Nat.min_zero, if_true]
      exact returns_ok _
    · have hone : min 1 b₁.a = 1 := by omega
      simp only [hone, one_ne_zero, if_false]
      obtain ⟨b', hr, hb', hnil⟩ := h₁.prefetchLoop sched (by omega)
      exact ⟨b'.window.length, b', hr, hb', hb'.length_le_zero hnil, hnil⟩

theorem Delivers.peek (sched : Schedule) (h : Delivers w b s) :
    ∃ b', Returns (fun m => bufferPeek sched m b) (s.head?, b') ∧ Delivers w b' s := by
  obtain ⟨r, b', hr, hb', hzero, hnil⟩ := h.prefetch sched
  have hread : Returns (fun _ => if r ≤ 0 then .ok (none, b') else .ok (b'.window.head?, b')) (s.head?, b') := by
    by_cases hs : r ≤ 0
    · rw [hzero.mp hs]
      simp only [if_pos hs]
      exact returns_ok _
    · simp only [if_neg hs, hb'.head hnil]
      exact returns_ok _
  exact ⟨b', hr.bind hread, hb'⟩

/-! ## Moving on -/

theorem Delivers.skipc (sched : Schedule) (h : Delivers w b s) :
    ∃ b', bufferSkipc sched b = (if s = [] then 0 else 1, b') ∧ Delivers w b' s.tail := by
  obtain ⟨b₁, hfill, hb₁, hnil⟩ := h.filled sched
  rw [bufferSkipc, hfill]
  by_cases hw : b₁.window = []
  · obtain rfl := hnil hw
    exact ⟨b₁, by simp [hw], hb₁⟩
  · have hs : s ≠ [] := by
      rintro rfl
      have hle := hb₁.window_le
      exact hw (List.length_eq_zero_iff.mp (Nat.le_zero.mp hle))
    exact ⟨_, by simp [hw, hs], hb₁.skip hw⟩

/-- How many bytes a skipping loop reports; nothing where it runs into the end. -/
def skipped (pred : UInt8 → Bool) (n : Nat) (s : Bytes) : Nat :=
  if s.dropWhile pred = [] then 0 else n + (s.takeWhile pred).length + 1

theorem Delivers.skipPred (sched : Schedule) (h : Delivers w b s) (pred : UInt8 → Bool) (n : Nat) :
    ∃ b', Returns (fun m => loop (skipPredRound sched pred) m (n, b)) (skipped pred n s, b') ∧
      Delivers w b' (s.dropWhile pred).tail := by
  induction s generalizing b n with
  | nil =>
    obtain ⟨b', hfill, hb', -⟩ := h.filled sched
    have hw : b'.window = [] := List.length_eq_zero_iff.mp (Nat.le_zero.mp hb'.window_le)
    refine ⟨b', returns_loop_done ?_, hb'⟩
    have hround (m : Nat) : skipPredRound sched pred m (n, b) = .ok (.inr (0, b')) := by
      simp only [skipPredRound, hfill, hw, List.length_nil]
    simp only [hround]
    exact returns_ok _
  | cons c s ih =>
    obtain ⟨b₁, hfill, hb₁, hnil⟩ := h.filled sched
    have hne : b₁.window ≠ [] := fun hw => by cases hnil hw
    obtain ⟨d, window, hw⟩ := List.exists_cons_of_ne_nil hne
    have hd : d = c := by
      have hhead := hb₁.head hnil
      rw [hw] at hhead
      exact Option.some.inj hhead
    obtain ⟨b₂, hb₂⟩ : ∃ b₂, { b₁ with window := b₁.window.tail, p := b₁.p + 1 } = b₂ := ⟨_, rfl⟩
    have hskip : Delivers w b₂ s := hb₂ ▸ hb₁.skip hne
    have hround (m : Nat) : skipPredRound sched pred m (n, b) =
        if pred c then .ok (.inl (n + 1, b₂)) else .ok (.inr (n + 1, b₂)) := by
      rw [hw, List.tail_cons] at hb₂
      simp only [skipPredRound, hfill, hw, hd, hb₂]
    by_cases hc : pred c = true
    · obtain ⟨b', hr, hb'⟩ := ih hskip (n + 1)
      refine ⟨b', ?_, ?_⟩
      · have hcount : skipped pred n (c :: s) = skipped pred (n + 1) s := by
          rw [skipped, skipped, List.dropWhile_cons_of_pos hc, List.takeWhile_cons_of_pos hc, List.length_cons]
          split
          · rfl
          · omega
        rw [hcount]
        refine returns_loop_next ?_ hr
        simp only [hround, if_pos hc]
        exact returns_ok _
      · rwa [List.dropWhile_cons_of_pos hc]
    · refine ⟨b₂, returns_loop_done ?_, ?_⟩
      · have hcount : skipped pred n (c :: s) = n + 1 := by
          rw [skipped, List.dropWhile_cons_of_neg hc, List.takeWhile_cons_of_neg hc, if_neg (by simp)]
          rfl
        simp only [hround, if_neg hc, hcount]
        exact returns_ok _
      · rw [List.dropWhile_cons_of_neg hc]
        exact hskip

/-- The token is what stands in front of the first byte of the set. -/
theorem Delivers.gettok (sched : Schedule) (h : Delivers w b s) (charset sa : Bytes) :
    ∃ b', Returns (fun m => loop (gettokRound sched charset) m (sa, b))
        (sa ++ s.takeWhile (· ∉ charset), b') ∧ Delivers w b' (s.dropWhile (· ∉ charset)) := by
  induction s generalizing b sa with
  | nil =>
    obtain ⟨b', hpeek, hb'⟩ := h.peek sched
    refine ⟨b', returns_loop_done (hpeek.bind ?_), hb'⟩
    rw [List.takeWhile_nil, List.append_nil]
    exact returns_ok _
  | cons c s ih =>
    obtain ⟨b₁, hpeek, hb₁⟩ := h.peek sched
    by_cases hc : c ∈ charset
    · refine ⟨b₁, returns_loop_done (hpeek.bind ?_), ?_⟩
      · rw [List.takeWhile_cons_of_neg (by simpa using hc), List.append_nil]
        simp only [List.head?_cons, if_pos hc]
        exact returns_ok _
      · rwa [List.dropWhile_cons_of_neg (by simpa using hc)]
    · obtain ⟨b₂, hskip, hb₂⟩ := hb₁.skipc sched
      obtain ⟨b', hr, hb'⟩ := ih hb₂ (sa ++ [c])
      refine ⟨b', ?_, ?_⟩
      · rw [List.takeWhile_cons_of_pos (by simpa using hc), List.append_cons]
        refine returns_loop_next (hpeek.bind ?_) hr
        simp only [List.head?_cons, if_neg hc, hskip]
        exact returns_ok _
      · rwa [List.dropWhile_cons_of_pos (by simpa using hc)]

end Dirlist
