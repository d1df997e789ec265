import Dirlist.Charbuf.View
import Dirlist.Lib.Trace

/-! Sequences of character buffer calls against a plain stream. The stream answers every
call from the bytes that are left; the buffer answers the same as long as no call peeks
at fewer bytes than the window already holds. -/

namespace Dirlist
open Run

inductive CharbufCall
  | peekc
  | peekn (n : Nat)
  | skipc
  | getc
  | predSkip (pred : UInt8 → Nat → Bool)
  | predLookahead (pred : UInt8 → Nat → Bool)
  | skipUntil (c : UInt8)

/-- What a call returns: a byte or the end, the bytes peeked at, or a number of bytes. -/
inductive CharbufAnswer
  | byte (c : Option UInt8)
  | bytes (v : Option Bytes)
  | count (n : Nat)
deriving DecidableEq, Repr

def charbufCall (sched : Schedule) (m : Nat) (b : Charbuf) :
    CharbufCall → Exec (CharbufAnswer × Charbuf)
  | .peekc => .ok (.byte (charbufPeekc sched b).1, (charbufPeekc sched b).2)
  | .peekn n => do
    let (v, b) ← charbufPeekn sched m b n
    .ok (.bytes v, b)
  | .skipc => .ok (.byte (charbufSkipc sched b).1, (charbufSkipc sched b).2)
  | .getc => .ok (.byte (charbufGetc sched b).1, (charbufGetc sched b).2)
  | .predSkip pred => do
    let (n, b) ← charbufPredSkip sched m b pred
    .ok (.count n, b)
  | .predLookahead pred => do
    let (n, b) ← charbufPredLookahead sched m b pred
    .ok (.count n, b)
  | .skipUntil c => do
    let (n, b) ← charbufSkipUntil sched m b c
    .ok (.count n, b)

def charbufRun (sched : Schedule) (m : Nat) :
    Charbuf → List CharbufCall → Exec (List CharbufAnswer × Charbuf)
  | b, [] => .ok ([], b)
  | b, call :: calls => do
    let (r, b) ← charbufCall sched m b call
    let (rs, b) ← charbufRun sched m b calls
    .ok (r :: rs, b)

/-! ## The stream -/

structure Stream where
  consumed : Bytes
  rest : Bytes
  /-- how many bytes were looked at and not consumed -/
  ahead : Nat
deriving DecidableEq, Repr

namespace Stream

def start (stream : Bytes) : Stream := ⟨[], stream, 0⟩

def advance (s : Stream) (k ahead : Nat) : Stream where
  consumed := s.consumed ++ s.rest.take k
  rest := s.rest.drop k
  ahead := min (s.rest.length - k) ahead

def skipWhile (s : Stream) (pred : UInt8 → Nat → Bool) : CharbufAnswer × Stream :=
  let k := predCount pred 0 s.rest
  (.count (skipResult s.rest 0 k), s.advance k (max 1 (s.ahead - k)))

def call (s : Stream) : CharbufCall → CharbufAnswer × Stream
  | .peekc => (.byte s.rest.head?, s.advance 0 (max 1 s.ahead))
  | .peekn n => (.bytes (if n ≤ s.rest.length then some (s.rest.take n) else none), s.advance 0 n)
  | .skipc => (.byte s.rest.head?, s.advance 1 (s.ahead - 1))
  | .getc => (.byte s.rest.head?, s.advance 1 (s.ahead - 1))
  | .predSkip pred => s.skipWhile pred
  | .predLookahead pred => (.count (predCount pred 0 s.rest), s.advance 0 (predCount pred 0 s.rest + 1))
  | .skipUntil c => s.skipWhile fun d _ => d ≠ c

def next (s : Stream) (c : CharbufCall) : Stream := (s.call c).2

def answers : Stream → List CharbufCall → List CharbufAnswer
  | _, [] => []
  | s, c :: calls => (s.call c).1 :: answers (s.next c) calls

/-- A buffer of size `a` can answer the call: no fewer bytes are peeked at than the window
holds, and a lookahead ends before the window is full. -/
def Fits (a : Nat) (s : Stream) : CharbufCall → Prop
  | .peekn n => s.ahead ≤ n
  | .predLookahead pred => s.ahead ≤ 1 ∧ predCount pred 0 s.rest + 1 < a
  | _ => True

instance (a : Nat) (s : Stream) : (c : CharbufCall) → Decidable (s.Fits a c)
  | .peekn n => inferInstanceAs (Decidable (s.ahead ≤ n))
  | .predLookahead pred => inferInstanceAs (Decidable (s.ahead ≤ 1 ∧ predCount pred 0 s.rest + 1 < a))
  | .peekc | .skipc | .getc | .predSkip _ | .skipUntil _ => .isTrue trivial

end Stream

/-! ## One call -/

/-- The buffer stands where the stream does. -/
structure Tracks (b : Charbuf) (a : Nat) (s : Stream) : Prop where
  view : View b s.consumed s.rest
  size : b.a = a
  ahead : b.window.length = s.ahead

variable {sched : Schedule} {b : Charbuf} {a : Nat} {s : Stream}

theorem Tracks.advance {b' : Charbuf} {k q : Nat} (ht : Tracks b a s)
    (hv : View b' (s.consumed ++ s.rest.take k) (s.rest.drop k)) (ha : b'.a = b.a)
    (hw : b'.window = (s.rest.drop k).take q) : Tracks b' a (s.advance k q) := by
  refine ⟨hv, ha.trans ht.size, ?_⟩
  rw [hw, List.length_take, List.length_drop, Stream.advance]
  exact Nat.min_comm _ _

theorem Tracks.stay {b' : Charbuf} {q : Nat} (ht : Tracks b a s) (hv : View b' s.consumed s.rest)
    (ha : b'.a = b.a) (hw : b'.window = s.rest.take q) : Tracks b' a (s.advance 0 q) :=
  ht.advance (by simpa using hv) ha (by simpa using hw)

theorem Tracks.skipWhile {pred : UInt8 → Nat → Bool} (ht : Tracks b a s)
    {f : Nat → Exec (Nat × Charbuf)} (h : ∃ b', Returns f
        (skipResult s.rest 0 (predCount pred 0 s.rest), b') ∧
      View b' (s.consumed ++ s.rest.take (predCount pred 0 s.rest))
        (s.rest.drop (predCount pred 0 s.rest)) ∧
      b'.a = b.a ∧ b'.window = (s.rest.drop (predCount pred 0 s.rest)).take
        (max 1 (b.window.length - predCount pred 0 s.rest))) :
    ∃ b', Returns (fun m => do
        let (n, b) ← f m
        .ok (CharbufAnswer.count n, b)) ((s.skipWhile pred).1, b') ∧
      Tracks b' a (s.skipWhile pred).2 := by
  obtain ⟨b', hr, hv, ha, hw⟩ := h
  rw [ht.ahead] at hw
  exact ⟨b', hr.bind (returns_ok _), ht.advance hv ha hw⟩

/-- A consuming call for one byte. -/
theorem Tracks.take {r : Option UInt8 × Charbuf} (ht : Tracks b a s)
    (hnil : s.rest = [] → ∃ b', r = (none, b') ∧ View b' s.consumed [] ∧ b'.a = b.a)
    (hcons : ∀ c rest, s.rest = c :: rest → ∃ b', r = (some c, b') ∧
      View b' (s.consumed ++ [c]) rest ∧ b'.a = b.a ∧ b'.window = rest.take (b.window.length - 1)) :
    r.1 = s.rest.head? ∧ Tracks r.2 a (s.advance 1 (s.ahead - 1)) := by
  cases hr : s.rest with
  | nil =>
    obtain ⟨b', rfl, hv, ha⟩ := hnil hr
    refine ⟨rfl, ht.advance (by simpa [hr] using hv) ha ?_⟩
    rw [hr, List.drop_nil, List.take_nil]
    exact (List.append_eq_nil_iff.mp hv.unread).1
  | cons c rest =>
    obtain ⟨b', rfl, hv, ha, hw⟩ := hcons c rest hr
    refine ⟨rfl, ht.advance (by simpa [hr] using hv) ha ?_⟩
    rw [hr, List.drop_one, List.tail_cons, hw, ht.ahead]

theorem Tracks.call (sched : Schedule) {c : CharbufCall} (ht : Tracks b a s) (hz : 0 ∉ s.rest)
    (hfits : s.Fits a c) (hn : ∀ n, c = .peekn n → n < a) :
    ∃ b', Returns (fun m => charbufCall sched m b c) ((s.call c).1, b') ∧ Tracks b' a (s.next c) := by
  have hv := ht.view
  cases c with
  | peekc =>
    obtain ⟨b', heq, hv', ha, hw⟩ := hv.peekc sched
    rw [ht.ahead] at hw
    exact ⟨b', returns_const (by rw [heq]; rfl), ht.stay hv' ha hw⟩
  | peekn n =>
    have hfits : s.ahead ≤ n := hfits
    obtain ⟨b', hr, hv', ha, hw⟩ := hv.peekn sched (ht.size ▸ hn n rfl) (ht.ahead ▸ hfits)
    exact ⟨b', hr.bind (returns_ok _), ht.stay hv' ha hw⟩
  | skipc =>
    obtain ⟨hbyte, ht'⟩ := ht.take (r := charbufSkipc sched b) (fun h => by
      rw [h] at hv
      exact hv.skipc_nil sched) fun c rest h => by
      rw [h] at hv
      exact hv.skipc sched
    exact ⟨_, returns_const (by rw [hbyte]; rfl), ht'⟩
  | getc =>
    obtain ⟨hbyte, ht'⟩ := ht.take (r := charbufGetc sched b) (fun h => by
      rw [h] at hv
      exact hv.getc_nil sched) fun c rest h => by
      rw [h] at hv
      exact hv.getc sched
    exact ⟨_, returns_const (by rw [hbyte]; rfl), ht'⟩
  | predSkip pred => exact ht.skipWhile (hv.predSkip sched pred fun h => hz (List.mem_of_mem_take h))
  | predLookahead pred =>
    obtain ⟨hw1, hroom⟩ : s.ahead ≤ 1 ∧ predCount pred 0 s.rest + 1 < a := hfits
    obtain ⟨b', hr, hv', ha, hw⟩ := hv.predLookahead sched pred (ht.ahead ▸ hw1) (ht.size ▸ hroom)
    exact ⟨b', hr.bind (returns_ok _), ht.stay hv' ha hw⟩
  | skipUntil c => exact ht.skipWhile (hv.skipUntil sched c hz)

/-! ## Runs -/

theorem next_whole (s : Stream) (c : CharbufCall) :
    (s.next c).consumed ++ (s.next c).rest = s.consumed ++ s.rest := by
  have hadv : ∀ k q, (s.advance k q).consumed ++ (s.advance k q).rest = s.consumed ++ s.rest := by
    intro k q
    rw [Stream.advance, List.append_assoc, List.take_append_drop]
  cases c <;> exact hadv _ _

theorem run_whole (s : Stream) (calls : List CharbufCall) :
    (Trace.run Stream.next s calls).consumed ++ (Trace.run Stream.next s calls).rest =
      s.consumed ++ s.rest := by
  induction calls generalizing s with
  | nil => rfl
  | cons c calls ih => rw [Trace.run_cons, ih, next_whole]

theorem next_rest_suffix (s : Stream) (c : CharbufCall) : (s.next c).rest <:+ s.rest := by
  cases c <;> exact List.drop_suffix _ _

theorem Tracks.run (sched : Schedule) {calls : List CharbufCall} (ht : Tracks b a s)
    (hz : 0 ∉ s.rest) (hn : ∀ n, .peekn n ∈ calls → n < a)
    (hfits : Trace.Steps Stream.next (Stream.Fits a) s calls) :
    ∃ b', Returns (fun m => charbufRun sched m b calls) (s.answers calls, b') ∧
      Tracks b' a (Trace.run Stream.next s calls) := by
  induction calls generalizing b s with
  | nil => exact ⟨b, returns_ok _, ht⟩
  | cons c calls ih =>
    obtain ⟨hc, hrest⟩ := hfits
    obtain ⟨b₁, hr₁, ht₁⟩ := ht.call sched hz hc fun n h => hn n (h ▸ List.mem_cons_self)
    obtain ⟨b₂, hr₂, ht₂⟩ := ih ht₁ (fun h => hz ((next_rest_suffix s c).subset h))
      (fun n h => hn n (List.mem_cons_of_mem _ h)) hrest
    exact ⟨b₂, hr₁.bind (hr₂.bind (returns_ok _)), ht₂⟩

/-- The counters of the buffer are wide enough for the stream. -/
structure CountersFit (stream : Bytes) : Prop where
  offset : stream.length < 2 ^ 64
  line : stream.count 10 < 2 ^ 32
  column : ∀ consumed, consumed <+: stream → columnOf consumed < 2 ^ 32

/-- The buffer has delivered `consumed` and nothing else, has not missed or made up an end
of file, and has counted what it delivered. -/
structure Faithful (b : Charbuf) (stream consumed : Bytes) : Prop where
  whole : consumed ++ (b.window ++ b.source) = stream
  eof : b.eof = true → b.source = []
  offset : b.offset = consumed.length
  line : b.line = consumed.count 10
  column : b.column = columnOf consumed

theorem Tracks.faithful {stream : Bytes} (ht : Tracks b a s) (hcount : CountersFit stream)
    (hwhole : s.consumed ++ s.rest = stream) : Faithful b stream s.consumed := by
  have hpre : s.consumed <+: stream := ⟨_, hwhole⟩
  refine ⟨ht.view.unread ▸ hwhole, ht.view.eof, ?_, ?_, ?_⟩
  · rw [ht.view.offset]
    exact Nat.mod_eq_of_lt (Nat.lt_of_le_of_lt hpre.length_le hcount.offset)
  · rw [ht.view.line]
    exact Nat.mod_eq_of_lt (Nat.lt_of_le_of_lt (hpre.sublist.count_le 10) hcount.line)
  · rw [ht.view.column]
    exact Nat.mod_eq_of_lt (hcount.column _ hpre)

/-- At every moment of the run the buffer has given the answers of the stream, and stands
where the stream does. -/
def CharbufFaithful (sched : Schedule) (stream : Bytes) (lookahead : Nat)
    (calls : List CharbufCall) : Prop :=
  ∀ done, done <+: calls → ∃ b,
    Returns (fun m => charbufRun sched m (charbufInit stream lookahead) done)
      ((Stream.start stream).answers done, b) ∧
    Faithful b stream (Trace.run Stream.next (Stream.start stream) done).consumed

/-- For every split of the stream, a run in which every call fits the window is faithful
to the stream. -/
theorem charbufRun_faithful (sched : Schedule) (stream : Bytes) (lookahead : Nat)
    (calls : List CharbufCall) (hz : 0 ∉ stream) (hcount : CountersFit stream)
    (ha : 0 < (charbufInit stream lookahead).a)
    (hn : ∀ n, .peekn n ∈ calls → n < (charbufInit stream lookahead).a)
    (hfits : Trace.Steps Stream.next (Stream.Fits (charbufInit stream lookahead).a)
      (Stream.start stream) calls) :
    CharbufFaithful sched stream lookahead calls := by
  intro done hd
  have ht : Tracks (charbufInit stream lookahead) (charbufInit stream lookahead).a
      (Stream.start stream) := ⟨view_init ha, rfl, rfl⟩
  obtain ⟨b, hr, ht'⟩ := ht.run sched hz (fun n h => hn n (hd.subset h)) (hfits.of_prefix hd)
  exact ⟨b, hr, ht'.faithful hcount (run_whole _ _)⟩

theorem countersFit_of_length {stream : Bytes} (h : stream.length < 2 ^ 32) :
    CountersFit stream := by
  refine ⟨by omega, Nat.lt_of_le_of_lt List.count_le_length h, fun consumed hp => ?_⟩
  have hcol : columnOf consumed ≤ consumed.length := by
    have hle := (List.takeWhile_prefix (· ≠ 10) (l := consumed.reverse)).length_le
    rwa [List.length_reverse] at hle
  exact Nat.lt_of_le_of_lt (Nat.le_trans hcol hp.length_le) h

/-- Peeking at two bytes of `ab`, then taking both and seeing the end. -/
theorem charbufRun_faithful_ab : CharbufFaithful (fun _ => 1) [97, 98] 5
    [.peekc, .peekn 2, .getc, .predLookahead fun c _ => c = 98, .skipUntil 97, .peekc] :=
  charbufRun_faithful _ _ _ _ (by decide) (countersFit_of_length (by decide)) (by decide)
    (by simp; decide) (by decide)

/-! ## Peeking at fewer bytes -/

theorem steady_charbufCall (sched : Schedule) (b : Charbuf) (c : CharbufCall) :
    Steady (fun m => charbufCall sched m b c) := by
  cases c with
  | peekc => exact steady_const _
  | peekn n => exact (steady_charbufPeekn sched b n).bind fun _ => steady_const _
  | skipc => exact steady_const _
  | getc => exact steady_const _
  | predSkip pred => exact (steady_charbufPredSkip sched b pred).bind fun _ => steady_const _
  | predLookahead pred =>
    exact (steady_charbufPredLookahead sched b pred).bind fun _ => steady_const _
  | skipUntil c =>
    have hround : ∀ s, Steady (fun m => skipUntilRound sched c m s) := fun s => steady_const _
    exact (steady_loop hround _).bind fun _ => steady_const _

theorem steady_charbufRun (sched : Schedule) (b : Charbuf) (calls : List CharbufCall) :
    Steady (fun m => charbufRun sched m b calls) := by
  induction calls generalizing b with
  | nil => exact steady_const _
  | cons c calls ih =>
    exact (steady_charbufCall sched b c).bind fun r => (ih r.2).bind fun _ => steady_const _

/-- After a look at three bytes of `abc`, a look at one byte finds nothing. -/
theorem charbufRun_unfaithful :
    ¬ CharbufFaithful (fun _ => 1) [97, 98, 99] 5 [.peekn 3, .peekn 1] := by
  intro h
  obtain ⟨b, hr, -⟩ := h _ (List.prefix_refl _)
  have hrun : charbufRun (fun _ => 1) 10 (charbufInit [97, 98, 99] 5) [.peekn 3, .peekn 1] =
      .ok ([.bytes (some [97, 98, 99]), .bytes (some [97])], b) :=
    (steady_charbufRun _ _ _).eq_of_returns hr (n := 10) (by decide)
  have hnone : (charbufRun (fun _ => 1) 10 (charbufInit [97, 98, 99] 5)
      [.peekn 3, .peekn 1]).map Prod.fst = .ok [.bytes (some [97, 98, 99]), .bytes none] := by
    decide
  rw [hrun] at hnone
  exact absurd hnone (by simp [Except.map])

end Dirlist
