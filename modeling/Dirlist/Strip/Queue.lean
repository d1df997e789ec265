import Dirlist.Strip.Defs

/-! The queue of lines. Nothing but white space is lost in it, and what it still holds comes
out when it is emptied once more. -/

namespace Dirlist
open Run

def nonspace (s : Bytes) : Bytes := s.filter fun c => !isspace c

@[simp]
theorem nonspace_append (s t : Bytes) : nonspace (s ++ t) = nonspace s ++ nonspace t := List.filter_append ..

/-- The line ends of `eat_line`. -/
def isLineEnd (c : UInt8) : Bool := inCharset [10, 13] c

/-- A queue between two lines: nothing but line ends, or text from the first byte on. -/
structure Ready (q : Bytes) : Prop where
  clean : 0 ∉ q
  ended : q ≠ [] → q.getLast? = some 10
  front : (∀ c ∈ q.head?, isLineEnd c = false) ∨ ∀ c ∈ q, isLineEnd c = true

variable {s w n y q : Bytes}

theorem nonspace_lineEnds (h0 : 0 ∉ n) (hn : ∀ c ∈ n, isLineEnd c = true) : nonspace n = [] := by
  refine List.filter_eq_nil_iff.mpr fun c hc => ?_
  have hend := hn c hc
  have hne : c ≠ 0 := fun h => h0 (h ▸ hc)
  rcases (by simpa [isLineEnd, inCharset, hne] using hend : c = 10 ∨ c = 13) with rfl | rfl <;> decide

/-! ## Lines -/

/-- A line with its line ends, and what is behind them. -/
structure Cut (s w n y : Bytes) : Prop where
  whole : s = w ++ (n ++ y)
  line : ∀ c ∈ w, isLineEnd c = false
  ends : ∀ c ∈ n, isLineEnd c = true
  some_end : n ≠ []
  next : ∀ c ∈ y.head?, isLineEnd c = false

theorem exists_cut (h : s.getLast? = some 10) : ∃ w n y, Cut s w n y := by
  obtain ⟨t, rfl⟩ := List.getLast?_eq_some_iff.mp h
  have hsplit := List.takeWhile_append_dropWhile (p := fun c => !isLineEnd c) (l := t ++ [10])
  have hrest := List.takeWhile_append_dropWhile (p := isLineEnd)
    (l := (t ++ [10]).dropWhile fun c => !isLineEnd c)
  refine ⟨_, _, _, ⟨(hrest ▸ hsplit).symm, ?_, ?_, ?_, head_dropWhile _ _⟩⟩
  · intro c hc
    simpa using List.mem_takeWhile_imp hc
  · exact fun c hc => List.mem_takeWhile_imp hc
  · -- the last byte of all is a line end, so that the line stops at one
    intro hnil
    have hhead := head_dropWhile (fun c => !isLineEnd c) (t ++ [10])
    cases hd : (t ++ [10]).dropWhile fun c => !isLineEnd c with
    | nil => exact absurd (List.dropWhile_eq_nil_iff.mp hd 10 (by simp)) (by decide)
    | cons c u =>
      rw [hd] at hnil hhead
      have hc : isLineEnd c = true := by simpa using hhead c rfl
      simp [hc] at hnil

theorem Cut.head_ends (h : Cut s w n y) : ∀ c ∈ (n ++ y).head?, (!isLineEnd c) = false := by
  intro c hc
  cases n with
  | nil => exact absurd rfl h.some_end
  | cons d n =>
    obtain rfl : d = c := by simpa using hc
    simp [h.ends d (List.mem_cons_self ..)]

theorem eatLine_cut (h : Cut s w n y) :
    eatLine s = if w = [] ∧ y = [] then (0, s, []) else (w.length, y, w ++ n.take 2) := by
  obtain ⟨rfl, hw, hn, hne, hy⟩ := h
  have hp : scanNoncharsetnskip (w ++ (n ++ y)) [10, 13] = w.length := by
    rw [scanNoncharsetnskip]
    exact congrArg _ (takeWhile_stop (by simpa [isLineEnd] using hw) (Cut.head_ends ⟨rfl, hw, hn, hne, hy⟩))
  have hq : scanCharsetnskip (n ++ y) [10, 13] = n.length := congrArg _ (takeWhile_stop hn hy)
  have hpos := List.length_pos_iff.mpr hne
  have htake : (w ++ (n ++ y)).take (w.length + if n.length > 2 then 2 else n.length) = w ++ n.take 2 := by
    rw [List.take_length_add_append]
    congr 1
    split
    · exact List.take_append_of_le_length (by omega)
    · rw [List.take_left, List.take_of_length_le (by omega)]
  simp only [eatLine, hp, List.drop_left, hq, htake, List.drop_length_add_append]
  rw [if_pos (by simp; omega)]
  by_cases hwy : w = [] ∧ y = []
  · simp [hwy]
  · rw [if_neg hwy, if_neg]
    rintro ⟨hw0, hlen⟩
    rw [List.length_append, List.length_append] at hlen
    exact hwy ⟨List.length_eq_zero_iff.mp hw0, List.length_eq_zero_iff.mp (by omega)⟩

/-- What is left behind a line is as well ended. -/
theorem Cut.last (h : Cut s w n y) (hs : s.getLast? = some 10) (hy : y ≠ []) : y.getLast? = some 10 := by
  rw [h.whole, ← List.append_assoc, List.getLast?_append_of_ne_nil _ hy] at hs
  exact hs

theorem Cut.nonspace (h : Cut s w n y) (h0 : 0 ∉ s) : nonspace s = nonspace w ++ nonspace y := by
  have hn : 0 ∉ n := fun hmem => h0 (by simp [h.whole, hmem])
  rw [h.whole, nonspace_append, nonspace_append, nonspace_lineEnds hn h.ends, List.nil_append]

theorem Cut.nonspace_take (h : Cut s w n y) (h0 : 0 ∉ s) : Dirlist.nonspace (n.take 2) = [] :=
  nonspace_lineEnds (fun hmem => h0 (by simp [h.whole, List.mem_of_mem_take hmem]))
    fun c hc => h.ends c (List.mem_of_mem_take hc)

theorem Cut.clean (h : Cut s w n y) (h0 : 0 ∉ s) : 0 ∉ y := fun hmem => h0 (by simp [h.whole, hmem])

theorem Cut.length_lt (h : Cut s w n y) : y.length < s.length := by
  have := List.length_pos_iff.mpr h.some_end
  rw [h.whole, List.length_append, List.length_append]
  omega

/-! ## The queue -/

/-- Text comes out as a whole. -/
theorem consume_text (prevlen : Nat) (out : Bytes) (h0 : 0 ∉ s) (hend : s ≠ [] → s.getLast? = some 10)
    (hhead : ∀ c ∈ s.head?, isLineEnd c = false) :
    ∃ v, Returns (fun k => loop consumeRound k (s, prevlen, out)) ([], out ++ v) ∧
      nonspace v = nonspace s := by
  induction hlen : s.length using Nat.strongRecOn generalizing s prevlen out with
  | _ len ih =>
    by_cases hs : s = []
    · subst hs
      refine ⟨[], ?_, rfl⟩
      rw [List.append_nil]
      exact returns_loop_done (returns_const rfl)
    · obtain ⟨w, n, y, hcut⟩ := exists_cut (hend hs)
      have hw : w ≠ [] := by
        rintro rfl
        cases n with
        | nil => exact hcut.some_end rfl
        | cons c n =>
          have hc := hhead c (by simp [hcut.whole])
          rw [hcut.ends c (List.mem_cons_self ..)] at hc
          cases hc
      have hround (k : Nat) : consumeRound k (s, prevlen, out) =
          .ok (.inl (y, w.length, out ++ (w ++ n.take 2))) := by
        simp only [consumeRound, if_neg hs, eatLine_cut hcut, hw, false_and, if_false]
        rw [if_neg fun h => hw (List.length_eq_zero_iff.mp h.1)]
      obtain ⟨v, hv, hnon⟩ := ih y.length (hlen ▸ hcut.length_lt) w.length (out ++ (w ++ n.take 2))
        (hcut.clean h0) (fun hy => hcut.last (hend hs) hy) hcut.next rfl
      rw [List.append_assoc] at hv
      refine ⟨_, returns_loop_next (returns_const (hround 0)) hv, ?_⟩
      rw [nonspace_append, nonspace_append, hcut.nonspace_take h0, List.append_nil, hnon, hcut.nonspace h0]

theorem ready_nil : Ready [] := ⟨by simp, by simp, .inr (by simp)⟩

theorem consumeOutput_returns (out : Bytes) (h0 : 0 ∉ s) (hs : s.getLast? = some 10) :
    ∃ q v, Returns (fun k => consumeOutput k s out) (q, out ++ v) ∧ nonspace (v ++ q) = nonspace s ∧
      Ready q ∧ (Ready s → q = []) := by
  obtain ⟨w, n, y, hcut⟩ := exists_cut hs
  have hne : s ≠ [] := by
    rintro rfl
    cases hs
  have hpure {q s' out' : Bytes} (hq : (if s'.length < s.length ∧ s' ≠ [] then s' else []) = q) :
      Returns (fun _ => if s'.length < s.length ∧ s' ≠ [] then Except.ok (ε := Fault) (s', out')
        else .ok ([], out')) (q, out') := by
    refine returns_const ?_
    subst hq
    split <;> rfl
  by_cases hw : w = []
  · subst hw
    by_cases hy : y = []
    · -- nothing but line ends: they are dropped
      subst hy
      have hround : consumeRound 0 (s, 2 ^ 64 - 1, out) = .ok (.inr (s, out ++ [])) := by
        simp only [consumeRound, if_neg hne, eatLine_cut hcut, true_and, if_true]
        rw [if_pos (by decide)]
      refine ⟨[], [], (returns_loop_done (returns_const hround)).bind (hpure (by simp)), ?_, ready_nil,
        fun _ => rfl⟩
      rw [hcut.nonspace h0]
      rfl
    · -- line ends before text: the text stays
      have hround : consumeRound 0 (s, 2 ^ 64 - 1, out) = .ok (.inr (y, out ++ n.take 2)) := by
        simp only [consumeRound, if_neg hne, eatLine_cut hcut, hy, and_false, if_false]
        rw [if_pos (by decide), List.nil_append]
      refine ⟨y, n.take 2, (returns_loop_done (returns_const hround)).bind
        (hpure (if_pos ⟨hcut.length_lt, hy⟩)), ?_, ⟨hcut.clean h0, hcut.last hs, .inl hcut.next⟩, ?_⟩
      · rw [nonspace_append, hcut.nonspace_take h0, hcut.nonspace h0]
        rfl
      · intro hready
        obtain ⟨c, n', rfl⟩ := List.exists_cons_of_ne_nil hcut.some_end
        obtain ⟨d, y', rfl⟩ := List.exists_cons_of_ne_nil hy
        have hc := hcut.ends c (List.mem_cons_self ..)
        have hd := hcut.next d rfl
        rcases hready.front with hfront | hall
        · exact absurd hc (by simp [hfront c (by simp [hcut.whole])])
        · exact absurd (hall d (by simp [hcut.whole])) (by simp [hd])
  · have hhead : ∀ c ∈ s.head?, isLineEnd c = false := by
      obtain ⟨d, w', rfl⟩ := List.exists_cons_of_ne_nil hw
      intro c hc
      obtain rfl : d = c := by simpa [hcut.whole] using hc
      exact hcut.line d (List.mem_cons_self ..)
    obtain ⟨v, hv, hnon⟩ := consume_text (2 ^ 64 - 1) out h0 (fun _ => hs) hhead
    refine ⟨[], v, hv.bind (hpure (by simp)), ?_, ready_nil, fun _ => rfl⟩
    rw [List.append_nil, hnon]

/-! ## Lines into the queue -/

theorem nonspace_concat {x : Bytes} {c : UInt8} (hc : isspace c = true) : nonspace (x ++ [c]) = nonspace x := by
  simp [nonspace, hc]

theorem nonspace_rdropWhile (x : Bytes) : nonspace (x.rdropWhile isspace) = nonspace x := by
  induction x using List.reverseRecOn with
  | nil => rfl
  | append_singleton x c ih =>
    rw [List.rdropWhile_concat]
    split
    · next hc => rw [ih, nonspace_concat hc]
    · rfl

theorem nonspace_cutLine (x : Bytes) : nonspace (cutLine x) = nonspace x := by
  rw [cutLine]
  split
  · split
    · next hlast =>
      rw [nonspace_rdropWhile]
      rcases hlast with hlast | hlast <;>
      · obtain ⟨y, rfl⟩ := List.getLast?_eq_some_iff.mp hlast
        rw [List.dropLast_concat, nonspace_concat (by decide)]
    · exact nonspace_rdropWhile x
  · rfl

theorem cutLine_subset (x : Bytes) : cutLine x ⊆ x := by
  rw [cutLine]
  split
  · split
    · exact fun c hc => List.dropLast_subset x ((List.rdropWhile_prefix _ _).subset hc)
    · exact (List.rdropWhile_prefix _ _).subset
  · exact List.Subset.refl x

theorem Ready.concat (hq : Ready q) : Ready (q ++ [10]) := by
  refine ⟨by simpa using hq.clean, fun _ => List.getLast?_concat .., ?_⟩
  by_cases hnil : q = []
  · subst hnil
    exact .inr (by decide)
  · refine hq.front.imp (fun hfront c hc => ?_) fun hall => ?_
    · rw [List.head?_append_of_ne_nil _ hnil] at hc
      exact hfront c hc
    · exact List.forall_mem_append.mpr ⟨hall, by decide⟩

/-- A line goes to the queue or through it. -/
theorem putLine_returns {x : Bytes} (hq : Ready q) (hx : 0 ∉ x) (out : Bytes) :
    ∃ q' v, Returns (fun k => putLine k q x out) (q', out ++ v) ∧ Ready q' ∧
      nonspace (v ++ q') = nonspace (q ++ x) := by
  have hnon : nonspace (q ++ cutLine x ++ [10]) = nonspace (q ++ x) := by
    rw [nonspace_concat (by decide), nonspace_append, nonspace_append, nonspace_cutLine]
  by_cases hcut : cutLine x = []
  · refine ⟨q ++ [10], [], (returns_ok _).congr fun k => ?_, hq.concat, ?_⟩
    · simp [putLine, hcut]
    · rw [hcut, List.append_nil] at hnon
      exact hnon
  · have hclean : 0 ∉ q ++ cutLine x ++ [10] := by
      simp only [List.mem_append, List.mem_singleton, not_or]
      exact ⟨⟨hq.clean, fun h => hx (cutLine_subset x h)⟩, by decide⟩
    obtain ⟨q', v, hr, hsame, hready, -⟩ :=
      consumeOutput_returns out hclean (List.getLast?_concat ..)
    refine ⟨q', v, hr.congr fun k => ?_, hready, hsame.trans hnon⟩
    rw [putLine, if_pos (List.length_pos_iff.mpr hcut)]

theorem flushLine_returns {x : Bytes} (hq : Ready q) (hx : 0 ∉ x) (out : Bytes) :
    ∃ v, Returns (fun k => flushLine k q x out) (out ++ v) ∧ nonspace v = nonspace (q ++ x) := by
  obtain ⟨q', v, hr, hready, hnon⟩ := putLine_returns hq hx out
  by_cases hq' : q' = []
  · subst hq'
    refine ⟨v, hr.bind (returns_ok _), ?_⟩
    rw [← hnon, List.append_nil]
  · obtain ⟨q'', v', hr', hnon', -, hdone⟩ :=
      consumeOutput_returns (out ++ v) hready.clean (hready.ended hq')
    obtain rfl := hdone hready
    rw [List.append_nil] at hnon'
    rw [List.append_assoc] at hr'
    refine ⟨v ++ v', hr.bind ?_, ?_⟩
    · refine Returns.congr (hr'.bind (g := fun _ r => .ok r.2) (returns_ok _)) fun k => ?_
      simp only [if_pos (List.length_pos_iff.mpr hq')]
    · rw [nonspace_append, hnon', ← hnon, nonspace_append]

end Dirlist
