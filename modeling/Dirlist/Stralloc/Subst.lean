import Dirlist.Lib.Replace
import Dirlist.Stralloc.Defs

/-! `stralloc_replaces` works inside one block and `stralloc_subst` writes a new one. Both put in the
replacement at every leftmost occurrence and nowhere else. -/

namespace Dirlist
open Run Replace

/-- The string `xs` is in the block, from its start on. -/
structure Stralloc.Holds (sa : Stralloc) (xs : Bytes) : Prop where
  len : sa.len = xs.length
  cells : ∃ spare, sa.cells = xs ++ spare

/-- What is allocated for `n` bytes can be had. -/
def Obtainable (n : Nat) : Prop := n + n / 8 + 30 < 2 ^ 63

variable {sa out : Stralloc} {xs ys zs from_ to_ acc : Bytes} {k m n : Nat}

theorem Obtainable.mono (h : Obtainable n) (hm : m ≤ n) : Obtainable m := by
  have hdiv := Nat.div_le_div_right (c := 8) hm
  rw [Obtainable] at h ⊢
  omega

theorem strallocInit_holds : strallocInit.Holds [] := ⟨rfl, [], rfl⟩

namespace Stralloc.Holds

/-- The bytes stay, and behind them is room for `k` more. -/
theorem readyplus (h : sa.Holds xs) (hfits : Obtainable (xs.length + k)) :
    ∃ sa' gap spare, sa.readyplus k = some sa' ∧ sa'.len = xs.length ∧ gap.length = k ∧
      sa'.cells = xs ++ gap ++ spare := by
  obtain ⟨hlen, spare, hcells⟩ := h
  have hroom := hfits
  rw [Obtainable] at hroom
  have hready : sa.readyplus k = sa.ready (xs.length + k) := by
    rw [Stralloc.readyplus, hlen]
    by_cases hnil : sa.cells = []
    · rw [hnil] at hcells
      obtain rfl : xs = [] := (List.append_eq_nil_iff.mp hcells.symm).1
      rw [if_neg (not_not.mpr hnil), List.length_nil, Nat.zero_add]
    · rw [if_pos hnil, if_neg (by omega)]
  rw [hready, Stralloc.ready]
  have hwanted : (xs.length + k + (xs.length + k) / 8 + 30) % 2 ^ 64 = xs.length + k + (xs.length + k) / 8 + 30 :=
    Nat.mod_eq_of_lt (by omega)
  simp only [hwanted]
  rw [hcells, List.length_append]
  by_cases hroomy : xs ++ spare ≠ [] ∧ xs.length + k ≤ xs.length + spare.length
  · rw [if_pos hroomy]
    refine ⟨sa, spare.take k, spare.drop k, rfl, hlen, ?_, ?_⟩
    · rw [List.length_take]
      omega
    · rw [hcells, List.append_assoc, List.take_append_drop]
  · rw [if_neg hroomy, if_neg (by omega)]
    have hshort : spare.length ≤ k := by
      by_contra hlong
      refine hroomy ⟨fun hnil => ?_, by omega⟩
      rw [(List.append_eq_nil_iff.mp hnil).2, List.length_nil] at hlong
      omega
    have htake : (xs ++ spare).take (xs.length + k + (xs.length + k) / 8 + 30) = xs ++ spare :=
      List.take_of_length_le (by rw [List.length_append]; omega)
    obtain ⟨zeros, hzeros⟩ : ∃ zeros, zeros = List.replicate
        (xs.length + k + (xs.length + k) / 8 + 30 - (xs.length + spare.length)) (0 : UInt8) := ⟨_, rfl⟩
    have hlenz : k ≤ (spare ++ zeros).length := by
      rw [hzeros, List.length_append, List.length_replicate]
      omega
    refine ⟨_, (spare ++ zeros).take k, (spare ++ zeros).drop k, rfl, hlen, ?_, ?_⟩
    · rw [List.length_take]
      omega
    · rw [htake, ← hzeros, List.append_assoc, List.append_assoc, List.take_append_drop]

theorem catb (h : sa.Holds xs) (ys : Bytes) (hfits : Obtainable (xs.length + ys.length)) :
    ∃ sa', sa.catb ys = .ok (1, sa') ∧ sa'.Holds (xs ++ ys) := by
  obtain ⟨sa', gap, spare, hready, hlen, hgap, hcells⟩ := h.readyplus hfits
  refine ⟨{ cells := xs ++ ys ++ spare, len := sa'.len + ys.length }, ?_, ?_, spare, rfl⟩
  · simp only [Stralloc.catb, hready]
    rw [hcells, copyIn_eq hlen hgap, ok_bind]
  · simp only [hlen, List.length_append]

theorem room (h : sa.Holds xs) (hfits : n < m → Obtainable (xs.length + (m - n))) :
    ∃ sa' gap spare, (if m > n then sa.readyplus (m - n) else some sa) = some sa' ∧ sa'.len = xs.length ∧
      gap.length = m - n ∧ sa'.cells = xs ++ gap ++ spare := by
  by_cases hlonger : m > n
  · rw [if_pos hlonger]
    exact h.readyplus (hfits hlonger)
  · obtain ⟨hlen, spare, hcells⟩ := h
    rw [if_neg hlonger]
    exact ⟨sa, [], spare, rfl, hlen, by rw [List.length_nil]; omega, by rw [hcells, List.append_nil]⟩

/-- The tail behind an occurrence moves, so that the bytes of the replacement fit in front of it. -/
theorem moveTail {as gap ts spare : Bytes} (hlen : sa.len = (as ++ from_ ++ ts).length)
    (hcells : sa.cells = as ++ from_ ++ ts ++ gap ++ spare) (hgap : gap.length = to_.length - from_.length) :
    ∃ sa' hole spare', sa.moveTail as.length from_.length to_.length = .ok sa' ∧ hole.length = to_.length ∧
      sa'.len = (as ++ to_ ++ ts).length ∧ sa'.cells = as ++ hole ++ (ts ++ spare') := by
  have hmove : sa.len - as.length - from_.length = ts.length := by
    rw [hlen, List.length_append, List.length_append]
    omega
  rw [Stralloc.moveTail, hmove]
  rcases Nat.lt_trichotomy from_.length to_.length with hlt | heq | hgt
  · have hcopy : copyDown sa.cells (as.length + to_.length) (as.length + from_.length) ts.length =
        .ok (as ++ from_ ++ (ts ++ gap).take gap.length ++ ts ++ spare) := by
      rw [hcells]
      exact copyDown_eq (by simp) (by simp; omega)
    rw [if_pos hlt, hcopy, ok_bind]
    refine ⟨_, from_ ++ (ts ++ gap).take gap.length, spare, rfl, ?_, ?_, by simp⟩
    · simp
      omega
    · simp [hlen]
      omega
  · rw [if_neg (by omega), if_neg (by omega)]
    refine ⟨sa, from_, gap ++ spare, rfl, heq, ?_, by rw [hcells]; simp⟩
    rw [hlen]
    simp [heq]
  · obtain rfl := List.length_eq_zero_iff.mp (hgap.trans (by omega))
    obtain ⟨keep, excess, rfl, hkeep⟩ : ∃ keep excess, from_ = keep ++ excess ∧ keep.length = to_.length :=
      ⟨from_.take to_.length, from_.drop to_.length, (List.take_append_drop ..).symm, by rw [List.length_take]; omega⟩
    have hcopy : copyUp sa.cells (as.length + to_.length) (as.length + (keep ++ excess).length) ts.length =
        .ok (as ++ keep ++ ts ++ (excess ++ ts).drop ts.length ++ spare) := by
      have hblock : sa.cells = as ++ keep ++ excess ++ ts ++ spare := by
        rw [hcells]
        simp
      rw [hblock]
      exact copyUp_eq (by simp [hkeep]) (by simp; omega)
    rw [if_neg (by omega), if_pos hgt, hcopy, ok_bind]
    refine ⟨_, keep, (excess ++ ts).drop ts.length ++ spare, rfl, hkeep, ?_, by simp⟩
    simp [hlen]
    omega

end Stralloc.Holds

/-! ## Copying -/

/-- Where `stralloc_subst` finds an occurrence. -/
theorem occurs_iff {bs : Bytes} : (bs.length + from_.length ≤ (bs ++ xs).length ∧
    byteEqual from_ (((bs ++ xs).drop bs.length).take from_.length) = true) ↔ from_ <+: xs := by
  rw [List.drop_left, List.length_append, Nat.add_le_add_iff_left]
  constructor
  · rintro ⟨hle, heq⟩
    have hsame := (byteEqual_iff (by rw [List.length_take]; omega)).mp heq
    exact List.prefix_iff_eq_take.mpr hsame
  · intro hpre
    refine ⟨hpre.length_le, ?_⟩
    rw [← List.prefix_iff_eq_take.mp hpre]
    exact (byteEqual_iff rfl).mpr rfl

/-- From byte `bs.length` on, the rest is written with its occurrences replaced. -/
theorem returns_subst {bs : Bytes} (hne : from_ ≠ []) (hs : Substituted from_ to_ xs ys) (hout : out.Holds acc)
    (hfits : Obtainable (acc ++ ys).length) :
    ∃ out', Returns (fun n => loop (Stralloc.substRound (bs ++ xs) from_ to_) n (bs.length, out)) (1, out') ∧
      out'.Holds (acc ++ ys) := by
  induction hs generalizing bs out acc with
  | nil =>
    have hend (n : Nat) : Stralloc.substRound (bs ++ []) from_ to_ n (bs.length, out) = .ok (.inr (1, out)) := by
      rw [Stralloc.substRound, if_neg (by simp)]
    exact ⟨out, returns_loop_done ((returns_ok _).congr hend), by simpa using hout⟩
  | @hit xs ys hs ih =>
    obtain ⟨out₁, hcatb, hout₁⟩ := hout.catb to_ (hfits.mono (by simp))
    obtain ⟨out', hrun, hholds⟩ := @ih out₁ (acc ++ to_) (bs ++ from_) hout₁ (by simpa using hfits)
    have hpos := List.length_pos_of_ne_nil hne
    have hnext (n : Nat) : Stralloc.substRound (bs ++ (from_ ++ xs)) from_ to_ n (bs.length, out) =
        .ok (.inl (bs.length + from_.length, out₁)) := by
      rw [Stralloc.substRound, if_pos (by simp; omega), if_pos (occurs_iff.mpr (List.prefix_append _ _)), hcatb]
      rfl
    refine ⟨out', returns_loop_next ((returns_ok _).congr hnext) ?_, by simpa using hholds⟩
    simpa using hrun
  | @miss c xs ys hno hs ih =>
    obtain ⟨out₁, hcatb, hout₁⟩ := hout.catb [c] (hfits.mono (by simp))
    obtain ⟨out', hrun, hholds⟩ := @ih out₁ (acc ++ [c]) (bs ++ [c]) hout₁ (by simpa using hfits)
    have hnext (n : Nat) : Stralloc.substRound (bs ++ c :: xs) from_ to_ n (bs.length, out) =
        .ok (.inl (bs.length + 1, out₁)) := by
      rw [Stralloc.substRound, if_pos (by simp), if_neg fun h => hno (occurs_iff.mp h), readCell_at rfl, ok_bind, hcatb]
      rfl
    refine ⟨out', returns_loop_next ((returns_ok _).congr hnext) ?_, by simpa using hholds⟩
    simpa using hrun

/-! ## In place -/

/-- What `byte_findb` finds: nothing, or the first occurrence. -/
theorem byteFindb_cases (hne : from_ ≠ []) (to_ xs : Bytes) :
    byteFindb from_ xs = xs.length ∧ Substituted from_ to_ xs xs ∨
      ∃ as ts, xs = as ++ from_ ++ ts ∧ byteFindb from_ xs = as.length ∧
        ∀ zs, Substituted from_ to_ ts zs → Substituted from_ to_ xs (as ++ to_ ++ zs) := by
  induction xs with
  | nil => exact .inl ⟨rfl, .nil⟩
  | cons c xs ih =>
    by_cases hpre : from_ <+: c :: xs
    · obtain ⟨ts, hts⟩ := hpre
      refine .inr ⟨[], ts, hts.symm, byteFindb_here hne ⟨ts, hts⟩, fun zs hs => ?_⟩
      rw [← hts]
      exact .hit hs
    · rcases ih with ⟨hfind, hs⟩ | ⟨as, ts, hxs, hfind, hs⟩
      · exact .inl ⟨by rw [byteFindb_cons hpre, hfind, List.length_cons], .miss hpre hs⟩
      · have hlen : byteFindb from_ (c :: xs) = (c :: as).length := by
          rw [byteFindb_cons hpre, hfind, List.length_cons]
        exact .inr ⟨c :: as, ts, by rw [hxs]; rfl, hlen, fun zs h => .miss hpre (hs zs h)⟩

/-- From `done.length` on, the occurrences in the rest of the block are replaced. -/
theorem returns_replaces {done : Bytes} (hne : from_ ≠ []) (hsa : sa.Holds (done ++ xs))
    (hs : Substituted from_ to_ xs ys) (hfits : Obtainable (done ++ ys).length) :
    ∃ sa', Returns (fun n => loop (Stralloc.replacesRound from_ to_) n (done.length, sa)) (1, sa') ∧
      sa'.Holds (done ++ ys) := by
  induction hm : xs.length using Nat.strongRecOn generalizing done sa xs ys with
  | _ m ih =>
    obtain ⟨hlen, spare, hcells⟩ := id hsa
    have hrest : readCells sa.cells done.length (sa.len - done.length) = .ok xs := by
      rw [hcells, hlen, List.length_append, Nat.add_sub_cancel_left]
      exact readCells_at rfl
    rcases byteFindb_cases hne to_ xs with ⟨hfind, hsame⟩ | ⟨as, ts, rfl, hfind, hfound⟩
    · obtain rfl := hs.unique hne hsame
      have hend (n : Nat) : Stralloc.replacesRound from_ to_ n (done.length, sa) = .ok (.inr (1, sa)) := by
        rw [Stralloc.replacesRound, hrest, ok_bind, hfind,
          if_pos (show done.length + ys.length = sa.len by rw [hlen, List.length_append]), ite_self]
      exact ⟨sa, returns_loop_done ((returns_ok _).congr hend), hsa⟩
    · obtain ⟨zs, hzs⟩ := exists_substituted hne to_ ts
      obtain rfl := hs.unique hne (hfound zs hzs)
      have hpos := List.length_pos_of_ne_nil hne
      have hgrown : from_.length < to_.length →
          Obtainable ((done ++ (as ++ from_ ++ ts)).length + (to_.length - from_.length)) := by
        intro hlonger
        have htail := hzs.length_le (Nat.le_of_lt hlonger)
        refine hfits.mono ?_
        simp only [List.length_append]
        omega
      obtain ⟨sa₁, gap, spare₁, hroom, hlen₁, hgap, hcells₁⟩ := hsa.room hgrown
      have hsplit : done ++ (as ++ from_ ++ ts) = done ++ as ++ from_ ++ ts := by simp
      rw [hsplit] at hlen₁ hcells₁
      obtain ⟨sa₂, hole, spare₂, hmove, hhole, hlen₂, hcells₂⟩ := Stralloc.Holds.moveTail hlen₁ hcells₁ hgap
      have hcopy : copyIn sa₂.cells (done ++ as).length to_ = .ok (done ++ as ++ to_ ++ (ts ++ spare₂)) := by
        rw [hcells₂]
        exact copyIn_eq rfl hhole
      have hnext (n : Nat) : Stralloc.replacesRound from_ to_ n (done.length, sa) = .ok (.inl
          ((done ++ as ++ to_).length, { sa₂ with cells := done ++ as ++ to_ ++ (ts ++ spare₂) })) := by
        have htotal : sa.len = done.length + (as.length + from_.length + ts.length) := by
          rw [hlen, List.length_append, List.length_append, List.length_append]
        rw [List.length_append] at hmove hcopy
        rw [Stralloc.replacesRound, if_pos (by omega), hrest, ok_bind]
        simp only [hfind]
        rw [if_neg (show ¬done.length + as.length = sa.len by omega), hroom]
        simp only [hmove, ok_bind, hcopy, List.length_append]
      have hsa₂ : ({ sa₂ with cells := done ++ as ++ to_ ++ (ts ++ spare₂) } : Stralloc).Holds
          (done ++ as ++ to_ ++ ts) := ⟨hlen₂, spare₂, by simp⟩
      obtain ⟨sa', hrun, hholds⟩ := ih ts.length (by rw [← hm]; simp; omega) hsa₂ hzs (by simpa using hfits) rfl
      exact ⟨sa', returns_loop_next ((returns_ok _).congr hnext) hrun, by simpa using hholds⟩

/-- Both leave the bytes with every leftmost occurrence replaced, as far as there is memory for them. -/
theorem strallocReplaces_eq_subst (hsa : sa.Holds xs) (hout : out.Holds []) (hne : from_ ≠ []) :
    ∃ zs, Substituted from_ to_ xs zs ∧ (Obtainable zs.length →
      ∃ sa' out', Returns (fun n => sa.replaces n from_ to_) (1, sa') ∧ sa'.Holds zs ∧
        Returns (fun n => out.subst n xs from_ to_) (1, out') ∧ out'.Holds zs) := by
  obtain ⟨zs, hzs⟩ := exists_substituted hne to_ xs
  refine ⟨zs, hzs, fun hfits => ?_⟩
  obtain ⟨sa', hrun, hholds⟩ := @returns_replaces sa xs zs from_ to_ [] hne hsa hzs hfits
  obtain ⟨out', hrun', hholds'⟩ := @returns_subst out xs zs from_ to_ [] [] hne hzs hout hfits
  exact ⟨sa', out', hrun, hholds, hrun', hholds'⟩

/-- Two letters make way for one: the occurrence that overlaps the first is not one. -/
theorem strallocReplaces_eq_subst_overlap : ∃ zs, Substituted [97, 97] [98] [97, 97, 97] zs ∧ (Obtainable zs.length →
    ∃ sa' out', Returns (fun n => Stralloc.replaces n { cells := [97, 97, 97], len := 3 } [97, 97] [98]) (1, sa') ∧
      sa'.Holds zs ∧ Returns (fun n => strallocInit.subst n [97, 97, 97] [97, 97] [98]) (1, out') ∧ out'.Holds zs) :=
  strallocReplaces_eq_subst ⟨rfl, [], rfl⟩ strallocInit_holds (by decide)

end Dirlist
