import Dirlist.Lib.Run
import Dirlist.Path.Tokens

/-! `path_collapse`, which rewrites a path in its own buffer. The accesses are checked: the
buffer ends with the zero byte behind the path. -/

namespace Dirlist
open Run

/-- `path_getsep` -/
def pathGetsep (path : Bytes) : UInt8 := (path.find? pathIssep).getD 0

def byteSet (x : Bytes) (i : Nat) (c : UInt8) : Exec Bytes :=
  if i < x.length then .ok (x.set i c) else .error .bounds

def memmove (x : Bytes) (dst src n : Nat) : Exec Bytes :=
  if dst + n ≤ x.length ∧ src + n ≤ x.length then
    .ok (x.take dst ++ (x.drop src).take n ++ x.drop (dst + n))
  else .error .bounds

structure Collapse where
  x : Bytes
  n : Nat
  i : Nat

/-- `while(x[i] == sep) i++`, over the bytes from `i` on -/
def skipSeps (sep : UInt8) : Bytes → Nat → Exec Nat
  | [], _ => .error .bounds
  | c :: s, i => if c = sep then skipSeps sep s (i + 1) else .ok i

/-- `while(x[--i] == sep)`, which also looks at the byte before the first one -/
def backSeps (sep : UInt8) (x : Bytes) : Nat → Exec Nat
  | 0 => .error .bounds
  | i + 1 => do
    if (← byteAt x i) = sep then backSeps sep x i else .ok i

/-- `while(i > 0 && x[i] != sep) i--` -/
def backName (sep : UInt8) (x : Bytes) : Nat → Exec Nat
  | 0 => .ok 0
  | i + 1 => do
    if (← byteAt x (i + 1)) ≠ sep then backName sep x i else .ok (i + 1)

/-- Whether there is a `..` at `l`. -/
def isUpAt (sep : UInt8) (x : Bytes) (n l : Nat) : Exec Bool := do
  if l + 2 ≤ n then
    if (← byteAt x l) ≠ pathDot then .ok false
    else if (← byteAt x (l + 1)) ≠ pathDot then .ok false
    else if l + 2 ≥ n then .ok true
    else .ok ((← byteAt x (l + 2)) = sep)
  else .ok false

/-- The bytes from `l` on move to `i`, if there are any. -/
def closeGap (x : Bytes) (n i l : Nat) : Exec Bytes := if l < n then memmove x i l (n - l) else .ok x

/-- The component at `i` goes, with the `..` at `l`. -/
def collapseUp (sep : UInt8) (x : Bytes) (n i l : Nat) : Exec Collapse := do
  let l := l + 3
  let x ← closeGap x n i l
  -- `i + (n - l)` is unsigned, and -1 if the component is all of the path
  if i + n < l then .error .bounds
  else
    let n := i + n - l
    let x ← byteSet x n 0
    let i ← backSeps sep x i
    let i ← backName sep x i
    .ok ⟨x, n, i⟩

def collapseRound (sep : UInt8) (_ : Nat) (s : Collapse) : Exec (Collapse ⊕ Bytes × Nat) := do
  if s.i < s.n then
    let i ← skipSeps sep (s.x.drop s.i) s.i
    let l := i + byteChr sep ((s.x.drop i).take (s.n - i))
    if l < s.n then
      if ← isUpAt sep s.x s.n (l + 1) then .ok (.inl (← collapseUp sep s.x s.n i (l + 1)))
      else .ok (.inl { s with i := l + 1 })
    else .ok (.inl { s with i := l })
  else .ok (.inr (s.x, s.n))

/-- `path_collapse` on a path without a zero byte: the buffer and the new length. -/
def pathCollapse (fuel : Nat) (path : Bytes) : Exec (Bytes × Nat) :=
  loop (collapseRound (pathGetsep path)) fuel ⟨path ++ [0], path.length, 0⟩

/-! ## Scanning the buffer -/

variable {sep : UInt8} {g w x y r junk : Bytes} {i j : Nat}

theorem skipSeps_replicate {c : UInt8} (hc : c ≠ sep) (j i : Nat) (y : Bytes) :
    skipSeps sep (List.replicate j sep ++ c :: y) i = .ok (i + j) := by
  induction j generalizing i with
  | zero => simp [skipSeps, hc]
  | succ j ih =>
    rw [List.replicate_succ, List.cons_append, skipSeps, if_pos rfl, ih]
    congr 1
    omega

theorem backSeps_replicate (j : Nat) (g y : Bytes) :
    backSeps sep (g ++ List.replicate j sep ++ y) (g.length + j) =
      backSeps sep (g ++ List.replicate j sep ++ y) g.length := by
  induction j generalizing y with
  | zero => simp
  | succ j ih =>
    have hlist : g ++ List.replicate (j + 1) sep ++ y = g ++ List.replicate j sep ++ sep :: y := by
      simp [List.replicate_succ']
    have hlen : g.length + j = (g ++ List.replicate j sep).length := by simp
    rw [hlist, ← Nat.add_assoc, backSeps]
    nth_rewrite 1 [hlen]
    rw [byteAt_append, ok_bind, if_pos rfl, ih]

theorem backSeps_stop {c : UInt8} (hc : c ≠ sep) (g y : Bytes) :
    backSeps sep (g ++ c :: y) (g.length + 1) = .ok g.length := by
  rw [backSeps, byteAt_append, ok_bind, if_neg hc]

theorem backName_step {c : UInt8} (hc : c ≠ sep) (g y : Bytes) :
    backName sep (g ++ c :: y) g.length = backName sep (g ++ c :: y) (g.length - 1) := by
  cases hg : g.length with
  | zero => rfl
  | succ m => rw [backName, ← hg, byteAt_append, ok_bind, if_pos hc, hg, Nat.add_sub_cancel]

/-- Going back from the end of a name ends right before it, or at the first byte. -/
theorem backName_spec (hw : sep ∉ w) (hg : g = [] ∨ ∃ g', g = g' ++ [sep]) (y : Bytes) :
    backName sep (g ++ w ++ y) ((g ++ w).length - 1) = .ok (g.length - 1) := by
  induction w using List.reverseRecOn generalizing y with
  | nil =>
    rcases hg with rfl | ⟨g, rfl⟩
    · rfl
    · have hlist : g ++ [sep] ++ [] ++ y = g ++ sep :: y := by simp
      have hlen : (g ++ [sep] ++ []).length - 1 = g.length := by simp
      rw [hlist, hlen, List.length_append, List.length_singleton, Nat.add_sub_cancel]
      cases hg : g.length with
      | zero => rfl
      | succ m => rw [backName, ← hg, byteAt_append, ok_bind, if_neg (by simp)]
  | append_singleton w a ih =>
    obtain ⟨hw', ha⟩ : sep ∉ w ∧ sep ≠ a := by simpa using hw
    have hlist : g ++ (w ++ [a]) ++ y = (g ++ w) ++ a :: y := by simp
    have hlen : (g ++ (w ++ [a])).length - 1 = (g ++ w).length := by simp
    rw [hlist, hlen, backName_step ha.symm]
    exact ih hw' (a :: y)

/-- Whether a text begins with the component `..`. -/
def startsUp (sep : UInt8) : Bytes → Bool
  | [a, b] => a = pathDot ∧ b = pathDot
  | a :: b :: c :: _ => a = pathDot ∧ b = pathDot ∧ c = sep
  | _ => false

theorem isUpAt_spec (g r junk : Bytes) :
    isUpAt sep (g ++ r ++ 0 :: junk) (g ++ r).length g.length = .ok (startsUp sep r) := by
  have hat0 (a : UInt8) (y : Bytes) : byteAt (g ++ a :: y) g.length = .ok a := byteAt_append g a y
  have hat1 (a b : UInt8) (y : Bytes) : byteAt (g ++ a :: b :: y) (g.length + 1) = .ok b := by
    simp [byteAt]
  have hat2 (a b c : UInt8) (y : Bytes) : byteAt (g ++ a :: b :: c :: y) (g.length + 2) = .ok c := by
    simp [byteAt]
  rcases r with _ | ⟨a, _ | ⟨b, _ | ⟨c, r⟩⟩⟩
  · rw [isUpAt, if_neg (by simp)]
    rfl
  · rw [isUpAt, if_neg (by simp)]
    rfl
  · simp only [isUpAt, List.append_assoc, List.cons_append, hat0, hat1, ok_bind, List.length_append,
      List.length_cons, startsUp]
    by_cases ha : a = pathDot <;> by_cases hb : b = pathDot <;> simp [ha, hb]
  · simp only [isUpAt, List.append_assoc, List.cons_append, hat0, hat1, hat2, ok_bind,
      List.length_append, List.length_cons, startsUp]
    by_cases ha : a = pathDot <;> by_cases hb : b = pathDot <;> simp [ha, hb]

theorem startsUp_sep (y : Bytes) : startsUp pathSep (pathSep :: y) = false := by
  rcases y with _ | ⟨b, _ | ⟨c, y⟩⟩
  · rfl
  · simp [startsUp, pathSep, pathDot]
  · simp [startsUp, pathSep, pathDot]

theorem startsUp_spell {ts : List Token} (h : WellSpelled ts) :
    startsUp pathSep (spell ts) = true ↔ ∃ d us, ts = d :: us ∧ d.name = upName := by
  cases ts with
  | nil => simp [startsUp]
  | cons d us =>
    have hlast (hd : d.seps = 0) : us = [] := h.eq_nil_of_seps [] hd
    have hd := (h.name d List.mem_cons_self).1
    have hname : (∃ d' us', d :: us = d' :: us' ∧ d'.name = upName) ↔ d.name = upName := by simp
    obtain ⟨name, k⟩ := d
    rw [hname, spell_cons, Token.spell]
    rcases name with _ | ⟨a, _ | ⟨b, _ | ⟨e, name⟩⟩⟩
    · exact absurd rfl hd.1
    · cases k with
      | zero => simp [hlast rfl, startsUp, upName]
      | succ k =>
        have hfalse : startsUp pathSep (a :: pathSep :: (List.replicate k pathSep ++ spell us)) = false := by
          cases hy : List.replicate k pathSep ++ spell us <;> simp [startsUp, pathSep, pathDot]
        simpa [List.replicate_succ, upName] using hfalse
    · cases k with
      | zero => simp [hlast rfl, startsUp, upName]
      | succ k => simp [List.replicate_succ, startsUp, upName]
    · have he : e ≠ pathSep := fun he => hd.2 (by simp [he])
      simp [startsUp, upName, he]

/-! ## Taking a component out -/

/-- The bytes behind the gap move into it. -/
theorem memmove_gap (g gap r y : Bytes) : memmove (g ++ gap ++ r ++ y) g.length (g ++ gap).length r.length =
    .ok (g ++ r ++ (gap ++ r ++ y).drop r.length) := by
  have hle : g.length + r.length ≤ (g ++ gap ++ r ++ y).length ∧
      (g ++ gap).length + r.length ≤ (g ++ gap ++ r ++ y).length := by
    simp only [List.length_append]
    omega
  have hsrc : (g ++ gap ++ r ++ y).drop (g ++ gap).length = r ++ y := by
    rw [List.append_assoc (g ++ gap), List.drop_left]
  have hdst : g ++ gap ++ r ++ y = g ++ (gap ++ r ++ y) := by simp
  rw [memmove, if_pos hle, hsrc, List.take_left, hdst, List.take_left, List.drop_append]
  simp

theorem byteSet_append (g y : Bytes) (hy : y ≠ []) (c : UInt8) :
    byteSet (g ++ y) g.length c = .ok (g ++ c :: y.tail) := by
  obtain ⟨b, y, rfl⟩ := List.exists_cons_of_ne_nil hy
  simp [byteSet]

/-- With more of the path behind the `..`. -/
theorem collapseUp_middle (pre c r junk : Bytes) : ∃ junk',
    collapseUp pathSep (pre ++ (c ++ pathSep :: upName ++ [pathSep]) ++ r ++ 0 :: junk)
      (pre ++ (c ++ pathSep :: upName ++ [pathSep]) ++ r).length pre.length
      ((pre ++ c).length + 1) = (do
        let i ← backSeps pathSep (pre ++ r ++ 0 :: junk') pre.length
        let i ← backName pathSep (pre ++ r ++ 0 :: junk') i
        .ok ⟨pre ++ r ++ 0 :: junk', (pre ++ r).length, i⟩) := by
  have hl : (pre ++ c).length + 1 + 3 = (pre ++ (c ++ pathSep :: upName ++ [pathSep])).length := by
    simp [upName]
    omega
  have hpos : 0 < (c ++ pathSep :: upName ++ [pathSep]).length := by
    rw [List.length_append, List.length_singleton]
    omega
  generalize c ++ pathSep :: upName ++ [pathSep] = gap at hl hpos ⊢
  have hmove : closeGap (pre ++ gap ++ r ++ 0 :: junk) (pre ++ gap ++ r).length pre.length
      (pre ++ gap).length = .ok (pre ++ r ++ (gap ++ r ++ 0 :: junk).drop r.length) := by
    have hr : (pre ++ gap ++ r).length - (pre ++ gap).length = r.length := by
      rw [@List.length_append _ (pre ++ gap), Nat.add_sub_cancel_left]
    rw [closeGap, hr, memmove_gap]
    split
    · rfl
    · next hnot =>
      have hnil : r = [] := by
        rw [@List.length_append _ (pre ++ gap)] at hnot
        exact List.length_eq_zero_iff.mp (by omega)
      simp [hnil]
  have hrest : (gap ++ r ++ 0 :: junk).drop r.length ≠ [] := by
    rw [ne_eq, List.drop_eq_nil_iff]
    simp
    omega
  have hn : pre.length + (pre ++ gap ++ r).length - (pre ++ gap).length = (pre ++ r).length := by
    simp only [List.length_append]
    omega
  refine ⟨((gap ++ r ++ 0 :: junk).drop r.length).tail, ?_⟩
  simp only [collapseUp, hl, hmove, ok_bind]
  rw [if_neg (by simp only [List.length_append]; omega), hn, byteSet_append _ _ hrest, ok_bind]

/-- With the `..` at the end of the path. -/
theorem collapseUp_end (pre c junk : Bytes) : ∃ junk',
    collapseUp pathSep (pre ++ pathSep :: (c ++ pathSep :: upName) ++ 0 :: junk)
      (pre ++ pathSep :: (c ++ pathSep :: upName)).length (pre.length + 1)
      ((pre ++ pathSep :: c).length + 1) = (do
        let i ← backName pathSep (pre ++ 0 :: junk') pre.length
        .ok ⟨pre ++ 0 :: junk', pre.length, i⟩) := by
  have hl : (pre ++ pathSep :: c).length + 1 + 3 = (pre ++ pathSep :: (c ++ pathSep :: upName)).length + 1 := by
    simp [upName]
    omega
  have hn : pre.length + 1 + (pre ++ pathSep :: (c ++ pathSep :: upName)).length -
      ((pre ++ pathSep :: (c ++ pathSep :: upName)).length + 1) = pre.length := by omega
  have hset := byteSet_append pre (pathSep :: (c ++ pathSep :: upName) ++ 0 :: junk) (by simp) 0
  rw [← List.append_assoc] at hset
  refine ⟨(pathSep :: (c ++ pathSep :: upName) ++ 0 :: junk).tail, ?_⟩
  simp only [collapseUp, closeGap, hl]
  rw [if_neg (by omega), ok_bind, if_neg (by omega), hn, hset, ok_bind,
    backSeps_stop (by decide), ok_bind]

/-! ## A round at a component -/

variable {lead k : Nat} {done ts : List Token} {c d p : Token} {s : Collapse}

def spelled (lead : Nat) (ts : List Token) : Bytes := List.replicate lead pathSep ++ spell ts

/-- The buffer holds the tokens, and `i` lies in the separators before those ahead. -/
structure Scanning (lead : Nat) (done todo : List Token) (s : Collapse) : Prop where
  buffer : ∃ junk, s.x = spelled lead done ++ spell todo ++ 0 :: junk
  length : s.n = (spelled lead done ++ spell todo).length
  place : ∃ g j, spelled lead done = g ++ List.replicate j pathSep ∧ s.i = g.length

theorem spelled_append (lead : Nat) (ts us : List Token) : spelled lead (ts ++ us) = spelled lead ts ++ spell us := by
  simp [spelled]

theorem spelled_concat (lead : Nat) (ts : List Token) (t : Token) :
    spelled lead (ts ++ [t]) = spelled lead ts ++ t.name ++ List.replicate t.seps pathSep := by
  simp [spelled, Token.spell]

theorem Scanning.skip {todo : List Token} {a : UInt8} (h : Scanning lead done todo s) (ha : a ≠ pathSep)
    (hy : ∀ junk, ∃ y, spell todo ++ 0 :: junk = a :: y) :
    skipSeps pathSep (s.x.drop s.i) s.i = .ok (spelled lead done).length := by
  obtain ⟨junk, hx⟩ := h.buffer
  obtain ⟨g, j, hg, hi⟩ := h.place
  obtain ⟨y, hy⟩ := hy junk
  rw [hx, hi, hg, List.append_assoc, List.append_assoc, List.drop_left, hy, skipSeps_replicate ha]
  simp

theorem byteChr_spell (h : WellSpelled (done ++ c :: ts)) : byteChr pathSep (spell (c :: ts)) = c.name.length := by
  have hc := (h.name c (by simp)).1
  rw [spell_cons, Token.spell]
  cases hk : c.seps with
  | zero => simp [h.eq_nil_of_seps done hk, byteChr_free hc.2]
  | succ k => rw [List.replicate_succ, List.append_assoc, List.cons_append, byteChr_at hc.2]

/-- Up to the end of a component. -/
theorem round_component (h : Scanning lead done (c :: ts) s) (hw : WellSpelled (done ++ c :: ts)) :
    collapseRound pathSep k s =
      if c.seps = 0 then .ok (.inl { s with i := (spelled lead done ++ c.name).length })
      else if startsUp pathSep (List.replicate (c.seps - 1) pathSep ++ spell ts) then do
        .ok (.inl (← collapseUp pathSep s.x s.n (spelled lead done).length
          ((spelled lead done ++ c.name).length + 1)))
      else .ok (.inl { s with i := (spelled lead done ++ c.name).length + 1 }) := by
  obtain ⟨junk, hx⟩ := h.buffer
  obtain ⟨g, j, hg, hi⟩ := h.place
  have hc := (hw.name c (by simp)).1
  obtain ⟨a, name, hname⟩ := List.exists_cons_of_ne_nil hc.1
  have ha : a ≠ pathSep := fun he => hc.2 (by simp [hname, he])
  have hskip : skipSeps pathSep (s.x.drop s.i) s.i = .ok (spelled lead done).length :=
    h.skip ha fun junk => ⟨_, by rw [spell_cons, Token.spell, hname]; rfl⟩
  have hlt : s.i < s.n := by
    rw [hi, h.length, hg, List.length_append, spell_cons, Token.spell, hname]
    simp only [List.length_append, List.length_cons]
    omega
  have hdrop : (s.x.drop (spelled lead done).length).take (s.n - (spelled lead done).length) = spell (c :: ts) := by
    rw [hx, h.length, List.append_assoc, List.drop_left, List.length_append, Nat.add_sub_cancel_left,
      List.take_left]
  simp only [collapseRound, hlt, if_true, hskip, ok_bind, hdrop, byteChr_spell hw]
  rw [← List.length_append]
  by_cases hseps : c.seps = 0
  · have hn : ¬(spelled lead done ++ c.name).length < s.n := by
      rw [h.length, hw.eq_nil_of_seps done hseps]
      simp [Token.spell, hseps]
    rw [if_neg hn, if_pos hseps]
  · have hn : (spelled lead done ++ c.name).length < s.n := by
      rw [h.length]
      simp [Token.spell]
      omega
    have hbuf : s.x = (spelled lead done ++ c.name ++ [pathSep]) ++
        (List.replicate (c.seps - 1) pathSep ++ spell ts) ++ 0 :: junk := by
      obtain ⟨m, hm⟩ : ∃ m, c.seps = m + 1 := ⟨c.seps - 1, by omega⟩
      rw [hx, spell_cons, Token.spell, hm]
      simp [List.replicate_succ]
    have hlen : s.n = ((spelled lead done ++ c.name ++ [pathSep]) ++
        (List.replicate (c.seps - 1) pathSep ++ spell ts)).length := by
      rw [h.length]
      simp [Token.spell]
      omega
    have hl : (spelled lead done ++ c.name).length + 1 = (spelled lead done ++ c.name ++ [pathSep]).length := by
      rw [@List.length_append _ _ [pathSep]]
      rfl
    have hup : isUpAt pathSep s.x s.n ((spelled lead done ++ c.name).length + 1) =
        .ok (startsUp pathSep (List.replicate (c.seps - 1) pathSep ++ spell ts)) := by
      rw [hbuf, hlen, hl]
      exact isUpAt_spec _ _ _
    rw [if_pos hn, if_neg hseps, hup, ok_bind]

/-! ## Rounds and tokens -/

theorem Scanning.shift (h : Scanning lead done (c :: ts) s) (hw : WellSpelled (done ++ c :: ts))
    (hno : ¬(c.seps = 1 ∧ ∃ d us, ts = d :: us ∧ d.name = upName)) :
    ∃ s', (∀ k, collapseRound pathSep k s = .ok (.inl s')) ∧ Scanning lead (done ++ [c]) ts s' := by
  have hbuf : ∃ junk, s.x = spelled lead (done ++ [c]) ++ spell ts ++ 0 :: junk := by
    obtain ⟨junk, hx⟩ := h.buffer
    exact ⟨junk, by rw [hx, spelled_append]; simp⟩
  have hlen : s.n = (spelled lead (done ++ [c]) ++ spell ts).length := by
    rw [h.length, spelled_append]
    simp
  by_cases hseps : c.seps = 0
  · refine ⟨{ s with i := (spelled lead done ++ c.name).length },
      fun k => by rw [round_component h hw, if_pos hseps], hbuf, hlen, spelled lead done ++ c.name, 0, ?_, rfl⟩
    rw [spelled_concat, hseps]
  · have hup : ¬startsUp pathSep (List.replicate (c.seps - 1) pathSep ++ spell ts) = true := by
      intro hup
      cases hm : c.seps - 1 with
      | zero =>
        have hts : WellSpelled ts := by
          have happ : WellSpelled ((done ++ [c]) ++ ts) := by simpa using hw
          exact happ.of_append
        rw [hm, List.replicate_zero, List.nil_append, startsUp_spell hts] at hup
        exact hno ⟨by omega, hup⟩
      | succ m =>
        rw [hm, List.replicate_succ, List.cons_append, startsUp_sep] at hup
        cases hup
    refine ⟨{ s with i := (spelled lead done ++ c.name).length + 1 },
      fun k => by rw [round_component h hw, if_neg hseps, if_neg hup], hbuf, hlen,
      spelled lead done ++ c.name ++ [pathSep], c.seps - 1, ?_, by simp; omega⟩
    obtain ⟨m, hm⟩ : ∃ m, c.seps = m + 1 := ⟨c.seps - 1, by omega⟩
    rw [spelled_concat, hm]
    simp [List.replicate_succ]

/-- Scanning a `..`, with one separator before it. -/
theorem Scanning.up (h : Scanning lead done (c :: d :: ts) s) (hw : WellSpelled (done ++ c :: d :: ts))
    (hup : c.seps = 1 ∧ d.name = upName) (k : Nat) :
    collapseRound pathSep k s = (do
      .ok (.inl (← collapseUp pathSep s.x s.n (spelled lead done).length
        ((spelled lead done ++ c.name).length + 1)))) := by
  have happ : WellSpelled ((done ++ [c]) ++ d :: ts) := by simpa using hw
  have hstarts : startsUp pathSep (List.replicate (c.seps - 1) pathSep ++ spell (d :: ts)) = true := by
    rw [hup.1, Nat.sub_self, List.replicate_zero, List.nil_append, startsUp_spell happ.of_append]
    exact ⟨d, ts, rfl, hup.2⟩
  rw [round_component h hw, if_neg (by omega), if_pos hstarts]

/-- Before a token stands a separator, or nothing. -/
theorem spelled_end (hw : WellSpelled (done ++ c :: ts)) :
    spelled lead done = [] ∨ ∃ g, spelled lead done = g ++ [pathSep] := by
  rcases List.eq_nil_or_concat done with rfl | ⟨done, p, rfl⟩
  · cases lead with
    | zero => exact .inl rfl
    | succ lead => exact .inr ⟨List.replicate lead pathSep, by simp [spelled, List.replicate_succ']⟩
  · rw [List.concat_eq_append] at hw ⊢
    have hp : 1 ≤ p.seps := by
      refine hw.seps p ?_
      rw [List.dropLast_append_of_ne_nil (List.cons_ne_nil _ _)]
      simp
    obtain ⟨m, hm⟩ : ∃ m, p.seps = m + 1 := ⟨p.seps - 1, by omega⟩
    refine .inr ⟨spelled lead done ++ p.name ++ List.replicate m pathSep, ?_⟩
    rw [spelled_concat, hm, List.replicate_succ']
    simp

theorem scanning_before (hend : spelled lead done = [] ∨ ∃ g, spelled lead done = g ++ [pathSep]) :
    ∃ g j, spelled lead done = g ++ List.replicate j pathSep ∧ (spelled lead done).length - 1 = g.length := by
  rcases hend with hnil | ⟨g, hg⟩
  · exact ⟨[], 0, by rw [hnil]; rfl, by rw [hnil]; rfl⟩
  · exact ⟨g, 1, hg, by rw [hg]; simp⟩

/-- Back over separators and a name. -/
theorem back_component (hw : IsComponent w) (hg : g = [] ∨ ∃ g', g = g' ++ [pathSep]) (j : Nat)
    (y : Bytes) : (do
      let i ← backSeps pathSep (g ++ w ++ List.replicate j pathSep ++ y)
        (g ++ w ++ List.replicate j pathSep).length
      backName pathSep (g ++ w ++ List.replicate j pathSep ++ y) i) = .ok (g.length - 1) := by
  obtain ⟨w', a, hwa⟩ := (List.eq_nil_or_concat w).resolve_left hw.1
  rw [List.concat_eq_append] at hwa
  have ha : a ≠ pathSep := fun he => hw.2 (by simp [hwa, he])
  have hlen : (g ++ w ++ List.replicate j pathSep).length = (g ++ w).length + j := by
    rw [List.length_append, List.length_replicate]
  have hlen' : (g ++ w).length = (g ++ w').length + 1 := by simp [hwa]; omega
  have hlist : g ++ w ++ List.replicate j pathSep ++ y = (g ++ w') ++ a :: (List.replicate j pathSep ++ y) := by
    simp [hwa]
  have hseps : backSeps pathSep (g ++ w ++ List.replicate j pathSep ++ y)
      (g ++ w ++ List.replicate j pathSep).length = .ok ((g ++ w).length - 1) := by
    rw [hlen, backSeps_replicate, hlen', hlist, backSeps_stop ha, Nat.add_sub_cancel]
  have hname := backName_spec hw.2 hg (List.replicate j pathSep ++ y)
  rw [← List.append_assoc] at hname
  rw [hseps, ok_bind, hname]

/-- Back from the end of a path that ends with a separator, or is empty. -/
theorem scanning_stop (hend : spelled lead done = [] ∨ ∃ g, spelled lead done = g ++ [pathSep]) (y : Bytes) :
    ∃ s', (do
      let i ← backName pathSep (spelled lead done ++ 0 :: y) (spelled lead done).length
      .ok (.inl ⟨spelled lead done ++ 0 :: y, (spelled lead done).length, i⟩) :
        Exec (Collapse ⊕ Bytes × Nat)) = .ok (.inl s') ∧ Scanning lead done [] s' := by
  have hback := backName_spec (w := [0]) (by decide) hend y
  have hlist : spelled lead done ++ [0] ++ y = spelled lead done ++ 0 :: y := by simp
  have hlen : (spelled lead done ++ [0]).length - 1 = (spelled lead done).length := by simp
  rw [hlist, hlen] at hback
  refine ⟨⟨_, _, (spelled lead done).length - 1⟩, by rw [hback, ok_bind], ?_⟩
  exact ⟨⟨y, by simp⟩, by simp, scanning_before hend⟩

theorem Scanning.up_middle (h : Scanning lead done (c :: d :: ts) s) (hw : WellSpelled (done ++ c :: d :: ts))
    (hup : c.seps = 1 ∧ d.name = upName) {m : Nat} (hm : d.seps = m + 1) : ∃ y,
    ∀ k, collapseRound pathSep k s = (do
      let i ← (do
        let i ← backSeps pathSep (spelled lead done ++ (List.replicate m pathSep ++ spell ts) ++ 0 :: y)
          (spelled lead done).length
        backName pathSep (spelled lead done ++ (List.replicate m pathSep ++ spell ts) ++ 0 :: y) i)
      .ok (.inl ⟨spelled lead done ++ (List.replicate m pathSep ++ spell ts) ++ 0 :: y,
        (spelled lead done ++ (List.replicate m pathSep ++ spell ts)).length, i⟩)) := by
  obtain ⟨junk, hx⟩ := h.buffer
  have hsp : spell (c :: d :: ts) =
      (c.name ++ pathSep :: upName ++ [pathSep]) ++ (List.replicate m pathSep ++ spell ts) := by
    simp [Token.spell, hup.1, hup.2, hm, List.replicate_succ]
  obtain ⟨y, hcol⟩ := collapseUp_middle (spelled lead done) c.name
    (List.replicate m pathSep ++ spell ts) junk
  refine ⟨y, fun k => ?_⟩
  rw [h.up hw hup, hx, h.length, hsp, ← List.append_assoc (spelled lead done), hcol]
  simp only [bind_assoc, ok_bind]

theorem Scanning.up_end (h : Scanning lead done (c :: d :: ts) s) (hw : WellSpelled (done ++ c :: d :: ts))
    (hup : c.seps = 1 ∧ d.name = upName) (hd : d.seps = 0) {pre : Bytes}
    (hpre : spelled lead done = pre ++ [pathSep]) : ∃ y,
    ∀ k, collapseRound pathSep k s = (do
      let i ← backName pathSep (pre ++ 0 :: y) pre.length
      .ok (.inl ⟨pre ++ 0 :: y, pre.length, i⟩)) := by
  obtain ⟨junk, hx⟩ := h.buffer
  have hts : ts = [] := WellSpelled.eq_nil_of_seps (done ++ [c]) (by simpa using hw) hd
  have hbuf : spelled lead done ++ spell (c :: d :: ts) = pre ++ pathSep :: (c.name ++ pathSep :: upName) := by
    simp [hpre, hts, Token.spell, hup.1, hup.2, hd]
  have hlen : (spelled lead done).length = pre.length + 1 := by simp [hpre]
  have hlen' : (spelled lead done ++ c.name).length = (pre ++ pathSep :: c.name).length := by simp [hpre]
  obtain ⟨y, hcol⟩ := collapseUp_end pre c.name junk
  refine ⟨y, fun k => ?_⟩
  rw [h.up hw hup, hx, h.length, hbuf, hlen, hlen', hcol]
  simp only [bind_assoc, ok_bind]

/-- With a token before it, the component goes and that token is looked at again. -/
theorem Scanning.merge (h : Scanning lead (done ++ [p]) (c :: d :: ts) s)
    (hw : WellSpelled (done ++ [p] ++ c :: d :: ts)) (hup : c.seps = 1 ∧ d.name = upName) :
    ∃ s', (∀ k, collapseRound pathSep k s = .ok (.inl s')) ∧
      (Scanning lead done (p.merge d :: ts) s' ∨ ts = [] ∧ Scanning lead (done ++ [p.merge d]) [] s') := by
  have hp := (hw.name p (by simp)).1
  have hpseps : 1 ≤ p.seps := hw.seps p (by
    rw [List.dropLast_append_of_ne_nil (List.cons_ne_nil _ _)]
    simp)
  obtain ⟨m, hm⟩ : ∃ m, p.seps = m + 1 := ⟨p.seps - 1, by omega⟩
  have hend : spelled lead done = [] ∨ ∃ g, spelled lead done = g ++ [pathSep] := by
    rw [List.append_assoc] at hw
    exact spelled_end hw
  cases hd : d.seps with
  | succ e =>
    obtain ⟨y, hround⟩ := h.up_middle hw hup hd
    have hback := back_component hp hend p.seps (List.replicate e pathSep ++ spell ts ++ 0 :: y)
    rw [← spelled_concat, ← List.append_assoc (spelled lead (done ++ [p]))] at hback
    have htext : spelled lead (done ++ [p]) ++ (List.replicate e pathSep ++ spell ts) =
        spelled lead done ++ spell (p.merge d :: ts) := by
      have hseps : p.seps + d.seps - 1 = p.seps + e := by omega
      rw [spelled_concat, spell_cons, Token.spell, Token.merge, hseps, List.replicate_add]
      simp only [List.append_assoc]
    refine ⟨⟨_, _, (spelled lead done).length - 1⟩, fun k => by rw [hround, hback, ok_bind], .inl ?_⟩
    exact ⟨⟨y, by rw [htext]⟩, by rw [htext], scanning_before hend⟩
  | zero =>
    have hts : ts = [] := WellSpelled.eq_nil_of_seps (done ++ [p] ++ [c]) (by simpa using hw) hd
    have hpre : spelled lead (done ++ [p]) =
        (spelled lead done ++ p.name ++ List.replicate m pathSep) ++ [pathSep] := by
      rw [spelled_concat, hm, List.replicate_succ', ← List.append_assoc]
    have hmerge : p.merge d = ⟨p.name, m⟩ := by
      rw [Token.merge, hm, hd]
      rfl
    obtain ⟨y, hround⟩ := h.up_end hw hup hd hpre
    rw [hmerge, hts]
    cases m with
    | zero =>
      have hzero : pathSep ∉ p.name ++ [0] := by
        rw [List.mem_append, not_or]
        exact ⟨hp.2, by decide⟩
      have hback := backName_spec hzero hend y
      have hlist : spelled lead done ++ (p.name ++ [0]) ++ y = spelled lead done ++ p.name ++ 0 :: y := by simp
      have hlen : (spelled lead done ++ (p.name ++ [0])).length - 1 = (spelled lead done ++ p.name).length := by simp
      rw [hlist, hlen] at hback
      rw [List.replicate_zero, List.append_nil] at hround
      refine ⟨⟨_, _, (spelled lead done).length - 1⟩, fun k => by rw [hround, hback, ok_bind], .inl ?_⟩
      exact ⟨⟨y, by simp [Token.spell]⟩, by simp [Token.spell], scanning_before hend⟩
    | succ m =>
      have htext : spelled lead (done ++ [⟨p.name, m + 1⟩]) =
          spelled lead done ++ p.name ++ List.replicate (m + 1) pathSep := spelled_concat _ _ _
      rw [← htext] at hround
      have hend' : spelled lead (done ++ [⟨p.name, m + 1⟩]) = [] ∨
          ∃ g, spelled lead (done ++ [⟨p.name, m + 1⟩]) = g ++ [pathSep] := by
        refine .inr ⟨spelled lead done ++ p.name ++ List.replicate m pathSep, ?_⟩
        rw [htext, List.replicate_succ', List.append_assoc _ _ [pathSep]]
      obtain ⟨s', hs', hat⟩ := scanning_stop hend' y
      exact ⟨s', fun k => (hround k).trans hs', .inr ⟨rfl, hat⟩⟩

/-- Without one, it goes only from the end of an absolute path. -/
theorem Scanning.first (h : Scanning lead [] (c :: d :: ts) s) (hw : WellSpelled (c :: d :: ts))
    (hup : c.seps = 1 ∧ d.name = upName) :
    if d.seps = 0 ∧ 1 ≤ lead then
      ∃ s', (∀ k, collapseRound pathSep k s = .ok (.inl s')) ∧ Scanning (lead - 1) [] [] s'
    else ∀ k, collapseRound pathSep k s = .error .bounds := by
  cases hd : d.seps with
  | succ m =>
    obtain ⟨y, hround⟩ := h.up_middle hw hup hd
    have htext : spelled lead [] = [] ++ List.replicate lead pathSep := by simp [spelled]
    have hback := @backSeps_replicate pathSep lead [] (List.replicate m pathSep ++ spell ts ++ 0 :: y)
    rw [if_neg (by omega)]
    intro k
    rw [hround, htext, List.append_assoc, List.length_append, List.length_replicate, hback]
    rfl
  | zero =>
    cases lead with
    | zero =>
      rw [if_neg (by omega)]
      intro k
      have hts := WellSpelled.eq_nil_of_seps [c] hw hd
      have hn : s.n = c.name.length + 3 := by
        rw [h.length]
        simp [spelled, hts, Token.spell, hup.1, hup.2, hd, upName]
      have hl : (spelled 0 [] ++ c.name).length + 1 + 3 = s.n + 1 := by
        rw [hn]
        simp [spelled]
      have hcol : collapseUp pathSep s.x s.n (spelled 0 []).length ((spelled 0 [] ++ c.name).length + 1) =
          .error .bounds := by
        simp only [collapseUp, closeGap, hl]
        rw [if_neg (by omega), ok_bind, if_pos (by simp [spelled])]
      rw [h.up hw hup, hcol]
      rfl
    | succ lead =>
      have hpre : spelled (lead + 1) [] = spelled lead [] ++ [pathSep] := by simp [spelled, List.replicate_succ']
      obtain ⟨y, hround⟩ := h.up_end hw hup hd hpre
      have hend : spelled lead [] = [] ∨ ∃ g, spelled lead [] = g ++ [pathSep] := @spelled_end lead [] (d :: ts) c hw
      obtain ⟨s', hs', hat⟩ := scanning_stop hend y
      rw [if_pos ⟨rfl, by omega⟩]
      exact ⟨s', fun k => (hround k).trans hs', hat⟩

/-! ## Runs -/

/-- The run from `s` ends with the tokens in the buffer. -/
def Ends (s : Collapse) (lead : Nat) (ts : List Token) : Prop :=
  ∃ x, Returns (fun k => loop (collapseRound pathSep) k s) (x, (spelled lead ts).length) ∧
    x.take (spelled lead ts).length = spelled lead ts

theorem Ends.before {s' : Collapse} (h : Ends s' lead ts)
    (hround : ∀ k, collapseRound pathSep k s = .ok (.inl s')) : Ends s lead ts := by
  obtain ⟨x, hr, hx⟩ := h
  exact ⟨x, (returns_loop_iff hround _).mpr hr, hx⟩

theorem Scanning.ends (h : Scanning lead done [] s) : Ends s lead done := by
  obtain ⟨junk, hx⟩ := h.buffer
  have hn := h.length
  rw [spell_nil, List.append_nil] at hx hn
  have hdone : ∀ k, collapseRound pathSep k { s with i := s.n } = .ok (.inr (s.x, s.n)) := by
    intro k
    simp [collapseRound]
  have hlast : Ends { s with i := s.n } lead done := by
    refine ⟨s.x, ?_, by rw [hx, List.take_left]⟩
    rw [← hn]
    exact returns_loop_done ⟨0, fun k _ => hdone k⟩
  by_cases hi : s.i < s.n
  · have hskip : skipSeps pathSep (s.x.drop s.i) s.i = .ok (spelled lead done).length :=
      h.skip (a := 0) (by decide) fun junk => ⟨junk, rfl⟩
    refine hlast.before fun k => ?_
    rw [← hn] at hskip
    simp only [collapseRound, hi, if_true, hskip, ok_bind, Nat.sub_self, List.take_zero, byteChr,
      Nat.add_zero, Nat.lt_irrefl, if_false]
  · obtain ⟨g, j, hg, hgi⟩ := h.place
    have heq : s.i = s.n := by
      rw [hn, hg, List.length_append, ← hgi] at hi ⊢
      omega
    obtain ⟨x, n, i⟩ := s
    obtain rfl : i = n := heq
    exact hlast

/-- The buffer goes through what the tokens go through. -/
theorem run_tokens (below : List Token) (h : Scanning lead below.reverse (c :: ts) s)
    (hw : WellSpelled (below.reverse ++ c :: ts)) :
    match collapseTokens lead (c :: below) ts with
    | none => ∀ r, ¬Returns (fun k => loop (collapseRound pathSep) k s) r
    | some (lead', us) => Ends s lead' us := by
  induction ts generalizing below c s with
  | nil =>
    obtain ⟨s', hround, hat⟩ := h.shift hw (by simp)
    rw [collapseTokens, List.reverse_cons]
    exact hat.ends.before hround
  | cons d ts ih =>
    by_cases hup : c.seps = 1 ∧ d.name = upName
    · cases below with
      | nil =>
        have hfirst := Scanning.first h hw hup
        rw [collapseTokens_first hup]
        split at hfirst
        · next hend =>
          obtain ⟨s', hround, hat⟩ := hfirst
          rw [if_pos hend]
          exact hat.ends.before hround
        · next hend =>
          rw [if_neg hend]
          exact not_returns_loop hfirst
      | cons p below =>
        rw [List.reverse_cons] at h hw
        obtain ⟨s', hround, hat⟩ := h.merge hw hup
        rw [collapseTokens_merge hup]
        rcases hat with hat | ⟨rfl, hat⟩
        · have hnext := ih _ hat (by simpa using WellSpelled.merge (p := p) (c := c) (by simpa using hw))
          split at hnext
          · next hnone =>
            intro r hr
            exact hnext r ((returns_loop_iff hround r).mp hr)
          · next hsome => exact Ends.before hnext hround
        · rw [collapseTokens, List.reverse_cons]
          exact hat.ends.before hround
    · have hno : ¬(c.seps = 1 ∧ ∃ d' us, d :: ts = d' :: us ∧ d'.name = upName) := by
        rintro ⟨hseps, d', us, he, hname⟩
        obtain ⟨rfl, rfl⟩ := List.cons.inj he
        exact hup ⟨hseps, hname⟩
      obtain ⟨s', hround, hat⟩ := h.shift hw hno
      rw [← List.reverse_cons] at hat
      rw [collapseTokens_shift hup]
      have hnext := ih _ hat (by simpa using hw)
      split at hnext
      · next hnone =>
        intro r hr
        exact hnext r ((returns_loop_iff hround r).mp hr)
      · next hsome => exact Ends.before hnext hround

/-! ## Whole paths -/

/-- What `path_collapse` is for. -/
structure Normalises (path x : Bytes) (n : Nat) : Prop where
  length : n ≤ path.length
  resolves : resolution (components (x.take n)) = resolution (components path)
  absolute : (x.take n).head? = some pathSep ↔ path.head? = some pathSep

theorem spelled_head (hw : WellSpelled ts) : (spelled lead ts).head? = some pathSep ↔ 0 < lead := by
  cases lead with
  | succ lead => simp [spelled, List.replicate_succ]
  | zero =>
    cases ts with
    | nil => simp [spelled]
    | cons t ts =>
      have ht := (hw.name t List.mem_cons_self).1
      obtain ⟨a, name, hname⟩ := List.exists_cons_of_ne_nil ht.1
      have ha : a ≠ pathSep := fun he => ht.2 (by simp [hname, he])
      simp [spelled, Token.spell, hname, ha]

theorem components_spelled (lead : Nat) (hw : WellSpelled ts) : components (spelled lead ts) = names ts := by
  rw [spelled, components_replicate, components_spell hw]

/-- On a path with separators. -/
theorem collapse_tokens {path : Bytes} (h0 : 0 ∉ path) :
    match collapseTokens (pathLex path).1 [] (pathLex path).2 with
    | none => ∀ r, ¬Returns (fun k => loop (collapseRound pathSep) k ⟨path ++ [0], path.length, 0⟩) r
    | some (lead', us) => Ends ⟨path ++ [0], path.length, 0⟩ lead' us := by
  have hw := wellSpelled_pathLex h0
  have htext := spell_pathLex path
  generalize pathLex path = kts at hw htext ⊢
  obtain ⟨lead, ts⟩ := kts
  have hat : Scanning lead [] ts ⟨path ++ [0], path.length, 0⟩ := by
    have hpath : path = spelled lead [] ++ spell ts := by
      rw [spelled, spell_nil, List.append_nil]
      exact htext.symm
    exact ⟨⟨[], by rw [← hpath]⟩, by rw [← hpath], ⟨[], lead, by simp [spelled], rfl⟩⟩
  cases ts with
  | nil => exact hat.ends
  | cons c ts =>
    rw [collapseTokens]
    exact run_tokens [] hat hw

theorem pathLex_free {path : Bytes} (h : pathSep ∉ path) :
    pathLex path = (0, if path = [] then [] else [⟨path, 0⟩]) := by
  induction path with
  | nil => rfl
  | cons c path ih =>
    obtain ⟨hc, hrest⟩ : pathSep ≠ c ∧ pathSep ∉ path := by simpa using h
    rw [pathLex, ih hrest]
    cases path <;> simp [hc.symm]

/-- A path without separators stays as it is. -/
theorem returns_collapse_free {path : Bytes} (h0 : 0 ∉ path) :
    Returns (fun k => loop (collapseRound 0) k ⟨path ++ [0], path.length, 0⟩) (path ++ [0], path.length) := by
  have hlast : Returns (fun k => loop (collapseRound 0) k ⟨path ++ [0], path.length, path.length⟩)
      (path ++ [0], path.length) :=
    returns_loop_done ⟨0, fun k _ => by simp [collapseRound]⟩
  cases path with
  | nil => exact hlast
  | cons c path =>
    obtain ⟨hc, hrest⟩ : 0 ≠ c ∧ 0 ∉ path := by simpa using h0
    refine (returns_loop_iff (fun k => ?_) _).mpr hlast
    have hchr : byteChr 0 (c :: path) = (c :: path).length := byteChr_free h0
    simp [collapseRound, skipSeps, hc.symm, hchr]

theorem pathGetsep_eq (path : Bytes) : pathGetsep path = if pathSep ∈ path then pathSep else 0 := by
  rw [pathGetsep]
  cases hfind : path.find? pathIssep with
  | none =>
    have hnot : pathSep ∉ path := fun hmem =>
      absurd (List.find?_eq_none.mp hfind pathSep hmem) (by decide)
    rw [if_neg hnot]
    rfl
  | some c =>
    obtain rfl : c = pathSep := by simpa [pathIssep] using List.find?_some hfind
    rw [if_pos (List.mem_of_find?_eq_some hfind)]
    rfl

/-- The text an absolute path stands for is normalised exactly if the tokens are. -/
theorem normalises_iff {path x : Bytes} {lead' : Nat} {us : List Token} (h0 : 0 ∉ path)
    (hsome : collapseTokens (pathLex path).1 [] (pathLex path).2 = some (lead', us))
    (hx : x.take (spelled lead' us).length = spelled lead' us) :
    Normalises path x (spelled lead' us).length ↔ CollapsesWell (pathLex path).1 [] (pathLex path).2 := by
  have hw := wellSpelled_pathLex h0
  have htext : spelled (pathLex path).1 (pathLex path).2 = path := spell_pathLex path
  have hcomp : components path = names (pathLex path).2 := by
    rw [← components_spelled (pathLex path).1 hw, htext]
  have hhead : path.head? = some pathSep ↔ 0 < (pathLex path).1 := by
    rw [← spelled_head hw, htext]
  obtain ⟨hus, -, hlen⟩ := collapseTokens_spec [] hw hsome
  constructor
  · intro h
    have hres := h.resolves
    rw [hx, components_spelled _ hus, hcomp] at hres
    have hheight := congrArg height hres
    rw [height_resolution, height_resolution] at hheight
    refine collapsesWell_of_height [] hw hsome hheight fun hlead => ?_
    have habs := h.absolute.mpr (hhead.mpr hlead)
    rwa [hx, spelled_head hus] at habs
  · intro hwell
    obtain ⟨lead'', us', hsome', hres, hlead⟩ := hwell.collapses [] hw
    obtain ⟨rfl, rfl⟩ := Prod.mk.inj (Option.some.inj (hsome.symm.trans hsome'))
    refine ⟨?_, ?_, ?_⟩
    · rw [← htext]
      simpa [spelled] using hlen
    · rw [hx, components_spelled _ hus, hcomp]
      exact hres
    · rw [hx, spelled_head hus, hhead]
      exact hlead

/-- A path is normalised in its buffer exactly if everything taken out is a name with
something before it. -/
theorem pathCollapse_iff (path : Bytes) (h0 : 0 ∉ path) :
    (∃ x n, Returns (fun k => pathCollapse k path) (x, n) ∧ Normalises path x n) ↔
      CollapsesWell (pathLex path).1 [] (pathLex path).2 := by
  by_cases hsep : pathSep ∈ path
  · have hrun := collapse_tokens h0
    simp only [pathCollapse, pathGetsep_eq, hsep, if_true]
    split at hrun
    · next hnone =>
      refine iff_of_false (fun ⟨x, n, hr, _⟩ => hrun _ hr) fun hwell => ?_
      obtain ⟨lead', us, hsome, -, -⟩ := hwell.collapses [] (wellSpelled_pathLex h0)
      rw [hnone] at hsome
      cases hsome
    · next lead' us hsome =>
      obtain ⟨x, hr, hx⟩ := hrun
      rw [← normalises_iff h0 hsome hx]
      constructor
      · rintro ⟨x', n', hr', hnorm⟩
        obtain ⟨rfl, rfl⟩ := Prod.mk.inj (hr.unique hr')
        exact hnorm
      · exact fun hnorm => ⟨x, _, hr, hnorm⟩
  · simp only [pathCollapse, pathGetsep_eq, hsep, if_false, pathLex_free hsep]
    refine iff_of_true ⟨_, _, returns_collapse_free h0, ?_, ?_, ?_⟩ ?_
    · exact Nat.le_refl _
    · rw [List.take_left]
    · rw [List.take_left]
    · split <;> simp [CollapsesWell]

theorem steady_pathCollapse (path : Bytes) : Steady (fun k => pathCollapse k path) :=
  steady_loop (fun s => steady_const (collapseRound (pathGetsep path) 0 s)) _

/-- `/a/b/../c` -/
theorem pathCollapse_name : ∃ x n, Returns (fun k => pathCollapse k [47, 97, 47, 98, 47, 46, 46, 47, 99]) (x, n) ∧
    Normalises [47, 97, 47, 98, 47, 46, 46, 47, 99] x n := by
  have hlex : pathLex [47, 97, 47, 98, 47, 46, 46, 47, 99] =
      (1, [⟨[97], 1⟩, ⟨[98], 1⟩, ⟨[46, 46], 1⟩, ⟨[99], 0⟩]) := by decide
  refine (pathCollapse_iff _ (by decide)).mpr ?_
  rw [hlex]
  simp [CollapsesWell, upName, pathDot]

/-- `/a/..` loses its root. -/
theorem pathCollapse_root : ¬∀ path : Bytes, 0 ∉ path →
    ∃ x n, Returns (fun k => pathCollapse k path) (x, n) ∧ Normalises path x n := by
  intro hall
  obtain ⟨x, n, hr, hnorm⟩ := hall [47, 97, 47, 46, 46] (by decide)
  have hrun : Returns (fun k => pathCollapse k [47, 97, 47, 46, 46]) ([0, 97, 47, 46, 46, 0], 0) :=
    (steady_pathCollapse _).returns (n := 5) (by decide)
  obtain ⟨rfl, rfl⟩ := Prod.mk.inj (hr.unique hrun)
  exact absurd hnorm.absolute (by decide)

end Dirlist
