import Dirlist.Includes.Defs

/-! What `includes_extract` finds. A directive with fewer than seven characters sends the scan
into the lines behind it, and one of them is lost. -/

namespace Dirlist
open Run

/-! ## Lines -/

/-- What stands for a blank in a line. As everywhere in such scans, a zero byte does too. -/
def isBlank (c : UInt8) : Bool := inCharset [32, 9, 13] c

/-- What is behind the `#` of a line and the blanks that follow. -/
def directive (line : Bytes) : Option Bytes :=
  let s := line.dropWhile isBlank
  if s.head? = some 35 then some (s.tail.dropWhile isBlank) else none

/-- The quote of an include line, and what is behind it. -/
def quoted (sys : Bool) (line : Bytes) : Option (UInt8 × Bytes) :=
  match directive line with
  | none => none
  | some r =>
    if r.take 7 = includeWord then
      match (r.drop 7).dropWhile isBlank with
      | [] => none
      | q :: s => if (sys = true ∧ q = 60) ∨ q = 34 then some (q, s) else none
    else none

def includeName (sys : Bool) (line : Bytes) : Option Bytes :=
  (quoted sys line).map fun (q, s) => s.takeWhile (· ≠ closeQuote q)

/-- The name of an include line is closed on it. -/
def Closed (sys : Bool) (line : Bytes) : Prop :=
  ∀ p ∈ quoted sys line, closeQuote p.1 ∈ p.2 ∧ 0 ∉ p.2.takeWhile (· ≠ closeQuote p.1)

instance (sys : Bool) (line : Bytes) : Decidable (Closed sys line) :=
  inferInstanceAs (Decidable (∀ p ∈ quoted sys line, _ ∧ _))

def lines (text : Bytes) : List Bytes := text.splitOn 10

/-- Whether a line sends the scan on, and how far behind the line end. -/
def spill (line : Bytes) : Option Nat :=
  match directive line with
  | none => none
  | some r =>
    if r.length < 7 then some (6 - r.length)
    else if r.take 7 = includeWord ∧ (r.drop 7).dropWhile isBlank = [] then some 0
    else none

/-- The lines that are looked at. The one the scan is sent into is not. -/
def visitedFrom : Option Nat → List Bytes → List Bytes
  | _, [] => []
  | none, l :: ls => l :: visitedFrom (spill l) ls
  | some p, l :: ls =>
    if p ≤ l.length then visitedFrom none ls else visitedFrom (some (p - l.length - 1)) ls

/-- No line that is lost names a file. -/
def Spared (sys : Bool) : Option Nat → List Bytes → Prop
  | _, [] => True
  | none, l :: ls => Spared sys (spill l) ls
  | some p, l :: ls =>
    includeName sys l = none ∧ Spared sys (if p ≤ l.length then none else some (p - l.length - 1)) ls

instance decidableSpared (sys : Bool) : ∀ pend ls, Decidable (Spared sys pend ls)
  | none, [] => isTrue trivial
  | some _, [] => isTrue trivial
  | none, l :: ls => decidableSpared sys (spill l) ls
  | some p, l :: ls =>
    have := decidableSpared sys (if p ≤ l.length then none else some (p - l.length - 1)) ls
    inferInstanceAs (Decidable (includeName sys l = none ∧ _))

variable {sys : Bool} {line text t u tail x : Bytes} {inc : List Bytes} {ls : List Bytes} {p k : Nat}

/-- A text is a line and what is behind it. -/
theorem exists_line (text : Bytes) :
    ∃ line tail, text = line ++ tail ∧ 10 ∉ line ∧
      (tail = [] ∧ lines text = [line] ∨ ∃ t, tail = 10 :: t ∧ lines text = line :: lines t) := by
  obtain ⟨line, tail, rfl, hline, htail, -, -⟩ := exists_until 10 text
  have hmem : 10 ∉ line := fun h => hline 10 h rfl
  refine ⟨line, tail, rfl, hmem, ?_⟩
  rcases htail with rfl | ⟨t, rfl⟩
  · rw [List.append_nil]
    exact .inl ⟨rfl, List.splitOn_eq_singleton hmem⟩
  · exact .inr ⟨t, rfl, List.splitOn_append_cons_self_of_not_mem hmem t⟩

theorem visitedFrom_nil (pend : Option Nat) : visitedFrom pend [] = [] := by
  cases pend <;> rfl

theorem visitedFrom_some (p : Nat) (l : Bytes) (ls : List Bytes) :
    visitedFrom (some p) (l :: ls) =
      visitedFrom (if p ≤ l.length then none else some (p - l.length - 1)) ls := by
  rw [visitedFrom]
  split <;> rfl

theorem visited_sublist (pend : Option Nat) (ls : List Bytes) : (visitedFrom pend ls).Sublist ls := by
  induction ls generalizing pend with
  | nil => cases pend <;> exact List.Sublist.refl _
  | cons l ls ih =>
    cases pend with
    | none => exact (ih _).cons_cons l
    | some p =>
      rw [visitedFrom_some]
      exact (ih _).cons l

/-- The visited lines name the files of all lines just when the lost ones name none. -/
theorem visited_names {pend : Option Nat} :
    (visitedFrom pend ls).filterMap (includeName sys) = ls.filterMap (includeName sys) ↔
      Spared sys pend ls := by
  induction ls generalizing pend with
  | nil => cases pend <;> simp [visitedFrom, Spared]
  | cons l ls ih =>
    cases pend with
    | none =>
      rw [visitedFrom, Spared, ← ih, List.filterMap_cons, List.filterMap_cons]
      cases includeName sys l <;> simp
    | some p =>
      rw [visitedFrom_some, Spared, ← ih, List.filterMap_cons]
      cases includeName sys l with
      | none => simp
      | some name =>
        have hle := ((visited_sublist (if p ≤ l.length then none else some (p - l.length - 1)) ls).filterMap
          (includeName sys)).length_le
        refine iff_of_false (fun heq => ?_) (by simp)
        rw [heq, List.length_cons] at hle
        omega

/-! ## Rounds -/

theorem nextLine_append (h : 10 ∉ u) (t : Bytes) : nextLine (u ++ 10 :: t) = some (10 :: t) := by
  rw [nextLine, byteChr_at h, if_neg (by simp), List.drop_left]

theorem nextLine_free (h : 10 ∉ u) : nextLine u = none := by
  rw [nextLine, byteChr_free h, if_pos (Nat.le_refl _)]

/-- Where the scan goes on behind a line. -/
def jump : Option Nat → Bytes → Option Bytes
  | _, [] => none
  | none, tail => some tail
  | some p, _ :: t => nextLine (t.drop p)

/-- The blanks of a scan end on the line. -/
theorem scan_blanks (htail : tail = [] ∨ ∃ t, tail = 10 :: t) (u : Bytes) :
    scanCharsetnskip (u ++ tail) [32, 9, 13] = (u.takeWhile isBlank).length ∧
      (u ++ tail).drop (u.takeWhile isBlank).length = u.dropWhile isBlank ++ tail := by
  have hsplit : u ++ tail = u.takeWhile isBlank ++ (u.dropWhile isBlank ++ tail) := by
    rw [← List.append_assoc, List.takeWhile_append_dropWhile]
  have hstop : ∀ c ∈ (u.dropWhile isBlank ++ tail).head?, isBlank c = false := by
    intro c hc
    rw [List.head?_append] at hc
    cases hd : (u.dropWhile isBlank).head? with
    | some d =>
      rw [hd] at hc
      exact head_dropWhile isBlank u c (hd.trans hc)
    | none =>
      rw [hd] at hc
      rcases htail with rfl | ⟨t, rfl⟩
      · cases hc
      · obtain rfl : 10 = c := by simpa using hc
        rfl
  constructor
  · rw [scanCharsetnskip]
    conv_lhs => rw [hsplit]
    exact congrArg _ (takeWhile_stop (fun c hc => List.mem_takeWhile_imp hc) hstop)
  · conv_lhs => rw [hsplit]
    rw [List.drop_left]

theorem length_blanks (htail : tail = [] ∨ ∃ t, tail = 10 :: t) (u : Bytes) (k : Nat) :
    (u.takeWhile isBlank).length + k ≥ (u ++ tail).length ↔ (u.dropWhile isBlank ++ tail).length ≤ k := by
  have hle : (u.takeWhile isBlank).length ≤ u.length := (List.takeWhile_prefix _).length_le
  rw [← (scan_blanks htail u).2, List.length_drop, List.length_append]
  omega

theorem drop_blanks (htail : tail = [] ∨ ∃ t, tail = 10 :: t) (u : Bytes) (k : Nat) :
    (u ++ tail).drop ((u.takeWhile isBlank).length + k) = (u.dropWhile isBlank ++ tail).drop k := by
  rw [← List.drop_drop, (scan_blanks htail u).2]

theorem includeDirective_hash (htail : tail = [] ∨ ∃ t, tail = 10 :: t) (u : Bytes) (inc : List Bytes) :
    includeDirective sys (35 :: (u ++ tail)) inc =
      if (u.dropWhile isBlank ++ tail).length ≤ 7 then none
      else if (u.dropWhile isBlank ++ tail).take 7 ≠ includeWord then
        some ((u.dropWhile isBlank ++ tail).drop 7, inc)
      else includeQuote sys ((u.dropWhile isBlank ++ tail).drop 7) inc := by
  obtain ⟨hscan, hdrop⟩ := scan_blanks htail u
  rw [includeDirective, if_neg (by simp)]
  simp only [List.drop_succ_cons, List.drop_zero, hscan, Nat.add_sub_cancel, hdrop, length_blanks htail,
    drop_blanks htail]

theorem includeQuote_end (htail : tail = [] ∨ ∃ t, tail = 10 :: t)
    (h : (u.dropWhile isBlank ++ tail).length ≤ 1) : includeQuote sys (u ++ tail) inc = none := by
  rw [includeQuote, (scan_blanks htail u).1]
  exact if_pos ((length_blanks htail u 1).mpr h)

theorem includeQuote_cons {q : UInt8} (htail : tail = [] ∨ ∃ t, tail = 10 :: t)
    (h : u.dropWhile isBlank ++ tail = q :: x) (hx : x ≠ []) :
    includeQuote sys (u ++ tail) inc =
      if (sys = true ∧ q = 60) ∨ q = 34 then
        if scanNoncharsetnskip x [closeQuote q, 10] ≥ x.length then none
        else some (x.drop (scanNoncharsetnskip x [closeQuote q, 10] + 1),
          inc ++ [x.take (scanNoncharsetnskip x [closeQuote q, 10])])
      else some (x, inc) := by
  obtain ⟨hscan, hdrop⟩ := scan_blanks htail u
  have hquote : (u ++ tail).getD (u.takeWhile isBlank).length 0 = q := by
    rw [List.getD_eq_getElem?_getD, ← Nat.add_zero (u.takeWhile isBlank).length, ← List.getElem?_drop, hdrop, h]
    rfl
  have hlen : ¬ (u.takeWhile isBlank).length + 1 ≥ (u ++ tail).length := by
    have := List.length_pos_iff.mpr hx
    rw [length_blanks htail, h, List.length_cons]
    omega
  simp only [includeQuote, hscan, Nat.add_sub_cancel, if_neg hlen, drop_blanks htail, hquote, h, List.drop_one,
    List.tail_cons]

/-- A round comes to the next line end, with the name of the line. -/
def Lands (inc names : List Bytes) (next : Option Bytes) : Option (Bytes × List Bytes) → Prop
  | none => names = [] ∧ next = none
  | some (x, inc') => inc' = inc ++ names ∧ nextLine x = next

theorem nextLine_tail (htail : tail = [] ∨ ∃ t, tail = 10 :: t) (hu : 10 ∉ u) :
    nextLine (u ++ tail) = jump none tail := by
  rcases htail with rfl | ⟨t, rfl⟩
  · rw [List.append_nil, nextLine_free hu]
    rfl
  · exact nextLine_append hu t

/-- A directive of fewer than seven characters. -/
theorem lands_short {r : Bytes} (htail : tail = [] ∨ ∃ t, tail = 10 :: t) (h7 : r.length < 7) :
    Lands inc [] (jump (some (6 - r.length)) tail)
      (if (r ++ tail).length ≤ 7 then none
      else if (r ++ tail).take 7 ≠ includeWord then some ((r ++ tail).drop 7, inc)
      else includeQuote sys ((r ++ tail).drop 7) inc) := by
  rcases htail with rfl | ⟨t, rfl⟩
  · rw [List.append_nil, if_pos (by omega)]
    exact ⟨rfl, rfl⟩
  · by_cases hlen : (r ++ 10 :: t).length ≤ 7
    · rw [if_pos hlen]
      rw [List.length_append, List.length_cons] at hlen
      refine ⟨rfl, ?_⟩
      rw [jump, List.drop_eq_nil_of_le (by omega)]
      rfl
    · have hword : (r ++ 10 :: t).take 7 ≠ includeWord := by
        intro heq
        have hmem : (10 : UInt8) ∈ (r ++ 10 :: t).take 7 := by
          rw [List.take_append, List.mem_append, show 7 - r.length = 6 - r.length + 1 by omega,
            List.take_succ_cons]
          exact .inr (List.mem_cons_self ..)
        rw [heq] at hmem
        exact absurd hmem (by decide)
      rw [if_neg hlen, if_pos hword]
      refine ⟨(List.append_nil inc).symm, ?_⟩
      rw [jump, List.drop_append, List.drop_eq_nil_of_le (by omega), List.nil_append,
        show 7 - r.length = 6 - r.length + 1 by omega, List.drop_succ_cons]

/-- An include line behind its word. -/
theorem lands_quote {v : Bytes} (htail : tail = [] ∨ ∃ t, tail = 10 :: t) (hv : 10 ∉ v)
    (hclosed : ∀ q s, v.dropWhile isBlank = q :: s → (sys = true ∧ q = 60) ∨ q = 34 →
      closeQuote q ∈ s ∧ 0 ∉ s.takeWhile (· ≠ closeQuote q)) :
    Lands inc
      (match v.dropWhile isBlank with
        | [] => []
        | q :: s => if (sys = true ∧ q = 60) ∨ q = 34 then [s.takeWhile (· ≠ closeQuote q)] else [])
      (jump (if v.dropWhile isBlank = [] then some 0 else none) tail) (includeQuote sys (v ++ tail) inc) := by
  have hmem : 10 ∉ v.dropWhile isBlank := fun h => hv ((List.dropWhile_suffix _).subset h)
  cases hw : v.dropWhile isBlank with
  | nil =>
    rw [if_pos rfl]
    rcases htail with rfl | ⟨t, rfl⟩
    · rw [includeQuote_end (.inl rfl) (by simp [hw])]
      exact ⟨rfl, rfl⟩
    · by_cases ht : t = []
      · subst ht
        rw [includeQuote_end (.inr ⟨[], rfl⟩) (by simp [hw])]
        exact ⟨rfl, rfl⟩
      · rw [includeQuote_cons (q := 10) (x := t) (.inr ⟨t, rfl⟩) (by rw [hw, List.nil_append]) ht,
          if_neg (by simp)]
        exact ⟨(List.append_nil inc).symm, rfl⟩
  | cons q s =>
    rw [hw] at hmem
    obtain ⟨-, hs⟩ : 10 ≠ q ∧ 10 ∉ s := by simpa using hmem
    rw [if_neg (List.cons_ne_nil q s)]
    dsimp only
    by_cases hq : (sys = true ∧ q = 60) ∨ q = 34
    · obtain ⟨hclose, hzero⟩ := hclosed q s hw hq
      obtain ⟨name, rest, rfl, hname⟩ := List.eq_append_cons_of_mem hclose
      rw [takeWhile_ne hname] at hzero
      obtain ⟨hname10, hrest⟩ : 10 ∉ name ∧ 10 ∉ rest := by
        constructor <;> intro h <;> exact hs (by simp [h])
      have hscan : scanNoncharsetnskip (name ++ closeQuote q :: (rest ++ tail)) [closeQuote q, 10] =
          name.length := by
        refine congrArg _ (takeWhile_stop (fun c hc => ?_) (by simp [inCharset]))
        have h0 : c ≠ 0 := fun h => hzero (h ▸ hc)
        have h10 : c ≠ 10 := fun h => hname10 (h ▸ hc)
        have hcl : c ≠ closeQuote q := fun h => hname (h ▸ hc)
        simp [inCharset, h0, h10, hcl]
      rw [includeQuote_cons (q := q) (x := name ++ closeQuote q :: (rest ++ tail)) htail (by simp [hw])
        (by simp), if_pos hq, if_pos hq, takeWhile_ne hname, hscan, if_neg (by simp), List.take_left]
      refine ⟨rfl, ?_⟩
      rw [← List.drop_drop, List.drop_left, List.drop_one, List.tail_cons]
      exact nextLine_tail htail hrest
    · rw [if_neg hq]
      by_cases hne : s ++ tail = []
      · obtain ⟨rfl, rfl⟩ := List.append_eq_nil_iff.mp hne
        rw [includeQuote_end htail (by simp [hw])]
        exact ⟨rfl, rfl⟩
      · rw [includeQuote_cons (q := q) (x := s ++ tail) htail (by rw [hw, List.cons_append]) hne, if_neg hq]
        exact ⟨(List.append_nil inc).symm, nextLine_tail htail hs⟩

theorem directive_eq (hu : line.dropWhile isBlank = 35 :: u) :
    directive line = some (u.dropWhile isBlank) := by
  simp [directive, hu]

/-- A line that is a directive. -/
theorem lands_directive (htail : tail = [] ∨ ∃ t, tail = 10 :: t) (hline : 10 ∉ line)
    (hclosed : Closed sys line) (hu : line.dropWhile isBlank = 35 :: u) :
    Lands inc (includeName sys line).toList (jump (spill line) tail)
      (includeDirective sys (35 :: (u ++ tail)) inc) := by
  have hr : 10 ∉ u.dropWhile isBlank := fun h =>
    hline ((List.dropWhile_suffix _).subset (hu ▸ List.mem_cons_of_mem _ ((List.dropWhile_suffix _).subset h)))
  rw [includeDirective_hash htail]
  simp only [includeName, Closed, quoted, spill, directive_eq hu] at hclosed ⊢
  generalize u.dropWhile isBlank = r at *
  by_cases h7 : r.length < 7
  · have hword : r.take 7 ≠ includeWord := fun h => by
      have := congrArg List.length h
      rw [List.length_take] at this
      simp [includeWord] at this
      omega
    simp only [h7, if_true, hword, if_false]
    exact lands_short htail h7
  · have htake : (r ++ tail).take 7 = r.take 7 := List.take_append_of_le_length (by omega)
    have hdrop : (r ++ tail).drop 7 = r.drop 7 ++ tail := List.drop_append_of_le_length (by omega)
    have hv : 10 ∉ r.drop 7 := fun h => hr (List.mem_of_mem_drop h)
    simp only [h7, if_false, htake, hdrop]
    by_cases hword : r.take 7 = includeWord
    · have hshort : (r ++ tail).length ≤ 7 → r.drop 7 ++ tail = [] := fun hlen => by
        rw [← hdrop]
        exact List.drop_eq_nil_of_le hlen
      have hif : (if (r ++ tail).length ≤ 7 then none else includeQuote sys (r.drop 7 ++ tail) inc) =
          includeQuote sys (r.drop 7 ++ tail) inc := by
        split
        · next hlen => rw [hshort hlen]; rfl
        · rfl
      simp only [hword, ne_eq, not_true_eq_false, if_false, if_true, true_and, hif] at hclosed ⊢
      refine (congrArg (Lands inc · _ _) ?_).mpr (lands_quote htail hv fun q s hw hq =>
        hclosed (q, s) (by rw [hw]; exact if_pos hq))
      cases (r.drop 7).dropWhile isBlank with
      | nil => rfl
      | cons q s =>
        dsimp only
        split <;> rfl
    · simp only [hword, ne_eq, not_false_eq_true, if_true, if_false, false_and]
      split
      · next hlen =>
        obtain rfl : tail = [] := List.length_eq_zero_iff.mp (by
          rw [List.length_append] at hlen
          omega)
        exact ⟨rfl, rfl⟩
      · exact ⟨(List.append_nil inc).symm, nextLine_tail htail hv⟩

theorem scan_line (hne : line.dropWhile isBlank ≠ []) (hline : 10 ∉ line) (tail : Bytes) :
    scanCharsetnskip (line ++ tail) [32, 9, 13, 10] = (line.takeWhile isBlank).length := by
  obtain ⟨c, u, hu⟩ := List.exists_cons_of_ne_nil hne
  have hc := head_dropWhile isBlank line c (by rw [hu]; rfl)
  have hc10 : c ≠ 10 := by
    rintro rfl
    exact hline ((List.dropWhile_suffix _).subset (hu ▸ List.mem_cons_self ..))
  have hsplit : line ++ tail = line.takeWhile isBlank ++ (c :: u ++ tail) := by
    rw [← hu, ← List.append_assoc, List.takeWhile_append_dropWhile]
  rw [scanCharsetnskip, hsplit]
  refine congrArg _ (takeWhile_stop (fun d hd => ?_) fun d hd => ?_)
  · have := List.mem_takeWhile_imp hd
    simp only [isBlank, inCharset, List.mem_cons, Bool.or_eq_true, decide_eq_true_eq] at this ⊢
    tauto
  · obtain rfl : c = d := by simpa using hd
    simp only [isBlank, inCharset, List.mem_cons, Bool.or_eq_false_iff, decide_eq_false_iff_not] at hc ⊢
    tauto

theorem includesRound_line (k : Nat) (inc : List Bytes) (htail : tail = [] ∨ ∃ t, tail = 10 :: t) (hline : 10 ∉ line)
    (hclosed : Closed sys line) (hne : line.dropWhile isBlank ≠ []) :
    includesRound sys k (line ++ tail, inc) =
      (jump (spill line) tail).elim (.ok (.inr (inc ++ (includeName sys line).toList)))
        fun x => .ok (.inl (x, inc ++ (includeName sys line).toList)) := by
  obtain ⟨c, u, hu⟩ := List.exists_cons_of_ne_nil hne
  have hdrop : (line ++ tail).drop (line.takeWhile isBlank).length = c :: (u ++ tail) := by
    rw [(scan_blanks htail line).2, hu, List.cons_append]
  have hlands : Lands inc (includeName sys line).toList (jump (spill line) tail)
      (includeDirective sys (c :: (u ++ tail)) inc) := by
    by_cases hc : c = 35
    · subst hc
      exact lands_directive htail hline hclosed hu
    · have hno : directive line = none := by simp [directive, hu, hc]
      rw [includeDirective, if_pos (by simp [hc])]
      simp only [includeName, quoted, spill, hno]
      refine ⟨(List.append_nil inc).symm, ?_⟩
      rw [← List.cons_append]
      exact nextLine_tail htail fun h => hline ((List.dropWhile_suffix _).subset (hu ▸ h))
  have hlen : (line.takeWhile isBlank).length ≠ (line ++ tail).length := by
    intro heq
    rw [heq, List.drop_length] at hdrop
    cases hdrop
  simp only [includesRound, scan_line hne hline, if_neg hlen, hdrop]
  rcases hdir : includeDirective sys (c :: (u ++ tail)) inc with _ | ⟨x, inc'⟩
  · rw [hdir] at hlands
    rw [hlands.1, hlands.2, Option.elim_none, List.append_nil]
  · rw [hdir] at hlands
    obtain ⟨hinc, hnext⟩ := hlands
    cases hjump : jump (spill line) tail <;>
      simp only [hnext, hinc, hjump, Option.elim_none, Option.elim_some]

/-! ## The scan -/

/-- Blank lines are passed over. -/
theorem includesRound_blank (hline : line.dropWhile isBlank = []) (t : Bytes) :
    includesRound sys k (line ++ 10 :: t, inc) = includesRound sys k (t, inc) := by
  have hall : ∀ c ∈ line ++ [10], inCharset [32, 9, 13, 10] c = true := by
    intro c hc
    rcases List.mem_append.mp hc with hc | hc
    · have := List.dropWhile_eq_nil_iff.mp hline c hc
      simp only [isBlank, inCharset, List.mem_cons, Bool.or_eq_true, decide_eq_true_eq] at this ⊢
      tauto
    · rw [List.mem_singleton] at hc
      subst hc
      rfl
  have hscan : scanCharsetnskip (line ++ [10] ++ t) [32, 9, 13, 10] =
      (line ++ [10]).length + scanCharsetnskip t [32, 9, 13, 10] := by
    rw [scanCharsetnskip, List.takeWhile_append_of_pos hall, List.length_append, scanCharsetnskip]
  have hdrop (i : Nat) : (line ++ [10] ++ t).drop ((line ++ [10]).length + i) = t.drop i :=
    List.drop_length_add_append ..
  have hlen : (line ++ [10] ++ t).length = (line ++ [10]).length + t.length := List.length_append ..
  rw [show line ++ 10 :: t = line ++ [10] ++ t by simp]
  simp only [includesRound, hscan, hdrop, hlen, Nat.add_left_cancel_iff]

theorem loop_blank (hline : line.dropWhile isBlank = []) (t : Bytes) (k : Nat) :
    loop (includesRound sys) k (line ++ 10 :: t, inc) = loop (includesRound sys) k (t, inc) := by
  cases k with
  | zero => rfl
  | succ k => rw [loop, loop, includesRound_blank hline]

/-- Where the scan goes on when it was sent into the lines behind. -/
theorem nextLine_visited (p : Nat) (t : Bytes) :
    match nextLine (t.drop p) with
    | none => visitedFrom (some p) (lines t) = []
    | some x => ∃ t', x = 10 :: t' ∧ t'.length < t.length ∧ lines t' <:+ lines t ∧
      visitedFrom (some p) (lines t) = visitedFrom none (lines t') := by
  induction hn : t.length using Nat.strongRecOn generalizing t p with
  | _ n ih =>
    obtain ⟨line, tail, rfl, hline, htail⟩ := exists_line t
    rcases htail with ⟨rfl, hls⟩ | ⟨t, rfl, hls⟩
    · have hfree : 10 ∉ (line ++ []).drop p := by
        rw [List.append_nil]
        exact fun h => hline (List.mem_of_mem_drop h)
      rw [nextLine_free hfree, hls, visitedFrom_some]
      exact visitedFrom_nil _
    · rw [hls, visitedFrom_some]
      by_cases hp : p ≤ line.length
      · rw [if_pos hp, List.drop_append_of_le_length hp,
          nextLine_append fun h => hline (List.mem_of_mem_drop h)]
        refine ⟨t, rfl, ?_, List.suffix_cons .., rfl⟩
        rw [← hn, List.length_append, List.length_cons]
        omega
      · have hdrop : (line ++ 10 :: t).drop p = t.drop (p - line.length - 1) := by
          rw [List.drop_append, List.drop_eq_nil_of_le (by omega), List.nil_append,
            show p - line.length = p - line.length - 1 + 1 by omega, List.drop_succ_cons]
          rfl
        have hlt : t.length < n := by
          rw [← hn, List.length_append, List.length_cons]
          omega
        rw [if_neg hp, hdrop]
        have hnext := ih t.length hlt (p - line.length - 1) t rfl
        split at hnext
        · exact hnext
        · obtain ⟨t', hx, hlt', hsuf, hvis⟩ := hnext
          exact ⟨t', hx, Nat.lt_trans hlt' hlt, hsuf.trans (List.suffix_cons ..), hvis⟩

theorem includeName_blank (sys : Bool) (hline : line.dropWhile isBlank = []) :
    includeName sys line = none ∧ spill line = none := by
  have hno : directive line = none := by simp [directive, hline]
  simp [includeName, quoted, spill, hno]

/-- The scan pushes the names of the lines it looks at. -/
theorem includesExtract_returns (sys : Bool) (text : Bytes) (inc : List Bytes)
    (h : ∀ line ∈ lines text, Closed sys line) :
    Returns (fun k => includesExtract sys k text inc)
      (inc ++ (visitedFrom none (lines text)).filterMap (includeName sys)) := by
  induction hn : text.length using Nat.strongRecOn generalizing text inc with
  | _ n ih =>
    obtain ⟨line, tail, rfl, hline, hls⟩ := exists_line text
    have htail : tail = [] ∨ ∃ t, tail = 10 :: t := hls.imp And.left fun ⟨t, ht, _⟩ => ⟨t, ht⟩
    have hclosed : Closed sys line := by
      rcases hls with ⟨-, hls⟩ | ⟨t, -, hls⟩ <;> exact h line (by simp [hls])
    by_cases hne : line.dropWhile isBlank = []
    · obtain ⟨hname, hspill⟩ := includeName_blank sys hne
      rcases hls with ⟨rfl, hls⟩ | ⟨t, rfl, hls⟩
      · rw [hls, visitedFrom, visitedFrom_nil, List.filterMap_cons_none hname, List.filterMap_nil]
        simp only [List.append_nil]
        have hall : ∀ c ∈ line, inCharset [32, 9, 13, 10] c = true := by
          intro c hc
          have := List.dropWhile_eq_nil_iff.mp hne c hc
          simp only [isBlank, inCharset, List.mem_cons, Bool.or_eq_true, decide_eq_true_eq] at this ⊢
          tauto
        refine returns_loop_done ((returns_ok _).congr fun k => ?_)
        rw [includesRound]
        exact if_pos (congrArg _ (List.takeWhile_eq_self_iff.mpr hall))
      · have hlt : t.length < n := by
          rw [← hn, List.length_append, List.length_cons]
          omega
        rw [hls] at h ⊢
        have hrest := ih t.length hlt t inc (fun l hl => h l (List.mem_cons_of_mem _ hl)) rfl
        rw [visitedFrom, hspill, List.filterMap_cons_none hname]
        exact hrest.congr fun k => loop_blank hne t k
    · have hround (k : Nat) := includesRound_line k inc htail hline hclosed hne
      rcases hls with ⟨rfl, hls⟩ | ⟨t, rfl, hls⟩
      · rw [hls, visitedFrom, visitedFrom_nil, List.filterMap_cons, List.filterMap_nil]
        refine returns_loop_done ((returns_ok _).congr fun k => (hround k).trans ?_)
        cases includeName sys line <;> rfl
      · have hlt : t.length < n := by
          rw [← hn, List.length_append, List.length_cons]
          omega
        rw [hls] at h ⊢
        have hnames (ls : List Bytes) : inc ++ (line :: ls).filterMap (includeName sys) =
            inc ++ (includeName sys line).toList ++ ls.filterMap (includeName sys) := by
          rw [List.filterMap_cons]
          cases includeName sys line <;> simp
        rw [visitedFrom, hnames]
        -- behind the line the scan goes on from the line end of this line or of a later one
        have hgo (t' : Bytes) (hlt' : t'.length < n) (hsuf : lines t' <:+ lines t) :
            Returns (fun k => loop (includesRound sys) k (10 :: t', inc ++ (includeName sys line).toList))
              (inc ++ (includeName sys line).toList ++
                (visitedFrom none (lines t')).filterMap (includeName sys)) :=
          (ih t'.length hlt' t' _ (fun l hl => h l (List.mem_cons_of_mem _ (hsuf.subset hl))) rfl).congr
            fun k => loop_blank (List.dropWhile_nil (p := isBlank)) t' k
        cases hspill : spill line with
        | none =>
          rw [hspill] at hround
          exact returns_loop_next ((returns_ok _).congr hround) (hgo t hlt (List.suffix_refl _))
        | some p =>
          rw [hspill, jump] at hround
          have hnext := nextLine_visited p t
          cases hx : nextLine (t.drop p) with
          | none =>
            rw [hx] at hround hnext
            rw [hnext, List.filterMap_nil, List.append_nil]
            exact returns_loop_done ((returns_ok _).congr hround)
          | some x =>
            rw [hx] at hround hnext
            obtain ⟨t', rfl, hlt', hsuf, hvis⟩ := hnext
            rw [hvis]
            exact returns_loop_next ((returns_ok _).congr hround) (hgo t' (Nat.lt_trans hlt' hlt) hsuf)

/-- The names of all include lines are pushed just when no line that is lost is one. -/
theorem includesExtract_iff (text : Bytes) (inc : List Bytes) (h : ∀ line ∈ lines text, Closed sys line) :
    Returns (fun k => includesExtract sys k text inc) (inc ++ (lines text).filterMap (includeName sys)) ↔
      Spared sys none (lines text) := by
  rw [← visited_names]
  have hr := includesExtract_returns sys text inc h
  constructor
  · exact fun hall => List.append_cancel_left (hr.unique hall)
  · intro heq
    rw [heq] at hr
    exact hr

/-- `#define X` and `#include "a"` on two lines -/
theorem includesExtract_define : Returns (fun k => includesExtract false k
    ([35, 100, 101, 102, 105, 110, 101, 32, 88] ++ 10 :: [35, 105, 110, 99, 108, 117, 100, 101, 32, 34, 97, 34]) [])
    [[97]] :=
  (includesExtract_iff _ [] (by decide)).mpr (by decide)

/-- `#else` hides the `#include "a"` behind it. -/
theorem includesExtract_else : ¬∀ (sys : Bool) (text : Bytes) (inc : List Bytes),
    (∀ line ∈ lines text, Closed sys line ∧ includeName sys line ≠ some []) →
    Returns (fun k => includesExtract sys k text inc) (inc ++ (lines text).filterMap (includeName sys)) := by
  intro hall
  have hgot := hall false ([35, 101, 108, 115, 101] ++ 10 :: [35, 105, 110, 99, 108, 117, 100, 101, 32, 34, 97, 34]) []
    (by decide)
  have hr := includesExtract_returns false
    ([35, 101, 108, 115, 101] ++ 10 :: [35, 105, 110, 99, 108, 117, 100, 101, 32, 34, 97, 34]) [] (by decide)
  exact absurd (hr.unique hgot) (by decide)

end Dirlist
