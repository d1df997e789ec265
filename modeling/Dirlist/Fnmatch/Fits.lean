import Dirlist.Fnmatch.Defs

/-! What one item of a pattern does with a byte, and the strings that fit a pattern. -/

namespace Dirlist
open Run

/-! ## Character classes -/

/-- The member that starts with `a`: whether `c` is of it, and what is left. There is none where the
pattern ends within it, or at `[:`. -/
def memberAt (c a : UInt8) (q : Bytes) : Option (Bool × Bytes) :=
  if a = 91 ∧ (q = [] ∨ q.head? = some 58) then none
  else if q.head? = some 45 then
    match q[1]? with
    | none => none
    | some d => some (if d = 93 then (a = c, q) else (charLe a c && charLe c d, q.drop 2))
  else some (a = c, q)

variable {c a : UInt8} {q rest : Bytes} {neg start res : Bool}

theorem memberAt_length (h : memberAt c a q = some (res, rest)) : rest.length ≤ q.length := by
  unfold memberAt at h
  split at h
  · cases h
  · split at h
    · split at h
      · cases h
      · split at h
        · cases h
          exact le_rfl
        · cases h
          simp
    · cases h
      exact le_rfl

/-- What a class does with `c`: it takes the byte and leaves the rest of the pattern, or does not
take it, or is cut off before that is known. -/
def classOutcome (neg : Bool) (c : UInt8) (start : Bool) : Bytes → Option (Option Bytes)
  | [] => some none
  | a :: q =>
    if a = 93 ∧ ¬start then some none
    else match _hmem : memberAt c a q with
      | none => none
      | some (res, rest) =>
        if res then some (if neg then none else some (skipClass rest))
        else if neg then
          if rest = [] then none
          else if rest.head? = some 93 then some (some (skipClass rest))
          else classOutcome neg c false rest
        else classOutcome neg c false rest
termination_by p => p.length
decreasing_by
  all_goals
    have hlen := memberAt_length _hmem
    simp only [List.length_cons]
    omega

theorem classMember_eq (hposix : ¬(a = 91 ∧ q.head? = some 58)) : classMember c (a :: q) =
    match memberAt c a q with
    | some r => .ok r
    | none => .error .bounds := by
  rcases q with _ | ⟨b, _ | ⟨d, q⟩⟩
  · by_cases ha : a = 91 <;> simp [memberAt, classMember, atPosixClass, atRange, byteAt, ha]
  · have hb : ¬(a = 91 ∧ b = 58) := by simpa using hposix
    by_cases ha : a = 91 <;> by_cases hd : b = 45 <;>
      simp_all [memberAt, classMember, atPosixClass, atRange, byteAt]
  · have hb : ¬(a = 91 ∧ b = 58) := by simpa using hposix
    by_cases ha : a = 91 <;> by_cases hd : b = 45 <;> by_cases hc : d = 93 <;>
      simp_all [memberAt, classMember, atPosixClass, atRange, byteAt]

theorem classMember_posix (ha : a = 91) (hq : q.head? = some 58) : classMember c (a :: q) = .ok (false, a :: q) := by
  cases q with
  | nil => cases hq
  | cons b q =>
    obtain rfl : b = 58 := by simpa using hq
    simp [classMember, atPosixClass, byteAt, ha]

theorem classOutcome_cons (hopen : ¬(a = 93 ∧ ¬start = true)) (hmem : memberAt c a q = some (res, rest)) :
    classOutcome neg c start (a :: q) =
      if res then some (if neg then none else some (skipClass rest))
      else if neg then
        if rest = [] then none
        else if rest.head? = some 93 then some (some (skipClass rest))
        else classOutcome neg c false rest
      else classOutcome neg c false rest := by
  rw [classOutcome, if_neg hopen]
  split
  · rename_i hnone
    rw [hmem] at hnone
    cases hnone
  · rename_i hsome
    rw [hmem] at hsome
    cases hsome
    rfl

theorem classOutcome_none (hopen : ¬(a = 93 ∧ ¬start = true)) (hmem : memberAt c a q = none) :
    classOutcome neg c start (a :: q) = none := by
  rw [classOutcome, if_neg hopen]
  split
  · rfl
  · rename_i hsome
    rw [hmem] at hsome
    cases hsome

/-- One round of the loop. -/
theorem fnmatchClass_member {k : Nat} (hopen : ¬(a = 93 ∧ ¬start = true)) (hmem : memberAt c a q = some (res, rest)) :
    fnmatchClass neg c (k + 1) start (a :: q) =
      if res then .ok (if neg then none else some (skipClass rest))
      else if neg then
        if rest = [] then .error .bounds
        else if rest.head? = some 93 then .ok (some (skipClass rest))
        else fnmatchClass neg c k false rest
      else fnmatchClass neg c k false rest := by
  have hposix : ¬(a = 91 ∧ q.head? = some 58) := by
    rintro ⟨ha, hq⟩
    simp [memberAt, ha, hq] at hmem
  have hstep : classMember c (a :: q) = .ok (res, rest) := by rw [classMember_eq hposix, hmem]
  have hlen : ¬rest.length = q.length + 1 := by
    have hle := memberAt_length hmem
    omega
  have hread : byteAt (a :: q) 0 = .ok a := rfl
  rw [fnmatchClass, if_neg (by simp), hread, ok_bind, if_neg hopen, hstep, ok_bind]
  cases res <;> cases neg
  · simp [hlen]
  · cases rest with
    | nil => simp [byteAt]
    | cons b rest =>
      have hlen' : ¬rest.length = q.length := by simpa using hlen
      simp [byteAt, hlen']
  · simp
  · simp

theorem skipClass_length (q : Bytes) : (skipClass q).length ≤ q.length := by
  rw [skipClass, List.length_drop]
  exact (Nat.sub_le _ _).trans (List.length_dropWhile_le _ _)

theorem fnmatchClass_none {k : Nat} (hopen : ¬(a = 93 ∧ ¬start = true)) (hmem : memberAt c a q = none) :
    fnmatchClass neg c (k + 1) start (a :: q) =
      if a = 91 ∧ q.head? = some 58 then fnmatchClass neg c k start (a :: q) else .error .bounds := by
  have hread : byteAt (a :: q) 0 = .ok a := rfl
  rw [fnmatchClass, if_neg (by simp), hread, ok_bind, if_neg hopen]
  by_cases hposix : a = 91 ∧ q.head? = some 58
  · obtain ⟨ha, hq⟩ := hposix
    rw [classMember_posix ha hq, ok_bind]
    cases neg <;> simp [byteAt, ha, hq]
  · rw [classMember_eq hposix, hmem, error_bind, if_neg hposix]

/-- A round ends the class, or goes on with less of the pattern, or gets nowhere: it leaves the pattern
or stays where it is. -/
theorem class_round (neg : Bool) (c : UInt8) (start : Bool) (q : Bytes) :
    (∃ r, classOutcome neg c start q = some r ∧ (∀ k, fnmatchClass neg c (k + 1) start q = .ok r) ∧
      ∀ s ∈ r, s.length ≤ q.length) ∨
    (∃ rest, rest.length < q.length ∧ classOutcome neg c start q = classOutcome neg c false rest ∧
      ∀ k, fnmatchClass neg c (k + 1) start q = fnmatchClass neg c k false rest) ∨
    (classOutcome neg c start q = none ∧
      ∀ k r, fnmatchClass neg c (k + 1) start q = .ok r → fnmatchClass neg c k start q = .ok r) := by
  cases q with
  | nil => exact .inl ⟨none, by rw [classOutcome], fun _ => rfl, by simp⟩
  | cons a q =>
    by_cases hopen : a = 93 ∧ ¬start = true
    · refine .inl ⟨none, by rw [classOutcome, if_pos hopen], fun k => ?_, by simp⟩
      have hread : byteAt (a :: q) 0 = .ok a := rfl
      rw [fnmatchClass, if_neg (by simp), hread, ok_bind, if_pos hopen]
    · cases hmem : memberAt c a q with
      | none =>
        refine .inr (.inr ⟨classOutcome_none hopen hmem, fun k r h => ?_⟩)
        rw [fnmatchClass_none hopen hmem] at h
        split at h
        · exact h
        · cases h
      | some r =>
        obtain ⟨res, rest⟩ := r
        have hlen : rest.length < (a :: q).length := Nat.lt_succ_of_le (memberAt_length hmem)
        have hskip : ∀ s ∈ some (skipClass rest), s.length ≤ (a :: q).length := by
          intro s hs
          cases hs
          exact (skipClass_length rest).trans hlen.le
        rw [classOutcome_cons hopen hmem]
        simp only [fnmatchClass_member hopen hmem]
        cases res with
        | true =>
          refine .inl ⟨_, rfl, fun _ => rfl, ?_⟩
          cases neg
          · exact hskip
          · simp
        | false =>
          cases neg with
          | false => exact .inr (.inl ⟨rest, hlen, rfl, fun _ => rfl⟩)
          | true =>
            simp only [Bool.false_eq_true, if_false, if_true]
            by_cases hnil : rest = []
            · refine .inr (.inr ⟨if_pos hnil, fun k r h => ?_⟩)
              rw [if_pos hnil] at h
              cases h
            by_cases hclose : rest.head? = some 93
            · simp only [if_neg hnil, if_pos hclose]
              exact .inl ⟨_, rfl, fun _ => rfl, hskip⟩
            · simp only [if_neg hnil, if_neg hclose]
              exact .inr (.inl ⟨rest, hlen, rfl, fun _ => rfl⟩)

theorem classOutcome_length {r : Bytes} (h : classOutcome neg c start q = some (some r)) : r.length ≤ q.length := by
  induction hn : q.length using Nat.strongRecOn generalizing q start with
  | _ n ih =>
    subst hn
    rcases class_round neg c start q with ⟨r', hr, -, hle⟩ | ⟨rest, hlt, hr, -⟩ | ⟨hr, -⟩
    · rw [hr] at h
      cases h
      exact hle r rfl
    · rw [hr] at h
      exact (ih _ hlt h rfl).trans hlt.le
    · rw [hr] at h
      cases h

/-- What the loop ends with is what the class does. -/
theorem classOutcome_of_ok {k : Nat} {r : Option Bytes} (h : fnmatchClass neg c k start q = .ok r) :
    classOutcome neg c start q = some r := by
  induction k generalizing start q with
  | zero => cases h
  | succ k ih =>
    rcases class_round neg c start q with ⟨r', hr, hk, -⟩ | ⟨rest, -, hr, hk⟩ | ⟨-, hk⟩
    · rw [hk] at h
      cases h
      exact hr
    · rw [hk] at h
      rw [hr]
      exact ih h
    · exact ih (hk k r h)

theorem fnmatchClass_eq {k : Nat} {r : Option Bytes} (h : classOutcome neg c start q = some r)
    (hlen : q.length < k) : fnmatchClass neg c k start q = .ok r := by
  induction k generalizing start q with
  | zero => cases hlen
  | succ k ih =>
    rcases class_round neg c start q with ⟨r', hr, hk, -⟩ | ⟨rest, hlt, hr, hk⟩ | ⟨hr, -⟩
    · rw [hr] at h
      cases h
      exact hk k
    · rw [hr] at h
      rw [hk]
      exact ih h (Nat.lt_of_lt_of_le hlt (Nat.le_of_lt_succ hlen))
    · rw [hr] at h
      cases h

/-! ## Items -/

variable {fl : FnmFlags} {first : Bool} {prev : Option UInt8} {p s : Bytes} {k r : Nat} {st : FnmState}

/-- What an item other than `*` does with `c`, from its first byte `a` on. -/
def itemOutcome (fl : FnmFlags) (c a : UInt8) (p : Bytes) : Option (Option Bytes) :=
  if a = 91 then
    if fl.slash c then some none
    else match p with
      | [] => none
      | b :: p' => if b = 33 then classOutcome true c true p' else classOutcome false c true p
  else if a = 92 ∧ ¬fl.noescape then
    match p with
    | [] => some none
    | b :: p' => some (if b = c then some p' else none)
  else if a = 63 then some (if fl.slash c then none else some p)
  else some (if a = c then some p else none)

theorem itemOutcome_length {q : Bytes} (h : itemOutcome fl c a p = some (some q)) : q.length ≤ p.length := by
  unfold itemOutcome at h
  split at h
  · split at h
    · cases h
    · cases p with
      | nil => cases h
      | cons b p =>
        simp only at h
        split at h
        · exact (classOutcome_length h).trans (Nat.le_succ _)
        · exact classOutcome_length h
  · split at h
    · cases p with
      | nil => cases h
      | cons b p =>
        simp only [Option.some.injEq] at h
        split at h
        · cases h
          exact Nat.le_succ _
        · cases h
    · split at h
      · have h' := Option.some.inj h
        split at h'
        · cases h'
        · cases h'
          exact le_rfl
      · have h' := Option.some.inj h
        split at h'
        · cases h'
          exact le_rfl
        · cases h'

/-- The byte is a leading period, and the pattern has none at hand. -/
def Blocked (fl : FnmFlags) (first : Bool) (prev : Option UInt8) (a c : UInt8) : Prop :=
  c = 46 ∧ a ≠ 46 ∧ fl.period = true ∧ (first = true ∨ (fl.pathname = true ∧ prev = some 47))

/-- Once `NOTFIRST` is set, a period has a byte before it. -/
def FnmState.Good (fl : FnmFlags) (st : FnmState) : Prop :=
  st.first = false → st.prev = none → ¬(fl.period = true ∧ st.string.head? = some 46)

theorem blocked_of_ok {b : Bool} (h : periodBlocks fl first prev a c = .ok b) :
    b = true ↔ Blocked fl first prev a c := by
  unfold periodBlocks at h
  split at h
  · rename_i hdot
    obtain ⟨hc, ha, hperiod⟩ := hdot
    split at h
    · rename_i hfirst
      cases h
      simp [Blocked, hc, ha, hperiod, hfirst]
    · rename_i hfirst
      split at h
      · rename_i hpath
        cases prev with
        | none => cases h
        | some b' =>
          cases h
          simp [Blocked, hc, ha, hperiod, hfirst, hpath]
      · rename_i hpath
        cases h
        simp [Blocked, hfirst, hpath]
  · rename_i hdot
    cases h
    simp only [Bool.false_eq_true, false_iff]
    exact fun hb => hdot ⟨hb.1, hb.2.1, hb.2.2.1⟩

theorem periodBlocks_ok (hgood : FnmState.Good fl ⟨first, prev, p, c :: s⟩) (a : UInt8) :
    ∃ b, periodBlocks fl first prev a c = .ok b := by
  unfold periodBlocks
  split
  · rename_i hdot
    split
    · exact ⟨true, rfl⟩
    · rename_i hfirst
      split
      · cases prev with
        | none => exact absurd ⟨hdot.2.2, by simp [hdot.1]⟩ (hgood (by simpa using hfirst) rfl)
        | some b => exact ⟨_, rfl⟩
      · exact ⟨false, rfl⟩
  · exact ⟨false, rfl⟩

/-! ## One round -/

/-- What one round of `path_fnmatch` returns, from what the rounds it leads to return. -/
inductive FnmRound (fl : FnmFlags) (call : FnmState → Nat → Prop) : FnmState → Nat → Prop
  | ended {first : Bool} {prev : Option UInt8} {p : Bytes} :
    FnmRound fl call ⟨first, prev, p, []⟩ (if (p.dropWhile (· = 42)).length = 0 then 0 else 1)
  | spent {first : Bool} {prev : Option UInt8} {c : UInt8} {s : Bytes} : FnmRound fl call ⟨first, prev, [], c :: s⟩ 1
  | blocked {first : Bool} {prev : Option UInt8} {a c : UInt8} {p s : Bytes} :
    Blocked fl first prev a c → FnmRound fl call ⟨first, prev, a :: p, c :: s⟩ 1
  | refused {first : Bool} {prev : Option UInt8} {a c : UInt8} {p s : Bytes} :
    ¬Blocked fl first prev a c → a ≠ 42 → itemOutcome fl c a p = some none →
      FnmRound fl call ⟨first, prev, a :: p, c :: s⟩ 1
  | taken {first : Bool} {prev : Option UInt8} {a c : UInt8} {p q s : Bytes} {r : Nat} :
    ¬Blocked fl first prev a c → a ≠ 42 → itemOutcome fl c a p = some (some q) → call ⟨false, some c, q, s⟩ r →
      FnmRound fl call ⟨first, prev, a :: p, c :: s⟩ r
  | slash {first : Bool} {prev : Option UInt8} {c : UInt8} {p s : Bytes} {r : Nat} :
    ¬Blocked fl first prev 42 c → fl.slash c = true → call ⟨false, prev, p, c :: s⟩ r →
      FnmRound fl call ⟨first, prev, 42 :: p, c :: s⟩ r
  | matched {first : Bool} {prev : Option UInt8} {c : UInt8} {p s : Bytes} :
    ¬Blocked fl first prev 42 c → fl.slash c = false → call ⟨false, some c, 42 :: p, s⟩ 0 →
      FnmRound fl call ⟨first, prev, 42 :: p, c :: s⟩ 0
  | retried {first : Bool} {prev : Option UInt8} {c : UInt8} {p s : Bytes} {r₁ r : Nat} :
    ¬Blocked fl first prev 42 c → fl.slash c = false → call ⟨false, some c, 42 :: p, s⟩ r₁ → r₁ ≠ 0 →
      call ⟨false, prev, p, c :: s⟩ r → FnmRound fl call ⟨first, prev, 42 :: p, c :: s⟩ r

theorem pathFnmatch_cons : pathFnmatch fl (k + 1) ⟨first, prev, a :: p, c :: s⟩ =
    periodBlocks fl first prev a c >>= fun blocked =>
      if blocked then .ok 1 else fnmItem fl k (pathFnmatch fl k) prev a c p s := rfl

variable {call : FnmState → Exec Nat}

/-- How a round goes on from what the item does. -/
def proceed (call : FnmState → Exec Nat) (c : UInt8) (s : Bytes) : Option (Option Bytes) → Exec Nat
  | none => .error .bounds
  | some none => .ok 1
  | some (some q) => call ⟨false, some c, q, s⟩

theorem fnmItem_plain (ha : a ≠ 42) (hclass : a ≠ 91) :
    fnmItem fl k call prev a c p s = proceed call c s (itemOutcome fl c a p) := by
  unfold fnmItem itemOutcome
  rw [if_neg hclass, if_neg hclass]
  by_cases hesc : a = 92 ∧ ¬fl.noescape = true
  · rw [if_pos hesc, if_pos hesc]
    cases p with
    | nil => rfl
    | cons b p => by_cases hb : b = c <;> simp [hb, proceed]
  · rw [if_neg hesc, if_neg hesc, if_neg ha]
    by_cases hany : a = 63
    · by_cases hslash : fl.slash c = true <;> simp [hany, hslash, proceed]
    · rw [if_neg hany, if_neg hany]
      by_cases hlit : a = c <;> simp [hlit, proceed]

theorem fnmItem_class (hslash : ¬fl.slash c = true) (b : UInt8) (p : Bytes) :
    fnmItem fl k call prev 91 c (b :: p) s =
      fnmatchClass (b = 33) c k true (if b = 33 then p else b :: p) >>= fun o => proceed call c s (some o) := by
  unfold fnmItem
  rw [if_pos rfl, if_neg hslash, show byteAt (b :: p) 0 = .ok b from rfl, ok_bind]
  refine bind_congr fun o => ?_
  cases o <;> rfl

theorem itemOutcome_class (hslash : ¬fl.slash c = true) (b : UInt8) (p : Bytes) :
    itemOutcome fl c 91 (b :: p) = classOutcome (b = 33) c true (if b = 33 then p else b :: p) := by
  rw [itemOutcome, if_pos rfl, if_neg hslash]
  by_cases hneg : b = 33 <;> simp [hneg]

theorem proceed_of_ok (ha : a ≠ 42) (h : fnmItem fl k call prev a c p s = .ok r) :
    proceed call c s (itemOutcome fl c a p) = .ok r := by
  by_cases hclass : a = 91
  · subst hclass
    by_cases hslash : fl.slash c = true
    · unfold fnmItem at h
      rw [if_pos rfl, if_pos hslash] at h
      unfold itemOutcome
      rw [if_pos rfl, if_pos hslash]
      exact h
    · cases p with
      | nil =>
        unfold fnmItem at h
        rw [if_pos rfl, if_neg hslash] at h
        cases h
      | cons b p =>
        rw [fnmItem_class hslash] at h
        obtain ⟨o, ho, h⟩ := bind_eq_ok h
        rw [itemOutcome_class hslash, classOutcome_of_ok ho]
        exact h
  · rwa [fnmItem_plain ha hclass] at h

theorem fnmItem_eq {o : Option Bytes} (ha : a ≠ 42) (ho : itemOutcome fl c a p = some o) (hk : p.length < k) :
    fnmItem fl k call prev a c p s = proceed call c s (some o) := by
  by_cases hclass : a = 91
  · subst hclass
    by_cases hslash : fl.slash c = true
    · unfold itemOutcome at ho
      rw [if_pos rfl, if_pos hslash] at ho
      cases ho
      unfold fnmItem
      rw [if_pos rfl, if_pos hslash]
      rfl
    · cases p with
      | nil =>
        rw [itemOutcome, if_pos rfl, if_neg hslash] at ho
        cases ho
      | cons b p =>
        rw [itemOutcome_class hslash] at ho
        have hlen : (if b = 33 then p else b :: p).length < k := by
          rw [List.length_cons] at hk
          split
          · omega
          · exact hk
        rw [fnmItem_class hslash, fnmatchClass_eq ho hlen, ok_bind]
  · rw [fnmItem_plain ha hclass, ho]

theorem fnmItem_star : fnmItem fl k call prev 42 c p s =
    if fl.slash c then call ⟨false, prev, p, c :: s⟩
    else call ⟨false, some c, 42 :: p, s⟩ >>= fun r =>
      if r ≠ 0 then call ⟨false, prev, p, c :: s⟩ else .ok 0 := rfl

/-- A round that returns. -/
theorem round_of_ok (h : pathFnmatch fl (k + 1) st = .ok r) :
    FnmRound fl (fun st r => pathFnmatch fl k st = .ok r) st r := by
  obtain ⟨first, prev, p, s⟩ := st
  cases s with
  | nil =>
    cases h
    exact .ended
  | cons c s =>
    cases p with
    | nil =>
      cases h
      exact .spent
    | cons a p =>
      rw [pathFnmatch_cons] at h
      obtain ⟨b, hb, h⟩ := bind_eq_ok h
      have hblocked := blocked_of_ok hb
      cases b with
      | true =>
        cases h
        exact .blocked (hblocked.mp rfl)
      | false =>
        have hfree : ¬Blocked fl first prev a c := fun hbl => by simpa using hblocked.mpr hbl
        simp only [Bool.false_eq_true, if_false] at h
        by_cases ha : a = 42
        · subst ha
          rw [fnmItem_star] at h
          by_cases hslash : fl.slash c = true
          · rw [if_pos hslash] at h
            exact .slash hfree hslash h
          · rw [if_neg hslash] at h
            obtain ⟨r₁, hr₁, h⟩ := bind_eq_ok h
            by_cases hzero : r₁ = 0
            · subst hzero
              cases h
              exact .matched hfree (by simpa using hslash) hr₁
            · rw [if_pos hzero] at h
              exact .retried hfree (by simpa using hslash) hr₁ hzero h
        · have hproceed := proceed_of_ok ha h
          cases ho : itemOutcome fl c a p with
          | none =>
            rw [ho] at hproceed
            cases hproceed
          | some o =>
            rw [ho] at hproceed
            cases o with
            | none =>
              cases hproceed
              exact .refused hfree ha ho
            | some q => exact .taken hfree ha ho hproceed

/-- A round returns, where the rounds it leads to do. -/
theorem ok_of_round (hgood : st.Good fl) (hk : st.pattern.length ≤ k)
    (h : FnmRound fl (fun st r => pathFnmatch fl k st = .ok r) st r) : pathFnmatch fl (k + 1) st = .ok r := by
  have htest : ∀ {first prev a c p s}, FnmState.Good fl ⟨first, prev, p, c :: s⟩ →
      ¬Blocked fl first prev a c → periodBlocks fl first prev a c = .ok false := by
    intro first prev a c p s hgood hfree
    obtain ⟨b, hb⟩ := periodBlocks_ok hgood a
    cases b with
    | true => exact absurd ((blocked_of_ok hb).mp rfl) hfree
    | false => exact hb
  cases h with
  | ended => rfl
  | spent => rfl
  | blocked hbl =>
    obtain ⟨b, hb⟩ := periodBlocks_ok hgood _
    rw [pathFnmatch_cons, hb, ok_bind, if_pos ((blocked_of_ok hb).mpr hbl)]
  | refused hfree ha ho =>
    rw [pathFnmatch_cons, htest hgood hfree, ok_bind, fnmItem_eq ha ho hk]
    rfl
  | taken hfree ha ho hcall =>
    rw [pathFnmatch_cons, htest hgood hfree, ok_bind, fnmItem_eq ha ho hk]
    exact hcall
  | slash hfree hslash hcall =>
    rw [pathFnmatch_cons, htest hgood hfree, ok_bind, fnmItem_star, if_pos hslash]
    exact hcall
  | matched hfree hslash hcall =>
    rw [pathFnmatch_cons, htest hgood hfree, ok_bind, fnmItem_star, hslash, hcall]
    rfl
  | retried hfree hslash hcall hne hcall' =>
    rw [pathFnmatch_cons, htest hgood hfree, ok_bind, fnmItem_star, hslash, hcall]
    simp only [Bool.false_eq_true, if_false, ok_bind, if_pos hne]
    exact hcall'

end Dirlist
