import Dirlist.Fnmatch.Fits

/-! When `path_fnmatch` returns, and what. A class that is cut off by the end of the pattern is read
beyond it, and a `[:` is never left; nothing else goes wrong. -/

namespace Dirlist
open Run

/-- The string that is left fits the pattern that is left. -/
inductive Fits (fl : FnmFlags) : FnmState → Prop
  | ended {first : Bool} {prev : Option UInt8} {p : Bytes} :
    (p.dropWhile (· = 42)).length = 0 → Fits fl ⟨first, prev, p, []⟩
  | one {first : Bool} {prev : Option UInt8} {a c : UInt8} {p q s : Bytes} :
    ¬Blocked fl first prev a c → a ≠ 42 → itemOutcome fl c a p = some (some q) → Fits fl ⟨false, some c, q, s⟩ →
      Fits fl ⟨first, prev, a :: p, c :: s⟩
  | more {first : Bool} {prev : Option UInt8} {c : UInt8} {p s : Bytes} :
    ¬Blocked fl first prev 42 c → fl.slash c = false → Fits fl ⟨false, some c, 42 :: p, s⟩ →
      Fits fl ⟨first, prev, 42 :: p, c :: s⟩
  | skip {first : Bool} {prev : Option UInt8} {c : UInt8} {p s : Bytes} :
    ¬Blocked fl first prev 42 c → Fits fl ⟨false, prev, p, c :: s⟩ → Fits fl ⟨first, prev, 42 :: p, c :: s⟩

/-- Where a round leads. The pattern behind a `*` is tried only if the `*` cannot take a byte more. -/
inductive FnmNext (fl : FnmFlags) : FnmState → FnmState → Prop
  | one {first : Bool} {prev : Option UInt8} {a c : UInt8} {p q s : Bytes} :
    ¬Blocked fl first prev a c → a ≠ 42 → itemOutcome fl c a p = some (some q) →
      FnmNext fl ⟨first, prev, a :: p, c :: s⟩ ⟨false, some c, q, s⟩
  | more {first : Bool} {prev : Option UInt8} {c : UInt8} {p s : Bytes} :
    ¬Blocked fl first prev 42 c → fl.slash c = false →
      FnmNext fl ⟨first, prev, 42 :: p, c :: s⟩ ⟨false, some c, 42 :: p, s⟩
  | skip {first : Bool} {prev : Option UInt8} {c : UInt8} {p s : Bytes} :
    ¬Blocked fl first prev 42 c → (fl.slash c = false → ¬Fits fl ⟨false, some c, 42 :: p, s⟩) →
      FnmNext fl ⟨first, prev, 42 :: p, c :: s⟩ ⟨false, prev, p, c :: s⟩

/-- The pattern is at a class that is cut off before it decides on the byte at hand. -/
def CutOff (fl : FnmFlags) (st : FnmState) : Prop :=
  ∃ a p c s, st.pattern = a :: p ∧ st.string = c :: s ∧ ¬Blocked fl st.first st.prev a c ∧ a ≠ 42 ∧
    itemOutcome fl c a p = none

variable {fl : FnmFlags} {st st' : FnmState} {k r : Nat}

theorem fits_nil_iff {first : Bool} {prev : Option UInt8} {p : Bytes} :
    Fits fl ⟨first, prev, p, []⟩ ↔ (p.dropWhile (· = 42)).length = 0 := by
  constructor
  · intro h
    cases h with
    | ended hp => exact hp
  · exact .ended

theorem fits_item_iff {first : Bool} {prev : Option UInt8} {a : UInt8} {p s : Bytes} (ha : a ≠ 42) :
    Fits fl ⟨first, prev, a :: p, s⟩ ↔ ∃ c v q, s = c :: v ∧ ¬Blocked fl first prev a c ∧
      itemOutcome fl c a p = some (some q) ∧ Fits fl ⟨false, some c, q, v⟩ := by
  constructor
  · intro h
    cases h with
    | ended hp => simp [ha] at hp
    | one hfree _ ho h => exact ⟨_, _, _, rfl, hfree, ho, h⟩
    | more => exact absurd rfl ha
    | skip => exact absurd rfl ha
  · rintro ⟨c, v, q, rfl, hfree, ho, h⟩
    exact .one hfree ha ho h

theorem fits_star_iff {first : Bool} {prev : Option UInt8} {c : UInt8} {p s : Bytes} :
    Fits fl ⟨first, prev, 42 :: p, c :: s⟩ ↔ ¬Blocked fl first prev 42 c ∧
      ((fl.slash c = false ∧ Fits fl ⟨false, some c, 42 :: p, s⟩) ∨ Fits fl ⟨false, prev, p, c :: s⟩) := by
  constructor
  · intro h
    cases h with
    | one _ ha => exact absurd rfl ha
    | more hfree hslash h => exact ⟨hfree, .inl ⟨hslash, h⟩⟩
    | skip hfree h => exact ⟨hfree, .inr h⟩
  · rintro ⟨hfree, ⟨hslash, h⟩ | h⟩
    · exact .more hfree hslash h
    · exact .skip hfree h

/-! ## What is returned -/

theorem fits_of_zero (h : pathFnmatch fl k st = .ok 0) : Fits fl st := by
  induction k generalizing st with
  | zero => cases h
  | succ k ih =>
    generalize hr : 0 = r at h
    cases round_of_ok h with
    | ended =>
      refine .ended ?_
      by_contra hne
      rw [if_neg hne] at hr
      cases hr
    | spent => cases hr
    | blocked => cases hr
    | refused => cases hr
    | taken hfree ha ho hcall => exact .one hfree ha ho (ih (hr ▸ hcall))
    | slash hfree _ hcall => exact .skip hfree (ih (hr ▸ hcall))
    | matched hfree hslash hcall => exact .more hfree hslash (ih hcall)
    | retried hfree _ _ _ hcall => exact .skip hfree (ih (hr ▸ hcall))

theorem zero_of_fits (h : pathFnmatch fl k st = .ok r) (hfits : Fits fl st) : r = 0 := by
  induction k generalizing st r with
  | zero => cases h
  | succ k ih =>
    cases round_of_ok h with
    | ended =>
      cases hfits with
      | ended hp => rw [if_pos hp]
    | spent => cases hfits
    | blocked hbl =>
      cases hfits with
      | one hfree => exact absurd hbl hfree
      | more hfree => exact absurd hbl hfree
      | skip hfree => exact absurd hbl hfree
    | refused _ ha ho =>
      cases hfits with
      | one _ _ ho' =>
        rw [ho] at ho'
        cases ho'
      | more => exact absurd rfl ha
      | skip => exact absurd rfl ha
    | taken _ ha ho hcall =>
      cases hfits with
      | one _ _ ho' hfits =>
        rw [ho] at ho'
        cases ho'
        exact ih hcall hfits
      | more => exact absurd rfl ha
      | skip => exact absurd rfl ha
    | slash _ hslash hcall =>
      cases hfits with
      | one _ ha => exact absurd rfl ha
      | more _ hslash' =>
        rw [hslash] at hslash'
        cases hslash'
      | skip _ hfits => exact ih hcall hfits
    | matched => rfl
    | retried _ _ hcall hne hcall' =>
      cases hfits with
      | one _ ha => exact absurd rfl ha
      | more _ _ hfits => exact absurd (ih hcall hfits) hne
      | skip _ hfits => exact ih hcall' hfits

theorem le_one_of_ok (h : pathFnmatch fl k st = .ok r) : r ≤ 1 := by
  induction k generalizing st r with
  | zero => cases h
  | succ k ih =>
    cases round_of_ok h with
    | ended => split <;> simp
    | spent => exact le_rfl
    | blocked => exact le_rfl
    | refused => exact le_rfl
    | taken _ _ _ hcall => exact ih hcall
    | slash _ _ hcall => exact ih hcall
    | matched => exact Nat.zero_le 1
    | retried _ _ _ _ hcall => exact ih hcall

/-! ## Which rounds are made -/

/-- A call that returns comes to no class that is cut off. -/
theorem not_cutOff_of_ok (h : pathFnmatch fl k st = .ok r) : ¬CutOff fl st := by
  rintro ⟨a, p, c, s, hp, hs, hfree, ha, ho⟩
  obtain ⟨first, prev, pattern, string⟩ := st
  subst hp hs
  cases k with
  | zero => cases h
  | succ k =>
    cases round_of_ok h with
    | blocked hbl => exact hfree hbl
    | refused _ _ ho' =>
      rw [ho] at ho'
      cases ho'
    | taken _ _ ho' =>
      rw [ho] at ho'
      cases ho'
    | slash => exact ha rfl
    | matched => exact ha rfl
    | retried => exact ha rfl

theorem ok_next (h : pathFnmatch fl k st = .ok r) (hnext : FnmNext fl st st') :
    ∃ j r', pathFnmatch fl j st' = .ok r' := by
  cases k with
  | zero => cases h
  | succ k =>
    cases hnext with
    | one hfree ha ho =>
      cases round_of_ok h with
      | blocked hbl => exact absurd hbl hfree
      | refused _ _ ho' =>
        rw [ho] at ho'
        cases ho'
      | taken _ _ ho' hcall =>
        rw [ho] at ho'
        cases ho'
        exact ⟨k, r, hcall⟩
      | slash => exact absurd rfl ha
      | matched => exact absurd rfl ha
      | retried => exact absurd rfl ha
    | more hfree hslash =>
      cases round_of_ok h with
      | blocked hbl => exact absurd hbl hfree
      | refused _ ha => exact absurd rfl ha
      | taken _ ha => exact absurd rfl ha
      | slash _ hslash' =>
        rw [hslash] at hslash'
        cases hslash'
      | matched _ _ hcall => exact ⟨k, 0, hcall⟩
      | retried _ _ hcall => exact ⟨k, _, hcall⟩
    | skip hfree hnot =>
      cases round_of_ok h with
      | blocked hbl => exact absurd hbl hfree
      | refused _ ha => exact absurd rfl ha
      | taken _ ha => exact absurd rfl ha
      | slash _ _ hcall => exact ⟨k, r, hcall⟩
      | matched _ hslash hcall => exact absurd (fits_of_zero hcall) (hnot hslash)
      | retried _ _ _ _ hcall => exact ⟨k, r, hcall⟩

theorem FnmNext.good (hnext : FnmNext fl st st') (hgood : st.Good fl) : st'.Good fl := by
  cases hnext with
  | one => exact fun _ hprev => by cases hprev
  | more => exact fun _ hprev => by cases hprev
  | @skip first prev c p s hfree _ =>
    intro _ hprev hdot
    cases first with
    | true => exact hfree ⟨by simpa using hdot.2, by decide, hdot.1, .inl rfl⟩
    | false => exact hgood rfl hprev hdot

/-- The bytes that are left grow fewer. -/
theorem FnmNext.length_lt (hnext : FnmNext fl st st') :
    st'.pattern.length + st'.string.length < st.pattern.length + st.string.length := by
  cases hnext with
  | one _ _ ho =>
    have hle := itemOutcome_length ho
    simp only [List.length_cons]
    omega
  | more =>
    simp only [List.length_cons]
    omega
  | skip =>
    simp only [List.length_cons]
    omega

/-- Where no class is cut off, enough rounds are all that is needed. -/
theorem exists_ok (hgood : st.Good fl)
    (hsound : ∀ st', Relation.ReflTransGen (FnmNext fl) st st' → ¬CutOff fl st') :
    ∃ N, ∀ k, N ≤ k → ∃ r, pathFnmatch fl k st = .ok r := by
  induction hn : st.pattern.length + st.string.length using Nat.strongRecOn generalizing st with
  | _ n ih =>
    subst hn
    have hnext : ∀ {st'}, FnmNext fl st st' → ∃ N, ∀ k, N ≤ k → ∃ r, pathFnmatch fl k st' = .ok r :=
      fun h => ih _ h.length_lt (h.good hgood) (fun st'' hr => hsound st'' (.head h hr)) rfl
    -- one round more than the rounds it leads to, and enough for the class in it
    have hround : ∀ N, (∀ k, N ≤ k → ∃ r, FnmRound fl (fun st r => pathFnmatch fl k st = .ok r) st r) →
        ∃ N, ∀ k, N ≤ k → ∃ r, pathFnmatch fl k st = .ok r := by
      intro N hN
      refine ⟨max N st.pattern.length + 1, fun k hk => ?_⟩
      obtain ⟨j, rfl⟩ : ∃ j, k = j + 1 := ⟨k - 1, by omega⟩
      have hj : max N st.pattern.length ≤ j := by omega
      obtain ⟨r, hr⟩ := hN j ((le_max_left ..).trans hj)
      exact ⟨r, ok_of_round hgood ((le_max_right ..).trans hj) hr⟩
    obtain ⟨first, prev, p, s⟩ := st
    cases s with
    | nil => exact hround 0 fun k _ => ⟨_, .ended⟩
    | cons c s =>
      cases p with
      | nil => exact hround 0 fun k _ => ⟨_, .spent⟩
      | cons a p =>
        by_cases hbl : Blocked fl first prev a c
        · exact hround 0 fun k _ => ⟨_, .blocked hbl⟩
        · by_cases ha : a = 42
          · subst ha
            cases hslash : fl.slash c with
            | true =>
              obtain ⟨N, hN⟩ := hnext (.skip hbl (by simp [hslash]))
              refine hround N fun k hk => ?_
              obtain ⟨r, hr⟩ := hN k hk
              exact ⟨r, .slash hbl hslash hr⟩
            | false =>
              obtain ⟨N, hN⟩ := hnext (.more hbl hslash)
              by_cases hfits : Fits fl ⟨false, some c, 42 :: p, s⟩
              · refine hround N fun k hk => ?_
                obtain ⟨r, hr⟩ := hN k hk
                obtain rfl := zero_of_fits hr hfits
                exact ⟨0, .matched hbl hslash hr⟩
              · obtain ⟨M, hM⟩ := hnext (.skip hbl fun _ => hfits)
                refine hround (max N M) fun k hk => ?_
                obtain ⟨r₁, hr₁⟩ := hN k ((le_max_left ..).trans hk)
                obtain ⟨r, hr⟩ := hM k ((le_max_right ..).trans hk)
                have hne : r₁ ≠ 0 := by
                  rintro rfl
                  exact hfits (fits_of_zero hr₁)
                exact ⟨r, .retried hbl hslash hr₁ hne hr⟩
          · cases ho : itemOutcome fl c a p with
            | none => exact absurd ⟨a, p, c, s, rfl, rfl, hbl, ha, ho⟩ (hsound _ .refl)
            | some o =>
              cases o with
              | none => exact hround 0 fun k _ => ⟨_, .refused hbl ha ho⟩
              | some q =>
                obtain ⟨N, hN⟩ := hnext (.one hbl ha ho)
                refine hround N fun k hk => ?_
                obtain ⟨r, hr⟩ := hN k hk
                exact ⟨r, .taken hbl ha ho hr⟩

/-- The matcher returns 0 for the strings that fit and 1 for the others. -/
theorem returns_fnmatch (hgood : st.Good fl)
    (hsound : ∀ st', Relation.ReflTransGen (FnmNext fl) st st' → ¬CutOff fl st') :
    ∃ r, Returns (fun k => pathFnmatch fl k st) r ∧ (r = 0 ↔ Fits fl st) := by
  obtain ⟨N, hN⟩ := exists_ok hgood hsound
  obtain ⟨r, hr⟩ := hN N le_rfl
  refine ⟨r, ⟨N, fun k hk => ?_⟩, ⟨fun hzero => fits_of_zero (hzero ▸ hr), zero_of_fits hr⟩⟩
  obtain ⟨r', hr'⟩ := hN k hk
  have hsame : r' = r := by
    have hle := le_one_of_ok hr
    have hle' := le_one_of_ok hr'
    by_cases hfits : Fits fl st
    · rw [zero_of_fits hr' hfits, zero_of_fits hr hfits]
    · have hne : r ≠ 0 := fun hzero => hfits (fits_of_zero (hzero ▸ hr))
      have hne' : r' ≠ 0 := fun hzero => hfits (fits_of_zero (hzero ▸ hr'))
      omega
  exact hsame ▸ hr'

/-- `path_fnmatch` returns, with no read beyond pattern or string, exactly when no class that it
comes to is cut off. -/
theorem pathFnmatch_returns_iff (fl : FnmFlags) (pattern string : Bytes) :
    (∃ r, Returns (fun k => pathFnmatch fl k (fnmStart pattern string)) r) ↔
      ∀ st, Relation.ReflTransGen (FnmNext fl) (fnmStart pattern string) st → ¬CutOff fl st := by
  constructor
  · rintro ⟨r, N, hN⟩ st hst
    have hok : ∃ k r, pathFnmatch fl k st = .ok r := by
      induction hst with
      | refl => exact ⟨N, r, hN N le_rfl⟩
      | tail _ hnext ih =>
        obtain ⟨k, r', hr'⟩ := ih
        exact ok_next hr' hnext
    obtain ⟨k, r', hr'⟩ := hok
    exact not_cutOff_of_ok hr'
  · intro hsound
    obtain ⟨r, hr, -⟩ := returns_fnmatch (fun hfirst => by cases hfirst) hsound
    exact ⟨r, hr⟩

/-- A class that starts with `[:` is never left. -/
theorem pathFnmatch_posix :
    ¬∃ r, Returns (fun k => pathFnmatch ⟨false, false, false⟩ k (fnmStart [91, 91, 58, 93] [97])) r := by
  rintro ⟨r, N, hN⟩
  refine not_cutOff_of_ok (hN N le_rfl) ⟨91, [91, 58, 93], 97, [], rfl, rfl, ?_, by decide, ?_⟩
  · simp [Blocked]
  · rw [itemOutcome_class (by decide)]
    exact classOutcome_none (by decide) (by decide)

end Dirlist
