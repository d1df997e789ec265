import Dirlist.Fnmatch.Bounds

/-! Patterns as lists of items, the strings they match, and that `path_fnmatch` decides it. -/

namespace Dirlist
open Run

/-! ## Patterns -/

inductive ClassMember
  | single (c : UInt8)
  | range (lo hi : UInt8)
deriving DecidableEq, Repr

inductive GlobItem
  | lit (c : UInt8)
  | esc (c : UInt8)
  | any
  | star
  | cls (neg : Bool) (ms : List ClassMember)
deriving DecidableEq, Repr

def ClassMember.text : ClassMember → Bytes
  | .single c => [c]
  | .range lo hi => [lo, 45, hi]

def classText (ms : List ClassMember) : Bytes := ms.flatMap ClassMember.text

/-- The text of a class from a member on. -/
def classTail (ms : List ClassMember) : Bytes := classText ms ++ [93]

def GlobItem.text : GlobItem → Bytes
  | .lit c => [c]
  | .esc c => [92, c]
  | .any => [63]
  | .star => [42]
  | .cls neg ms => 91 :: ((if neg then [33] else []) ++ classTail ms)

def globText (p : List GlobItem) : Bytes := p.flatMap GlobItem.text

/-- The members read as they are written: a `]` only in the first place, no `[:`, and no `-` behind
a single byte unless it is the last member. -/
def MembersOk : Bool → List ClassMember → Prop
  | _, [] => True
  | start, .single a :: ms => (start = false → a ≠ 93) ∧ (a = 91 → (classTail ms).head? ≠ some 58) ∧
      ((classTail ms).head? = some 45 → (classTail ms)[1]? = some 93) ∧ MembersOk false ms
  | start, .range lo hi :: ms => (start = false → lo ≠ 93) ∧ hi ≠ 93 ∧ MembersOk false ms

/-- The item reads as it is written. -/
def GlobItem.Ok (fl : FnmFlags) : GlobItem → Prop
  | .lit c => c ≠ 42 ∧ c ≠ 63 ∧ c ≠ 91 ∧ (c = 92 → fl.noescape = true)
  | .esc _ => fl.noescape = false
  | .any => True
  | .star => True
  | .cls neg ms => ms ≠ [] ∧ (neg = false → (classText ms).head? ≠ some 33) ∧ MembersOk true ms

/-! ## Matching -/

def ClassMember.has (c : UInt8) : ClassMember → Bool
  | .single a => a = c
  | .range lo hi => charLe lo c && charLe c hi

/-- A period behind `prev` is a leading one. -/
def Leading (fl : FnmFlags) (prev : Option UInt8) : Prop :=
  fl.period = true ∧ (prev = none ∨ (fl.pathname = true ∧ prev = some 47))

/-- What may stand at a leading period besides a plain one: a `*` with nothing to match, and an
escaped period. -/
structure PeriodRule where
  emptyRun : Bool
  escaped : Bool

/-- An item other than `*` takes the byte `c` behind `prev`. -/
def GlobItem.Takes (fl : FnmFlags) (rule : PeriodRule) (prev : Option UInt8) (c : UInt8) : GlobItem → Prop
  | .lit a => a = c
  | .esc a => a = c ∧ (rule.escaped = true ∨ ¬(c = 46 ∧ Leading fl prev))
  | .any => fl.slash c = false ∧ ¬(c = 46 ∧ Leading fl prev)
  | .star => False
  | .cls neg ms => fl.slash c = false ∧ ¬(c = 46 ∧ Leading fl prev) ∧ ms.any (·.has c) = !neg

/-- A run of bytes for a `*`. -/
def StarRun (fl : FnmFlags) (prev : Option UInt8) (u : Bytes) : Prop :=
  ∀ u₁ c u₂, u = u₁ ++ c :: u₂ → fl.slash c = false ∧ ¬(c = 46 ∧ Leading fl (u₁.getLast?.or prev))

/-- The string `s` behind `prev` matches the pattern. -/
def Globs (fl : FnmFlags) (rule : PeriodRule) : List GlobItem → Option UInt8 → Bytes → Prop
  | [], _, s => s = []
  | .star :: p, prev, s => ∃ u v, s = u ++ v ∧ StarRun fl prev u ∧
      (u = [] → rule.emptyRun = true ∨ ¬(s.head? = some 46 ∧ Leading fl prev)) ∧
      Globs fl rule p (u.getLast?.or prev) v
  | it :: p, prev, s => ∃ c v, s = c :: v ∧ it.Takes fl rule prev c ∧ Globs fl rule p (some c) v

/-! ## Classes -/

variable {c : UInt8} {neg start : Bool} {ms : List ClassMember} {rest : Bytes}

theorem classText_single (a : UInt8) (ms : List ClassMember) :
    classText (.single a :: ms) = a :: classText ms := rfl

theorem classText_range (lo hi : UInt8) (ms : List ClassMember) :
    classText (.range lo hi :: ms) = lo :: 45 :: hi :: classText ms := rfl

theorem MembersOk.free (h : MembersOk false ms) : 93 ∉ classText ms := by
  induction ms with
  | nil => simp [classText]
  | cons m ms ih =>
    cases m with
    | single a =>
      have hrest := ih h.2.2.2
      rw [classText_single, List.mem_cons, not_or]
      exact ⟨Ne.symm (h.1 rfl), hrest⟩
    | range lo hi =>
      have hrest := ih h.2.2
      rw [classText_range]
      simp only [List.mem_cons, not_or]
      exact ⟨Ne.symm (h.1 rfl), by decide, Ne.symm h.2.1, hrest⟩

theorem skipClass_text (h : MembersOk false ms) (rest : Bytes) : skipClass (classTail ms ++ rest) = rest := by
  have hall : ∀ b ∈ classText ms, decide (b ≠ 93) = true := by
    intro b hb
    exact decide_eq_true fun heq => h.free (heq ▸ hb)
  rw [skipClass, classTail, List.append_assoc, List.dropWhile_append_of_pos hall]
  simp

theorem classTail_head (ms : List ClassMember) (rest : Bytes) :
    (classTail ms ++ rest).head? = (classTail ms).head? := by
  rw [List.head?_append_of_ne_nil]
  simp [classTail]

/-- A member reads as it is written. -/
theorem memberAt_text {m : ClassMember} (h : MembersOk start (m :: ms)) (rest : Bytes) :
    ∃ a q, classTail (m :: ms) ++ rest = a :: q ∧ (start = false → a ≠ 93) ∧
      memberAt c a q = some (m.has c, classTail ms ++ rest) := by
  cases m with
  | single a =>
    obtain ⟨hclose, hposix, hdash, -⟩ := h
    refine ⟨a, classTail ms ++ rest, by simp [classTail, classText_single], hclose, ?_⟩
    have hne : classTail ms ++ rest ≠ [] := by simp [classTail]
    unfold memberAt
    rw [classTail_head, if_neg (by simp [hne]; exact hposix)]
    split
    · rename_i hhead
      have hsecond : (classTail ms ++ rest)[1]? = some 93 := by
        rw [List.getElem?_append_left (List.getElem?_eq_some_iff.mp (hdash hhead)).1]
        exact hdash hhead
      rw [hsecond]
      rfl
    · rfl
  | range lo hi =>
    obtain ⟨hclose, hhi, -⟩ := h
    refine ⟨lo, 45 :: hi :: (classTail ms ++ rest), by simp [classTail, classText_range], hclose, ?_⟩
    simp [memberAt, hhi, ClassMember.has]

/-- A class takes the bytes it is to take. -/
theorem classOutcome_text (h : MembersOk start ms) (hms : ms ≠ [] ∨ (neg = false ∧ start = false)) (rest : Bytes) :
    classOutcome neg c start (classTail ms ++ rest) = some (if ms.any (·.has c) = !neg then some rest else none) := by
  induction ms generalizing start with
  | nil =>
    obtain ⟨rfl, rfl⟩ := hms.resolve_left (fun hne => hne rfl)
    rw [show classTail [] ++ rest = 93 :: rest from rfl, classOutcome]
    simp
  | cons m ms ih =>
    obtain ⟨a, q, htext, hclose, hmem⟩ := memberAt_text (c := c) h rest
    have hrest : MembersOk false ms := by
      cases m with
      | single => exact h.2.2.2
      | range => exact h.2.2
    have hopen : ¬(a = 93 ∧ ¬start = true) := fun hbad => hclose (by simpa using hbad.2) hbad.1
    rw [htext, classOutcome_cons hopen hmem, skipClass_text hrest, List.any_cons]
    cases hhas : m.has c with
    | true => cases neg <;> simp
    | false =>
      cases neg with
      | false =>
        simp only [Bool.false_eq_true, if_false, Bool.false_or]
        exact ih hrest (.inr ⟨rfl, rfl⟩)
      | true =>
        have hne : classTail ms ++ rest ≠ [] := by simp [classTail]
        simp only [Bool.false_eq_true, if_false, if_true, if_neg hne, Bool.false_or, classTail_head]
        cases ms with
        | nil => simp [classTail, classText]
        | cons m' ms =>
          have hhead : (classTail (m' :: ms)).head? ≠ some 93 := by
            obtain ⟨a', q', htext', hclose', -⟩ := memberAt_text (c := c) hrest []
            rw [List.append_nil] at htext'
            simpa [htext'] using hclose' rfl
          rw [if_neg hhead]
          exact ih hrest (.inl (by simp))

/-! ## Items -/

/-- An item other than `*` takes the byte `c`, leading periods apart. -/
def GlobItem.plain (fl : FnmFlags) (c : UInt8) : GlobItem → Bool
  | .lit a => a = c
  | .esc a => a = c
  | .any => !fl.slash c
  | .star => false
  | .cls neg ms => !fl.slash c && ms.any (·.has c) == !neg

variable {fl : FnmFlags} {it : GlobItem} {prev : Option UInt8}

/-- An item does with a byte what it is to do. -/
theorem item_text (hok : it.Ok fl) (hstar : it ≠ .star) (rest : Bytes) :
    ∃ a t, it.text ++ rest = a :: t ∧ a ≠ 42 ∧
      (∀ c, itemOutcome fl c a t = some (if it.plain fl c then some rest else none)) ∧
      ∀ c prev e, it.Takes fl ⟨e, false⟩ prev c ↔ it.plain fl c = true ∧ ¬(c = 46 ∧ a ≠ 46 ∧ Leading fl prev) := by
  cases it with
  | lit a =>
    obtain ⟨hstar, hany, hclass, hesc⟩ := hok
    refine ⟨a, rest, rfl, hstar, fun c => ?_, fun c prev e => ?_⟩
    · have hesc' : ¬(a = 92 ∧ ¬fl.noescape = true) := fun hbad => hbad.2 (hesc hbad.1)
      unfold itemOutcome
      rw [if_neg hclass, if_neg hesc', if_neg hany]
      simp [GlobItem.plain]
    · simp only [GlobItem.Takes, GlobItem.plain, decide_eq_true_eq]
      constructor
      · rintro rfl
        exact ⟨rfl, fun hbad => hbad.2.1 hbad.1⟩
      · exact And.left
  | esc b =>
    have hno : fl.noescape = false := hok
    refine ⟨92, b :: rest, rfl, by decide, fun c => ?_, fun c prev e => ?_⟩
    · simp [itemOutcome, hno, GlobItem.plain]
    · simp [GlobItem.Takes, GlobItem.plain]
  | any =>
    refine ⟨63, rest, rfl, by decide, fun c => ?_, fun c prev e => ?_⟩
    · cases hslash : fl.slash c <;> simp [itemOutcome, hslash, GlobItem.plain]
    · simp [GlobItem.Takes, GlobItem.plain]
  | star => exact absurd rfl hstar
  | cls neg ms =>
    obtain ⟨hne, hfirst, hms⟩ := hok
    refine ⟨91, ((if neg then [33] else []) ++ classTail ms) ++ rest, rfl, by decide, fun c => ?_, fun c prev e => ?_⟩
    · cases hslash : fl.slash c with
      | true => simp [itemOutcome, hslash, GlobItem.plain]
      | false =>
        have hopen : ¬fl.slash c = true := by simp [hslash]
        have hout : classOutcome neg c true (classTail ms ++ rest) = _ := classOutcome_text hms (.inl hne) rest
        cases neg with
        | true =>
          rw [if_pos rfl, List.singleton_append, List.cons_append, itemOutcome_class hopen]
          simpa [GlobItem.plain, hslash] using hout
        | false =>
          obtain ⟨a, q, htext, hhead⟩ : ∃ a q, classTail ms ++ rest = a :: q ∧ a ≠ 33 := by
            have hfirst := hfirst rfl
            cases ms with
            | nil => exact absurd rfl hne
            | cons m ms =>
              cases m with
              | single a => exact ⟨a, _, rfl, by simpa [classText_single] using hfirst⟩
              | range lo hi => exact ⟨lo, _, rfl, by simpa [classText_range] using hfirst⟩
          rw [htext] at hout
          simp only [Bool.false_eq_true, if_false, List.nil_append, htext]
          rw [itemOutcome_class hopen]
          simpa [GlobItem.plain, hslash, hhead] using hout
    · simp only [GlobItem.Takes, GlobItem.plain, Bool.and_eq_true, Bool.not_eq_true', beq_iff_eq]
      simp only [ne_eq, show (91 : UInt8) ≠ 46 by decide, not_false_eq_true, true_and]
      tauto

/-! ## Strings -/

/-- The state of the matcher in terms of the byte before the string. -/
structure Aligned (fl : FnmFlags) (st : FnmState) : Prop where
  prev : st.first = true → st.prev = none
  good : st.Good fl

theorem aligned_some (c : UInt8) (p s : Bytes) : Aligned fl ⟨false, some c, p, s⟩ where
  prev h := by cases h
  good _ h := by cases h

theorem blocked_iff {first : Bool} {p s : Bytes} {a : UInt8} (h : Aligned fl ⟨first, prev, p, c :: s⟩) :
    Blocked fl first prev a c ↔ c = 46 ∧ a ≠ 46 ∧ Leading fl prev := by
  unfold Blocked Leading
  refine and_congr_right fun hc => and_congr_right fun _ => and_congr_right fun hperiod => ?_
  refine or_congr_left ?_
  constructor
  · exact h.prev
  · intro hprev
    by_contra hfirst
    exact h.good (by simpa using hfirst) hprev ⟨hperiod, by simp [hc]⟩

theorem not_leading_some (hslash : fl.slash c = false) : ¬Leading fl (some c) := by
  rintro ⟨-, hprev | ⟨hpath, hprev⟩⟩
  · cases hprev
  · cases hprev
    simp [FnmFlags.slash, hpath] at hslash

theorem getLast_or (c : UInt8) (u : Bytes) (prev : Option UInt8) :
    (c :: u).getLast?.or prev = u.getLast?.or (some c) := by
  cases u with
  | nil => rfl
  | cons d u => simp [List.getLast?_cons]

theorem starRun_nil : StarRun fl prev [] := by
  intro u₁ c u₂ hu
  simp at hu

theorem starRun_cons {u : Bytes} : StarRun fl prev (c :: u) ↔
    fl.slash c = false ∧ ¬(c = 46 ∧ Leading fl prev) ∧ StarRun fl (some c) u := by
  constructor
  · intro h
    obtain ⟨hslash, hdot⟩ := h [] c u rfl
    refine ⟨hslash, hdot, fun u₁ d u₂ hu => ?_⟩
    rw [← getLast_or c u₁ prev]
    exact h (c :: u₁) d u₂ (by rw [hu]; rfl)
  · rintro ⟨hslash, hdot, h⟩ u₁ d u₂ hu
    cases u₁ with
    | nil =>
      obtain ⟨rfl, -⟩ := List.cons.inj hu
      exact ⟨hslash, hdot⟩
    | cons c' u₁ =>
      obtain ⟨rfl, hu'⟩ := List.cons.inj hu
      rw [getLast_or]
      exact h u₁ d u₂ hu'

/-- A `*` takes one byte more, or none. -/
theorem globs_star {p : List GlobItem} {s : Bytes} :
    Globs fl ⟨false, false⟩ (.star :: p) prev (c :: s) ↔ ¬(c = 46 ∧ Leading fl prev) ∧
      ((fl.slash c = false ∧ Globs fl ⟨false, false⟩ (.star :: p) (some c) s) ∨
        Globs fl ⟨false, false⟩ p prev (c :: s)) := by
  constructor
  · rintro ⟨u, v, hs, hrun, hempty, hg⟩
    cases u with
    | nil =>
      obtain rfl : c :: s = v := hs
      have hdot : ¬(c = 46 ∧ Leading fl prev) := by simpa using hempty rfl
      exact ⟨hdot, .inr hg⟩
    | cons d u =>
      obtain ⟨rfl, rfl⟩ := List.cons.inj hs
      obtain ⟨hslash, hdot, hrun⟩ := starRun_cons.mp hrun
      rw [getLast_or] at hg
      exact ⟨hdot, .inl ⟨hslash, u, v, rfl, hrun, fun _ => .inr fun hbad => not_leading_some hslash hbad.2, hg⟩⟩
  · rintro ⟨hdot, ⟨hslash, u, v, rfl, hrun, -, hg⟩ | hg⟩
    · refine ⟨c :: u, v, rfl, starRun_cons.mpr ⟨hslash, hdot, hrun⟩, fun hnil => absurd hnil (List.cons_ne_nil c u), ?_⟩
      rwa [getLast_or]
    · exact ⟨[], c :: s, rfl, starRun_nil, fun _ => .inr (by simpa using hdot), hg⟩

theorem globs_star_nil {p : List GlobItem} :
    Globs fl ⟨false, false⟩ (.star :: p) prev [] ↔ Globs fl ⟨false, false⟩ p prev [] := by
  constructor
  · rintro ⟨u, v, hs, -, -, hg⟩
    obtain ⟨rfl, rfl⟩ := List.append_eq_nil_iff.mp hs.symm
    exact hg
  · exact fun hg => ⟨[], [], rfl, starRun_nil, fun _ => .inr (by simp), hg⟩

theorem globs_item {p : List GlobItem} {s : Bytes} {rule : PeriodRule} (hstar : it ≠ .star) :
    Globs fl rule (it :: p) prev s ↔ ∃ c v, s = c :: v ∧ it.Takes fl rule prev c ∧ Globs fl rule p (some c) v := by
  cases it with
  | star => exact absurd rfl hstar
  | _ => rfl

/-- The strings that fit the text of a pattern are those it matches. -/
theorem fits_iff_globs {p : List GlobItem} (hp : ∀ it ∈ p, it.Ok fl) {first : Bool} {s : Bytes}
    (h : Aligned fl ⟨first, prev, globText p, s⟩) :
    Fits fl ⟨first, prev, globText p, s⟩ ↔ Globs fl ⟨false, false⟩ p prev s := by
  induction p generalizing first prev s with
  | nil =>
    cases s with
    | nil => exact iff_of_true (.ended rfl) rfl
    | cons c s =>
      refine iff_of_false (fun hfits => ?_) (List.cons_ne_nil c s)
      cases hfits
  | cons it p ih =>
    obtain ⟨hit, hok⟩ := List.forall_mem_cons.mp hp
    by_cases hstar : it = .star
    · subst hstar
      have htext : globText (.star :: p) = 42 :: globText p := rfl
      rw [htext] at h ⊢
      induction s generalizing first prev with
      | nil =>
        have hnil : Fits fl ⟨first, prev, globText p, []⟩ ↔ _ := ih hok ⟨h.prev, h.good⟩
        rw [globs_star_nil, ← hnil, fits_nil_iff, fits_nil_iff]
        simp
      | cons c s ihs =>
        have hdot : (42 : UInt8) ≠ 46 := by decide
        have hmore : Fits fl ⟨false, some c, 42 :: globText p, s⟩ ↔ Globs fl ⟨false, false⟩ (.star :: p) (some c) s :=
          ihs (aligned_some c ..)
        rw [fits_star_iff, globs_star, blocked_iff h, and_iff_right hdot, hmore]
        refine and_congr_right fun hfree => or_congr_right (ih hok ?_)
        refine ⟨fun hfirst => absurd hfirst (by simp), fun _ hprev hperiod => hfree ?_⟩
        exact ⟨by simpa using hperiod.2, hperiod.1, .inl hprev⟩
    · obtain ⟨a, t, htext, ha, hout, htakes⟩ := item_text hit hstar (globText p)
      have htext' : globText (it :: p) = a :: t := htext
      rw [htext'] at h ⊢
      rw [fits_item_iff ha, globs_item hstar]
      constructor
      · rintro ⟨c, v, q, rfl, hfree, ho, hfits⟩
        rw [hout c] at ho
        split at ho
        · rename_i hplain
          cases ho
          refine ⟨c, v, rfl, (htakes c prev false).mpr ⟨hplain, ?_⟩, (ih hok (aligned_some ..)).mp hfits⟩
          rwa [← blocked_iff h]
        · cases ho
      · rintro ⟨c, v, rfl, htake, hg⟩
        obtain ⟨hplain, hfree⟩ := (htakes c prev false).mp htake
        refine ⟨c, v, globText p, rfl, ?_, ?_, (ih hok (aligned_some ..)).mpr hg⟩
        · rwa [blocked_iff h]
        · rw [hout c, if_pos hplain]

/-! ## Patterns of items are never cut off -/

/-- What is left of the pattern is the text of items. -/
def Itemised (fl : FnmFlags) (st : FnmState) : Prop := ∃ p, (∀ it ∈ p, it.Ok fl) ∧ st.pattern = globText p

variable {st st' : FnmState}

theorem itemised_cons {a : UInt8} {t : Bytes} {p : List GlobItem} (hp : ∀ it ∈ p, it.Ok fl)
    (htext : a :: t = globText p) :
    (∃ p', (∀ it ∈ p', it.Ok fl) ∧ a = 42 ∧ t = globText p') ∨
      ∃ (it : GlobItem) (p' : List GlobItem), (∀ it ∈ p', it.Ok fl) ∧ a ≠ 42 ∧
      ∀ c, itemOutcome fl c a t = some (if it.plain fl c then some (globText p') else none) := by
  cases p with
  | nil => cases htext
  | cons it p =>
    obtain ⟨hit, hok⟩ := List.forall_mem_cons.mp hp
    by_cases hstar : it = .star
    · subst hstar
      obtain ⟨rfl, rfl⟩ := List.cons.inj htext
      exact .inl ⟨p, hok, rfl, rfl⟩
    · obtain ⟨a', t', htext', ha, hout, -⟩ := item_text hit hstar (globText p)
      obtain ⟨rfl, rfl⟩ := List.cons.inj (htext.trans htext')
      exact .inr ⟨it, p, hok, ha, hout⟩

theorem Itemised.next (h : Itemised fl st) (hnext : FnmNext fl st st') : Itemised fl st' := by
  obtain ⟨p, hp, htext⟩ := h
  cases hnext with
  | one _ ha ho =>
    rcases itemised_cons hp htext with ⟨-, -, ha', -⟩ | ⟨it, p', hok, -, hout⟩
    · exact absurd ha' ha
    · rw [hout] at ho
      split at ho
      · cases ho
        exact ⟨p', hok, rfl⟩
      · cases ho
  | more => exact ⟨p, hp, htext⟩
  | skip =>
    rcases itemised_cons hp htext with ⟨p', hok, -, ht⟩ | ⟨-, -, -, ha, -⟩
    · exact ⟨p', hok, ht⟩
    · exact absurd rfl ha

theorem Itemised.not_cutOff (h : Itemised fl st) : ¬CutOff fl st := by
  obtain ⟨p, hp, htext⟩ := h
  rintro ⟨a, t, c, s, hpat, -, -, ha, ho⟩
  rw [hpat] at htext
  rcases itemised_cons hp htext with ⟨-, -, ha', -⟩ | ⟨it, p', -, -, hout⟩
  · exact ha ha'
  · rw [hout] at ho
    cases ho

/-! ## Leading periods -/

theorem getLast_append_or (u v : Bytes) (prev : Option UInt8) :
    (u ++ v).getLast?.or prev = v.getLast?.or (u.getLast?.or prev) := by
  rw [List.getLast?_append, Option.or_assoc]

/-- An escaped period is as good as a plain one where there is none, or no leading period. -/
theorem globs_escaped {p : List GlobItem} {s : Bytes} {e : Bool}
    (hdot : .esc 46 ∉ p ∨ ∀ u v, s = u ++ 46 :: v → ¬Leading fl (u.getLast?.or prev)) :
    Globs fl ⟨e, false⟩ p prev s ↔ Globs fl ⟨e, true⟩ p prev s := by
  induction p generalizing prev s with
  | nil => rfl
  | cons it p ih =>
    by_cases hstar : it = .star
    · subst hstar
      refine exists_congr fun u => exists_congr fun v => and_congr_right fun hs => and_congr_right fun _ =>
        and_congr_right fun _ => ih (hdot.imp ?_ ?_)
      · exact fun hmem hin => hmem (List.mem_cons_of_mem _ hin)
      · rintro hall u' v' rfl
        rw [← getLast_append_or]
        exact hall (u ++ u') v' (by rw [hs, List.append_assoc])
    · rw [globs_item hstar, globs_item hstar]
      refine exists_congr fun c => exists_congr fun v => and_congr_right fun hs => and_congr ?_ (ih (hdot.imp ?_ ?_))
      · cases it with
        | esc a =>
          have hfree : a = c → ¬(c = 46 ∧ Leading fl prev) := by
            rintro rfl ⟨rfl, hlead⟩
            rcases hdot with hmem | hall
            · exact hmem List.mem_cons_self
            · exact hall [] v hs hlead
          simp only [GlobItem.Takes, Bool.false_eq_true, false_or, true_or, and_true]
          exact ⟨And.left, fun ha => ⟨ha, hfree ha⟩⟩
        | _ => rfl
      · exact fun hmem hin => hmem (List.mem_cons_of_mem _ hin)
      · rintro hall u' v' rfl
        rw [← getLast_or c u' prev]
        exact hall (c :: u') v' (by rw [hs]; rfl)

end Dirlist
