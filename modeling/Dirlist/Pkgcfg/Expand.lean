import Dirlist.Lib.Depth
import Dirlist.Pkgcfg.Conf

/-! `pkg_expand` replaces all references of a text at once, and goes round until none is left. Over
definitions that end, that is the recursive expansion of the text. -/

namespace Dirlist
open Run Search

variable {vars : Bytes → Option Bytes} {s t out : Bytes}

/-! ## Replacing -/

/-- One pass over a text: every reference `${name}` becomes the text of its variable. -/
inductive Replaced (vars : Bytes → Option Bytes) : Bytes → Bytes → Prop
  | nil : Replaced vars [] []
  | char {c : UInt8} {s out : Bytes} :
    ¬varOpen <+: c :: s → Replaced vars s out → Replaced vars (c :: s) (c :: out)
  | ref {name s v out : Bytes} :
    125 ∉ name → vars name = some v → Replaced vars s out →
      Replaced vars (varOpen ++ (name ++ 125 :: s)) (v ++ out)

/-- Finitely many passes leave no reference, and the text `r`. A pass meets none that is not closed or
not defined. -/
inductive Dissolves (vars : Bytes → Option Bytes) : Bytes → Bytes → Prop
  | free {s : Bytes} : ¬varOpen <:+: s → Dissolves vars s s
  | pass {s out r : Bytes} : Replaced vars s out → Dissolves vars out r → Dissolves vars s r

/-- A byte that starts no reference goes through. -/
theorem wordexpFrom_char {c : UInt8} (h : ¬varOpen <+: c :: s) (k : Nat) :
    wordexpFrom vars (k + 1) (c :: s) = (wordexpFrom vars (k + 1) s).map (c :: ·) := by
  rw [wordexpFrom, if_neg (List.cons_ne_nil c s), byteFindb_cons h, List.length_cons, wordexpFrom]
  by_cases hs : s = []
  · subst hs
    rfl
  · rw [if_neg hs]
    by_cases hend : byteFindb varOpen s = s.length
    · rw [if_pos (congrArg (· + 1) hend), if_pos hend]
      rfl
    · have hdrop : (c :: s).drop (byteFindb varOpen s + 1 + 2) = s.drop (byteFindb varOpen s + 2) := rfl
      rw [if_neg fun he => hend (Nat.succ.inj he), if_neg hend, hdrop, List.take_succ_cons]
      dsimp only
      generalize s.drop (byteFindb varOpen s + 2) = y
      cases vars (y.take (byteChr 125 y)) with
      | none => rfl
      | some v =>
        by_cases hclosed : byteChr 125 y = y.length
        · simp only [if_pos hclosed]
          rfl
        · simp only [if_neg hclosed]
          cases wordexpFrom vars k (y.drop (byteChr 125 y + 1)) <;> rfl

theorem wordexpFrom_ref {name v : Bytes} (hname : 125 ∉ name) (hv : vars name = some v) (k : Nat) :
    wordexpFrom vars (k + 1) (varOpen ++ (name ++ 125 :: s)) = (wordexpFrom vars k s).map (v ++ ·) := by
  have hfind : byteFindb varOpen (varOpen ++ (name ++ 125 :: s)) = 0 :=
    byteFindb_here (by decide) (List.prefix_append varOpen _)
  have hopen : (varOpen ++ (name ++ 125 :: s)).drop (0 + 2) = name ++ 125 :: s := rfl
  have hlen : name.length ≠ (name ++ 125 :: s).length := by simp
  have hdrop : (name ++ 125 :: s).drop (name.length + 1) = s := by
    rw [← List.drop_drop, List.drop_left]
    rfl
  rw [wordexpFrom, if_neg (by simp [varOpen]), hfind, if_neg (by simp [varOpen]), hopen]
  simp only [byteChr_at hname, List.take_left, hv, if_neg hlen, hdrop]
  cases wordexpFrom vars k s <;> rfl

/-- A pass that comes back from a reference has found it closed and defined. -/
theorem wordexpFrom_open {y : Bytes} {k : Nat}
    (h : wordexpFrom vars (k + 1) (varOpen ++ y) = .ok out) :
    ∃ name v t rest, y = name ++ 125 :: t ∧ 125 ∉ name ∧ vars name = some v ∧
      wordexpFrom vars k t = .ok rest ∧ out = v ++ rest := by
  obtain ⟨name, t, rfl, hname, hend, -⟩ := exists_until 125 y
  have hfree : 125 ∉ name := fun hmem => hname 125 hmem rfl
  rcases hend with rfl | ⟨t, rfl⟩
  · have hfind : byteFindb varOpen (varOpen ++ (name ++ [])) = 0 :=
      byteFindb_here (by decide) (List.prefix_append varOpen _)
    have hopen : (varOpen ++ (name ++ [])).drop (0 + 2) = name := by simp [varOpen]
    rw [wordexpFrom, if_neg (by simp [varOpen]), hfind, if_neg (by simp [varOpen]), hopen] at h
    simp only [byteChr_free hfree, List.take_length] at h
    cases hv : vars name <;> simp [hv] at h
  · cases hv : vars name with
    | none =>
      have hfind : byteFindb varOpen (varOpen ++ (name ++ 125 :: t)) = 0 :=
        byteFindb_here (by decide) (List.prefix_append varOpen _)
      have hopen : (varOpen ++ (name ++ 125 :: t)).drop (0 + 2) = name ++ 125 :: t := rfl
      rw [wordexpFrom, if_neg (by simp [varOpen]), hfind, if_neg (by simp [varOpen]), hopen] at h
      simp [byteChr_at hfree, hv] at h
    | some v =>
      rw [wordexpFrom_ref hfree hv] at h
      cases hrest : wordexpFrom vars k t with
      | error e => simp [hrest, Except.map] at h
      | ok rest =>
        rw [hrest] at h
        cases h
        exact ⟨name, v, t, rest, rfl, hfree, hv, hrest, rfl⟩

theorem Replaced.wordexpFrom_ok (h : Replaced vars s out) {k : Nat} (hk : s.length ≤ k) :
    wordexpFrom vars k s = .ok out := by
  induction h generalizing k with
  | nil => cases k <;> rfl
  | char hpre _ ih =>
    obtain ⟨k, rfl⟩ : ∃ n, k = n + 1 := ⟨k - 1, by simp only [List.length_cons] at hk; omega⟩
    rw [wordexpFrom_char hpre, ih (Nat.le_of_succ_le hk)]
    rfl
  | ref hname hv _ ih =>
    simp only [varOpen, List.length_append, List.length_cons, List.length_nil] at hk
    obtain ⟨k, rfl⟩ : ∃ n, k = n + 1 := ⟨k - 1, by omega⟩
    rw [wordexpFrom_ref hname hv, ih (by omega)]
    rfl

theorem Replaced.of_wordexpFrom {k : Nat} (hk : s.length ≤ k) (h : wordexpFrom vars k s = .ok out) :
    Replaced vars s out := by
  induction hn : s.length using Nat.strongRecOn generalizing s k out with
  | _ n ih =>
    subst hn
    cases s with
    | nil =>
      have hnil : wordexpFrom vars k [] = .ok [] := by cases k <;> rfl
      cases hnil.symm.trans h
      exact .nil
    | cons c s =>
      obtain ⟨k, rfl⟩ : ∃ n, k = n + 1 := ⟨k - 1, by simp only [List.length_cons] at hk; omega⟩
      by_cases hpre : varOpen <+: c :: s
      · obtain ⟨y, hy⟩ := hpre
        rw [← hy] at h hk ih ⊢
        obtain ⟨name, v, t, rest, rfl, hname, hv, hrest, rfl⟩ := wordexpFrom_open h
        simp only [varOpen, List.length_append, List.length_cons, List.length_nil] at hk ih
        exact .ref hname hv (ih t.length (by omega) (by omega) hrest rfl)
      · rw [wordexpFrom_char hpre] at h
        cases hrest : wordexpFrom vars (k + 1) s with
        | error e => simp [hrest, Except.map] at h
        | ok rest =>
          rw [hrest] at h
          cases h
          exact .char hpre (ih s.length (by simp) (Nat.le_of_succ_le hk) hrest rfl)

theorem wordexpSa_iff : wordexpSa vars s = .ok out ↔ Replaced vars s out :=
  ⟨.of_wordexpFrom (Nat.le_refl _), fun h => h.wordexpFrom_ok (Nat.le_refl _)⟩

/-! ## Passes -/

theorem Replaced.eq_of_free (h : Replaced vars s out) (hfree : ¬varOpen <:+: s) : out = s := by
  induction h with
  | nil => rfl
  | char _ _ ih => rw [ih fun hin => hfree (List.infix_cons hin)]
  | ref => exact absurd (List.prefix_append varOpen _).isInfix hfree

theorem Replaced.refl_of_free (hfree : ¬varOpen <:+: s) : Replaced vars s s := by
  induction s with
  | nil => exact .nil
  | cons c s ih =>
    exact .char (fun hpre => hfree hpre.isInfix) (ih fun hin => hfree (List.infix_cons hin))

theorem Dissolves.eq_of_free {r : Bytes} (h : Dissolves vars s r) (hfree : ¬varOpen <:+: s) : r = s := by
  induction h with
  | free => rfl
  | pass hout _ ih =>
    obtain rfl := hout.eq_of_free hfree
    exact ih hfree

theorem expandRound_last {k : Nat} (h : Replaced vars s out) (hfree : ¬varOpen <:+: out) :
    expandRound vars k s = .ok (.inr out) := by
  rw [expandRound, wordexpSa_iff.mpr h, ok_bind, if_pos ((byteFindb_eq_length (by decide)).mpr hfree)]

theorem expandRound_pass {k : Nat} (h : Replaced vars s out) (hopen : varOpen <:+: out) :
    expandRound vars k s = .ok (.inl out) := by
  have hfind : ¬byteFindb varOpen out = out.length :=
    fun heq => (byteFindb_eq_length (by decide)).mp heq hopen
  rw [expandRound, wordexpSa_iff.mpr h, ok_bind, if_neg hfind]

theorem loop_expandRound_iff {r : Bytes} :
    Returns (fun k => loop (expandRound vars) k s) r ↔ Dissolves vars s r := by
  constructor
  · rintro ⟨N, hN⟩
    have hloop := hN N (Nat.le_refl N)
    clear hN
    -- One round fewer is left for the text that a round goes on with.
    induction N generalizing s with
    | zero => cases hloop
    | succ n ih =>
      obtain ⟨x, hx, hloop⟩ := bind_eq_ok hloop
      obtain ⟨out, hout, -⟩ := bind_eq_ok hx
      have hrep := wordexpSa_iff.mp hout
      by_cases hfree : varOpen <:+: out
      · cases (expandRound_pass hrep hfree).symm.trans hx
        exact .pass hrep (ih hloop)
      · cases (expandRound_last hrep hfree).symm.trans hx
        cases hloop
        exact .pass hrep (.free hfree)
  · intro h
    induction h with
    | free hfree =>
      exact returns_loop_done (returns_const (expandRound_last (k := 0) (.refl_of_free hfree) hfree))
    | @pass s out r hrep hrest ih =>
      by_cases hfree : varOpen <:+: out
      · exact returns_loop_next (returns_const (expandRound_pass (k := 0) hrep hfree)) ih
      · obtain rfl := hrest.eq_of_free hfree
        exact returns_loop_done (returns_const (expandRound_last (k := 0) hrep hfree))

/-! ## Clean texts -/

/-- A text where `$` only starts closed references, with the names it refers to. -/
inductive Mentions : Bytes → List Bytes → Prop
  | nil : Mentions [] []
  | char {c : UInt8} {s : Bytes} {names : List Bytes} : c ≠ 36 → Mentions s names → Mentions (c :: s) names
  | ref {name s : Bytes} {names : List Bytes} :
    36 ∉ name → 125 ∉ name → Mentions s names → Mentions (varOpen ++ (name ++ 125 :: s)) (name :: names)

/-- The text with every reference replaced by the full expansion of its variable. -/
inductive Expands (vars : Bytes → Option Bytes) : Bytes → Bytes → Prop
  | nil : Expands vars [] []
  | char {c : UInt8} {s out : Bytes} : c ≠ 36 → Expands vars s out → Expands vars (c :: s) (c :: out)
  | ref {name t s v out : Bytes} :
    36 ∉ name → 125 ∉ name → vars name = some t → Expands vars t v → Expands vars s out →
      Expands vars (varOpen ++ (name ++ 125 :: s)) (v ++ out)

variable {names : List Bytes}

theorem ref_inj {name name' s' : Bytes} (hname : 125 ∉ name) (hname' : 125 ∉ name')
    (h : varOpen ++ (name ++ 125 :: s) = varOpen ++ (name' ++ 125 :: s')) : name = name' ∧ s = s' := by
  have heq := List.append_cancel_left h
  have hlen : name.length = name'.length := by
    rw [← byteChr_at hname s, heq, byteChr_at hname']
  obtain ⟨rfl, hs⟩ := List.append_inj heq hlen
  exact ⟨rfl, (List.cons.inj hs).2⟩

theorem not_open_of_ne {c : UInt8} (hc : c ≠ 36) (s : Bytes) : ¬varOpen <+: c :: s :=
  fun hpre => hc (List.cons_prefix_cons.mp hpre).1.symm

theorem Mentions.unique {names' : List Bytes} (h : Mentions s names) (h' : Mentions s names') :
    names = names' := by
  induction h generalizing names' with
  | nil => cases h'; rfl
  | @char c s names hc _ ih =>
    generalize ht : c :: s = t at h'
    cases h' with
    | nil => cases ht
    | char _ hrest =>
      cases ht
      exact ih hrest
    | ref => exact absurd (List.cons.inj ht).1 hc
  | @ref name s names _ hname _ ih =>
    generalize ht : varOpen ++ (name ++ 125 :: s) = t at h'
    cases h' with
    | nil => cases ht
    | char hc => exact absurd (List.cons.inj ht).1.symm hc
    | ref _ hname' hrest =>
      obtain ⟨rfl, rfl⟩ := ref_inj hname hname' ht
      rw [ih hrest]

theorem Mentions.append {names' : List Bytes} (h : Mentions s names) (h' : Mentions t names') :
    Mentions (s ++ t) (names ++ names') := by
  induction h with
  | nil => exact h'
  | char hc _ ih => exact .char hc ih
  | ref hd hname _ ih =>
    simp only [List.append_assoc, List.cons_append]
    exact .ref hd hname ih

theorem Mentions.free (h : Mentions s []) : 36 ∉ s := by
  generalize hn : ([] : List Bytes) = names at h
  induction h with
  | nil => simp
  | char hc _ ih => simpa [Ne.symm hc] using ih hn
  | ref => cases hn

theorem free_of_dollar (h : 36 ∉ s) : ¬varOpen <:+: s := fun hin => h (hin.subset (by decide))

/-- A clean text without references mentions none. -/
theorem Mentions.nil_of_free (h : Mentions s names) (hfree : ¬varOpen <:+: s) : names = [] := by
  induction h with
  | nil => rfl
  | char _ _ ih => exact ih fun hin => hfree (List.infix_cons hin)
  | ref => exact absurd (List.prefix_append varOpen _).isInfix hfree

/-! ## Full expansion -/

theorem Expands.append {v : Bytes} (h : Expands vars s v) (h' : Expands vars t out) :
    Expands vars (s ++ t) (v ++ out) := by
  induction h with
  | nil => exact h'
  | char hc _ ih => exact .char hc ih
  | ref hd hname hv htext _ _ ih =>
    simp only [List.append_assoc, List.cons_append]
    exact .ref hd hname hv htext ih

theorem Expands.mentions (h : Expands vars s out) : ∃ names, Mentions s names := by
  induction h with
  | nil => exact ⟨[], .nil⟩
  | char hc _ ih =>
    obtain ⟨names, hnames⟩ := ih
    exact ⟨names, .char hc hnames⟩
  | ref hd hname _ _ _ _ ih =>
    obtain ⟨names, hnames⟩ := ih
    exact ⟨_, .ref hd hname hnames⟩

/-- A pass does not change what a text expands to. -/
theorem Expands.pass {r : Bytes} (h : Expands vars s r) (hout : Replaced vars s out) : Expands vars out r := by
  induction h generalizing out with
  | nil => cases hout; exact .nil
  | @char c s r hc _ ih =>
    generalize ht : c :: s = t at hout
    cases hout with
    | nil => cases ht
    | char _ hrest =>
      cases ht
      exact .char hc (ih hrest)
    | ref => exact absurd (List.cons.inj ht).1 hc
  | @ref name t s v r hd hname hv htext _ _ ih =>
    generalize ht : varOpen ++ (name ++ 125 :: s) = u at hout
    cases hout with
    | nil => cases ht
    | char hpre => exact absurd (ht ▸ List.prefix_append varOpen _) hpre
    | ref hname' hv' hrest =>
      obtain ⟨rfl, rfl⟩ := ref_inj hname hname' ht
      obtain rfl := Option.some.inj (hv.symm.trans hv')
      exact htext.append (ih hrest)

theorem Expands.eq_of_free (h : Expands vars s out) (hfree : 36 ∉ s) : out = s := by
  induction h with
  | nil => rfl
  | char _ _ ih => rw [ih fun hmem => hfree (List.mem_cons_of_mem _ hmem)]
  | ref => exact absurd List.mem_cons_self hfree

/-- What the passes end with is the full expansion. -/
theorem Expands.dissolved {r : Bytes} (h : Expands vars s out) (hr : Dissolves vars s r) :
    r = out ∧ 36 ∉ r := by
  induction hr with
  | free hfree =>
    obtain ⟨names, hnames⟩ := h.mentions
    obtain rfl := hnames.nil_of_free hfree
    exact ⟨(h.eq_of_free hnames.free).symm, hnames.free⟩
  | pass hout _ ih => exact ih (h.pass hout)

/-! ## Definitions that end -/

/-- At most so many passes replace all references of a clean text. -/
def Level (vars : Bytes → Option Bytes) : Nat → Bytes → Prop
  | 0, s => Mentions s []
  | d + 1, s => ∃ names, Mentions s names ∧ ∀ name ∈ names, ∃ t, vars name = some t ∧ Level vars d t

theorem Level.succ {d : Nat} (h : Level vars d s) : Level vars (d + 1) s := by
  induction d generalizing s with
  | zero => exact ⟨[], h, by simp⟩
  | succ d ih =>
    obtain ⟨names, hnames, hall⟩ := h
    refine ⟨names, hnames, fun name hname => ?_⟩
    obtain ⟨t, ht, hlevel⟩ := hall name hname
    exact ⟨t, ht, ih hlevel⟩

theorem Level.mono {d e : Nat} (h : Level vars d s) (hde : d ≤ e) : Level vars e s := by
  induction hde with
  | refl => exact h
  | step _ ih => exact ih.succ

theorem Level.append {d : Nat} (h : Level vars d s) (h' : Level vars d t) : Level vars d (s ++ t) := by
  cases d with
  | zero => exact Mentions.append h h'
  | succ d =>
    obtain ⟨names, hnames, hall⟩ := h
    obtain ⟨names', hnames', hall'⟩ := h'
    exact ⟨names ++ names', hnames.append hnames', List.forall_mem_append.mpr ⟨hall, hall'⟩⟩

theorem level_of_mentions_nil (h : Mentions s []) (d : Nat) : Level vars d s :=
  Level.mono (d := 0) h (Nat.zero_le d)

/-- A pass takes a level off. -/
theorem Level.pass {d : Nat} (h : Level vars (d + 1) s) : ∃ out, Replaced vars s out ∧ Level vars d out := by
  obtain ⟨names, hnames, hall⟩ := h
  induction hnames with
  | nil => exact ⟨[], .nil, level_of_mentions_nil .nil d⟩
  | @char c s names hc _ ih =>
    obtain ⟨out, hout, hlevel⟩ := ih hall
    have hbyte : Level vars d [c] := level_of_mentions_nil (.char hc .nil) d
    exact ⟨c :: out, .char (not_open_of_ne hc s) hout, hbyte.append hlevel⟩
  | ref _ hname _ ih =>
    obtain ⟨⟨t, ht, hlevel⟩, hrest⟩ := List.forall_mem_cons.mp hall
    obtain ⟨out, hout, hlevel'⟩ := ih hrest
    exact ⟨t ++ out, .ref hname ht hout, hlevel.append hlevel'⟩

theorem Level.dissolves {d : Nat} (h : Level vars d s) : ∃ r, Dissolves vars s r := by
  induction d generalizing s with
  | zero => exact ⟨s, .free (free_of_dollar (Mentions.free h))⟩
  | succ d ih =>
    obtain ⟨out, hout, hlevel⟩ := h.pass
    obtain ⟨r, hr⟩ := ih hlevel
    exact ⟨r, .pass hout hr⟩

theorem Mentions.expands (h : Mentions s names)
    (hall : ∀ name ∈ names, ∃ t v, vars name = some t ∧ Expands vars t v) : ∃ out, Expands vars s out := by
  induction h with
  | nil => exact ⟨[], .nil⟩
  | char hc _ ih =>
    obtain ⟨out, hout⟩ := ih hall
    exact ⟨_, .char hc hout⟩
  | ref hd hname _ ih =>
    obtain ⟨⟨t, v, ht, hv⟩, hrest⟩ := List.forall_mem_cons.mp hall
    obtain ⟨out, hout⟩ := ih hrest
    exact ⟨_, .ref hd hname ht hv hout⟩

theorem Level.expands {d : Nat} (h : Level vars d s) : ∃ out, Expands vars s out := by
  induction d generalizing s with
  | zero => exact Mentions.expands h (by simp)
  | succ d ih =>
    obtain ⟨names, hnames, hall⟩ := h
    refine hnames.expands fun name hname => ?_
    obtain ⟨t, ht, hlevel⟩ := hall name hname
    obtain ⟨v, hv⟩ := ih hlevel
    exact ⟨t, v, ht, hv⟩

/-- The variable `a` refers to the variable `b`. -/
def Refers (vars : Bytes → Option Bytes) (a b : Bytes) : Prop :=
  ∃ t names, vars a = some t ∧ Mentions t names ∧ b ∈ names

/-- Whatever a variable leads to is defined, and does not lead to itself. -/
def Grounded (vars : Bytes → Option Bytes) (a : Bytes) : Prop :=
  ∀ b, Relation.ReflTransGen (Refers vars) a b → (vars b).isSome ∧ ¬Relation.TransGen (Refers vars) b b

theorem Grounded.next {a b : Bytes} (h : Grounded vars a) (hab : Refers vars a b) : Grounded vars b :=
  fun c hbc => h c (.head hab hbc)

theorem grounded_of_next {a : Bytes} (ha : (vars a).isSome) (h : ∀ b, Refers vars a b → Grounded vars b) :
    Grounded vars a := by
  intro b hab
  rcases Relation.ReflTransGen.cases_head hab with rfl | ⟨c, hac, hcb⟩
  · refine ⟨ha, fun hcycle => ?_⟩
    obtain ⟨c, hac, hca⟩ := Relation.TransGen.head'_iff.mp hcycle
    -- A cycle at `a` is one at what comes behind it too.
    exact (h c hac c .refl).2 (.tail' hca hac)
  · exact h c hac b hcb

/-- A package with finitely many variables whose texts are clean. -/
structure CleanPkg where
  pkg : Pkg
  known : List Bytes
  finite : ∀ name t, pkg.vars name = some t → name ∈ known
  clean : ∀ name t, pkg.vars name = some t ∨ pkg.fields name = some t → ∃ names, Mentions t names

theorem exists_level_all (h : ∀ name ∈ names, ∃ t d, vars name = some t ∧ Level vars d t) :
    ∃ d, ∀ name ∈ names, ∃ t, vars name = some t ∧ Level vars d t := by
  induction names with
  | nil => exact ⟨0, by simp⟩
  | cons name names ih =>
    obtain ⟨⟨t, d, ht, hd⟩, hrest⟩ := List.forall_mem_cons.mp h
    obtain ⟨e, he⟩ := ih hrest
    refine ⟨max d e, List.forall_mem_cons.mpr ⟨⟨t, ht, hd.mono (le_max_left d e)⟩, fun m hm => ?_⟩⟩
    obtain ⟨t', ht', hlevel⟩ := he m hm
    exact ⟨t', ht', hlevel.mono (le_max_right d e)⟩

variable (p : CleanPkg)

theorem CleanPkg.acc {name : Bytes} (h : Grounded p.pkg.vars name) :
    Acc (fun b a => Refers p.pkg.vars a b ∧ (p.pkg.vars b).isSome) name := by
  have hknown (a b : Bytes) (hab : Refers p.pkg.vars a b ∧ (p.pkg.vars b).isSome) : b ∈ p.known := by
    obtain ⟨t, ht⟩ := Option.isSome_iff_exists.mp hab.2
    exact p.finite b t ht
  refine acc_of_acyclic hknown fun u hu hcycle => ?_
  exact (h u (hu.lift id fun _ _ hab => hab.1)).2 (hcycle.lift id fun _ _ hab => hab.1)

theorem CleanPkg.exists_level {name : Bytes} (h : Grounded p.pkg.vars name) :
    ∃ t d, p.pkg.vars name = some t ∧ Level p.pkg.vars d t := by
  induction p.acc h with
  | intro name _ ih =>
    obtain ⟨t, ht⟩ := Option.isSome_iff_exists.mp (h name .refl).1
    obtain ⟨names, hnames⟩ := p.clean name t (.inl ht)
    have hnext (m : Bytes) (hm : m ∈ names) : Refers p.pkg.vars name m := ⟨t, names, ht, hnames, hm⟩
    obtain ⟨d, hd⟩ := exists_level_all fun m hm =>
      ih m ⟨hnext m hm, (h m (.single (hnext m hm))).1⟩ (h.next (hnext m hm))
    exact ⟨t, d + 1, ht, names, hnames, hd⟩

theorem CleanPkg.level_of_grounded (hs : Mentions s names) (h : ∀ name ∈ names, Grounded p.pkg.vars name) :
    ∃ d, Level p.pkg.vars d s := by
  obtain ⟨d, hd⟩ := exists_level_all fun name hname => p.exists_level (h name hname)
  exact ⟨d + 1, names, hs, hd⟩

/-- Behind a pass stand the texts of all the variables a clean text refers to. -/
theorem CleanPkg.pass (hs : Mentions s names) (hout : Replaced p.pkg.vars s out) :
    ∃ names', Mentions out names' ∧ ∀ name ∈ names, (p.pkg.vars name).isSome ∧
      ∀ m, Refers p.pkg.vars name m → m ∈ names' := by
  induction hs generalizing out with
  | nil => cases hout; exact ⟨[], .nil, by simp⟩
  | @char c s names hc _ ih =>
    generalize ht : c :: s = t at hout
    cases hout with
    | nil => cases ht
    | char _ hrest =>
      cases ht
      obtain ⟨names', hnames', hall⟩ := ih hrest
      exact ⟨names', .char hc hnames', hall⟩
    | ref => exact absurd (List.cons.inj ht).1 hc
  | @ref name s names _ hname _ ih =>
    generalize ht : varOpen ++ (name ++ 125 :: s) = t at hout
    cases hout with
    | nil => cases ht
    | char hpre => exact absurd (ht ▸ List.prefix_append varOpen _) hpre
    | @ref _ _ v _ hname' hv hrest =>
      obtain ⟨rfl, rfl⟩ := ref_inj hname hname' ht
      obtain ⟨names', hnames', hall⟩ := ih hrest
      obtain ⟨ns, hns⟩ := p.clean name v (.inl hv)
      refine ⟨ns ++ names', hns.append hnames', List.forall_mem_cons.mpr ⟨⟨by simp [hv], ?_⟩, ?_⟩⟩
      · rintro m ⟨t, ms, ht, hms, hm⟩
        obtain rfl := Option.some.inj (hv.symm.trans ht)
        obtain rfl := hns.unique hms
        exact List.mem_append_left _ hm
      · exact fun n hn => ⟨(hall n hn).1, fun m hm => List.mem_append_right _ ((hall n hn).2 m hm)⟩

/-- A clean text dissolves just when what it refers to is grounded. -/
theorem CleanPkg.dissolves_iff (hs : Mentions s names) :
    (∃ r, Dissolves p.pkg.vars s r) ↔ ∀ name ∈ names, Grounded p.pkg.vars name := by
  constructor
  · rintro ⟨r, hr⟩
    induction hr generalizing names with
    | free hfree =>
      obtain rfl := hs.nil_of_free hfree
      simp
    | pass hout _ ih =>
      obtain ⟨names', hnames', hall⟩ := p.pass hs hout
      intro name hname
      exact grounded_of_next (hall name hname).1 fun m hm => ih hnames' m ((hall name hname).2 m hm)
  · intro h
    obtain ⟨d, hd⟩ := p.level_of_grounded hs h
    exact hd.dissolves

/-! ## Two variables -/

/-- The variables `y`, which is `a${x}`, and `x`. -/
def pairVars (x name : Bytes) : Option Bytes :=
  if name = [121] then some [97, 36, 123, 120, 125] else if name = [120] then some x else none

theorem mentions_y : Mentions [97, 36, 123, 120, 125] [[120]] :=
  .char (by decide) (@Mentions.ref [120] [] [] (by decide) (by decide) .nil)

theorem mentions_b : Mentions [98] [] := .char (by decide) .nil

/-- `${y}` -/
theorem mentions_ref : Mentions [36, 123, 121, 125] [[121]] :=
  @Mentions.ref [121] [] [] (by decide) (by decide) .nil

def pairPkg (x : Bytes) (names : List Bytes) (hx : Mentions x names) : CleanPkg where
  pkg := ⟨[112], pairVars x, fun _ => none⟩
  known := [[121], [120]]
  finite name t h := by
    simp only [pairVars] at h
    split_ifs at h <;> simp_all
  clean name t h := by
    simp only [pairVars, reduceCtorEq, or_false] at h
    split_ifs at h
    · cases h
      exact ⟨_, mentions_y⟩
    · cases h
      exact ⟨names, hx⟩

theorem refers_pair {x a b : Bytes} {names : List Bytes} (hx : Mentions x names)
    (h : Refers (pairVars x) a b) : a = [121] ∧ b = [120] ∨ a = [120] ∧ b ∈ names := by
  obtain ⟨t, ns, ht, hns, hb⟩ := h
  simp only [pairVars] at ht
  split_ifs at ht with h₁ h₂
  · cases ht
    obtain rfl := hns.unique mentions_y
    exact .inl ⟨h₁, List.mem_singleton.mp hb⟩
  · cases ht
    obtain rfl := hns.unique hx
    exact .inr ⟨h₂, hb⟩

/-! ## What `pkg_expand` leaves -/

theorem pkgExpand_some {pf : Pkg} {key : Bytes} (hs : pkgGet pf key = some s) {r : Bytes} :
    Returns (fun k => pkgExpand k pf key) r ↔ Dissolves pf.vars s r := by
  simp only [pkgExpand, hs]
  exact loop_expandRound_iff

theorem CleanPkg.get {key : Bytes} (hs : pkgGet p.pkg key = some s) : ∃ names, Mentions s names := by
  rw [pkgGet] at hs
  split at hs
  · exact p.clean key s (.inr hs)
  · exact p.clean key s (.inl hs)

/-- Without cycles and unknown names, what is left is the full expansion. -/
theorem pkgExpand_full
    (hdef : ∀ key t names, p.pkg.vars key = some t ∨ p.pkg.fields key = some t → Mentions t names →
      ∀ name ∈ names, (p.pkg.vars name).isSome)
    (hacyclic : ∀ name, ¬Relation.TransGen (Refers p.pkg.vars) name name) {key : Bytes}
    (hs : pkgGet p.pkg key = some s) :
    ∃ out, (∀ v, Expands p.pkg.vars s v ↔ v = out) ∧ Returns (fun k => pkgExpand k p.pkg key) out ∧
      ¬varOpen <:+: out := by
  obtain ⟨names, hnames⟩ := p.get hs
  have hmem : ∀ name ∈ names, (p.pkg.vars name).isSome := by
    rw [pkgGet] at hs
    split at hs
    · exact hdef key s names (.inr hs) hnames
    · exact hdef key s names (.inl hs) hnames
  have hgrounded : ∀ name ∈ names, Grounded p.pkg.vars name := by
    intro name hname b hb
    refine ⟨?_, hacyclic b⟩
    rcases Relation.ReflTransGen.cases_tail hb with rfl | ⟨c, -, t, ns, ht, hns, hb⟩
    · exact hmem b hname
    · exact hdef c t ns (.inl ht) hns b hb
  obtain ⟨d, hd⟩ := p.level_of_grounded hnames hgrounded
  obtain ⟨r, hr⟩ := hd.dissolves
  obtain ⟨out, hout⟩ := hd.expands
  obtain ⟨rfl, hfree⟩ := hout.dissolved hr
  refine ⟨r, fun v => ⟨fun hv => ?_, ?_⟩, (pkgExpand_some hs).mpr hr, free_of_dollar hfree⟩
  · exact (hv.dissolved hr).1.symm
  · rintro rfl
    exact hout

/-- With `b` for `x`, the variable `y` becomes `ab`. -/
theorem pkgExpand_full_pair : ∃ out,
    (∀ v, Expands (pairVars [98]) [97, 36, 123, 120, 125] v ↔ v = out) ∧
      Returns (fun k => pkgExpand k (pairPkg [98] [] mentions_b).pkg [121]) out ∧ ¬varOpen <:+: out := by
  have hedge {a b : Bytes} (h : Refers (pairVars [98]) a b) : a = [121] ∧ b = [120] := by
    simpa using refers_pair mentions_b h
  refine pkgExpand_full (pairPkg [98] [] mentions_b) ?_ ?_ rfl
  · intro key t names ht hnames name hname
    have htext : pairVars [98] key = some t := by simpa [pairPkg] using ht
    obtain ⟨-, rfl⟩ := hedge ⟨t, names, htext, hnames, hname⟩
    rfl
  · intro name hcycle
    obtain ⟨b, hab, hba⟩ := Relation.TransGen.head'_iff.mp hcycle
    obtain ⟨rfl, rfl⟩ := hedge hab
    rcases Relation.ReflTransGen.cases_head hba with h | ⟨c, hc, -⟩
    · cases h
    · cases (hedge hc).1

/-- `pkg_expand` comes back just when passes over the text of the field dissolve it. For a clean package
these do so just when all that the text leads to is defined and does not lead to itself. -/
theorem pkgExpand_returns_iff (pf : Pkg) (key : Bytes) :
    ((∃ out, Returns (fun k => pkgExpand k pf key) out) ↔
      ∀ s, pkgGet pf key = some s → ∃ r, Dissolves pf.vars s r) ∧
    ∀ p : CleanPkg, p.pkg = pf → ∀ s names, pkgGet pf key = some s → Mentions s names →
      ((∃ out, Returns (fun k => pkgExpand k pf key) out) ↔ ∀ name ∈ names, Grounded pf.vars name) := by
  constructor
  · cases hs : pkgGet pf key with
    | none =>
      have hnone : Returns (fun k => pkgExpand k pf key) [] := by
        simp only [pkgExpand, hs]
        exact returns_ok []
      simpa using ⟨[], hnone⟩
    | some s => simp [pkgExpand_some hs]
  · rintro p rfl s names hs hnames
    simp only [pkgExpand_some hs]
    exact p.dissolves_iff hnames

/-- With `${y}` for `x`, the two variables lead to each other. -/
theorem not_grounded_pair : ¬Grounded (pairVars [36, 123, 121, 125]) [121] := by
  intro h
  have hyx : Refers (pairVars [36, 123, 121, 125]) [121] [120] := ⟨_, _, rfl, mentions_y, by simp⟩
  have hxy : Refers (pairVars [36, 123, 121, 125]) [120] [121] := ⟨_, _, rfl, mentions_ref, by simp⟩
  exact (h [121] .refl).2 (.tail (.single hyx) hxy)

/-- The package of the two never comes back, by the condition. -/
theorem pkgExpand_returns_iff_pair :
    ¬∃ out, Returns (fun k => pkgExpand k (pairPkg _ _ mentions_ref).pkg [121]) out := by
  rw [(pkgExpand_returns_iff _ [121]).2 (pairPkg _ _ mentions_ref) rfl _ _ rfl mentions_y]
  intro h
  have hback : Refers (pairVars [36, 123, 121, 125]) [120] [121] := ⟨_, _, rfl, mentions_ref, by simp⟩
  exact not_grounded_pair ((h [120] (by simp)).next hback)

/-- Two variables that lead to each other are expanded without end. -/
theorem pkgExpand_cycle : ¬∀ (pf : Pkg) (key : Bytes), ∃ out, Returns (fun k => pkgExpand k pf key) out := by
  intro h
  obtain ⟨out, hout⟩ := h (pairPkg _ _ mentions_ref).pkg [120]
  have hr : ∃ r, Dissolves (pairVars [36, 123, 121, 125]) [36, 123, 121, 125] r :=
    ⟨out, (pkgExpand_some rfl).mp hout⟩
  have hgrounded := ((pairPkg _ _ mentions_ref).dissolves_iff mentions_ref).mp hr
  exact not_grounded_pair (hgrounded [121] (by simp))

end Dirlist
