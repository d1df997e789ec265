import Dirlist.Path.Defs

/-! A path as its components with the number of separators behind each, and what becomes of
them when every component that stands right before a `..` is taken out together with it. -/

namespace Dirlist

structure Token where
  name : Bytes
  seps : Nat
deriving DecidableEq, Repr

def Token.spell (t : Token) : Bytes := t.name ++ List.replicate t.seps pathSep

def spell (ts : List Token) : Bytes := ts.flatMap Token.spell

def names (ts : List Token) : List Bytes := ts.map Token.name

/-- The separators in front, and the tokens. -/
def pathLex : Bytes → Nat × List Token
  | [] => (0, [])
  | c :: s =>
    let (k, ts) := pathLex s
    if c = pathSep then (k + 1, ts)
    else if k = 0 then
      match ts with
      | [] => (0, [⟨[c], 0⟩])
      | t :: ts => (0, ⟨c :: t.name, t.seps⟩ :: ts)
    else (0, ⟨[c], k⟩ :: ts)

/-- Components of a C string, with separators between them. -/
structure WellSpelled (ts : List Token) : Prop where
  name : ∀ t ∈ ts, IsComponent t.name ∧ 0 ∉ t.name
  seps : ∀ t ∈ ts.dropLast, 1 ≤ t.seps

variable {s : Bytes} {t : Token} {ts us below : List Token} {lead : Nat}

@[simp] theorem spell_nil : spell [] = [] := rfl

@[simp] theorem spell_cons (t : Token) (ts : List Token) : spell (t :: ts) = t.spell ++ spell ts := by
  simp [spell]

@[simp] theorem spell_append (ts us : List Token) : spell (ts ++ us) = spell ts ++ spell us :=
  List.flatMap_append

theorem spell_pathLex (s : Bytes) : List.replicate (pathLex s).1 pathSep ++ spell (pathLex s).2 = s := by
  induction s with
  | nil => rfl
  | cons c s ih =>
    rw [pathLex]
    generalize pathLex s = kts at ih ⊢
    obtain ⟨k, ts⟩ := kts
    by_cases hc : c = pathSep
    · simp only [hc, if_true, List.replicate_succ, List.cons_append]
      rw [ih]
    · simp only [hc, if_false]
      by_cases hk : k = 0
      · subst hk
        cases ts with
        | nil => simpa [Token.spell] using ih
        | cons t ts => simpa [Token.spell] using ih
      · simp only [hk, if_false]
        simpa [Token.spell] using ih

theorem wellSpelled_pathLex (h0 : 0 ∉ s) : WellSpelled (pathLex s).2 := by
  induction s with
  | nil => exact ⟨by simp [pathLex], by simp [pathLex]⟩
  | cons c s ih =>
    obtain ⟨hc0, hs0⟩ : 0 ≠ c ∧ 0 ∉ s := by simpa using h0
    have hrest := ih hs0
    rw [pathLex]
    generalize pathLex s = kts at hrest ⊢
    obtain ⟨k, ts⟩ := kts
    by_cases hc : c = pathSep
    · simpa only [hc, if_true] using hrest
    · simp only [hc, if_false]
      have hsingle : IsComponent [c] ∧ 0 ∉ [c] := by
        refine ⟨⟨List.cons_ne_nil _ _, ?_⟩, ?_⟩
        · simpa using Ne.symm hc
        · simpa using hc0
      by_cases hk : k = 0
      · simp only [hk, if_true]
        cases ts with
        | nil => exact ⟨by simpa using hsingle, by simp⟩
        | cons t ts =>
          have ht := hrest.name t List.mem_cons_self
          have hseps := hrest.seps
          refine ⟨?_, ?_⟩
          · intro u hu
            rcases List.mem_cons.mp hu with rfl | hu
            · refine ⟨⟨List.cons_ne_nil _ _, ?_⟩, ?_⟩
              · simpa [Ne.symm hc] using ht.1.2
              · simpa [hc0] using ht.2
            · exact hrest.name u (List.mem_cons_of_mem _ hu)
          · cases ts with
            | nil => simp
            | cons u ts => simpa using hseps
      · simp only [hk, if_false]
        refine ⟨?_, ?_⟩
        · intro u hu
          rcases List.mem_cons.mp hu with rfl | hu
          · exact hsingle
          · exact hrest.name u hu
        · cases ts with
          | nil => simp
          | cons u ts =>
            have hseps := hrest.seps
            rw [List.dropLast_cons_cons]
            intro v hv
            rcases List.mem_cons.mp hv with rfl | hv
            · exact Nat.one_le_iff_ne_zero.mpr hk
            · exact hseps v hv

theorem components_replicate (k : Nat) (s : Bytes) :
    components (List.replicate k pathSep ++ s) = components s := by
  induction k with
  | zero => rfl
  | succ k ih => rw [List.replicate_succ, List.cons_append, components_sep, ih]

theorem WellSpelled.tail (h : WellSpelled (t :: ts)) : WellSpelled ts := by
  refine ⟨fun u hu => h.name u (List.mem_cons_of_mem _ hu), ?_⟩
  cases ts with
  | nil => simp
  | cons u ts =>
    have hseps := h.seps
    rw [List.dropLast_cons_cons] at hseps
    exact fun v hv => hseps v (List.mem_cons_of_mem _ hv)

theorem WellSpelled.of_append (h : WellSpelled (us ++ ts)) : WellSpelled ts := by
  induction us with
  | nil => exact h
  | cons u us ih => exact ih h.tail

/-- Only the last component can do without a separator. -/
theorem WellSpelled.eq_nil_of_seps (pre : List Token) {d : Token} (h : WellSpelled (pre ++ d :: ts))
    (hd : d.seps = 0) : ts = [] := by
  by_contra hne
  have hmem : d ∈ (pre ++ d :: ts).dropLast := by
    rw [List.dropLast_append_of_ne_nil (List.cons_ne_nil _ _), List.dropLast_cons_of_ne_nil hne]
    simp
  have := h.seps d hmem
  omega

theorem components_spell (h : WellSpelled ts) : components (spell ts) = names ts := by
  induction ts with
  | nil => rfl
  | cons t ts ih =>
    have ht := (h.name t List.mem_cons_self).1
    rw [spell_cons, Token.spell, names, List.map_cons, ← names, ← ih h.tail]
    cases hk : t.seps with
    | zero =>
      have hnil := h.eq_nil_of_seps [] hk
      simp [hnil, components_of_isComponent ht]
    | succ k =>
      rw [List.replicate_succ, List.append_assoc, List.cons_append, components_append,
        components_replicate, components_of_isComponent ht]
      rfl

/-! ## Lexical resolution -/

/-- A component goes on top, or takes a name away with it. -/
def pushUp (stack : List Bytes) (x : Bytes) : List Bytes :=
  match stack with
  | [] => [x]
  | y :: stack' => if x = upName ∧ y ≠ upName then stack' else x :: stack

/-- What is left of the components, the last one first. -/
def resolution (cs : List Bytes) : List Bytes := cs.foldl pushUp []

/-- Levels down less levels up. -/
def height (cs : List Bytes) : Int := (cs.map fun x => if x = upName then (-1 : Int) else 1).sum

theorem pushUp_name {x : Bytes} (hx : x ≠ upName) (stack : List Bytes) : pushUp stack x = x :: stack := by
  cases stack with
  | nil => rfl
  | cons y stack => simp [pushUp, hx]

/-- Taking out a name with the `..` behind it changes nothing. -/
theorem resolution_cancel {x : Bytes} (hx : x ≠ upName) (cs ds : List Bytes) :
    resolution (cs ++ x :: upName :: ds) = resolution (cs ++ ds) := by
  have hpair (stack : List Bytes) : pushUp (pushUp stack x) upName = stack := by
    rw [pushUp_name hx]
    simp [pushUp, hx]
  simp only [resolution, List.foldl_append, List.foldl_cons, hpair]

@[simp] theorem height_nil : height [] = 0 := rfl

@[simp] theorem height_cons (x : Bytes) (cs : List Bytes) :
    height (x :: cs) = (if x = upName then -1 else 1) + height cs := by
  simp [height]

@[simp] theorem height_append (cs ds : List Bytes) : height (cs ++ ds) = height cs + height ds := by
  simp [height]

theorem height_pushUp (stack : List Bytes) (x : Bytes) :
    height (pushUp stack x) = height stack + if x = upName then -1 else 1 := by
  cases stack with
  | nil => simp [pushUp]
  | cons y stack =>
    rw [pushUp]
    by_cases hx : x = upName
    · by_cases hy : y = upName
      · simp only [hx, hy, ne_eq, not_true_eq_false, and_false, if_false, height_cons, if_true]
        omega
      · simp only [hx, hy, ne_eq, not_false_eq_true, and_self, if_true, height_cons, if_false]
        omega
    · simp only [hx, false_and, if_false, height_cons]
      omega

theorem height_resolution (cs : List Bytes) : height (resolution cs) = height cs := by
  have hall (cs stack : List Bytes) : height (cs.foldl pushUp stack) = height stack + height cs := by
    induction cs generalizing stack with
    | nil => simp
    | cons x cs ih =>
      rw [List.foldl_cons, ih, height_pushUp, height_cons, Int.add_assoc]
  rw [resolution, hall, height_nil, Int.zero_add]

/-! ## Taking components out -/

/-- The token before a component that is taken out together with `d`. -/
def Token.merge (p d : Token) : Token := ⟨p.name, p.seps + d.seps - 1⟩

/-- The tokens already passed, the last one first, and those ahead. A component with one
separator behind it and `..` ahead goes, with that separator and the one behind the `..`; the
separator before it stands for both. The first component has none to spare, unless
the path ends there and begins with a separator. -/
def collapseTokens (lead : Nat) : List Token → List Token → Option (Nat × List Token)
  | passed, [] => some (lead, passed.reverse)
  | [], t :: ts => collapseTokens lead [t] ts
  | c :: below, d :: ts =>
    if c.seps = 1 ∧ d.name = upName then
      match below with
      | [] => if d.seps = 0 ∧ 1 ≤ lead then some (lead - 1, []) else none
      | p :: below => collapseTokens lead (p.merge d :: below) ts
    else collapseTokens lead (d :: c :: below) ts

/-- What is taken out is never a `..`, and never the first component left, unless the path
ends there and begins with two separators. -/
def CollapsesWell (lead : Nat) : List Token → List Token → Prop
  | _, [] => True
  | [], t :: ts => CollapsesWell lead [t] ts
  | c :: below, d :: ts =>
    if c.seps = 1 ∧ d.name = upName then
      c.name ≠ upName ∧
      match below with
      | [] => d.seps = 0 ∧ 2 ≤ lead
      | p :: below => CollapsesWell lead (p.merge d :: below) ts
    else CollapsesWell lead (d :: c :: below) ts

section
variable {p c d : Token}

theorem collapseTokens_shift (h : ¬(c.seps = 1 ∧ d.name = upName)) :
    collapseTokens lead (c :: below) (d :: ts) = collapseTokens lead (d :: c :: below) ts := by
  cases below <;> rw [collapseTokens, if_neg h]

theorem collapseTokens_first (h : c.seps = 1 ∧ d.name = upName) : collapseTokens lead [c] (d :: ts) =
    if d.seps = 0 ∧ 1 ≤ lead then some (lead - 1, []) else none := by
  rw [collapseTokens, if_pos h]

theorem collapseTokens_merge (h : c.seps = 1 ∧ d.name = upName) :
    collapseTokens lead (c :: p :: below) (d :: ts) = collapseTokens lead (p.merge d :: below) ts := by
  rw [collapseTokens, if_pos h]

theorem collapsesWell_shift (h : ¬(c.seps = 1 ∧ d.name = upName)) :
    CollapsesWell lead (c :: below) (d :: ts) ↔ CollapsesWell lead (d :: c :: below) ts := by
  cases below <;> rw [CollapsesWell, if_neg h]

theorem collapsesWell_first (h : c.seps = 1 ∧ d.name = upName) : CollapsesWell lead [c] (d :: ts) ↔
    c.name ≠ upName ∧ d.seps = 0 ∧ 2 ≤ lead := by
  rw [CollapsesWell, if_pos h]

theorem collapsesWell_merge (h : c.seps = 1 ∧ d.name = upName) :
    CollapsesWell lead (c :: p :: below) (d :: ts) ↔
      c.name ≠ upName ∧ CollapsesWell lead (p.merge d :: below) ts := by
  rw [CollapsesWell, if_pos h]

end

theorem WellSpelled.merge {pre : List Token} {p c d : Token}
    (h : WellSpelled (pre ++ p :: c :: d :: ts)) : WellSpelled (pre ++ p.merge d :: ts) := by
  have hp := h.name p (by simp)
  refine ⟨fun u hu => ?_, fun u hu => ?_⟩
  · rw [List.mem_append, List.mem_cons] at hu
    rcases hu with hu | rfl | hu
    · exact h.name u (by simp [hu])
    · exact hp
    · exact h.name u (by simp [hu])
  · have hseps := h.seps
    rw [List.dropLast_append_of_ne_nil (List.cons_ne_nil _ _), List.dropLast_cons_cons,
      List.dropLast_cons_cons] at hseps
    rw [List.dropLast_append_of_ne_nil (List.cons_ne_nil _ _)] at hu
    cases ts with
    | nil =>
      rw [List.dropLast_singleton, List.append_nil] at hu
      exact hseps u (by simp [hu])
    | cons t ts =>
      rw [List.dropLast_cons_cons] at hseps hu
      rw [List.mem_append, List.mem_cons] at hu
      rcases hu with hu | rfl | hu
      · exact hseps u (by simp [hu])
      · have hpseps := hseps p (by simp)
        have hdseps := hseps d (by simp)
        exact Nat.le_sub_one_of_lt (by omega)
      · exact hseps u (by simp [hu])

/-- What holds of any run that gets through. -/
theorem collapseTokens_spec (passed : List Token) {lead' : Nat} (h : WellSpelled (passed.reverse ++ ts))
    (hsome : collapseTokens lead passed ts = some (lead', us)) :
    WellSpelled us ∧ height (names (passed.reverse ++ ts)) ≤ height (names us) ∧
      lead' + (spell us).length ≤ lead + (spell (passed.reverse ++ ts)).length := by
  induction ts generalizing passed with
  | nil =>
    rw [collapseTokens] at hsome
    obtain ⟨rfl, rfl⟩ := Prod.mk.inj (Option.some.inj hsome)
    rw [List.append_nil] at h ⊢
    exact ⟨h, Int.le_refl _, Nat.le_refl _⟩
  | cons d ts ih =>
    cases passed with
    | nil =>
      rw [collapseTokens] at hsome
      exact ih _ (by simpa using h) hsome
    | cons c below =>
      have hmove : (c :: below).reverse ++ d :: ts = (d :: c :: below).reverse ++ ts := by simp
      by_cases hup : c.seps = 1 ∧ d.name = upName
      · cases below with
        | nil =>
          rw [collapseTokens_first hup] at hsome
          split at hsome
          · next hend =>
            obtain ⟨rfl, rfl⟩ := Prod.mk.inj (Option.some.inj hsome)
            have hts := h.eq_nil_of_seps [c] hend.1
            refine ⟨⟨by simp, by simp⟩, ?_, ?_⟩
            · simp [names, hts, hup.2]
              split <;> omega
            · simp
              omega
          · cases hsome
        | cons p below =>
          rw [collapseTokens_merge hup] at hsome
          have hlist : (c :: p :: below).reverse ++ d :: ts = below.reverse ++ p :: c :: d :: ts := by simp
          have hlist' : (p.merge d :: below).reverse ++ ts = below.reverse ++ p.merge d :: ts := by simp
          rw [hlist] at h ⊢
          have hih := ih (p.merge d :: below) (hlist' ▸ h.merge) hsome
          rw [hlist'] at hih
          refine ⟨hih.1, Int.le_trans ?_ hih.2.1, Nat.le_trans hih.2.2 ?_⟩
          · simp [names, Token.merge, hup.2]
            split <;> omega
          · simp [Token.spell, Token.merge]
            omega
      · rw [collapseTokens_shift hup] at hsome
        rw [hmove] at h ⊢
        exact ih _ h hsome

/-- Where everything taken out is a name with something before it, the resolution stays. -/
theorem CollapsesWell.collapses (passed : List Token) (h : WellSpelled (passed.reverse ++ ts))
    (hwell : CollapsesWell lead passed ts) : ∃ lead' us,
      collapseTokens lead passed ts = some (lead', us) ∧
      resolution (names us) = resolution (names (passed.reverse ++ ts)) ∧ (0 < lead' ↔ 0 < lead) := by
  induction ts generalizing passed with
  | nil => exact ⟨lead, passed.reverse, by rw [collapseTokens], by simp, Iff.rfl⟩
  | cons d ts ih =>
    cases passed with
    | nil =>
      rw [CollapsesWell] at hwell
      rw [collapseTokens]
      exact ih _ (by simpa using h) hwell
    | cons c below =>
      have hmove : (c :: below).reverse ++ d :: ts = (d :: c :: below).reverse ++ ts := by simp
      by_cases hup : c.seps = 1 ∧ d.name = upName
      · cases below with
        | nil =>
          obtain ⟨hname, hend, hlead⟩ := (collapsesWell_first hup).mp hwell
          have hts := h.eq_nil_of_seps [c] hend
          have hres := resolution_cancel hname [] []
          refine ⟨lead - 1, [], ?_, ?_, by omega⟩
          · rw [collapseTokens_first hup, if_pos ⟨hend, by omega⟩]
          · simpa [names, hts, hup.2] using hres.symm
        | cons p below =>
          obtain ⟨hname, hwell'⟩ := (collapsesWell_merge hup).mp hwell
          have hlist : (c :: p :: below).reverse ++ d :: ts = below.reverse ++ p :: c :: d :: ts := by simp
          have hlist' : (p.merge d :: below).reverse ++ ts = below.reverse ++ p.merge d :: ts := by simp
          rw [hlist] at h ⊢
          obtain ⟨lead', us, hsome, hres, hlead⟩ := ih _ (hlist' ▸ h.merge) hwell'
          refine ⟨lead', us, by rw [collapseTokens_merge hup, hsome], ?_, hlead⟩
          have hcancel := resolution_cancel hname (names (below.reverse ++ [p])) (names ts)
          rw [hres, hlist']
          simpa [names, hup.2, Token.merge] using hcancel.symm
      · rw [collapsesWell_shift hup] at hwell
        rw [collapseTokens_shift hup, hmove]
        exact ih _ (hmove ▸ h) hwell

theorem height_names_merge {p c d : Token} (hd : d.name = upName) (hc : c.name ≠ upName)
    (below ts : List Token) :
    height (names (below ++ p :: c :: d :: ts)) = height (names (below ++ p.merge d :: ts)) := by
  simp only [names, List.map_append, List.map_cons, height_append, height_cons, hd, if_neg hc, Token.merge,
    if_true]
  omega

/-- If the resolution stays, and the path absolute, everything taken out was a name with
something before it: otherwise the height would have grown. -/
theorem collapsesWell_of_height (passed : List Token) {lead' : Nat}
    (h : WellSpelled (passed.reverse ++ ts)) (hsome : collapseTokens lead passed ts = some (lead', us))
    (hheight : height (names us) = height (names (passed.reverse ++ ts))) (hlead : 0 < lead → 0 < lead') :
    CollapsesWell lead passed ts := by
  induction ts generalizing passed with
  | nil => rw [CollapsesWell]; trivial
  | cons d ts ih =>
    cases passed with
    | nil =>
      rw [collapseTokens] at hsome
      rw [CollapsesWell]
      exact ih _ (by simpa using h) hsome (by simpa using hheight)
    | cons c below =>
      have hmove : (c :: below).reverse ++ d :: ts = (d :: c :: below).reverse ++ ts := by simp
      by_cases hup : c.seps = 1 ∧ d.name = upName
      · cases below with
        | nil =>
          rw [collapseTokens_first hup] at hsome
          rw [collapsesWell_first hup]
          split at hsome
          · next hend =>
            obtain ⟨rfl, rfl⟩ := Prod.mk.inj (Option.some.inj hsome)
            have hts := h.eq_nil_of_seps [c] hend.1
            have hpos := hlead (by omega)
            refine ⟨fun hname => ?_, hend.1, by omega⟩
            simp [names, hts, hup.2, hname] at hheight
          · cases hsome
        | cons p below =>
          rw [collapseTokens_merge hup] at hsome
          rw [collapsesWell_merge hup]
          have hlist : (c :: p :: below).reverse ++ d :: ts = below.reverse ++ p :: c :: d :: ts := by simp
          have hlist' : (p.merge d :: below).reverse ++ ts = below.reverse ++ p.merge d :: ts := by simp
          rw [hlist] at h hheight
          have hmerged := hlist' ▸ h.merge
          have hgrow := (collapseTokens_spec _ hmerged hsome).2.1
          have hname : c.name ≠ upName := by
            intro hname
            rw [hheight, hlist'] at hgrow
            simp [names, hup.2, hname, Token.merge] at hgrow
            omega
          refine ⟨hname, ih _ hmerged hsome ?_⟩
          rw [hheight, hlist', height_names_merge hup.2 hname]
      · rw [collapseTokens_shift hup] at hsome
        rw [collapsesWell_shift hup]
        exact ih _ (hmove ▸ h) hsome (hmove ▸ hheight)

end Dirlist
