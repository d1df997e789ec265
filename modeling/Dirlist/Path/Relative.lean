import Dirlist.Path.Defs

/-! `path_relative` on normalised absolute paths. -/

namespace Dirlist

/-- The loop of `path_common_prefix`: how far it goes in what is left of both paths. Every
round takes a byte at least. -/
def commonPrefixFrom : Nat → Bytes → Bytes → Nat × Nat
  | 0, _, _ => (0, 0)
  | k + 1, s1, s2 =>
    if s1.length = 0 ∨ s2.length = 0 then (0, 0)
    else
      let i1 := pathSkipSeparator s1
      let i2 := pathSkipSeparator s2
      if (i1 ≠ 0) ≠ (i2 ≠ 0) then (0, 0)
      else
        let t1 := s1.drop i1
        let t2 := s2.drop i2
        let j1 := pathSkipComponent t1
        let j2 := pathSkipComponent t2
        if j1 ≠ j2 then (i1, i2)
        else if byteDiff (t1.take j1) (t2.take j1) ≠ 0 then (i1, i2)
        else
          let (r1, r2) := commonPrefixFrom k (t1.drop j1) (t2.drop j2)
          (i1 + j1 + r1, i2 + j2 + r2)

def pathCommonPrefix (s1 s2 : Bytes) : Nat × Nat := commonPrefixFrom s1.length s1 s2

def parentDir : Bytes := [pathDot, pathDot, pathSep]

/-- The loop of `path_relative_b`: what it writes for what is left of the base. -/
def parentsFrom : Nat → Bytes → Bytes
  | 0, _ => []
  | k + 1, s2 =>
    let i := pathSkip s2
    if i = 0 then [] else parentDir ++ parentsFrom k (s2.drop i)

def pathRelativeB (s1 s2 : Bytes) : Bytes :=
  let (sz1, sz2) := pathCommonPrefix s1 s2
  let s1 := s1.drop sz1
  let s2 := s2.drop sz2
  let out := parentsFrom s2.length s2
  let out := out ++ s1.drop (pathSkipSeparator s1)
  if out.length = 0 then [pathDot] else out

/-- On strings without a zero byte, which `str_len` measures. -/
def pathRelative (path relativeTo : Bytes) : Bytes := pathRelativeB path relativeTo

/-! ## The rests behind the common prefix -/

section
variable {α : Type} [DecidableEq α]

/-- What two lists have in common from their beginning on. -/
def commonPart : List α → List α → List α
  | a :: as, b :: bs => if a = b then a :: commonPart as bs else []
  | _, _ => []

theorem commonPart_split (as bs : List α) :
    as = commonPart as bs ++ as.drop (commonPart as bs).length ∧
    bs = commonPart as bs ++ bs.drop (commonPart as bs).length := by
  induction as generalizing bs with
  | nil => exact ⟨rfl, rfl⟩
  | cons a as ih =>
    cases bs with
    | nil => exact ⟨rfl, rfl⟩
    | cons b bs =>
      by_cases hab : a = b
      · obtain ⟨has, hbs⟩ := ih bs
        subst hab
        simp only [commonPart, if_true, List.length_cons, List.drop_succ_cons, List.cons_append]
        exact ⟨congrArg (a :: ·) has, congrArg (a :: ·) hbs⟩
      · simp [commonPart, hab]

theorem commonPart_eq_left {as bs : List α} : as.drop (commonPart as bs).length = [] ↔ as <+: bs := by
  obtain ⟨has, hbs⟩ := commonPart_split as bs
  constructor
  · intro hnil
    rw [hnil, List.append_nil] at has
    rw [← has] at hbs
    exact ⟨_, hbs.symm⟩
  · rintro ⟨cs, rfl⟩
    have hall (as cs : List α) : commonPart as (as ++ cs) = as := by
      induction as with
      | nil => cases cs <;> rfl
      | cons a as ih => rw [List.cons_append, commonPart, if_pos rfl, ih]
    rw [hall, List.drop_length]

end

variable {ps bs : List Bytes} {b x : Bytes}

/-- Where both paths go on, the separator between the common part and the rests is skipped. -/
def rests : List Bytes → List Bytes → Bytes × Bytes
  | p :: ps, b :: bs => if p = b then rests ps bs else (p ++ rooted ps, b ++ rooted bs)
  | ps, bs => (rooted ps, rooted bs)

theorem commonPrefixFrom_rooted (hp : ∀ x ∈ ps, IsComponent x) (hb : ∀ x ∈ bs, IsComponent x) {k : Nat}
    (hk : (rooted ps).length ≤ k) :
    ((rooted ps).drop (commonPrefixFrom k (rooted ps) (rooted bs)).1,
      (rooted bs).drop (commonPrefixFrom k (rooted ps) (rooted bs)).2) = rests ps bs := by
  induction ps generalizing bs k with
  | nil => cases k <;> simp [commonPrefixFrom, rests, rooted]
  | cons p ps ih =>
    cases bs with
    | nil => cases k <;> simp [commonPrefixFrom, rests, rooted]
    | cons b bs =>
      have hp₀ := hp p List.mem_cons_self
      have hb₀ := hb b List.mem_cons_self
      have hp' : ∀ x ∈ ps, IsComponent x := fun x hx => hp x (List.mem_cons_of_mem _ hx)
      have hb' : ∀ x ∈ bs, IsComponent x := fun x hx => hb x (List.mem_cons_of_mem _ hx)
      simp only [rooted_cons, List.length_cons, List.length_append] at hk ⊢
      obtain ⟨k, rfl⟩ : ∃ j, k = j + 1 := ⟨k - 1, by omega⟩
      simp only [commonPrefixFrom, skipSeparator_one hp₀, skipSeparator_one hb₀, List.length_cons,
        Nat.add_one_ne_zero, or_self, if_false, ne_eq, not_false_eq_true, not_true_eq_false,
        List.drop_succ_cons, List.drop_zero, skipComponent_append hp₀.2 (rooted_head ps),
        skipComponent_append hb₀.2 (rooted_head bs), List.take_left]
      rw [rests]
      by_cases hpb : p = b
      · subst hpb
        have hsame : byteDiff p p = 0 := (byteDiff_eq_zero rfl).mpr rfl
        have hrec := ih hp' hb' (k := k) (by omega)
        have hpast (t : Bytes) (j : Nat) : (pathSep :: (p ++ t)).drop (1 + p.length + j) = t.drop j := by
          rw [Nat.add_assoc, Nat.add_comm 1, List.drop_succ_cons, ← List.drop_drop, List.drop_left]
        simp only [List.take_left, hsame, not_true_eq_false, if_false, if_true, List.drop_left, hpast]
        exact hrec
      · rw [if_neg hpb]
        by_cases hlen : p.length = b.length
        · have hdiff : byteDiff p b ≠ 0 := fun he => hpb ((byteDiff_eq_zero hlen).mp he)
          simp only [hlen, List.take_left, hdiff, not_true_eq_false, if_false, not_false_eq_true,
            if_true]
          rfl
        · rw [if_pos hlen]
          rfl

/-! ## What is written -/

def parents (k : Nat) : Bytes := (List.replicate k parentDir).flatten

theorem parents_succ (k : Nat) : parents (k + 1) = parentDir ++ parents k := rfl

theorem parentsFrom_component (hb : ∀ x ∈ b :: bs, IsComponent x) {k : Nat}
    (hk : (b ++ rooted bs).length ≤ k) : parentsFrom k (b ++ rooted bs) = parents (bs.length + 1) := by
  have hb₀ := hb b List.mem_cons_self
  have hpos := List.length_pos_iff.mpr hb₀.1
  induction bs generalizing b k with
  | nil =>
    obtain ⟨k, rfl⟩ : ∃ j, k = j + 1 := ⟨k - 1, by simp at hk; omega⟩
    have hskip : pathSkip (b ++ rooted []) = b.length := pathSkip_append hb₀.2 (rooted_head [])
    have hrest : parentsFrom k [] = [] := by cases k <;> rfl
    rw [parentsFrom, hskip, if_neg (by omega), List.drop_left]
    exact congrArg (parentDir ++ ·) hrest
  | cons c bs ih =>
    have hbs : ∀ x ∈ c :: bs, IsComponent x := fun x hx => hb x (List.mem_cons_of_mem _ hx)
    have hc := hbs c List.mem_cons_self
    rw [List.length_append, rooted_cons, List.length_cons] at hk
    obtain ⟨k, rfl⟩ : ∃ j, k = j + 1 := ⟨k - 1, by omega⟩
    have hskip : pathSkip (b ++ rooted (c :: bs)) = b.length + 1 := by
      rw [pathSkip_append hb₀.2 (rooted_head _), rooted_cons, skipSeparator_dropLast hc]
    have hrest : (b ++ rooted (c :: bs)).drop (b.length + 1) = c ++ rooted bs := by
      rw [← List.drop_drop, List.drop_left, rooted_cons, List.drop_succ_cons, List.drop_zero]
    rw [parentsFrom, hskip, if_neg (by omega), hrest, List.length_cons, parents_succ,
      ih hbs (by omega) hc (List.length_pos_iff.mpr hc.1)]

/-- A separator in front counts for a component of its own. -/
theorem parentsFrom_rooted (hb : ∀ x ∈ bs, IsComponent x) :
    parentsFrom (rooted bs).length (rooted bs) = parents (if bs = [] then 0 else bs.length + 1) := by
  cases bs with
  | nil => rfl
  | cons b bs =>
    have hskip : pathSkip ([] ++ rooted (b :: bs)) = 1 := by
      rw [pathSkip_append List.not_mem_nil (rooted_head _), rooted_cons,
        skipSeparator_dropLast (hb b List.mem_cons_self)]
      rfl
    rw [List.nil_append] at hskip
    have hlen : (rooted (b :: bs)).length = (b ++ rooted bs).length + 1 := by simp
    rw [hlen, parentsFrom, hskip, if_neg Nat.one_ne_zero, rooted_cons, List.drop_succ_cons,
      List.drop_zero, parentsFrom_component hb (Nat.le_refl _)]
    rfl

theorem components_parents (k : Nat) (s : Bytes) :
    components (parents k ++ s) = List.replicate k [pathDot, pathDot] ++ components s := by
  induction k with
  | zero => rfl
  | succ k ih =>
    have hup : IsComponent [pathDot, pathDot] := ⟨by decide, by decide⟩
    have happ := components_append [pathDot, pathDot] (parents k ++ s)
    rw [ih, components_of_isComponent hup] at happ
    exact happ

theorem parentsFrom_relative (hb : ∀ x ∈ bs, IsComponent x) :
    parentsFrom ((rooted bs).drop 1).length ((rooted bs).drop 1) = parents bs.length := by
  cases bs with
  | nil => rfl
  | cons b bs =>
    rw [rooted_cons, List.drop_succ_cons, List.drop_zero]
    exact parentsFrom_component hb (Nat.le_refl _)

theorem skipSeparator_rooted (hp : ∀ x ∈ ps, IsComponent x) :
    (rooted ps).drop (pathSkipSeparator (rooted ps)) = (rooted ps).drop 1 := by
  cases ps with
  | nil => rfl
  | cons p ps => rw [rooted_cons, skipSeparator_one (hp p List.mem_cons_self)]

theorem skipSeparator_relative (hp : ∀ x ∈ ps, IsComponent x) :
    pathSkipSeparator ((rooted ps).drop 1) = 0 := by
  cases ps with
  | nil => rfl
  | cons p ps =>
    rw [rooted_cons, List.drop_succ_cons, List.drop_zero]
    exact skipSeparator_component (hp p List.mem_cons_self) _

/-! ## Normalised absolute paths -/

def absolutePath (cs : List Bytes) : Bytes := if cs = [] then [pathSep] else rooted cs

theorem absolutePath_drop (cs : List Bytes) : (absolutePath cs).drop 1 = (rooted cs).drop 1 := by
  by_cases hcs : cs = []
  · simp [absolutePath, hcs, rooted]
  · rw [absolutePath, if_neg hcs]

theorem rests_eq : rests ps bs =
    if ps.drop (commonPart ps bs).length = [] ∨ bs.drop (commonPart ps bs).length = [] then
      (rooted (ps.drop (commonPart ps bs).length), rooted (bs.drop (commonPart ps bs).length))
    else ((rooted (ps.drop (commonPart ps bs).length)).drop 1,
      (rooted (bs.drop (commonPart ps bs).length)).drop 1) := by
  induction ps generalizing bs with
  | nil => simp [rests, commonPart]
  | cons p ps ih =>
    cases bs with
    | nil => simp [rests, commonPart]
    | cons b bs =>
      by_cases hpb : p = b
      · rw [rests, if_pos hpb, ih]
        simp only [commonPart, hpb, if_true, List.length_cons, List.drop_succ_cons]
      · simp [rests, commonPart, hpb]

/-- With the root among them, the paths have only the separator in common. -/
theorem commonPrefix_root (hp : ∀ x ∈ ps, IsComponent x) (hb : ∀ x ∈ bs, IsComponent x)
    (hroot : ps = [] ∨ bs = []) : pathCommonPrefix (absolutePath ps) (absolutePath bs) = (1, 1) := by
  have hone : pathSkipSeparator [pathSep] = 1 := by decide
  cases ps with
  | nil =>
    cases bs with
    | nil => decide
    | cons b bs =>
      have hb₀ := hb b List.mem_cons_self
      have hne : ¬(0 = b.length) := fun he => hb₀.1 (List.length_eq_zero_iff.mp he.symm)
      have hzero : pathSkipComponent [] = 0 := rfl
      simp [absolutePath, pathCommonPrefix, commonPrefixFrom, hone, skipSeparator_one hb₀, hzero,
        skipComponent_append hb₀.2 (rooted_head bs), hne]
  | cons p ps =>
    obtain rfl : bs = [] := hroot.resolve_left (List.cons_ne_nil _ _)
    have hp₀ := hp p List.mem_cons_self
    have hzero : pathSkipComponent [] = 0 := rfl
    simp [absolutePath, pathCommonPrefix, commonPrefixFrom, hone, skipSeparator_one hp₀, hzero,
      skipComponent_append hp₀.2 (rooted_head ps), hp₀.1]

/-- The base lies below the path, and the path is not the root. -/
def Below (ps bs : List Bytes) : Prop := ps ≠ [] ∧ ps <+: bs ∧ ps ≠ bs

instance (ps bs : List Bytes) : Decidable (Below ps bs) :=
  inferInstanceAs (Decidable (_ ∧ _ ∧ _))

theorem below_iff : Below ps bs ↔ ps ≠ [] ∧ ps.drop (commonPart ps bs).length = [] ∧
    bs.drop (commonPart ps bs).length ≠ [] := by
  obtain ⟨hps, hbs⟩ := commonPart_split ps bs
  refine and_congr_right fun _ => ?_
  rw [commonPart_eq_left]
  refine and_congr_right fun hpre => not_congr ⟨fun he => ?_, fun hnil => ?_⟩
  · subst he
    exact commonPart_eq_left.mpr hpre
  · rw [commonPart_eq_left.mpr hpre, List.append_nil] at hps
    rw [hnil, List.append_nil] at hbs
    exact hps.trans hbs.symm

/-- What is left of the paths behind the common prefix. -/
theorem commonPrefix_rests (hp : ∀ x ∈ ps, IsComponent x) (hb : ∀ x ∈ bs, IsComponent x) :
    ((absolutePath ps).drop (pathCommonPrefix (absolutePath ps) (absolutePath bs)).1,
      (absolutePath bs).drop (pathCommonPrefix (absolutePath ps) (absolutePath bs)).2) =
    if (ps ≠ [] ∧ bs ≠ []) ∧
        (ps.drop (commonPart ps bs).length = [] ∨ bs.drop (commonPart ps bs).length = []) then
      (rooted (ps.drop (commonPart ps bs).length), rooted (bs.drop (commonPart ps bs).length))
    else ((rooted (ps.drop (commonPart ps bs).length)).drop 1,
      (rooted (bs.drop (commonPart ps bs).length)).drop 1) := by
  by_cases hroot : ps = [] ∨ bs = []
  · have hnone : commonPart ps bs = [] := by
      rcases hroot with rfl | rfl
      · rfl
      · cases ps <;> rfl
    rw [commonPrefix_root hp hb hroot, absolutePath_drop, absolutePath_drop, hnone,
      if_neg (fun h => h.1.1 (hroot.resolve_right h.1.2))]
    rfl
  · have hne : ps ≠ [] ∧ bs ≠ [] := not_or.mp hroot
    have hrests := commonPrefixFrom_rooted hp hb (Nat.le_refl _)
    rw [absolutePath, if_neg hne.1, absolutePath, if_neg hne.2, pathCommonPrefix, hrests, rests_eq]
    simp only [hne, ne_eq, not_false_eq_true, and_self, true_and]

theorem length_parents (k : Nat) : (parents k).length = 3 * k := by
  induction k with
  | zero => rfl
  | succ k ih =>
    rw [parents_succ, List.length_append, ih, Nat.mul_succ, Nat.add_comm]
    rfl

theorem relative_eq_nil (hp : ∀ x ∈ ps, IsComponent x) : (rooted ps).drop 1 = [] ↔ ps = [] := by
  cases ps with
  | nil => simp [rooted]
  | cons p ps => simp [(hp p List.mem_cons_self).1]

theorem pathRelative_of_rests {s1 s2 r1 r2 : Bytes}
    (h : (s1.drop (pathCommonPrefix s1 s2).1, s2.drop (pathCommonPrefix s1 s2).2) = (r1, r2)) :
    pathRelative s1 s2 =
      if (parentsFrom r2.length r2 ++ r1.drop (pathSkipSeparator r1)).length = 0 then [pathDot]
      else parentsFrom r2.length r2 ++ r1.drop (pathSkipSeparator r1) := by
  obtain ⟨rfl, rfl⟩ := Prod.mk.inj h
  rfl

/-- One parent too many is written if the base lies below the path. -/
theorem pathRelative_eq (hp : ∀ x ∈ ps, IsComponent x) (hb : ∀ x ∈ bs, IsComponent x) :
    pathRelative (absolutePath ps) (absolutePath bs) =
      if ps = bs then [pathDot]
      else parents ((bs.drop (commonPart ps bs).length).length + if Below ps bs then 1 else 0) ++
        (rooted (ps.drop (commonPart ps bs).length)).drop 1 := by
  have hrests := commonPrefix_rests hp hb
  have hsplit := commonPart_split ps bs
  have hbelow := @below_iff ps bs
  have hp' : ∀ x ∈ ps.drop (commonPart ps bs).length, IsComponent x := fun x hx =>
    hp x (List.mem_of_mem_drop hx)
  have hb' : ∀ x ∈ bs.drop (commonPart ps bs).length, IsComponent x := fun x hx =>
    hb x (List.mem_of_mem_drop hx)
  have hsame : ps = bs ↔ ps.drop (commonPart ps bs).length = [] ∧ bs.drop (commonPart ps bs).length = [] := by
    constructor
    · intro he
      have hpre : ps <+: bs := he ▸ List.prefix_refl ps
      have hleft := commonPart_eq_left.mpr hpre
      exact ⟨hleft, he ▸ hleft⟩
    · rintro ⟨hps, hbs⟩
      rw [hps, hbs] at hsplit
      exact hsplit.1.trans hsplit.2.symm
  generalize ps.drop (commonPart ps bs).length = ps' at *
  generalize bs.drop (commonPart ps bs).length = bs' at *
  have hzero : bs'.length + (if Below ps bs then 1 else 0) = 0 ∧ ps' = [] ↔ ps' = [] ∧ bs' = [] := by
    rw [Nat.add_eq_zero_iff, List.length_eq_zero_iff]
    constructor
    · exact fun h => ⟨h.2, h.1.1⟩
    · intro h
      have hnot : ¬Below ps bs := fun hb => (hbelow.mp hb).2.2 h.2
      exact ⟨⟨h.2, if_neg hnot⟩, h.1⟩
  have hempty (k : Nat) : (parents k ++ (rooted ps').drop 1).length = 0 ↔ k = 0 ∧ ps' = [] := by
    rw [← relative_eq_nil hp', ← List.length_eq_zero_iff, List.length_append, length_parents]
    omega
  by_cases hroot : (ps ≠ [] ∧ bs ≠ []) ∧ (ps' = [] ∨ bs' = [])
  · rw [if_pos hroot] at hrests
    rw [pathRelative_of_rests hrests, parentsFrom_rooted hb', skipSeparator_rooted hp']
    have hk : (if bs' = [] then 0 else bs'.length + 1) = bs'.length + if Below ps bs then 1 else 0 := by
      by_cases hbs : bs' = []
      · have hnot : ¬Below ps bs := fun h => (hbelow.mp h).2.2 hbs
        rw [if_pos hbs, if_neg hnot, hbs]
        rfl
      · have hyes : Below ps bs := hbelow.mpr ⟨hroot.1.1, hroot.2.resolve_right hbs, hbs⟩
        rw [if_neg hbs, if_pos hyes]
    rw [hk]
    exact if_congr ((hempty _).trans (hzero.trans hsame.symm)) rfl rfl
  · rw [if_neg hroot] at hrests
    rw [pathRelative_of_rests hrests, parentsFrom_relative hb', skipSeparator_relative hp', List.drop_zero]
    have hnot : ¬Below ps bs := by
      intro h
      have hbs : bs ≠ [] := fun hnil => h.1 (List.prefix_nil.mp (hnil ▸ h.2.1))
      exact hroot ⟨⟨h.1, hbs⟩, .inl (hbelow.mp h).2.1⟩
    have hk : bs'.length = bs'.length + if Below ps bs then 1 else 0 := by rw [if_neg hnot, Nat.add_zero]
    rw [← hk]
    rw [← hk] at hzero
    exact if_congr ((hempty _).trans (hzero.trans hsame.symm)) rfl rfl

/-! ## Resolving -/

/-- One component of an absolute path, read behind the ones before it. -/
def enter (dirs : List Bytes) (x : Bytes) : List Bytes :=
  if x = [pathDot] then dirs else if x = [pathDot, pathDot] then dirs.dropLast else dirs ++ [x]

/-- Where an absolute path leads. -/
def resolve (s : Bytes) : List Bytes := (components s).foldl enter []

/-- A component of a normalised path. -/
def IsName (x : Bytes) : Prop := IsComponent x ∧ 0 ∉ x ∧ x ≠ [pathDot] ∧ x ≠ [pathDot, pathDot]

theorem foldl_enter_names {cs : List Bytes} (hcs : ∀ x ∈ cs, IsName x) (dirs : List Bytes) :
    cs.foldl enter dirs = dirs ++ cs := by
  induction cs generalizing dirs with
  | nil => simp
  | cons x cs ih =>
    have hx := hcs x List.mem_cons_self
    have henter : enter dirs x = dirs ++ [x] := by rw [enter, if_neg hx.2.2.1, if_neg hx.2.2.2]
    rw [List.foldl_cons, henter, ih fun y hy => hcs y (List.mem_cons_of_mem _ hy), List.append_assoc]
    rfl

theorem foldl_enter_parents (k : Nat) (dirs : List Bytes) :
    (List.replicate k [pathDot, pathDot]).foldl enter dirs = dirs.take (dirs.length - k) := by
  induction k generalizing dirs with
  | zero => simp
  | succ k ih =>
    have henter : enter dirs [pathDot, pathDot] = dirs.take (dirs.length - 1) := by
      rw [← List.dropLast_eq_take]
      rfl
    rw [List.replicate_succ, List.foldl_cons, henter, ih, List.take_take, List.length_take]
    congr 1
    omega

theorem components_absolutePath (hb : ∀ x ∈ bs, IsComponent x) (s : Bytes) :
    components (absolutePath bs ++ pathSep :: s) = bs ++ components s := by
  rw [components_append]
  by_cases hnil : bs = []
  · rw [hnil]
    rfl
  · have hrooted := components_append_rooted hb []
    rw [absolutePath, if_neg hnil]
    exact congrArg (· ++ components s) hrooted

/-- The components of what `path_relative` ought to write. -/
def relativeComponents (ps bs : List Bytes) : List Bytes :=
  if ps = bs then [[pathDot]]
  else List.replicate (bs.length - (commonPart ps bs).length) [pathDot, pathDot] ++
    ps.drop (commonPart ps bs).length

theorem components_relative (hp : ∀ x ∈ ps, IsComponent x) : components ((rooted ps).drop 1) = ps := by
  cases ps with
  | nil => rfl
  | cons p ps =>
    have htail := components_append_rooted (fun x hx => hp x (List.mem_cons_of_mem _ hx)) p
    rw [rooted_cons, List.drop_succ_cons, List.drop_zero, htail,
      components_of_isComponent (hp p List.mem_cons_self)]
    rfl

/-- The components of what `path_relative` does write. -/
theorem components_pathRelative (hp : ∀ x ∈ ps, IsComponent x) (hb : ∀ x ∈ bs, IsComponent x) :
    components (pathRelative (absolutePath ps) (absolutePath bs)) =
      if ps = bs then [[pathDot]]
      else List.replicate (bs.length - (commonPart ps bs).length + if Below ps bs then 1 else 0)
        [pathDot, pathDot] ++ ps.drop (commonPart ps bs).length := by
  rw [pathRelative_eq hp hb, List.length_drop]
  split
  · exact components_of_isComponent ⟨by decide, by decide⟩
  · rw [components_parents, components_relative fun x hx => hp x (List.mem_of_mem_drop hx)]

/-- For normalised absolute paths, what is written leads from the base to the path, and is
made of the components it ought to be made of, exactly if the base does not lie below the
path or the path is the root. -/
theorem pathRelative_iff (ps bs : List Bytes) (hp : ∀ x ∈ ps, IsName x) (hb : ∀ x ∈ bs, IsName x) :
    (resolve (absolutePath bs ++ pathSep :: pathRelative (absolutePath ps) (absolutePath bs)) = ps ↔
      ¬Below ps bs) ∧
    (components (pathRelative (absolutePath ps) (absolutePath bs)) = relativeComponents ps bs ↔
      ¬Below ps bs) := by
  have hp' : ∀ x ∈ ps, IsComponent x := fun x hx => (hp x hx).1
  have hb' : ∀ x ∈ bs, IsComponent x := fun x hx => (hb x hx).1
  have hcomp := components_pathRelative hp' hb'
  rw [resolve, components_absolutePath hb', List.foldl_append, foldl_enter_names hb, List.nil_append,
    hcomp, relativeComponents]
  by_cases hsame : ps = bs
  · have hnot : ¬Below ps bs := fun h => h.2.2 hsame
    simp only [hsame, if_true] at hnot ⊢
    exact ⟨iff_of_true rfl hnot, iff_of_true trivial hnot⟩
  · simp only [hsame, if_false]
    rw [List.foldl_append, foldl_enter_parents,
      foldl_enter_names fun x hx => hp x (List.mem_of_mem_drop hx)]
    obtain ⟨hps, hbs⟩ := commonPart_split ps bs
    have hle : (commonPart ps bs).length ≤ bs.length := by
      have := congrArg List.length hbs
      rw [List.length_append] at this
      omega
    by_cases hbelow : Below ps bs
    · have hshort : (commonPart ps bs).length = ps.length := by
        rw [(below_iff.mp hbelow).2.1, List.append_nil] at hps
        exact (congrArg List.length hps).symm
      have hpos := List.length_pos_iff.mpr hbelow.1
      refine ⟨iff_of_false (fun he => ?_) (not_not.mpr hbelow),
        iff_of_false (fun he => ?_) (not_not.mpr hbelow)⟩
      · have := congrArg List.length he
        simp [hbelow, hshort] at this
        omega
      · have := congrArg List.length he
        simp [hbelow] at this
    · have htake : bs.take (bs.length - (bs.length - (commonPart ps bs).length)) = commonPart ps bs := by
        rw [Nat.sub_sub_self hle]
        nth_rewrite 2 [hbs]
        exact List.take_left
      rw [if_neg hbelow, Nat.add_zero, htake]
      exact ⟨iff_of_true hps.symm hbelow, iff_of_true rfl hbelow⟩

theorem isName_single {c : UInt8} (h : c ≠ pathSep ∧ c ≠ 0 ∧ c ≠ pathDot) : IsName [c] := by
  refine ⟨⟨List.cons_ne_nil _ _, ?_⟩, ?_, ?_, ?_⟩
  · simpa [eq_comm] using h.1
  · simpa [eq_comm] using h.2.1
  · simpa using h.2.2
  · simp

/-- From `/a/b` to `/a/c/d`. -/
theorem pathRelative_siblings :
    resolve (absolutePath [[97], [98]] ++ pathSep ::
      pathRelative (absolutePath [[97], [99], [100]]) (absolutePath [[97], [98]])) = [[97], [99], [100]] := by
  refine (pathRelative_iff [[97], [99], [100]] [[97], [98]] ?_ ?_).1.mpr (by decide)
  · simp only [List.forall_mem_cons]
    exact ⟨isName_single (by decide), isName_single (by decide), isName_single (by decide), by simp⟩
  · simp only [List.forall_mem_cons]
    exact ⟨isName_single (by decide), isName_single (by decide), by simp⟩

/-- From `/a/c` to `/a` two levels are gone up. -/
theorem pathRelative_below : ¬∀ ps bs : List Bytes, (∀ x ∈ ps, IsName x) → (∀ x ∈ bs, IsName x) →
    resolve (absolutePath bs ++ pathSep :: pathRelative (absolutePath ps) (absolutePath bs)) = ps ∧
    components (pathRelative (absolutePath ps) (absolutePath bs)) = relativeComponents ps bs := by
  intro hall
  have ha : IsName [97] := isName_single (by decide)
  have hc : IsName [99] := isName_single (by decide)
  have hcomp := (hall [[97]] [[97], [99]] (by simp [ha]) (by simp [ha, hc])).2
  exact absurd hcomp (by decide)

end Dirlist
