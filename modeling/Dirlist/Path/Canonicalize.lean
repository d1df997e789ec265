import Dirlist.Lib.Run
import Dirlist.Path.Defs

/-! `path_canonicalize` on a file system without symbolic links. The separator it adds is
always `/`. -/

namespace Dirlist
open Run

/-- `path_right`: where the separator before the last component is, or -1 -/
def pathRight (s : Bytes) : Int :=
  ((s.reverse.dropWhile pathIssep).dropWhile fun c => !pathIssep c).length - 1

/-- `path_len_s` -/
def pathLenS (s : Bytes) : Nat := (s.takeWhile fun c => !pathIssep c).length

/-- What is left of the path, and the output. -/
structure Canon where
  path : Bytes
  sa : Bytes

/-- `path_issep(*s) || *s == '\0'` -/
def atEnd : Bytes → Bool
  | [] => true
  | c :: _ => pathIssep c

/-- A component other than `.` and `..`. -/
def canonName (path sa : Bytes) : Canon :=
  let sa := if sa.length ≠ 0 ∧ sa.getLast? ≠ some 47 ∧ sa.getLast? ≠ some 92 then sa ++ [pathSep] else sa
  let n := pathLenS path
  let sa := sa ++ path.take n
  let sa := if n = 2 ∧ path[1]? = some 58 then sa ++ [pathSep] else sa
  ⟨path.drop n, sa⟩

/-- Behind the loop. -/
def canonEnd (sa : Bytes) : Bytes := if sa.length = 0 then [pathSep] else sa

def canonRound (_ : Nat) (s : Canon) : Exec (Canon ⊕ Bytes) :=
  if s.path = [] then .ok (.inr (canonEnd s.sa))
  else
    match s.path.dropWhile pathIssep with
    | [] => .ok (.inr (canonEnd s.sa))
    | c :: rest =>
      if c = pathDot ∧ atEnd rest then .ok (.inl ⟨rest, s.sa⟩)
      else if c = pathDot ∧ rest.head? = some pathDot ∧ atEnd rest.tail then
        -- a length of -1 is that of no buffer
        if pathRight s.sa < 0 then .error .bounds
        else .ok (.inl ⟨rest.tail, s.sa.take (pathRight s.sa).toNat⟩)
      else .ok (.inl (canonName (c :: rest) s.sa))

def canonStart (path : Bytes) : Canon :=
  match path with
  | [] => ⟨[], []⟩
  | c :: rest => if pathIssep c then ⟨rest, [c]⟩ else ⟨path, []⟩

def pathCanonicalize (fuel : Nat) (path : Bytes) : Exec Bytes := loop canonRound fuel (canonStart path)

/-! ## The names in the output -/

variable {root : Bool} {names xs : List Bytes} {x y : Bytes}

/-- A name enters behind the others, the last one first. Behind a backslash it becomes part
of the name before it. -/
def pushName (names : List Bytes) (x : Bytes) : List Bytes :=
  match names with
  | [] => [x]
  | y :: names => if y.getLast? = some 92 then (y ++ x) :: names else x :: y :: names

/-- The names in the output, and whether it is absolute, when the components have been read. -/
def canonNames : Bool → List Bytes → List Bytes → Option (Bool × List Bytes)
  | root, names, [] => some (root || names.isEmpty, names)
  | root, names, x :: xs =>
    if x = dotName then canonNames root names xs
    else if x = upName then
      match names with
      | [] => none
      -- the root goes with the only name
      | [_] => if root then canonNames false [] xs else none
      | _ :: y :: names => canonNames root (y :: names) xs
    else canonNames root (pushName names x) xs

/-- A `..` takes away one of several names, or the only one of an absolute path at its end; no
name comes behind one that ends with a backslash; and some name is left of a relative path. -/
def CanonWell (root : Bool) : List Bytes → List Bytes → Prop
  | names, [] => root ∨ names ≠ []
  | names, x :: xs =>
    if x = dotName then CanonWell root names xs
    else if x = upName then
      match names with
      | [] => False
      | [_] => root ∧ ∀ y ∈ xs, y = dotName
      | _ :: y :: names => CanonWell root (y :: names) xs
    else (∀ y ∈ names.head?, y.getLast? ≠ some 92) ∧ CanonWell root (x :: names) xs

/-- One component read behind the others, the last one first. -/
def climb (root : Bool) (names : List Bytes) (x : Bytes) : List Bytes :=
  if x = dotName then names
  else if x = upName then
    match names with
    | [] => if root then [] else [x]
    | y :: names' => if y = upName then x :: names else names'
  else x :: names

/-- Where a path leads: from the root or not, and which way. -/
def location (s : Bytes) : Bool × List Bytes :=
  let root := decide (s.head? = some pathSep)
  (root, (components s).foldl (climb root) [])

section
variable {root' : Bool} {names' : List Bytes} {z : Bytes}

theorem climb_dot : climb root names dotName = names := by
  cases names <;> simp [climb]

theorem climb_name (hx : x ≠ dotName) (hx' : x ≠ upName) : climb root names x = x :: names := by
  cases names <;> simp [climb, hx, hx']

theorem climb_up (hy : y ≠ upName) : climb root (y :: names) upName = names := by
  have hne : upName ≠ dotName := by decide
  simp [climb, hy, hne]

theorem canonNames_dot : canonNames root names (dotName :: xs) = canonNames root names xs := by
  cases names with
  | nil => rw [canonNames, if_pos rfl]
  | cons y names => cases names <;> rw [canonNames, if_pos rfl]

theorem canonNames_name (hx : x ≠ dotName) (hx' : x ≠ upName) :
    canonNames root names (x :: xs) = canonNames root (pushName names x) xs := by
  cases names with
  | nil => rw [canonNames, if_neg hx, if_neg hx']
  | cons y names => cases names <;> rw [canonNames, if_neg hx, if_neg hx']

theorem canonNames_up_nil : canonNames root [] (upName :: xs) = none := by
  rw [canonNames, if_neg (by decide), if_pos rfl]

theorem canonNames_up_one : canonNames root [y] (upName :: xs) = if root then canonNames false [] xs else none := by
  rw [canonNames, if_neg (by decide), if_pos rfl]

theorem canonNames_up : canonNames root (z :: y :: names) (upName :: xs) = canonNames root (y :: names) xs := by
  rw [canonNames, if_neg (by decide), if_pos rfl]

theorem canonWell_dot : CanonWell root names (dotName :: xs) ↔ CanonWell root names xs := by
  cases names with
  | nil => rw [CanonWell, if_pos rfl]
  | cons y names => cases names <;> rw [CanonWell, if_pos rfl]

theorem canonWell_name (hx : x ≠ dotName) (hx' : x ≠ upName) : CanonWell root names (x :: xs) ↔
    (∀ y ∈ names.head?, y.getLast? ≠ some 92) ∧ CanonWell root (x :: names) xs := by
  cases names with
  | nil => rw [CanonWell, if_neg hx, if_neg hx']
  | cons y names => cases names <;> rw [CanonWell, if_neg hx, if_neg hx']

theorem canonWell_up_nil : ¬CanonWell root [] (upName :: xs) := by
  rw [CanonWell, if_neg (by decide), if_pos rfl]
  exact not_false

theorem canonWell_up_one : CanonWell root [y] (upName :: xs) ↔ root ∧ ∀ y ∈ xs, y = dotName := by
  rw [CanonWell, if_neg (by decide), if_pos rfl]

theorem canonWell_up : CanonWell root (z :: y :: names) (upName :: xs) ↔ CanonWell root (y :: names) xs := by
  rw [CanonWell, if_neg (by decide), if_pos rfl]

theorem pushName_eq (h : ∀ y ∈ names.head?, y.getLast? ≠ some 92) : pushName names x = x :: names := by
  cases names with
  | nil => rfl
  | cons y names => rw [pushName, if_neg (h y rfl)]

theorem pushName_length_le (names : List Bytes) (x : Bytes) :
    (pushName names x).length ≤ names.length + 1 := by
  cases names with
  | nil => simp [pushName]
  | cons y names =>
    rw [pushName]
    split <;> simp

theorem pushName_ne_nil (names : List Bytes) (x : Bytes) : pushName names x ≠ [] := by
  cases names with
  | nil => simp [pushName]
  | cons y names =>
    rw [pushName]
    split <;> simp

/-- An output that has lost its root does not get it back. -/
theorem canonNames_relative (hne : names ≠ []) (h : canonNames false names xs = some (root', names')) :
    root' = false := by
  induction xs generalizing names with
  | nil =>
    rw [canonNames] at h
    obtain ⟨rfl, -⟩ := Prod.mk.inj (Option.some.inj h)
    simp [hne]
  | cons x xs ih =>
    by_cases hdot : x = dotName
    · rw [hdot, canonNames_dot] at h
      exact ih hne h
    · by_cases hup : x = upName
      · subst hup
        match names with
        | [] => exact absurd rfl hne
        | [y] =>
          rw [canonNames_up_one] at h
          cases h
        | z :: y :: names =>
          rw [canonNames_up] at h
          exact ih (List.cons_ne_nil _ _) h
      · rw [canonNames_name hdot hup] at h
        exact ih (pushName_ne_nil _ _) h

/-- With nothing in it, only `.` may follow. -/
theorem canonNames_empty (h : canonNames false [] xs = some (true, names')) :
    names' = [] ∧ ∀ y ∈ xs, y = dotName := by
  induction xs with
  | nil =>
    rw [canonNames] at h
    obtain ⟨-, rfl⟩ := Prod.mk.inj (Option.some.inj h)
    exact ⟨rfl, by simp⟩
  | cons x xs ih =>
    by_cases hdot : x = dotName
    · rw [hdot, canonNames_dot] at h
      obtain ⟨hnil, hall⟩ := ih h
      exact ⟨hnil, List.forall_mem_cons.mpr ⟨hdot, hall⟩⟩
    · by_cases hup : x = upName
      · rw [hup, canonNames_up_nil] at h
        cases h
      · rw [canonNames_name hdot hup] at h
        exact absurd (canonNames_relative (pushName_ne_nil _ _) h) (by decide)

theorem canonNames_dots (h : ∀ y ∈ xs, y = dotName) (root : Bool) (names : List Bytes) :
    canonNames root names xs = some (root || names.isEmpty, names) := by
  induction xs with
  | nil => rw [canonNames]
  | cons x xs ih =>
    obtain ⟨rfl, hxs⟩ := List.forall_mem_cons.mp h
    rw [canonNames_dot, ih hxs]

theorem foldl_climb_dots (h : ∀ y ∈ xs, y = dotName) (names : List Bytes) :
    xs.foldl (climb root) names = names := by
  induction xs with
  | nil => rfl
  | cons x xs ih =>
    obtain ⟨rfl, hxs⟩ := List.forall_mem_cons.mp h
    rw [List.foldl_cons, climb_dot, ih hxs]

/-- Where all goes well the names are those the path leads through. -/
theorem CanonWell.names_eq (h : CanonWell root names xs) (hup : upName ∉ names) :
    canonNames root names xs = some (root, xs.foldl (climb root) names) := by
  induction xs generalizing names with
  | nil =>
    rw [CanonWell] at h
    rw [canonNames, List.foldl_nil]
    rcases h with h | h
    · simp [h]
    · simp [h]
  | cons x xs ih =>
    rw [List.foldl_cons]
    by_cases hdot : x = dotName
    · subst hdot
      rw [canonNames_dot, climb_dot]
      exact ih (canonWell_dot.mp h) hup
    · by_cases hx : x = upName
      · subst hx
        match names, h, hup with
        | [], h, _ => exact absurd h canonWell_up_nil
        | [y], h, hup =>
          obtain ⟨hroot, hdots⟩ := canonWell_up_one.mp h
          have hy : y ≠ upName := fun he => hup (by simp [he])
          rw [canonNames_up_one, if_pos hroot, canonNames_dots hdots, climb_up hy, foldl_climb_dots hdots, hroot]
          rfl
        | z :: y :: names, h, hup =>
          obtain ⟨hz, hrest⟩ : upName ≠ z ∧ upName ∉ y :: names := by simpa using hup
          rw [canonNames_up, climb_up hz.symm]
          exact ih (canonWell_up.mp h) hrest
      · obtain ⟨hlast, h⟩ := (canonWell_name hdot hx).mp h
        rw [canonNames_name hdot hx, climb_name hdot hx, pushName_eq hlast]
        exact ih h (by simpa [Ne.symm hx] using hup)

/-- The output leads where the path leads only if all goes well: an absolute output keeps its
root, and names that become one are missing in the end. -/
theorem canonWell_of_length {dirs : List Bytes} (hup : upName ∉ dirs)
    (hlen : names.length ≤ dirs.length) (h : canonNames root names xs = some (root, names'))
    (hend : (xs.foldl (climb root) dirs).length = names'.length) :
    CanonWell root names xs ∧ dirs.length = names.length := by
  induction xs generalizing names dirs with
  | nil =>
    rw [canonNames] at h
    obtain ⟨hroot, rfl⟩ := Prod.mk.inj (Option.some.inj h)
    rw [CanonWell]
    refine ⟨?_, hend⟩
    cases root with
    | true => exact .inl rfl
    | false => exact .inr (by simpa using hroot)
  | cons x xs ih =>
    rw [List.foldl_cons] at hend
    by_cases hdot : x = dotName
    · subst hdot
      rw [canonNames_dot] at h
      rw [climb_dot] at hend
      rw [canonWell_dot]
      exact ih hup hlen h hend
    · by_cases hx : x = upName
      · subst hx
        have hdirs (hpos : 0 < names.length) : ∃ d dirs', dirs = d :: dirs' ∧ d ≠ upName ∧ upName ∉ dirs' := by
          obtain ⟨d, dirs', rfl⟩ := List.exists_cons_of_ne_nil (List.length_pos_iff.mp (by omega : 0 < dirs.length))
          obtain ⟨hd, hrest⟩ : upName ≠ d ∧ upName ∉ dirs' := by simpa using hup
          exact ⟨d, dirs', rfl, hd.symm, hrest⟩
        match names, hlen, h, hdirs with
        | [], _, h, _ =>
          rw [canonNames_up_nil] at h
          cases h
        | [y], hlen, h, hdirs =>
          obtain ⟨d, dirs', rfl, hd, hrest⟩ := hdirs (by simp)
          rw [canonNames_up_one] at h
          split at h
          · next hroot =>
            rw [hroot] at h
            obtain ⟨rfl, hdots⟩ := canonNames_empty h
            rw [climb_up hd, foldl_climb_dots hdots] at hend
            rw [canonWell_up_one]
            refine ⟨⟨hroot, hdots⟩, ?_⟩
            rw [List.length_cons, hend]
            rfl
          · cases h
        | z :: y :: names, hlen, h, hdirs =>
          obtain ⟨d, dirs', rfl, hd, hrest⟩ := hdirs (by simp)
          rw [canonNames_up] at h
          rw [climb_up hd] at hend
          rw [canonWell_up]
          obtain ⟨hwell, heq⟩ := ih hrest (by simpa using hlen) h hend
          exact ⟨hwell, by rw [List.length_cons, heq]; rfl⟩
      · rw [canonNames_name hdot hx] at h
        rw [climb_name hdot hx] at hend
        rw [canonWell_name hdot hx]
        have hle := pushName_length_le names x
        obtain ⟨hwell, heq⟩ := ih (by simpa [Ne.symm hx] using hup) (by simp; omega) h hend
        have hlast : ∀ y ∈ names.head?, y.getLast? ≠ some 92 := by
          intro y hy hbs
          obtain ⟨names, rfl⟩ : ∃ l, names = y :: l := by
            cases names with
            | nil => cases hy
            | cons z names => exact ⟨names, by simpa using hy⟩
          rw [pushName, if_pos hbs] at heq
          simp at heq hlen
          omega
        rw [pushName_eq hlast] at hwell heq
        exact ⟨⟨hlast, hwell⟩, by simpa using heq⟩

end

/-! ## The output as text -/

/-- The text of the names, the last one first. -/
def spellUp (root : Bool) : List Bytes → Bytes
  | [] => if root then [pathSep] else []
  | [x] => (if root then [pathSep] else []) ++ x
  | x :: y :: names => spellUp root (y :: names) ++ pathSep :: x

/-- The output holds the names. Behind a drive letter there may be a separator already. -/
def Written (root : Bool) (names : List Bytes) (sa : Bytes) : Prop :=
  sa = spellUp root names ∨
    sa = spellUp root names ++ [pathSep] ∧ ∃ y ∈ names.head?, y.getLast? = some 58

section
variable {sa t : Bytes} {ns : List Bytes}

theorem spellUp_append (root : Bool) (y x : Bytes) (ns : List Bytes) :
    spellUp root ((y ++ x) :: ns) = spellUp root (y :: ns) ++ x := by
  cases ns <;> simp [spellUp]

theorem spellUp_getLast? (hy : IsComponent y) : (spellUp root (y :: ns)).getLast? = y.getLast? := by
  obtain ⟨y', a, rfl⟩ := (List.eq_nil_or_concat y).resolve_left hy.1
  rw [List.concat_eq_append, spellUp_append]
  simp

theorem spellUp_ne_nil (hy : y ≠ []) : spellUp root (y :: ns) ≠ [] := by
  cases ns <;> simp [spellUp, hy]

theorem components_spellUp (h : ∀ x ∈ names, IsComponent x) :
    components (spellUp root names) = names.reverse := by
  induction names with
  | nil => cases root <;> rfl
  | cons x names ih =>
    have hx := h x List.mem_cons_self
    cases names with
    | nil => cases root <;> simp [spellUp, components_of_isComponent hx]
    | cons y names =>
      rw [spellUp, components_append, ih fun z hz => h z (List.mem_cons_of_mem _ hz),
        components_of_isComponent hx, ← List.reverse_cons]

theorem Written.components (hw : Written root names sa) (h : ∀ x ∈ names, IsComponent x) :
    components sa = names.reverse := by
  rcases hw with rfl | ⟨rfl, -⟩
  · exact components_spellUp h
  · rw [components_append, components_spellUp h, components_nil, List.append_nil]

theorem spellUp_head (h : ∀ x ∈ names, IsComponent x) :
    (spellUp root names).head? = some pathSep ↔ root = true := by
  induction names with
  | nil => cases root <;> simp [spellUp]
  | cons x names ih =>
    obtain ⟨c, x', hx⟩ := List.exists_cons_of_ne_nil (h x List.mem_cons_self).1
    have hc : c ≠ pathSep := fun he => (h x List.mem_cons_self).2 (by simp [hx, he])
    cases names with
    | nil => cases root <;> simp [spellUp, hx, hc]
    | cons y names =>
      rw [spellUp, List.head?_append_of_ne_nil _ (spellUp_ne_nil (h y (by simp)).1)]
      exact ih fun z hz => h z (List.mem_cons_of_mem _ hz)

theorem Written.head (hw : Written root names sa) (h : ∀ x ∈ names, IsComponent x) :
    sa.head? = some pathSep ↔ root = true := by
  rcases hw with rfl | ⟨rfl, y, hy, -⟩
  · exact spellUp_head h
  · obtain ⟨ns, rfl⟩ : ∃ ns, names = y :: ns := by
      cases names with
      | nil => cases hy
      | cons z names => exact ⟨names, by simpa using hy⟩
    rw [List.head?_append_of_ne_nil _ (spellUp_ne_nil (h y (by simp)).1)]
    exact spellUp_head h

/-! ## `path_right` -/

theorem dropWhile_append_stop {p : UInt8 → Bool} (hx : ∀ c ∈ x, p c = true)
    (ht : ∀ c ∈ t.head?, p c = false) : (x ++ t).dropWhile p = t := by
  rw [List.dropWhile_append_of_pos hx]
  cases t with
  | nil => rfl
  | cons c t => simp [ht c rfl]

theorem pathRight_append (hx : IsComponent x) (ht : ∀ c ∈ t, c = pathSep) (s : Bytes)
    (hs : ∀ c ∈ s.getLast?, c = pathSep) : pathRight (s ++ x ++ t) = s.length - 1 := by
  have hname : ∀ c ∈ x, pathIssep c = false := by
    intro c hc
    have hne : c ≠ pathSep := fun he => hx.2 (he ▸ hc)
    simp [pathIssep, hne]
  have hrev : (s ++ x ++ t).reverse = t.reverse ++ (x.reverse ++ s.reverse) := by simp
  have hseps : (t.reverse ++ (x.reverse ++ s.reverse)).dropWhile pathIssep = x.reverse ++ s.reverse := by
    refine dropWhile_append_stop (fun c hc => ?_) fun c hc => ?_
    · simp [pathIssep, ht c (List.mem_reverse.mp hc)]
    · rw [List.head?_append_of_ne_nil _ (by simp [hx.1]), List.head?_reverse] at hc
      exact hname c (List.mem_of_getLast? hc)
  have hdrop : (x.reverse ++ s.reverse).dropWhile (fun c => !pathIssep c) = s.reverse := by
    refine dropWhile_append_stop (fun c hc => ?_) fun c hc => ?_
    · simp [hname c (List.mem_reverse.mp hc)]
    · rw [List.head?_reverse] at hc
      simp [pathIssep, hs c hc]
  rw [pathRight, hrev, hseps, hdrop, List.length_reverse]

theorem pathRight_seps (ht : ∀ c ∈ t, c = pathSep) : pathRight t = -1 := by
  have hseps : (t.reverse ++ []).dropWhile pathIssep = [] := by
    refine dropWhile_append_stop (fun c hc => ?_) fun c hc => by cases hc
    simp [pathIssep, ht c (List.mem_reverse.mp hc)]
  rw [List.append_nil] at hseps
  rw [pathRight, hseps]
  rfl

theorem Written.tail (hw : Written root names sa) :
    ∃ t, sa = spellUp root names ++ t ∧ ∀ c ∈ t, c = pathSep := by
  rcases hw with rfl | ⟨rfl, -⟩
  · exact ⟨[], by simp, by simp⟩
  · exact ⟨[pathSep], rfl, by simp⟩

/-- Of two names, one is left. -/
theorem Written.right (hw : Written root (x :: y :: ns) sa) (hx : IsComponent x) :
    pathRight sa = (spellUp root (y :: ns)).length ∧
      sa.take (spellUp root (y :: ns)).length = spellUp root (y :: ns) := by
  obtain ⟨t, rfl, ht⟩ := hw.tail
  have hlist : spellUp root (x :: y :: ns) ++ t = (spellUp root (y :: ns) ++ [pathSep]) ++ x ++ t := by
    simp [spellUp]
  constructor
  · rw [hlist, pathRight_append hx ht _ (by simp)]
    simp
  · rw [spellUp, List.append_assoc, List.take_left]

theorem Written.right_one (hw : Written root [x] sa) (hx : IsComponent x) :
    pathRight sa = if root then 0 else -1 := by
  obtain ⟨t, rfl, ht⟩ := hw.tail
  rw [spellUp, pathRight_append hx ht]
  · cases root <;> simp
  · cases root <;> simp

theorem Written.right_nil (hw : Written root [] sa) : pathRight sa = -1 := by
  obtain ⟨t, rfl, ht⟩ := hw.tail
  refine pathRight_seps fun c hc => ?_
  rw [spellUp] at hc
  rcases List.mem_append.mp hc with hc | hc
  · cases root
    · cases hc
    · simpa using hc
  · exact ht c hc

end

/-! ## Reading the path -/

section
variable {rest sa t : Bytes} {ns : List Bytes}

theorem atEnd_iff : atEnd t = true ↔ t.head? = none ∨ t.head? = some pathSep := by
  cases t <;> simp [atEnd, pathIssep]

theorem components_dropWhile (s : Bytes) : components (s.dropWhile pathIssep) = components s := by
  induction s with
  | nil => rfl
  | cons c s ih =>
    by_cases hc : c = pathSep
    · subst hc
      rw [components_sep, ← ih]
      rfl
    · simp [pathIssep, hc]

/-- A text that begins with a component. -/
theorem components_name {p : Bytes} (hne : p ≠ []) (hp : p.head? ≠ some pathSep) : ∃ x t,
    p = x ++ t ∧ IsComponent x ∧ atEnd t = true ∧ components p = x :: components t := by
  have hx : IsComponent (p.takeWhile fun c => !pathIssep c) := by
    refine ⟨?_, fun hmem => ?_⟩
    · obtain ⟨c, p, rfl⟩ := List.exists_cons_of_ne_nil hne
      have hc : c ≠ pathSep := by simpa using hp
      simp [pathIssep, hc]
    · have := List.mem_takeWhile_imp hmem
      simp [pathIssep] at this
  have hsplit := (List.takeWhile_append_dropWhile (p := fun c => !pathIssep c) (l := p)).symm
  refine ⟨_, _, hsplit, hx, ?_, ?_⟩
  · cases ht : p.dropWhile fun c => !pathIssep c with
    | nil => rfl
    | cons c t =>
      have hhead := List.head?_dropWhile_not (fun c => !pathIssep c) p
      rw [ht] at hhead
      simpa [atEnd] using hhead
  · generalize p.takeWhile (fun c => !pathIssep c) = x at hx hsplit
    generalize hrest : p.dropWhile (fun c => !pathIssep c) = t at hsplit
    rw [hsplit]
    cases t with
    | nil => rw [List.append_nil, components_of_isComponent hx, components_nil]
    | cons c t =>
      have hhead := List.head?_dropWhile_not (fun c => !pathIssep c) p
      rw [hrest] at hhead
      obtain rfl : c = pathSep := by simpa [pathIssep] using hhead
      rw [components_append, components_of_isComponent hx, components_sep]
      rfl

theorem dropWhile_head_ne (s : Bytes) : (s.dropWhile pathIssep).head? ≠ some pathSep := by
  have hhead := List.head?_dropWhile_not pathIssep s
  intro hsep
  rw [hsep] at hhead
  simp [pathIssep] at hhead

theorem components_eq_nil (h : components rest = []) : rest.dropWhile pathIssep = [] := by
  by_contra hne
  obtain ⟨x, t, -, -, -, hcomp⟩ := components_name hne (dropWhile_head_ne rest)
  rw [components_dropWhile, h] at hcomp
  cases hcomp

/-- The next component, with what is before and behind it. -/
theorem components_scan (h : components rest = x :: xs) : ∃ s t,
    rest = s ++ (x ++ t) ∧ rest.dropWhile pathIssep = x ++ t ∧ IsComponent x ∧ atEnd t = true ∧
      components t = xs ∧ (atEnd rest = true → s ≠ []) := by
  have hne : rest.dropWhile pathIssep ≠ [] := by
    intro hnil
    rw [← components_dropWhile, hnil] at h
    cases h
  obtain ⟨y, t, hsplit, hy, ht, hcomp⟩ := components_name hne (dropWhile_head_ne rest)
  rw [components_dropWhile, h] at hcomp
  obtain ⟨rfl, rfl⟩ := List.cons.inj hcomp
  refine ⟨rest.takeWhile pathIssep, t, ?_, hsplit, hy, ht, rfl, fun hend => ?_⟩
  · rw [← hsplit, List.takeWhile_append_dropWhile]
  · cases rest with
    | nil => exact absurd rfl hne
    | cons c rest =>
      rw [atEnd] at hend
      simp [hend]

/-- A name goes into the output, behind a separator where one is missing. -/
theorem canonBase_spell (hw : Written root names sa) (hnames : ∀ x ∈ names, IsComponent x) (x : Bytes) :
    (if sa.length ≠ 0 ∧ sa.getLast? ≠ some 47 ∧ sa.getLast? ≠ some 92 then sa ++ [pathSep] else sa) ++ x =
      spellUp root (pushName names x) := by
  cases names with
  | nil =>
    rcases hw with rfl | ⟨-, y, hy, -⟩
    · cases root <;> simp [spellUp, pushName, pathSep]
    · cases hy
  | cons y ns =>
    have hy := hnames y List.mem_cons_self
    rcases hw with rfl | ⟨rfl, z, hz, hlast⟩
    · have hne := @spellUp_ne_nil root y ns hy.1
      have hnot : y.getLast? ≠ some 47 := fun he => hy.2 (List.mem_of_getLast? he)
      rw [spellUp_getLast? hy, pushName]
      by_cases hbs : y.getLast? = some 92
      · rw [if_neg (by simp [hbs]), if_pos hbs, spellUp_append]
      · rw [if_pos ⟨by simpa using hne, hnot, hbs⟩, if_neg hbs, spellUp]
        simp
    · obtain rfl : z = y := by simpa using hz.symm
      rw [if_neg (by simp [pathSep]), pushName, if_neg (by simp [hlast]), spellUp]
      simp

theorem canonName_written (hw : Written root names sa) (hnames : ∀ x ∈ names, IsComponent x)
    (hx : IsComponent x) (ht : atEnd t = true) :
    (canonName (x ++ t) sa).path = t ∧ Written root (pushName names x) (canonName (x ++ t) sa).sa := by
  have hlen : pathLenS (x ++ t) = x.length := skipComponent_append hx.2 (atEnd_iff.mp ht)
  have hbase := canonBase_spell hw hnames x
  have htop : ∃ y ∈ (pushName names x).head?, y.getLast? = x.getLast? := by
    cases names with
    | nil => exact ⟨x, rfl, rfl⟩
    | cons y ns =>
      rw [pushName]
      split
      · refine ⟨y ++ x, rfl, ?_⟩
        rw [List.getLast?_append, List.getLast?_eq_some_getLast hx.1]
        rfl
      · exact ⟨x, rfl, rfl⟩
  simp only [canonName, hlen, List.take_left, List.drop_left, hbase, true_and]
  split
  · next hdrive =>
    obtain ⟨y, hy, hlast⟩ := htop
    refine .inr ⟨rfl, y, hy, ?_⟩
    obtain ⟨a, b, rfl⟩ := List.length_eq_two.mp hdrive.1
    rw [hlast]
    simpa using hdrive.2
  · exact .inl rfl

/-- No separator comes behind a name that does not look like a drive. -/
theorem canonName_spell (hw : Written root names sa) (hnames : ∀ x ∈ names, IsComponent x) (hx : IsComponent x)
    (ht : atEnd t = true) (hdrive : ¬(x.length = 2 ∧ x[1]? = some 58)) :
    (canonName (x ++ t) sa).sa = spellUp root (pushName names x) := by
  have hlen : pathLenS (x ++ t) = x.length := skipComponent_append hx.2 (atEnd_iff.mp ht)
  have hbase := canonBase_spell hw hnames x
  have hnot : ¬(x.length = 2 ∧ (x ++ t)[1]? = some 58) := by
    rintro ⟨htwo, hcolon⟩
    rw [List.getElem?_append_left (by omega)] at hcolon
    exact hdrive ⟨htwo, hcolon⟩
  simp only [canonName, hlen, List.take_left, hbase]
  rw [if_neg hnot]

theorem canonRound_dot (h : rest.dropWhile pathIssep = dotName ++ t) (ht : atEnd t = true) (k : Nat) :
    canonRound k ⟨rest, sa⟩ = .ok (.inl ⟨t, sa⟩) := by
  have hne : rest ≠ [] := by
    rintro rfl
    cases h
  simp only [canonRound, hne, if_false, h, dotName, List.cons_append, List.nil_append, ht, and_self, if_true]

theorem canonRound_up (h : rest.dropWhile pathIssep = upName ++ t) (ht : atEnd t = true) (k : Nat) :
    canonRound k ⟨rest, sa⟩ = if pathRight sa < 0 then .error .bounds
      else .ok (.inl ⟨t, sa.take (pathRight sa).toNat⟩) := by
  have hne : rest ≠ [] := by
    rintro rfl
    cases h
  have hdot : atEnd (pathDot :: t) = false := by simp [atEnd, pathIssep, pathDot, pathSep]
  simp only [canonRound, hne, if_false, h, upName, List.cons_append, List.nil_append, hdot,
    Bool.false_eq_true, and_false, List.head?_cons, List.tail_cons, ht, and_self, if_true]

theorem canonRound_name (h : rest.dropWhile pathIssep = x ++ t) (hx : IsComponent x) (ht : atEnd t = true)
    (hdot : x ≠ dotName) (hup : x ≠ upName) (k : Nat) :
    canonRound k ⟨rest, sa⟩ = .ok (.inl (canonName (x ++ t) sa)) := by
  have hne : rest ≠ [] := by
    rintro rfl
    exact hx.1 (List.append_eq_nil_iff.mp h.symm).1
  have hmore {y : Bytes} (hy : IsComponent y) : atEnd (y ++ t) = false := by
    obtain ⟨b, y, rfl⟩ := List.exists_cons_of_ne_nil hy.1
    have hb : b ≠ pathSep := fun he => hy.2 (by simp [he])
    simp [atEnd, pathIssep, hb]
  obtain ⟨c, x, rfl⟩ := List.exists_cons_of_ne_nil hx.1
  have hsep : pathSep ∉ x := fun hm => hx.2 (List.mem_cons_of_mem _ hm)
  have hone : ¬(c = pathDot ∧ atEnd (x ++ t) = true) := by
    rintro ⟨rfl, hend⟩
    by_cases hnil : x = []
    · exact hdot (by rw [hnil]; rfl)
    · rw [hmore ⟨hnil, hsep⟩] at hend
      cases hend
  have htwo : ¬(c = pathDot ∧ (x ++ t).head? = some pathDot ∧ atEnd (x ++ t).tail = true) := by
    rintro ⟨rfl, hhead, hend⟩
    cases x with
    | nil =>
      rw [List.nil_append] at hhead
      rcases atEnd_iff.mp ht with hnone | hsome
      · rw [hnone] at hhead
        cases hhead
      · rw [hsome] at hhead
        exact absurd hhead (by decide)
    | cons d x =>
      obtain rfl : d = pathDot := by simpa using hhead
      rw [List.cons_append, List.tail_cons] at hend
      by_cases hnil : x = []
      · exact hup (by rw [hnil]; rfl)
      · rw [hmore ⟨hnil, fun hm => hsep (List.mem_cons_of_mem _ hm)⟩] at hend
        cases hend
  simp only [canonRound, hne, if_false, h, List.cons_append, hone, htwo]

theorem canonRound_nil (h : rest.dropWhile pathIssep = []) (k : Nat) :
    canonRound k ⟨rest, sa⟩ = .ok (.inr (canonEnd sa)) := by
  simp only [canonRound, h]
  split <;> rfl

end

/-! ## Runs -/

section
variable {s : Canon} {len : Nat}

/-- A state between two rounds: the output holds the names and is no longer than what was read. -/
structure Canonical (len : Nat) (root : Bool) (names : List Bytes) (s : Canon) : Prop where
  written : Written root names s.sa
  each : ∀ x ∈ names, IsComponent x
  fits : (spellUp root names).length + s.path.length ≤ len
  stop : names ≠ [] → atEnd s.path = true

theorem Canonical.sa_le (h : Canonical len root names s) : s.sa.length ≤ len + 1 := by
  have hfits := h.fits
  rcases h.written with heq | ⟨heq, -⟩
  · rw [heq]
    omega
  · rw [heq, List.length_append, List.length_singleton]
    omega

theorem canonEnd_written {sa : Bytes} (hw : Written root names sa) (hnames : ∀ x ∈ names, IsComponent x) :
    Written (root || names.isEmpty) names (canonEnd sa) := by
  cases names with
  | nil =>
    rcases hw with rfl | ⟨-, y, hy, -⟩
    · cases root
      · exact .inl rfl
      · exact .inl rfl
    · cases hy
  | cons y ns =>
    have hne : sa ≠ [] := by
      obtain ⟨t, rfl, -⟩ := hw.tail
      simp [spellUp_ne_nil (hnames y List.mem_cons_self).1]
    have hlen : ¬sa.length = 0 := by simpa using hne
    rw [canonEnd, if_neg hlen, List.isEmpty_cons, Bool.or_false]
    exact hw

theorem pushName_components (hnames : ∀ x ∈ names, IsComponent x) (hx : IsComponent x) :
    ∀ y ∈ pushName names x, IsComponent y := by
  cases names with
  | nil => simpa [pushName] using hx
  | cons z ns =>
    have hz := hnames z List.mem_cons_self
    rw [pushName]
    split
    · refine List.forall_mem_cons.mpr ⟨⟨by simp [hx.1], ?_⟩, fun y hy => hnames y (List.mem_cons_of_mem _ hy)⟩
      rw [List.mem_append, not_or]
      exact ⟨hz.2, hx.2⟩
    · exact List.forall_mem_cons.mpr ⟨hx, hnames⟩

theorem spellUp_pushName_le (root : Bool) (names : List Bytes) (x : Bytes) :
    (spellUp root (pushName names x)).length ≤
      (spellUp root names).length + x.length + if names = [] then 0 else 1 := by
  cases names with
  | nil => simp [pushName, spellUp]
  | cons y ns =>
    rw [pushName]
    split
    · rw [spellUp_append]
      simp
    · rw [spellUp]
      simp
      omega

/-- How a run from `s` ends, with no output longer than `len + 1` on the way. -/
structure CanonEnds (len : Nat) (s : Canon) (result : Option (Bool × List Bytes)) : Prop where
  fault : result = none → ∀ r, ¬Returns (fun k => loop canonRound k s) r
  out : ∀ root names, result = some (root, names) → ∃ out,
    Returns (fun k => loop canonRound k s) out ∧ Written root names out ∧ ∀ x ∈ names, IsComponent x
  short : ∀ s', Reached canonRound s s' → s'.sa.length ≤ len + 1

theorem CanonEnds.before {s₁ : Canon} {result : Option (Bool × List Bytes)} (h : CanonEnds len s₁ result)
    (hround : ∀ k, canonRound k s = .ok (.inl s₁)) (hs : s.sa.length ≤ len + 1) :
    CanonEnds len s result := by
  refine ⟨?_, ?_, fun s' hs' => ?_⟩
  · simpa only [returns_loop_iff hround] using h.fault
  · simpa only [returns_loop_iff hround] using h.out
  · rcases hs'.cases_next hround with rfl | hs'
    · exact hs
    · exact h.short s' hs'

/-- The output goes through what the names go through, and never gets too long. -/
theorem canon_run (h : Canonical len root names s) (hxs : components s.path = xs) :
    CanonEnds len s (canonNames root names xs) := by
  induction xs generalizing s root names with
  | nil =>
    have hround (k : Nat) : canonRound k s = .ok (.inr (canonEnd s.sa)) :=
      canonRound_nil (components_eq_nil hxs) k
    rw [canonNames]
    refine ⟨fun hnone => (by cases hnone), ?_, fun s' hs' => ?_⟩
    · rintro root' names' hsome
      obtain ⟨rfl, rfl⟩ := Prod.mk.inj (Option.some.inj hsome)
      exact ⟨_, returns_loop_done ⟨0, fun k _ => hround k⟩, canonEnd_written h.written h.each, h.each⟩
    · rw [hs'.eq_start fun t ht => by rw [hround] at ht; cases ht]
      exact h.sa_le
  | cons x xs ih =>
    obtain ⟨pre, t, hpath, hdrop, hx, ht, htxs, hpre⟩ := components_scan hxs
    have hlen : s.path.length = pre.length + (x.length + t.length) := by
      rw [hpath, List.length_append, List.length_append]
    have hfits := h.fits
    -- what a round leads to holds of the whole run
    have hgo {root₁ : Bool} {names₁ : List Bytes} {s₁ : Canon}
        (hround : ∀ k, canonRound k s = .ok (.inl s₁)) (h₁ : Canonical len root₁ names₁ s₁)
        (hpath₁ : s₁.path = t) (heq : canonNames root names (x :: xs) = canonNames root₁ names₁ xs) :
        CanonEnds len s (canonNames root names (x :: xs)) := by
      rw [heq]
      exact (ih h₁ (hpath₁ ▸ htxs)).before hround h.sa_le
    have hfault (hround : ∀ k, canonRound k s = .error .bounds)
        (hnone : canonNames root names (x :: xs) = none) :
        CanonEnds len s (canonNames root names (x :: xs)) := by
      rw [hnone]
      refine ⟨fun _ => not_returns_loop hround, fun _ _ hsome => (by cases hsome), fun s' hs' => ?_⟩
      rw [hs'.eq_start fun t ht => by rw [hround] at ht; cases ht]
      exact h.sa_le
    by_cases hdot : x = dotName
    · subst hdot
      refine hgo (canonRound_dot hdrop ht) ⟨h.written, h.each, ?_, fun _ => ht⟩ rfl canonNames_dot
      dsimp only
      omega
    · by_cases hup : x = upName
      · subst hup
        have hround : ∀ k, canonRound k s = _ := canonRound_up hdrop ht
        match names, h with
        | [], h =>
          rw [h.written.right_nil] at hround
          exact hfault hround canonNames_up_nil
        | [y], h =>
          rw [h.written.right_one (h.each y List.mem_cons_self)] at hround
          cases root with
          | false => exact hfault hround canonNames_up_one
          | true =>
            refine hgo hround ⟨.inl rfl, by simp, ?_, fun _ => ht⟩ rfl canonNames_up_one
            simp [spellUp]
            omega
        | z :: y :: ns, h =>
          obtain ⟨hright, htake⟩ := h.written.right (h.each z List.mem_cons_self)
          rw [hright, if_neg (by omega), Int.toNat_natCast, htake] at hround
          have hfits := h.fits
          rw [spellUp] at hfits
          simp only [List.length_append, List.length_cons] at hfits
          refine hgo hround ⟨.inl rfl, fun w hw => h.each w (List.mem_cons_of_mem _ hw), ?_, fun _ => ht⟩
            rfl canonNames_up
          dsimp only
          omega
      · obtain ⟨hpath₁, hwritten⟩ := canonName_written h.written h.each hx ht
        refine hgo (canonRound_name hdrop hx ht hdot hup)
          ⟨hwritten, pushName_components h.each hx, ?_, fun _ => by rw [hpath₁, ht]⟩ hpath₁
          (canonNames_name hdot hup)
        have hle := spellUp_pushName_le root names x
        rw [hpath₁]
        by_cases hnil : names = []
        · rw [if_pos hnil] at hle
          omega
        · have hpos := List.length_pos_iff.mpr (hpre (h.stop hnil))
          rw [if_neg hnil] at hle
          omega

end

/-! ## Whole paths -/

/-- What `path_canonicalize` is for. -/
structure Canonicalizes (path out : Bytes) : Prop where
  dots : dotName ∉ components out
  /-- a `..` stands only behind others, and not at the root -/
  ups : ∀ xs x ys, components out = xs ++ x :: upName :: ys → x = upName
  upsRoot : out.head? = some pathSep → (components out).head? ≠ some upName
  gaps : out.IsChain fun c d => c ≠ pathSep ∨ d ≠ pathSep
  location : location out = location path
  absolute : path.head? = some pathSep → out.head? = some pathSep

def IsEntry (x : Bytes) : Prop := x ≠ dotName ∧ x ≠ upName

theorem pushName_entries (hnames : ∀ y ∈ names, IsEntry y) (hx : IsEntry x) :
    ∀ y ∈ pushName names x, IsEntry y := by
  cases names with
  | nil => simpa [pushName] using hx
  | cons z ns =>
    rw [pushName]
    split
    · next hbs =>
      refine List.forall_mem_cons.mpr ⟨?_, fun y hy => hnames y (List.mem_cons_of_mem _ hy)⟩
      have hmem : 92 ∈ z ++ x := List.mem_append_left x (List.mem_of_getLast? hbs)
      refine ⟨fun he => ?_, fun he => ?_⟩
      · rw [he] at hmem
        exact absurd hmem (by decide)
      · rw [he] at hmem
        exact absurd hmem (by decide)
    · exact List.forall_mem_cons.mpr ⟨hx, hnames⟩

theorem canonNames_entries {root' : Bool} {names' : List Bytes} (hnames : ∀ y ∈ names, IsEntry y)
    (h : canonNames root names xs = some (root', names')) : ∀ y ∈ names', IsEntry y := by
  induction xs generalizing root names with
  | nil =>
    rw [canonNames] at h
    obtain ⟨-, rfl⟩ := Prod.mk.inj (Option.some.inj h)
    exact hnames
  | cons x xs ih =>
    by_cases hdot : x = dotName
    · rw [hdot, canonNames_dot] at h
      exact ih hnames h
    · by_cases hup : x = upName
      · subst hup
        match names with
        | [] =>
          rw [canonNames_up_nil] at h
          cases h
        | [y] =>
          rw [canonNames_up_one] at h
          split at h
          · exact ih (by simp) h
          · cases h
        | z :: y :: names =>
          rw [canonNames_up] at h
          exact ih (fun w hw => hnames w (List.mem_cons_of_mem _ hw)) h
      · rw [canonNames_name hdot hup] at h
        exact ih (pushName_entries hnames ⟨hdot, hup⟩) h

theorem foldl_climb_entries (h : ∀ y ∈ xs, IsEntry y) (names : List Bytes) :
    xs.foldl (climb root) names = xs.reverse ++ names := by
  induction xs generalizing names with
  | nil => rfl
  | cons x xs ih =>
    obtain ⟨hx, hxs⟩ := List.forall_mem_cons.mp h
    rw [List.foldl_cons, climb_name hx.1 hx.2, ih hxs, List.reverse_cons]
    simp

theorem Written.location {out : Bytes} (hw : Written root names out) (hnames : ∀ x ∈ names, IsComponent x)
    (hentry : ∀ x ∈ names, IsEntry x) : location out = (root, names) := by
  have hroot : decide (out.head? = some pathSep) = root := by
    rw [Bool.eq_iff_iff, decide_eq_true_iff, hw.head hnames]
  have hall : ∀ y ∈ names.reverse, IsEntry y := fun y hy => hentry y (List.mem_reverse.mp hy)
  simp only [Dirlist.location, hroot, hw.components hnames, foldl_climb_entries hall, List.reverse_reverse,
    List.append_nil]

theorem isChain_component (hx : pathSep ∉ x) : x.IsChain fun c d => c ≠ pathSep ∨ d ≠ pathSep := by
  refine List.Pairwise.isChain (List.pairwise_of_forall_mem_list fun c hc d _ => .inl fun he => ?_)
  exact hx (he ▸ hc)

theorem spellUp_gaps (hnames : ∀ x ∈ names, IsComponent x) :
    (spellUp root names).IsChain fun c d => c ≠ pathSep ∨ d ≠ pathSep := by
  have hsep {x : Bytes} (hx : IsComponent x) : (pathSep :: x).IsChain fun c d => c ≠ pathSep ∨ d ≠ pathSep := by
    refine List.isChain_cons.mpr ⟨fun c hc => .inr fun he => ?_, isChain_component hx.2⟩
    exact hx.2 (he ▸ List.mem_of_head? hc)
  induction names with
  | nil => cases root <;> simp [spellUp]
  | cons x names ih =>
    have hx := hnames x List.mem_cons_self
    cases names with
    | nil =>
      cases root
      · exact isChain_component hx.2
      · exact hsep hx
    | cons y names =>
      have hy := hnames y (by simp)
      rw [spellUp, List.isChain_append]
      refine ⟨ih fun z hz => hnames z (List.mem_cons_of_mem _ hz), hsep hx, fun c hc d _ => .inl fun he => ?_⟩
      rw [spellUp_getLast? hy] at hc
      exact hy.2 (he ▸ List.mem_of_getLast? hc)

theorem Written.gaps {out : Bytes} (hw : Written root names out) (hnames : ∀ x ∈ names, IsComponent x) :
    out.IsChain fun c d => c ≠ pathSep ∨ d ≠ pathSep := by
  rcases hw with rfl | ⟨rfl, y, hy, -⟩
  · exact spellUp_gaps hnames
  · obtain ⟨ns, rfl⟩ : ∃ ns, names = y :: ns := by
      cases names with
      | nil => cases hy
      | cons z names => exact ⟨names, by simpa using hy⟩
    have hy := hnames y List.mem_cons_self
    rw [List.isChain_append]
    refine ⟨spellUp_gaps hnames, by simp, fun c hc d _ => .inl fun he => ?_⟩
    rw [spellUp_getLast? hy] at hc
    exact hy.2 (he ▸ List.mem_of_getLast? hc)

theorem canonical_start (path : Bytes) :
    Canonical path.length (decide (path.head? = some pathSep)) [] (canonStart path) ∧
      components (canonStart path).path = components path := by
  cases path with
  | nil => exact ⟨⟨.inl rfl, by simp, by simp [spellUp, canonStart], by simp⟩, rfl⟩
  | cons c rest =>
    by_cases hc : c = pathSep
    · subst hc
      have hstart : canonStart (pathSep :: rest) = ⟨rest, [pathSep]⟩ := rfl
      rw [hstart]
      refine ⟨⟨.inl (by simp [spellUp]), by simp, ?_, by simp⟩, (components_sep rest).symm⟩
      simp [spellUp]
      omega
    · have hstart : canonStart (c :: rest) = ⟨c :: rest, []⟩ := by simp [canonStart, pathIssep, hc]
      rw [hstart]
      exact ⟨⟨.inl (by simp [spellUp, hc]), by simp, by simp [spellUp, hc], by simp⟩, rfl⟩

/-- A path is canonicalised, in an output never longer than the path and one byte, exactly if
every `..` finds a name to take away and a name to leave, and no name ends with a backslash
before another one. -/
theorem pathCanonicalize_iff (path : Bytes) :
    ((∃ out, Returns (fun k => pathCanonicalize k path) out ∧ Canonicalizes path out) ∧
      ∀ s, Reached canonRound (canonStart path) s → s.sa.length ≤ path.length + 1) ↔
    CanonWell (decide (path.head? = some pathSep)) [] (components path) := by
  obtain ⟨hstart, hcomp⟩ := canonical_start path
  have hrun := canon_run hstart hcomp
  constructor
  · rintro ⟨⟨out, hr, hcanon⟩, -⟩
    cases hres : canonNames (decide (path.head? = some pathSep)) [] (components path) with
    | none => exact absurd hr (hrun.fault hres out)
    | some result =>
      obtain ⟨root', names'⟩ := result
      obtain ⟨out', hr', hwritten, hnames⟩ := hrun.out root' names' hres
      obtain rfl : out = out' := hr.unique hr'
      have hloc := hcanon.location
      rw [hwritten.location hnames (canonNames_entries (by simp) hres), location] at hloc
      obtain ⟨rfl, rfl⟩ := Prod.mk.inj hloc
      exact (canonWell_of_length (by simp) (Nat.le_refl _) hres rfl).1
  · intro hwell
    have hres := hwell.names_eq (by simp)
    obtain ⟨out, hr, hwritten, hnames⟩ := hrun.out _ _ hres
    have hentries := canonNames_entries (by simp) hres
    have hcomps := hwritten.components hnames
    refine ⟨⟨out, hr, ?_, ?_, ?_, ?_, ?_, ?_⟩, hrun.short⟩
    · rw [hcomps, List.mem_reverse]
      exact fun hmem => (hentries _ hmem).1 rfl
    · intro xs x ys heq
      have hmem : upName ∈ components out := by simp [heq]
      rw [hcomps, List.mem_reverse] at hmem
      exact absurd rfl (hentries _ hmem).2
    · intro _ hhead
      have hmem := List.mem_of_head? hhead
      rw [hcomps, List.mem_reverse] at hmem
      exact (hentries _ hmem).2 rfl
    · exact hwritten.gaps hnames
    · rw [hwritten.location hnames hentries, location]
    · intro habs
      rw [hwritten.head hnames]
      simpa using habs

theorem steady_pathCanonicalize (path : Bytes) : Steady (fun k => pathCanonicalize k path) :=
  steady_loop (fun s => steady_const (canonRound 0 s)) _

/-- `/a/../b` loses its root. -/
theorem pathCanonicalize_root : ¬∀ path : Bytes, path ≠ [] →
    (∃ out, Returns (fun k => pathCanonicalize k path) out ∧ Canonicalizes path out) ∧
      ∀ s, Reached canonRound (canonStart path) s → s.sa.length ≤ path.length + 1 := by
  intro hall
  obtain ⟨⟨out, hr, hcanon⟩, -⟩ := hall [47, 97, 47, 46, 46, 47, 98] (by decide)
  have hrun : Returns (fun k => pathCanonicalize k [47, 97, 47, 46, 46, 47, 98]) [98] :=
    (steady_pathCanonicalize _).returns (n := 5) (by decide)
  obtain rfl : out = [98] := hr.unique hrun
  exact absurd (hcanon.absolute rfl) (by decide)

end Dirlist
