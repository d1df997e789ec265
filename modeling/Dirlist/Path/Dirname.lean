import Dirlist.Path.Canonicalize
import Dirlist.Rules.Find

/-! `path_dirname` and `path_basename` against the table that stands above both. `path_basename` takes trailing
separators off, `path_dirname` does not, and what it keeps in front of the last separator can be nothing. -/

namespace Dirlist

/-- `path_dirname`, for a path that is not null. -/
def pathDirname (path : Bytes) : Bytes :=
  let i := strRchrs [47, 92] path
  if i = path.length then dotName
  else (path.take i).rdropWhile pathIssep

/-- `k` separators. -/
def seps (k : Nat) : Bytes := List.replicate k pathSep

/-- The rows of the table: the root, a name alone, a name below the root, and a name below a directory. Trailing
separators make no difference. -/
inductive Split : Bytes → Bytes → Bytes → Prop
  | root (k : Nat) : Split (seps (k + 1)) [pathSep] [pathSep]
  | bare {name : Bytes} (hname : IsComponent name) (k : Nat) : Split (name ++ seps k) dotName name
  | below {name : Bytes} (hname : IsComponent name) (j k : Nat) :
      Split (seps (j + 1) ++ name ++ seps k) [pathSep] name
  | inner {dir name : Bytes} (hdir : dir ≠ []) (hend : dir.getLast? ≠ some pathSep) (hname : IsComponent name)
      (j k : Nat) : Split (dir ++ seps (j + 1) ++ name ++ seps k) dir name

variable {path x y name dir base : Bytes} {j k : Nat}

/-! ## The last separator -/

theorem strRchrs_free {needles : Bytes} (h : ∀ c ∈ x, c ∉ needles) : strRchrs needles x = x.length := by
  induction x with
  | nil => rfl
  | cons c x ih => rw [strRchrs, if_pos (.inr (h c List.mem_cons_self)), ih fun d hd => h d (List.mem_cons_of_mem _ hd),
      List.length_cons]

theorem strRchrs_last {needles : Bytes} {c : UInt8} (hc : c ∈ needles) (h : ∀ d ∈ y, d ∉ needles) :
    strRchrs needles (x ++ c :: y) = x.length := by
  induction x with
  | nil => rw [List.nil_append, strRchrs, strRchrs_free h, if_neg (by simp [hc]), List.length_nil]
  | cons d x ih => rw [List.cons_append, strRchrs, ih, if_pos (.inl (by simp)), List.length_cons]

/-- Nothing in `y` separates, for a path without backslashes. -/
theorem no_needle (hy : pathSep ∉ y) (hback : 92 ∉ y) : ∀ d ∈ y, d ∉ ([47, 92] : Bytes) := by
  intro d hd hmem
  rcases List.mem_pair.mp hmem with rfl | rfl
  · exact hy hd
  · exact hback hd

theorem strRchrs_sep (hy : pathSep ∉ y) (hback : 92 ∉ y) : strRchrs [47, 92] (x ++ pathSep :: y) = x.length :=
  strRchrs_last List.mem_cons_self (no_needle hy hback)

theorem pathDirname_free (hx : pathSep ∉ x) (hback : 92 ∉ x) : pathDirname x = dotName := by
  rw [pathDirname, strRchrs_free (no_needle hx hback), if_pos rfl]

theorem pathDirname_last (hy : pathSep ∉ y) (hback : 92 ∉ y) :
    pathDirname (x ++ pathSep :: y) = x.rdropWhile pathIssep := by
  rw [pathDirname, strRchrs_sep hy hback, if_neg (by simp), List.take_left]

theorem baseName_free (hx : pathSep ∉ x) (hback : 92 ∉ x) : baseName x = x := by
  rw [baseName, pathBasename]
  cases hlen : x.length with
  | zero => rfl
  | succ k => rw [basenameFrom, strRchrs_free (no_needle hx hback), if_pos rfl]

theorem baseName_last (hy : IsComponent y) (hback : 92 ∉ y) : baseName (x ++ pathSep :: y) = y := by
  have hpos := List.length_pos_of_ne_nil hy.1
  have hlen : (x ++ pathSep :: y).length = x.length + y.length + 1 := by simp [Nat.add_assoc]
  rw [baseName, pathBasename, hlen, basenameFrom, strRchrs_sep hy.2 hback, hlen, if_neg (by omega),
    if_neg (by omega)]
  simp [List.drop_append]

/-- A separator at the end is cut off, unless it is all there is. -/
theorem baseName_sep (hx : x ≠ []) : baseName (x ++ [pathSep]) = baseName x := by
  have hpos := List.length_pos_of_ne_nil hx
  have hlen : (x ++ [pathSep]).length = x.length + 1 := by simp
  rw [baseName, pathBasename, hlen, basenameFrom, strRchrs_sep (by simp) (by simp), hlen, if_neg (by omega),
    if_pos rfl, if_neg (by omega), List.take_left]
  rfl

/-! ## Separators at the end -/

theorem seps_zero : seps 0 = [] := rfl

theorem seps_succ (k : Nat) : seps (k + 1) = seps k ++ [pathSep] := List.replicate_succ'

theorem getLast?_seps (x : Bytes) (k : Nat) : (x ++ seps (k + 1)).getLast? = some pathSep := by
  rw [seps_succ, ← List.append_assoc, List.getLast?_concat]

theorem rdropWhile_seps (x : Bytes) (k : Nat) : (x ++ seps k).rdropWhile pathIssep = x.rdropWhile pathIssep := by
  induction k with
  | zero => rw [seps_zero, List.append_nil]
  | succ k ih => rw [seps_succ, ← List.append_assoc, List.rdropWhile_concat_pos _ _ _ (by simp [pathIssep]), ih]

theorem rdropWhile_self (hx : x.getLast? ≠ some pathSep) : x.rdropWhile pathIssep = x := by
  rw [List.rdropWhile_eq_self_iff]
  intro hne hsep
  refine hx ?_
  rw [List.getLast?_eq_some_getLast hne]
  simpa [pathIssep] using hsep

theorem components_seps (x : Bytes) (k : Nat) : components (x ++ seps k) = components x := by
  induction k with
  | zero => rw [seps_zero, List.append_nil]
  | succ k ih => rw [seps_succ, ← List.append_assoc, components_append, components_nil, List.append_nil, ih]

theorem components_seps_append (x y : Bytes) (j : Nat) :
    components (x ++ seps (j + 1) ++ y) = components x ++ components y := by
  rw [seps_succ, List.append_assoc, List.append_assoc, List.singleton_append, ← List.append_assoc,
    components_append, components_seps]

theorem IsComponent.getLast? (hname : IsComponent name) : (x ++ name).getLast? ≠ some pathSep := by
  rw [List.getLast?_append_of_ne_nil _ hname.1]
  exact fun h => hname.2 (List.mem_of_getLast? h)

theorem IsComponent.head? (hname : IsComponent name) : (name ++ x).head? ≠ some pathSep := by
  rw [List.head?_append_of_ne_nil _ hname.1]
  exact fun h => hname.2 (List.mem_of_head? h)

theorem baseName_seps (hx : x ≠ []) (k : Nat) : baseName (x ++ seps k) = baseName x := by
  induction k with
  | zero => rw [seps_zero, List.append_nil]
  | succ k ih => rw [seps_succ, ← List.append_assoc, baseName_sep (List.append_ne_nil_of_left_ne_nil hx _), ih]

/-! ## The table -/

/-- What stands behind the last separator. -/
theorem exists_name (hne : x ≠ []) (hx : x.getLast? ≠ some pathSep) :
    ∃ pre name, x = pre ++ name ∧ IsComponent name ∧ (pre = [] ∨ ∃ p, pre = p ++ [pathSep]) := by
  have hlast : x.getLast hne ≠ pathSep := fun h => hx (by rw [List.getLast?_eq_some_getLast hne, h])
  refine ⟨x.rdropWhile (!pathIssep ·), x.rtakeWhile (!pathIssep ·), List.rdropWhile_append_rtakeWhile.symm,
    ⟨fun hnil => ?_, fun hmem => ?_⟩, ?_⟩
  · have hsep := List.rtakeWhile_eq_nil_iff.mp hnil hne
    exact hlast (by simpa [pathIssep] using hsep)
  · simpa [pathIssep] using List.mem_rtakeWhile_imp hmem
  · refine or_iff_not_imp_left.mpr fun hpre => ?_
    have hsep := List.rdropWhile_last_not _ _ hpre
    have hlast' : (x.rdropWhile (!pathIssep ·)).getLast hpre = pathSep :=
      of_decide_eq_true (by simpa [pathIssep] using hsep)
    exact ⟨_, hlast' ▸ (List.dropLast_append_getLast hpre).symm⟩

/-- Every path is in one of the rows. -/
theorem exists_split (hne : path ≠ []) : ∃ dir base, Split path dir base := by
  have hcut (s : Bytes) : ∃ t k, s = t ++ seps k ∧ t.getLast? ≠ some pathSep := by
    induction s using List.reverseRecOn with
    | nil => exact ⟨[], 0, rfl, by simp⟩
    | append_singleton s c ih =>
      by_cases hc : c = pathSep
      · obtain ⟨t, k, rfl, ht⟩ := ih
        exact ⟨t, k + 1, by rw [hc, seps_succ, List.append_assoc], ht⟩
      · exact ⟨s ++ [c], 0, by simp [seps], by simpa using hc⟩
  obtain ⟨t, k, rfl, ht⟩ := hcut path
  by_cases hnil : t = []
  · subst hnil
    cases k with
    | zero => exact absurd rfl hne
    | succ k => exact ⟨_, _, .root k⟩
  obtain ⟨pre, name, rfl, hname, hpre⟩ := exists_name hnil ht
  rcases hpre with rfl | ⟨p, rfl⟩
  · exact ⟨_, _, .bare hname k⟩
  · obtain ⟨dir, j, rfl, hdir⟩ := hcut p
    have hsep : dir ++ seps j ++ [pathSep] = dir ++ seps (j + 1) := by rw [seps_succ, List.append_assoc]
    rw [hsep]
    by_cases hroot : dir = []
    · rw [hroot]
      exact ⟨_, _, .below hname j k⟩
    · exact ⟨_, _, .inner hroot hdir hname j k⟩

/-- The base name is the one of the table. -/
theorem Split.baseName_eq (h : Split path dir base) (hback : 92 ∉ path) : baseName path = base := by
  cases h with
  | root k =>
    have hsep : seps (k + 1) = [pathSep] ++ seps k := List.replicate_succ
    rw [hsep, baseName_seps (by simp)]
    decide
  | bare hname k =>
    rw [baseName_seps hname.1]
    exact baseName_free hname.2 fun h => hback (by simp [h])
  | @below name hname j k =>
    rw [baseName_seps (by simp [hname.1]), seps_succ, List.append_assoc, List.singleton_append]
    exact baseName_last hname fun h => hback (by simp [h])
  | @inner dir name hdir hend hname j k =>
    rw [baseName_seps (by simp [hname.1]), seps_succ, List.append_assoc, List.append_assoc, List.singleton_append,
      ← List.append_assoc]
    exact baseName_last hname fun h => hback (by simp [h])

theorem components_ne_nil (hx : x ≠ []) (hend : x.getLast? ≠ some pathSep) : components x ≠ [] := by
  obtain ⟨pre, name, rfl, hname, rfl | ⟨p, rfl⟩⟩ := exists_name hx hend
  · rw [List.nil_append, components_of_isComponent hname]
    exact List.cons_ne_nil _ _
  · rw [List.append_assoc, List.singleton_append, components_append, components_of_isComponent hname]
    exact List.append_ne_nil_of_right_ne_nil _ (List.cons_ne_nil _ _)

/-! ## Directories -/

theorem pathDirname_name (hx : x.getLast? ≠ some pathSep) (hname : IsComponent name) (hback : 92 ∉ name) (j : Nat) :
    pathDirname (x ++ seps (j + 1) ++ name) = x := by
  rw [seps_succ, List.append_assoc, List.append_assoc, List.singleton_append, ← List.append_assoc,
    pathDirname_last hname.2 hback, rdropWhile_seps, rdropWhile_self hx]

/-- With separators at the end, all of the path is kept. -/
theorem pathDirname_seps (hx : x.getLast? ≠ some pathSep) (k : Nat) : pathDirname (x ++ seps (k + 1)) = x := by
  rw [seps_succ, ← List.append_assoc, pathDirname_last (List.not_mem_nil) (List.not_mem_nil), rdropWhile_seps,
    rdropWhile_self hx]

/-- The directory in a row of the table depends on the path alone. -/
theorem Split.dir_eq (h : Split path dir base) (hback : 92 ∉ path) :
    dir = if path.rdropWhile pathIssep = [] ∨ pathDirname (path.rdropWhile pathIssep) = [] then [pathSep]
      else pathDirname (path.rdropWhile pathIssep) := by
  have hnil : ([] : Bytes).getLast? ≠ some pathSep := by decide
  cases h with
  | root k => rw [show (seps (k + 1)).rdropWhile pathIssep = [] from rdropWhile_seps [] (k + 1), if_pos (.inl rfl)]
  | bare hname k =>
    have hdir : pathDirname base = dotName := pathDirname_free hname.2 fun h => hback (by simp [h])
    have hlast : base.getLast? ≠ some pathSep := @IsComponent.getLast? [] _ hname
    rw [rdropWhile_seps, rdropWhile_self hlast, hdir, if_neg (by simp [hname.1, dotName])]
  | below hname j k =>
    have hdir : pathDirname (seps (j + 1) ++ base) = [] :=
      @pathDirname_name [] _ hnil hname (fun h => hback (by simp [h])) j
    rw [rdropWhile_seps, rdropWhile_self hname.getLast?, hdir, if_pos (.inr rfl)]
  | inner hne hend hname j k =>
    have hdir : pathDirname (dir ++ seps (j + 1) ++ base) = dir :=
      pathDirname_name hend hname (fun h => hback (by simp [h])) j
    rw [rdropWhile_seps, rdropWhile_self hname.getLast?, hdir, if_neg (by simp [hne])]

theorem location_congr (hhead : x.head? = some pathSep ↔ y.head? = some pathSep)
    (hcomp : components x = components y) : location x = location y := by
  rw [location, location, hcomp, decide_eq_decide.mpr hhead]

/-- Directory and base name lead where the path leads. -/
theorem Split.location_eq (h : Split path dir base) : location (dir ++ pathSep :: base) = location path := by
  cases h with
  | root k =>
    refine location_congr (by simp [seps, List.replicate_succ]) ?_
    rw [show components (seps (k + 1)) = [] from components_seps [] (k + 1)]
    rfl
  | bare hname k =>
    have hcomp : components (dotName ++ pathSep :: base) = dotName :: components (base ++ seps k) := by
      rw [components_append, components_seps]
      rfl
    have hhead : (base ++ seps k).head? ≠ some pathSep := hname.head?
    have hdot : (dotName ++ pathSep :: base).head? ≠ some pathSep := by simp [dotName, pathDot, pathSep]
    rw [location, location, hcomp, List.foldl_cons, climb_dot, decide_eq_false hhead, decide_eq_false hdot]
  | below hname j k =>
    refine location_congr (by simp [seps, List.replicate_succ]) ?_
    rw [components_seps, ← List.nil_append (seps (j + 1)), components_seps_append, List.singleton_append,
      components_sep]
    rfl
  | inner hne hend hname j k =>
    refine location_congr ?_ ?_
    · rw [List.append_assoc, List.append_assoc, List.head?_append_of_ne_nil _ hne, List.head?_append_of_ne_nil _ hne]
    · rw [components_append, components_seps, components_seps_append]

/-- The path does not end in a separator, and its last name is not directly below the root. The directory of `.`
comes out right with separators at its end, too. -/
def Splittable (path : Bytes) : Prop :=
  path.getLast? ≠ some pathSep ∧ (path.head? = some pathSep → 2 ≤ (components path).length) ∨
    ∃ k, path = dotName ++ seps k

theorem Split.dirname_iff (h : Split path dir base) (hback : 92 ∉ path) : pathDirname path = dir ↔ Splittable path := by
  have hnil : ([] : Bytes).getLast? ≠ some pathSep := by decide
  have hdot (k : Nat) : components (dotName ++ seps k) = [dotName] := by
    rw [components_seps]
    rfl
  cases h with
  | root k =>
    have hdir : pathDirname (seps (k + 1)) = [] := @pathDirname_seps [] hnil k
    rw [hdir, iff_false_left (by decide)]
    rintro (⟨hend, -⟩ | ⟨m, hm⟩)
    · exact hend (getLast?_seps [] k)
    · have hcomp := hdot m
      rw [← hm, show components (seps (k + 1)) = [] from components_seps [] (k + 1)] at hcomp
      cases hcomp
  | bare hname k =>
    have hlast : base.getLast? ≠ some pathSep := @IsComponent.getLast? [] _ hname
    cases k with
    | zero =>
      rw [seps_zero, List.append_nil, pathDirname_free hname.2 fun h => hback (by simp [h]),
        iff_true_left rfl]
      exact .inl ⟨hlast, fun hhead => absurd (by simpa using hhead) (hname.head? (x := []))⟩
    | succ k =>
      rw [pathDirname_seps hlast]
      constructor
      · rintro rfl
        exact .inr ⟨_, rfl⟩
      · rintro (⟨hend, -⟩ | ⟨m, hm⟩)
        · exact absurd (getLast?_seps _ k) hend
        · have hcomp := hdot m
          rw [← hm, components_seps, components_of_isComponent hname] at hcomp
          exact List.singleton_inj.mp hcomp
  | below hname j k =>
    have hhead : (seps (j + 1) ++ base ++ seps k).head? = some pathSep := by simp [seps, List.replicate_succ]
    have hnot : ¬Splittable (seps (j + 1) ++ base ++ seps k) := by
      rintro (⟨-, hdeep⟩ | ⟨m, hm⟩)
      · have hcomp : components (seps (j + 1) ++ base ++ seps k) = [base] := by
          rw [components_seps, ← List.nil_append (seps (j + 1)), components_seps_append,
            components_of_isComponent hname, components_nil, List.nil_append]
        have hlen := hdeep hhead
        rw [hcomp] at hlen
        exact absurd hlen (by simp)
      · rw [hm] at hhead
        simp [dotName, pathDot, pathSep] at hhead
    refine iff_of_false (fun hdir => ?_) hnot
    cases k with
    | zero =>
      rw [seps_zero, List.append_nil, ← List.nil_append (seps (j + 1)),
        pathDirname_name hnil hname fun h => hback (by simp [h])] at hdir
      cases hdir
    | succ k =>
      rw [pathDirname_seps hname.getLast?] at hdir
      have hlen := congrArg List.length hdir
      have hpos := List.length_pos_of_ne_nil hname.1
      rw [List.length_append, seps, List.length_replicate, List.length_singleton] at hlen
      omega
  | inner hne hend hname j k =>
    cases k with
    | zero =>
      rw [seps_zero, List.append_nil,
        pathDirname_name hend hname fun h => hback (by simp [h]), iff_true_left rfl]
      refine .inl ⟨hname.getLast?, fun _ => ?_⟩
      have hpos := List.length_pos_of_ne_nil (components_ne_nil hne hend)
      rw [components_seps_append, components_of_isComponent hname, List.length_append, List.length_singleton]
      omega
    | succ k =>
      rw [pathDirname_seps hname.getLast?]
      refine iff_of_false (fun hdir => ?_) ?_
      · have hlen := congrArg List.length hdir
        have hpos := List.length_pos_of_ne_nil hname.1
        rw [List.length_append, List.length_append] at hlen
        omega
      · rintro (⟨hlast, -⟩ | ⟨m, hm⟩)
        · exact hlast (getLast?_seps _ k)
        · have hpos := List.length_pos_of_ne_nil (components_ne_nil hne hend)
          have hcomp := congrArg List.length (hdot m)
          rw [← hm, components_seps, components_seps_append, components_of_isComponent hname, List.length_append,
            List.length_singleton, List.length_singleton] at hcomp
          omega

end Dirlist
