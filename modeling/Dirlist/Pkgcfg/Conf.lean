import Dirlist.Lib.Search
import Dirlist.Pkgcfg.Defs
import Dirlist.Strlist.Scan

/-! What `pkg_conf` makes of a database of packages: it searches along the names it takes from
the requirements, and prints the field of the last module only. -/

namespace Dirlist
open Run Search

/-! ## Databases -/

/-- What separates the packages of a field. -/
def isSeparator (c : UInt8) : Bool := c ∈ requireDelim

def words (s : Bytes) : List Bytes := (s.splitOnP isSeparator).filter (· ≠ [])

/-- Packages with the texts their requirements expand to, which name packages of the database. -/
structure Database where
  names : List Bytes
  bare : ∀ m ∈ names, ∀ c ∈ m, ¬isSeparator c
  pkg : Bytes → Pkg
  req : Bytes → Bytes
  expands : ∀ m ∈ names, Returns (fun k => pkgExpand k (pkg m) requiresKey) (req m)
  listed : ∀ m ∈ names, ∀ w ∈ words (req m), w ∈ names

namespace Database

def pkgOpen (db : Database) (name : Bytes) : Option Pkg :=
  if db.names.contains name then some (db.pkg name) else none

/-- The expanded field of a module. -/
def Field (db : Database) (key m v : Bytes) : Prop := Returns (fun k => pkgExpand k (db.pkg m) key) v

end Database

/-- All packages that can be reached, in the order a breadth-first search finds them. -/
structure Closure (next : Bytes → List Bytes) (init l : List Bytes) : Prop where
  ends : Walk next [] init l
  nodup : l.Nodup
  reached : ∀ x, x ∈ l ↔ ∃ s ∈ init, Relation.ReflTransGen (fun a b => b ∈ next a) s x

/-- The fields of the modules stand in a text, one behind the other. -/
def Prints (field : Bytes → Bytes → Prop) : List Bytes → Bytes → Prop
  | [], _ => True
  | m :: ms, out => ∃ f a b, field m f ∧ out = a ++ (f ++ b) ∧ Prints field ms b

/-- `PRINT_LIBS` and `PRINT_CFLAGS` -/
def PrintCode.IsFlags (code : PrintCode) : Prop := code = .libs ∨ code = .cflags

variable {field : Bytes → Bytes → Prop} {l : List Bytes} {z f out : Bytes}

/-! ## Texts -/

theorem Prints.length_le (hfun : ∀ m f g, field m f → field m g → f = g)
    (h : Prints field (l ++ [z]) out) (hz : field z f) : f.length ≤ out.length := by
  induction l generalizing out with
  | nil =>
    obtain ⟨g, a, b, hg, rfl, -⟩ := h
    obtain rfl := hfun z f g hz hg
    simp only [List.length_append]
    omega
  | cons m l ih =>
    obtain ⟨g, a, b, -, rfl, hrest⟩ := h
    have := ih hrest
    simp only [List.length_append]
    omega

/-- The field of the last module has room for the other ones only if they are empty. -/
theorem prints_last (hfun : ∀ m f g, field m f → field m g → f = g) (hz : field z out) :
    Prints field (l ++ [z]) out ↔ ∀ m ∈ l, field m [] := by
  induction l with
  | nil => exact ⟨fun _ => by simp, fun _ => ⟨out, [], [], hz, by simp, trivial⟩⟩
  | cons m l ih =>
    rw [List.forall_mem_cons, ← ih]
    constructor
    · rintro ⟨g, a, b, hg, hout, hrest⟩
      have hle := hrest.length_le hfun hz
      have hlen := congrArg List.length hout
      simp only [List.length_append] at hlen
      obtain rfl : g = [] := List.length_eq_zero_iff.mp (by omega)
      obtain rfl : a = [] := List.length_eq_zero_iff.mp (by omega)
      rw [List.nil_append, List.nil_append] at hout
      exact ⟨hg, hout ▸ hrest⟩
    · exact fun h => ⟨[], [], out, h.1, rfl, h.2⟩

/-! ## Expanding -/

theorem steady_pkgExpand (pf : Pkg) (key : Bytes) : Steady (fun k => pkgExpand k pf key) := by
  unfold pkgExpand
  cases pkgGet pf key with
  | none => exact steady_const _
  | some s => exact steady_loop (fun v => steady_const (expandRound pf.vars 0 v)) s

theorem Database.Field.unique {db : Database} {key m g : Bytes} (h : db.Field key m f)
    (h' : db.Field key m g) : f = g := Returns.unique h h'

/-- The field of the last module holds those of all only if the other ones are empty. -/
theorem prints_dropLast {db : Database} {key : Bytes}
    (hlast : ∀ z, l.getLast? = some z → db.Field key z out) :
    Prints (db.Field key) l out ↔ ∀ m ∈ l.dropLast, db.Field key m [] := by
  rcases List.eq_nil_or_concat l with rfl | ⟨l, z, rfl⟩
  · exact ⟨fun _ => by simp, fun _ => trivial⟩
  · rw [List.concat_eq_append, List.dropLast_concat]
    exact prints_last (fun _ _ _ => Database.Field.unique) (hlast z (by simp))

/-! ## Names separated by single blanks -/

theorem Lists.required {text : Bytes} {xs : List Bytes} (h : Lists 32 text xs)
    (hbare : ∀ x ∈ xs, ∀ c ∈ x, ¬isSeparator c) : required text = xs := by
  have hcomma : 44 ∉ text := by
    intro hmem
    rcases h.mem hmem with hc | ⟨x, hx, hc⟩
    · cases hc
    · exact hbare x hx 44 hc (by decide)
  have hfree : ¬requireDelim <:+: text := fun hinf => hcomma (hinf.subset (by decide))
  rcases Nat.eq_zero_or_pos text.length with hlen | hlen
  · obtain rfl := List.length_eq_zero_iff.mp hlen
    exact (h.eq_nil_iff.mp rfl).symm
  · obtain ⟨k, hk⟩ : ∃ k, text.length = k + 1 := ⟨text.length - 1, by omega⟩
    have hfromb : strlistFromb (strlistInit 32) text requireDelim = strlistPushb (strlistInit 32) text := by
      rw [strlistFromb, hk, frombFrom, if_neg (List.length_pos_iff.mp hlen),
        (byteFindb_eq_length (by decide)).mpr hfree]
      simp [requireDelim]
    rw [Dirlist.required, hfromb]
    exact Lists.foreach (by simpa [strlistPushb, strlistInit] using h) (Nat.le_refl _)

theorem Lists.words {text : Bytes} {xs : List Bytes} (h : Lists 32 text xs)
    (hbare : ∀ x ∈ xs, ∀ c ∈ x, ¬isSeparator c) : words text = xs := by
  induction h with
  | nil => rfl
  | @last x hx =>
    have hx' : ∀ c ∈ x, isSeparator c = false := fun c hc => by simpa using hbare x (by simp) c hc
    rw [Dirlist.words, List.splitOnP_eq_singleton hx']
    simp [hx.1]
  | @cons x s xs hx hs ih =>
    have hx' : ∀ c ∈ x, isSeparator c = false := fun c hc => by simpa using hbare x (by simp) c hc
    have hs' := ih fun y hy => hbare y (List.mem_cons_of_mem x hy)
    rw [Dirlist.words] at hs' ⊢
    rw [List.splitOnP_append_cons_of_forall_mem hx' 32 (by decide),
      List.filter_cons_of_pos (by simpa using hx.1), hs']

/-! ## Rounds -/

variable {db : Database} {code : PrintCode} {m value : Bytes} {done todo : List Bytes}

theorem foldl_pushbUnique (modules names : List Bytes) :
    names.foldl strarrayPushbUnique modules = modules ++ fresh modules names := by
  rw [← foldl_fresh]
  congr
  funext seen x
  simp [strarrayPushbUnique]

/-- What the round of a module makes of the modules and of `value`. -/
theorem confRound_ok {k : Nat} {x : (Nat × List Bytes × Bytes) ⊕ (Nat × List Bytes × Option Bytes)}
    (h : confRound db.pkgOpen code false k (done.length, done ++ m :: todo, value) = .ok x) :
    (∃ l, x = .inr (1, l, none)) ∨ m ∈ db.names ∧ ∃ v,
      x = .inl (done.length + 1,
        (done ++ m :: todo) ++ fresh (done ++ m :: todo) (required (db.req m)), v) ∧
      ∀ fn, code.field = some fn → db.Field fn m v := by
  have hat : (done ++ m :: todo)[done.length]? = some m := by simp
  simp only [confRound, hat, Database.pkgOpen, List.contains_iff_mem] at h
  by_cases hm : m ∈ db.names
  · rw [if_pos hm] at h
    obtain ⟨r, hr, h⟩ := bind_eq_ok h
    obtain rfl := (steady_pkgExpand _ _).eq_of_ok (db.expands m hm) hr
    rw [foldl_pushbUnique] at h
    refine .inr ⟨hm, ?_⟩
    cases hcode : code.field with
    | none =>
      rw [hcode] at h
      cases h
      exact ⟨_, rfl, fun fn hfn => by cases hfn⟩
    | some fn =>
      rw [hcode] at h
      obtain ⟨v, hv, h⟩ := bind_eq_ok h
      cases h
      refine ⟨v, rfl, fun fn' hfn => ?_⟩
      cases hfn
      exact (steady_pkgExpand _ _).returns hv
  · rw [if_neg hm] at h
    cases h
    exact .inl ⟨_, rfl⟩

theorem returns_confRound (done todo : List Bytes) (value : Bytes) (hm : m ∈ db.names)
    (hfield : ∀ fn, code.field = some fn → ∃ v, db.Field fn m v) :
    ∃ v, Returns (fun k => confRound db.pkgOpen code false k (done.length, done ++ m :: todo, value))
      (.inl (done.length + 1,
        (done ++ m :: todo) ++ fresh (done ++ m :: todo) (required (db.req m)), v)) := by
  have hat : (done ++ m :: todo)[done.length]? = some m := by simp
  simp only [confRound, hat, Database.pkgOpen, List.contains_iff_mem, if_pos hm, foldl_pushbUnique]
  cases hcode : code.field with
  | none => exact ⟨_, (db.expands m hm).bind (returns_ok _)⟩
  | some fn =>
    obtain ⟨v, hv⟩ := hfield fn hcode
    exact ⟨v, (db.expands m hm).bind (hv.bind (returns_ok _))⟩

/-! ## Runs -/

/-- The modules so far have the field, and `value` is that of the last one. -/
structure Visited (db : Database) (code : PrintCode) (done : List Bytes) (value : Bytes) : Prop where
  expand : ∀ fn, code.field = some fn → ∀ m ∈ done, ∃ v, db.Field fn m v
  last : ∀ fn, code.field = some fn → ∀ z, done.getLast? = some z → db.Field fn z value

theorem visited_nil (db : Database) (code : PrintCode) : Visited db code [] [] where
  expand := by simp
  last := by simp

theorem Visited.snoc {v : Bytes} (h : Visited db code done value)
    (hv : ∀ fn, code.field = some fn → db.Field fn m v) : Visited db code (done ++ [m]) v where
  expand fn hfn y hy := by
    rcases List.mem_append.mp hy with hy | hy
    · exact h.expand fn hfn y hy
    · exact ⟨v, List.mem_singleton.mp hy ▸ hv fn hfn⟩
  last fn hfn z hz := by
    rw [List.getLast?_concat] at hz
    cases hz
    exact hv fn hfn

/-- A run that is not given up searches along the names it takes from the requirements. -/
theorem loop_confRound {n : Nat} (hdone : Visited db code done value)
    (h : loop (confRound db.pkgOpen code false) n (done.length, done ++ todo, value) =
      .ok (0, l, some out)) :
    Walk (fun m => required (db.req m)) done todo l ∧ Visited db code l out := by
  induction n generalizing done todo value with
  | zero => cases h
  | succ n ih =>
    obtain ⟨x, hx, h⟩ := bind_eq_ok h
    cases todo with
    | nil =>
      simp only [confRound, List.append_nil, List.getElem?_length] at hx
      cases hx
      cases h
      exact ⟨.done, hdone⟩
    | cons m todo =>
      rcases confRound_ok hx with ⟨l', rfl⟩ | ⟨-, v, rfl, hv⟩
      · cases h
      · have hlist : (done ++ m :: todo) ++ fresh (done ++ m :: todo) (required (db.req m)) =
            (done ++ [m]) ++ (todo ++ fresh (done ++ m :: todo) (required (db.req m))) := by simp
        have hlen : done.length + 1 = (done ++ [m]).length := by simp
        rw [hlist, hlen] at h
        obtain ⟨hends, hl⟩ := ih (hdone.snoc hv) h
        exact ⟨.visit hends, hl⟩

theorem returns_loop_confRound (hends : Walk (fun m => required (db.req m)) done todo l)
    (hnames : ∀ m ∈ l, m ∈ db.names)
    (hfields : ∀ fn, code.field = some fn → ∀ m ∈ l, ∃ v, db.Field fn m v) (value : Bytes) :
    ∃ out, Returns (fun k => loop (confRound db.pkgOpen code false) k (done.length, done ++ todo, value))
      (0, l, some out) := by
  induction hends generalizing value with
  | @done done =>
    have hround : ∀ k, confRound db.pkgOpen code false k (done.length, done ++ [], value) =
        .ok (.inr (0, done, some value)) := fun k => by simp [confRound]
    exact ⟨value, returns_loop_done ((returns_ok _).congr hround)⟩
  | @visit done todo l m hends ih =>
    have hmem : m ∈ l := hends.discovered.subset (by simp)
    obtain ⟨v, hv⟩ := returns_confRound done todo value (hnames m hmem)
      fun fn hfn => hfields fn hfn m hmem
    obtain ⟨out, hout⟩ := ih hnames hfields v
    refine ⟨out, returns_loop_next hv ?_⟩
    simpa using hout

/-! ## The closure -/

theorem Closure.mem_names {init : List Bytes} (h : Closure (fun m => words (db.req m)) init l)
    (hinit : ∀ m ∈ init, m ∈ db.names) : ∀ m ∈ l, m ∈ db.names := by
  intro m hm
  obtain ⟨s, hs, hsm⟩ := (h.reached m).mp hm
  induction hsm with
  | refl => exact hinit s hs
  | tail hsx hxy ih => exact db.listed _ (ih ((h.reached _).mpr ⟨s, hs, hsx⟩)) _ hxy

theorem Closure.of_ends {next : Bytes → List Bytes} {init : List Bytes} (hl : Walk next [] init l)
    (hnd : init.Nodup) : Closure next init l where
  ends := hl
  nodup := hl.nodup hnd
  reached := hl.mem_iff

theorem exists_closure {init : List Bytes} (hinit : ∀ m ∈ init, m ∈ db.names) (hnd : init.Nodup) :
    ∃ l, Closure (fun m => words (db.req m)) init l := by
  obtain ⟨l, hl⟩ : ∃ l, Walk (fun m => words (db.req m)) [] init l := exists_walk db.listed hinit hnd
  exact ⟨l, .of_ends hl hnd⟩

/-- Single blanks between the names are enough for the search. -/
theorem Closure.required {init : List Bytes} (h : Closure (fun m => words (db.req m)) init l)
    (hblank : ∀ m ∈ l, ∃ xs, Lists 32 (db.req m) xs ∧ ∀ x ∈ xs, ∀ c ∈ x, ¬isSeparator c)
    (hnd : init.Nodup) : Closure (fun m => required (db.req m)) init l := by
  refine .of_ends (h.ends.congr fun m hm => ?_) hnd
  obtain ⟨xs, hxs, hbare⟩ := hblank m hm
  exact (hxs.words hbare).trans (hxs.required hbare).symm

/-- What `pkg_conf` is for: it ends with the closure of the modules and prints their fields. -/
def Evaluates (db : Database) (code : PrintCode) (init l : List Bytes) : Prop :=
  ∃ out, Returns (fun k => pkgConf db.pkgOpen k init code false) (0, l, some out) ∧
    (code.IsFlags → ∀ fn, code.field = some fn → Prints (db.Field fn) l out)

theorem pkgConf_iff (db : Database) (code : PrintCode) (init : List Bytes)
    (hinit : ∀ m ∈ init, m ∈ db.names) (hnd : init.Nodup) :
    ∃ l, Closure (fun m => words (db.req m)) init l ∧
      (Evaluates db code init l ↔ Closure (fun m => required (db.req m)) init l ∧
        ∀ fn, code.field = some fn → (∀ m ∈ l, ∃ v, db.Field fn m v) ∧
          (code.IsFlags → ∀ m ∈ l.dropLast, db.Field fn m [])) := by
  obtain ⟨l, hl⟩ := exists_closure hinit hnd
  refine ⟨l, hl, ?_, ?_⟩
  · rintro ⟨out, ⟨N, hN⟩, hprints⟩
    obtain ⟨hends, hvisited⟩ := loop_confRound (visited_nil db code) (hN N le_rfl)
    refine ⟨.of_ends hends hnd, fun fn hfn => ⟨hvisited.expand fn hfn, fun hflags => ?_⟩⟩
    exact prints_dropLast (hvisited.last fn hfn) |>.mp (hprints hflags fn hfn)
  · rintro ⟨hreq, hfields⟩
    obtain ⟨out, hout⟩ := returns_loop_confRound hreq.ends (hl.mem_names hinit)
      (fun fn hfn => (hfields fn hfn).1) []
    obtain ⟨N, hN⟩ := hout
    obtain ⟨-, hvisited⟩ := loop_confRound (visited_nil db code) (hN N le_rfl)
    refine ⟨out, ⟨N, hN⟩, fun hflags fn hfn => ?_⟩
    exact prints_dropLast (hvisited.last fn hfn) |>.mpr ((hfields fn hfn).2 hflags)

/-! ## Two packages -/

/-- A package `a` that requires `b`, with the libraries of the two. -/
def pairFields (libs : Bytes) (m key : Bytes) : Option Bytes :=
  if key = requiresKey then (if m = [97] then some [98] else none)
  else if m = [97] then some libs else some [45, 108, 98]

def pairDatabase (libs : Bytes) : Database where
  names := [[97], [98]]
  bare := by decide
  pkg m := ⟨m, fun _ => none, pairFields libs m⟩
  req m := if m = [97] then [98] else []
  expands := by
    intro m hm
    refine (steady_pkgExpand _ _).returns (n := 1) ?_
    simp only [List.mem_cons, List.not_mem_nil, or_false] at hm
    rcases hm with rfl | rfl <;> rfl
  listed := by decide

theorem pairDatabase_ends (libs : Bytes) :
    Walk (fun m => words ((pairDatabase libs).req m)) [] [[97]] [[97], [98]] := by
  have hb : Walk (fun m => words ((pairDatabase libs).req m)) [[97]] [[98]] [[97], [98]] :=
    .visit .done
  exact .visit hb

/-- `a` adds nothing to the flags of `b`. -/
theorem pkgConf_pair : Evaluates (pairDatabase []) .libs [[97]] [[97], [98]] := by
  obtain ⟨l, hl, hiff⟩ := pkgConf_iff (pairDatabase []) .libs [[97]] (by decide) (by decide)
  obtain rfl := hl.ends.unique (pairDatabase_ends [])
  have hblank : ∀ m ∈ [[97], [98]], ∃ xs, Lists 32 ((pairDatabase []).req m) xs ∧
      ∀ x ∈ xs, ∀ c ∈ x, ¬isSeparator c := by
    intro m hm
    simp only [List.mem_cons, List.not_mem_nil, or_false] at hm
    rcases hm with rfl | rfl
    · exact ⟨[[98]], .last ⟨by decide, by decide⟩, by decide⟩
    · exact ⟨[], .nil, by decide⟩
  refine hiff.mpr ⟨hl.required hblank (by decide), fun fn hfn => ?_⟩
  cases hfn
  have ha : (pairDatabase []).Field [76, 105, 98, 115] [97] [] :=
    (steady_pkgExpand _ _).returns (n := 1) rfl
  have hb : (pairDatabase []).Field [76, 105, 98, 115] [98] [45, 108, 98] :=
    (steady_pkgExpand _ _).returns (n := 1) rfl
  refine ⟨fun m hm => ?_, fun _ m hm => ?_⟩
  · simp only [List.mem_cons, List.not_mem_nil, or_false] at hm
    rcases hm with rfl | rfl
    · exact ⟨_, ha⟩
    · exact ⟨_, hb⟩
  · obtain rfl : m = [97] := by simpa using hm
    exact ha

/-- Of `-la` and `-lb` only the second is printed. -/
theorem pkgConf_last : ¬∃ l, Closure (fun m => words ((pairDatabase [45, 108, 97]).req m)) [[97]] l ∧
    Evaluates (pairDatabase [45, 108, 97]) .libs [[97]] l := by
  rintro ⟨l, hl, out, ⟨N, hN⟩, hprints⟩
  obtain rfl := hl.ends.unique (pairDatabase_ends _)
  obtain ⟨-, hvisited⟩ := loop_confRound (visited_nil _ _) (hN N le_rfl)
  have hnone := (prints_dropLast (hvisited.last _ rfl)).mp (hprints (.inl rfl) _ rfl) [97] (by simp)
  have hsome : (pairDatabase [45, 108, 97]).Field [76, 105, 98, 115] [97] [45, 108, 97] :=
    (steady_pkgExpand _ _).returns (n := 1) rfl
  exact absurd (hnone.unique hsome) (by decide)

end Dirlist
