import Dirlist.Lib.Depth
import Dirlist.Lib.Run
import Dirlist.Strlist.Grow

/-! `sourcedir_deps`. A directory is marked when it first descends, and stands in the output when it
is left, so those that carry the serial or stand there, and the one at hand, are the discovered
ones. -/

namespace Dirlist
open Run Search

variable {α : Type} [DecidableEq α]

/-- The map of source directories, with the names they depend on. -/
structure Sourcedirs (α : Type) (sep : UInt8) where
  dirs : List α
  name : α → Bytes
  deps : α → List Bytes
  named : ∀ d ∈ dirs, Clean sep (name d)
  distinct : ∀ d ∈ dirs, ∀ e ∈ dirs, name d = name e → d = e

variable {sep : UInt8}

/-- `sourcedir_findb` -/
def sourcedirFindb (m : Sourcedirs α sep) (x : Bytes) : Option α := m.dirs.find? fun d => m.name d = x

/-- The serials of the directories, and the output. -/
structure DirState (α : Type) where
  serial : α → UInt32
  out : Strlist

/-- `sourcedir_dep_recursive` -/
def sourcedirDepRecursive (m : Sourcedirs α sep) (serial : UInt32) :
    Nat → α → Option α → DirState α → Exec (DirState α)
  | 0, _, _, _ => .error .fuel
  | k + 1, srcdir, parent, st =>
    if st.serial srcdir = serial then .ok st
    else (m.deps srcdir).foldlM (fun st s =>
      if strlistContainsb st.out s then .ok st
      else match sourcedirFindb m s with
      | none => .ok st
      | some sdir =>
        if sdir = srcdir then .ok st
        else if st.serial sdir = serial then .ok st
        else if some sdir = parent then .ok st
        else do
          let st ← sourcedirDepRecursive m serial k sdir (some srcdir)
            { st with serial := Function.update st.serial srcdir serial }
          .ok { st with out := strlistPushb st.out s }) st

/-- The body of the loop of `sourcedir_dep_recursive`. -/
def dirBody (m : Sourcedirs α sep) (serial : UInt32) (k : Nat) (srcdir : α) (parent : Option α) (st : DirState α)
    (s : Bytes) : Exec (DirState α) :=
  if strlistContainsb st.out s then .ok st
  else match sourcedirFindb m s with
  | none => .ok st
  | some sdir =>
    if sdir = srcdir then .ok st
    else if st.serial sdir = serial then .ok st
    else if some sdir = parent then .ok st
    else do
      let st ← sourcedirDepRecursive m serial k sdir (some srcdir)
        { st with serial := Function.update st.serial srcdir serial }
      .ok { st with out := strlistPushb st.out s }

/-- The known directories that one depends on. -/
def knownDeps (m : Sourcedirs α sep) (d : α) : List α := (m.deps d).filterMap (sourcedirFindb m)

variable {m : Sourcedirs α sep} {serial : UInt32} {seen todo l post : List α} {outs names : List Bytes}
  {st : DirState α}
  {u d : α} {parent : Option α} {s : Bytes}

omit [DecidableEq α] in
theorem sourcedirFindb_some (h : sourcedirFindb m s = some d) : d ∈ m.dirs ∧ m.name d = s :=
  ⟨List.mem_of_find?_eq_some h, by simpa using List.find?_some h⟩

omit [DecidableEq α] in
theorem knownDeps_mem (h : d ∈ knownDeps m u) : d ∈ m.dirs := by
  obtain ⟨s, -, hs⟩ := List.mem_filterMap.mp h
  exact (sourcedirFindb_some hs).1

/-! ## The output -/

/-- An output that a name can be pushed to. -/
structure OutOk (sep : UInt8) (out : Strlist) (outs : List Bytes) : Prop where
  separator : out.sep = sep
  holds : out.Holds outs
  shut : out.sa.getLast? ≠ some sep

theorem outOk_init (sep : UInt8) : OutOk sep (strlistInit sep) [] := ⟨rfl, .nil, by simp [strlistInit]⟩

theorem OutOk.pushb {out : Strlist} (h : OutOk sep out outs) (hs : Clean sep s) :
    OutOk sep (strlistPushb out s) (outs ++ [s]) where
  separator := h.separator
  holds := h.holds.pushb (h.separator ▸ hs) (h.separator ▸ h.shut)
  shut := by
    simp only [strlistPushb]
    rw [List.getLast?_append_of_ne_nil _ hs.1]
    exact fun he => hs.2 (List.mem_of_getLast? he)

/-- What is discovered, other than the directory at hand, carries the serial or stands in the
output. -/
structure DirView (m : Sourcedirs α sep) (serial : UInt32) (u : α) (outs : List Bytes) (seen : List α)
    (st : DirState α) : Prop where
  out : OutOk sep st.out outs
  marked : ∀ x ∈ m.dirs, x ≠ u → (x ∈ seen ↔ st.serial x = serial ∨ m.name x ∈ outs)

theorem dirBody_none (k : Nat) (h : sourcedirFindb m s = none) : dirBody m serial k u parent st s = .ok st := by
  unfold dirBody
  split
  · rfl
  · rw [h]

theorem dirBody_seen (k : Nat) (hview : DirView m serial u outs seen st) (hs : sourcedirFindb m s = some d)
    (hd : d ∈ seen) : dirBody m serial k u parent st s = .ok st := by
  obtain ⟨hdir, rfl⟩ := sourcedirFindb_some hs
  by_cases hcon : strlistContainsb st.out (m.name d) = true
  · rw [dirBody, if_pos hcon]
  · rw [dirBody, if_neg hcon, hs]
    by_cases hdu : d = u
    · simp only [if_pos hdu]
    · have hnot : m.name d ∉ outs := by simpa [hview.out.holds.contains] using hcon
      have hserial : st.serial d = serial := ((hview.marked d hdir hdu).mp hd).resolve_right hnot
      simp only [if_neg hdu, if_pos hserial]

theorem DirView.enter (hview : DirView m serial u outs seen st) (hu : u ∈ seen) (hdu : d ≠ u) :
    DirView m serial d outs (seen ++ [d]) { st with serial := Function.update st.serial u serial } where
  out := hview.out
  marked x hx hxd := by
    by_cases hxu : x = u
    · subst hxu
      simp [hu]
    · simp [hxd, hxu, hview.marked x hx hxu]

theorem DirView.leave (hview : DirView m serial d outs seen st) (hd : d ∈ m.dirs) (hseen : d ∈ seen) (u : α) :
    DirView m serial u (outs ++ [m.name d]) seen { st with out := strlistPushb st.out (m.name d) } where
  out := hview.out.pushb (m.named d hd)
  marked x hx _ := by
    by_cases hxd : x = d
    · subst hxd
      simp [hseen]
    · have hname : m.name x ≠ m.name d := fun he => hxd (m.distinct x hx d hd he)
      simp [hview.marked x hx hxd, hname]

/-- Names that are not known change nothing. -/
theorem returns_unknown {pre : List Bytes} {r : DirState α} (hpre : ∀ s ∈ pre, sourcedirFindb m s = none)
    (hr : Returns (fun k => names.foldlM (dirBody m serial k u parent) st) r) :
    Returns (fun k => (pre ++ names).foldlM (dirBody m serial k u parent) st) r := by
  induction pre with
  | nil => exact hr
  | cons s pre ih =>
    obtain ⟨hs, hpre⟩ := List.forall_mem_cons.mp hpre
    exact returns_foldlM_cons ((returns_ok st).congr fun k => dirBody_none k hs) (ih hpre)

/-- A call for a directory that does not carry the serial is the loop over its names. -/
theorem returns_dirCall {r : DirState α} (hserial : st.serial u ≠ serial)
    (hr : Returns (fun k => (m.deps u).foldlM (dirBody m serial k u parent) st) r) :
    Returns (fun k => sourcedirDepRecursive m serial k u parent st) r := by
  refine hr.succ fun k => ?_
  rw [sourcedirDepRecursive, if_neg hserial]
  rfl

/-- The loop over the names is the search through the known directories among them. -/
theorem returns_dirLoop (hvis : Visits (knownDeps m) seen todo l post)
    (htodo : names.filterMap (sourcedirFindb m) = todo) (hview : DirView m serial u outs seen st) (hu : u ∈ seen)
    (hparent : ∀ p ∈ parent, p ∈ seen) :
    ∃ st', Returns (fun k => names.foldlM (dirBody m serial k u parent) st) st' ∧
      DirView m serial u (outs ++ post.map m.name) l st' := by
  induction hvis generalizing names outs u parent st with
  | done =>
    have hnone := List.filterMap_eq_nil_iff.mp htodo
    have hrest : Returns (fun k => (names ++ []).foldlM (dirBody m serial k u parent) st) st :=
      returns_unknown hnone (returns_ok st)
    rw [List.append_nil] at hrest
    exact ⟨st, hrest, by simpa using hview⟩
  | @skip seen todo l post d hd hvis ih =>
    obtain ⟨pre, s, rest, rfl, hpre, hs, hrest⟩ := List.filterMap_eq_cons_iff.mp htodo
    obtain ⟨st', hr, hview'⟩ := ih hrest hview hu hparent
    refine ⟨st', returns_unknown hpre (returns_foldlM_cons ?_ hr), hview'⟩
    exact (returns_ok st).congr fun k => dirBody_seen k hview hs hd
  | @visit seen todo mid l inner post d hd h₁ h₂ ih₁ ih₂ =>
    obtain ⟨pre, s, rest, rfl, hpre, hs, hrest⟩ := List.filterMap_eq_cons_iff.mp htodo
    obtain ⟨hdir, rfl⟩ := sourcedirFindb_some hs
    have hdu : d ≠ u := fun he => hd (he ▸ hu)
    obtain ⟨hserial, hnot⟩ : st.serial d ≠ serial ∧ m.name d ∉ outs := by
      simpa using mt (hview.marked d hdir hdu).mpr hd
    have hchild : ∀ p ∈ some u, p ∈ seen ++ [d] := fun p hp => List.mem_append_left _ (Option.some.inj hp ▸ hu)
    obtain ⟨st₁, hr₁, hview₁⟩ := ih₁ rfl (hview.enter hu hdu) (by simp) hchild
    have hmid : ∀ x ∈ seen, x ∈ mid := fun x hx => h₁.discovered.subset (List.mem_append_left _ hx)
    obtain ⟨st₂, hr₂, hview₂⟩ := ih₂ hrest (hview₁.leave hdir (h₁.discovered.subset (by simp)) u) (hmid u hu)
      fun p hp => hmid p (hparent p hp)
    refine ⟨st₂, returns_unknown hpre (returns_foldlM_cons ?_ hr₂), by simpa using hview₂⟩
    have hcon : ¬strlistContainsb st.out (m.name d) = true := by simpa [hview.out.holds.contains] using hnot
    have hpar : some d ≠ parent := fun he => hd (hparent d he.symm)
    simp only [dirBody, if_neg hcon, hs, if_neg hdu, if_neg hserial, if_neg hpar]
    have hchildSerial : Function.update st.serial u serial d ≠ serial := by rwa [Function.update_of_ne hdu]
    exact (returns_dirCall hchildSerial hr₁).bind (returns_ok _)

/-! ## The closure -/

/-- A directory, one it depends on and one that both depend on, with a name that is not known. -/
def threeDirs : Sourcedirs Nat 0 where
  dirs := [0, 1, 2]
  name d := [97 + UInt8.ofNat d]
  deps d := if d = 0 then [[99], [98], [120]] else if d = 1 then [[99]] else []
  named := by simp [Clean]
  distinct := by decide

end Dirlist
