import Dirlist.Lib.Dict
import Dirlist.Path.Links

/-! What `path_canonicalize` is to make of symbolic links: a path is resolved name by name, and a link gives way to
its text. The loop does so as long as no link is met below another one and nothing unread is overwritten. -/

namespace Dirlist
open Run

inductive FileNode
  | dir
  | file
  | link (target : Bytes)
deriving DecidableEq, Repr

/-- A file system. A place is the names that lead to it, the last one first; the root has none. -/
structure FileSystem where
  nodes : Dict (List Bytes) FileNode
  names : ∀ place ∈ nodes.map Prod.fst, place ≠ [] ∧ ∀ x ∈ place, IsComponent x ∧ IsEntry x
  parents : ∀ x dir, (nodes.get? (x :: dir)).isSome → dir = [] ∨ nodes.get? dir = some .dir
  targets : ∀ place t, nodes.get? place = some (.link t) → t ≠ [] ∧ (0 : UInt8) ∉ t

def FileSystem.link? (fs : FileSystem) (place : List Bytes) : Option Bytes :=
  match fs.nodes.get? place with
  | some (.link t) => some t
  | _ => none

/-- Where the names `xs` lead from `dir`, and how many links are on the way. A `..` at the root stays there. -/
inductive Resolves (fs : FileSystem) : List Bytes → List Bytes → List Bytes → Nat → Prop
  | done {dir : List Bytes} : Resolves fs dir [] dir 0
  | dot {dir xs out : List Bytes} {k : Nat} : Resolves fs dir xs out k → Resolves fs dir (dotName :: xs) out k
  | up {dir xs out : List Bytes} {k : Nat} : Resolves fs dir.tail xs out k → Resolves fs dir (upName :: xs) out k
  | name {dir xs out : List Bytes} {x : Bytes} {k : Nat} : IsEntry x → fs.link? (x :: dir) = none →
      Resolves fs (x :: dir) xs out k → Resolves fs dir (x :: xs) out k
  | link {dir xs out : List Bytes} {x t : Bytes} {k : Nat} : IsEntry x → fs.link? (x :: dir) = some t →
      Resolves fs (if t.head? = some pathSep then [] else dir) (components t ++ xs) out k →
      Resolves fs dir (x :: xs) out (k + 1)

/-- No link is on the way to the place, nor there. -/
def Physical (fs : FileSystem) (dir : List Bytes) : Prop := ∀ y ds, y :: ds <:+ dir → fs.link? (y :: ds) = none

/-- The names of a place. -/
def IsPlace (dir : List Bytes) : Prop := ∀ x ∈ dir, IsComponent x ∧ IsEntry x

/-- `lstat` and `readlink` answer from the file system, as to paths on which no link is to be followed. A path that
ends with a separator names what a link there leads to. -/
structure Answers (fs : FileSystem) (link : LinkAt) : Prop where
  place : ∀ x dir, IsPlace (x :: dir) → Physical fs dir → link (spellUp true (x :: dir)) = fs.link? (x :: dir)
  slash : ∀ dir, IsPlace dir → Physical fs dir → link (spellUp true dir ++ [pathSep]) = none

/-! ## Where all goes well -/

/-- What a call reads: the text of a relative link, the text it was called with, or its buffer from byte `p` on. -/
inductive Room
  | nested
  | given
  | read (p : Nat)
deriving DecidableEq, Repr

namespace Room

def move (n : Nat) : Room → Room
  | read p => read (p + n)
  | room => room

/-- A link text of `n` bytes and a zero can be put into the buffer in front of what is unread. -/
def Spares (n : Nat) (rest : Bytes) : Room → Prop
  | read p => n < p ∨ n = p ∧ rest = []
  | _ => True

/-- A link text of `n` bytes can. -/
def Before (n : Nat) : Room → Prop
  | read p => n ≤ p
  | _ => True

end Room

/-- The unread text begins with the component `x`, and `t` is behind it. -/
structure ReadsComponent (rest x t : Bytes) : Prop where
  drop : rest.dropWhile pathIssep = x ++ t
  component : IsComponent x
  stop : atEnd t = true

/-- The unread text begins with a name that can go behind the others. -/
structure ReadsName (dir : List Bytes) (rest x t : Bytes) : Prop extends ReadsComponent rest x t where
  entry : IsEntry x
  behind : ∀ y ∈ dir.head?, y.getLast? ≠ some 92

/-- A name of a link that `lstat` is asked for without a separator behind it. -/
structure ReadsLink (fs : FileSystem) (room : Room) (dir : List Bytes) (rest x t u : Bytes) : Prop
    extends ReadsName dir rest x t where
  link : fs.link? (x :: dir) = some u
  drive : ¬(x.length = 2 ∧ x[1]? = some 58)
  outer : room ≠ .nested

/-- Reading `rest` in `dir` goes well, and leads to `out` along `k` links. The output has lost its root where `root`
is false: then only `.` may follow. Below a relative link there are no more links. -/
inductive Keeps (fs : FileSystem) : Room → Bool → List Bytes → Bytes → List Bytes → Nat → Prop
  | done {room : Room} {root : Bool} {dir : List Bytes} {rest : Bytes} : components rest = [] →
      root = true ∨ dir = [] → Keeps fs room root dir rest dir 0
  | dot {room : Room} {root : Bool} {dir out : List Bytes} {rest t : Bytes} {k : Nat} : ReadsComponent rest dotName t →
      Keeps fs (room.move (rest.length - t.length)) root dir t out k → Keeps fs room root dir rest out k
  | up {room : Room} {y : Bytes} {dir out : List Bytes} {rest t : Bytes} {k : Nat} : ReadsComponent rest upName t →
      Keeps fs (room.move (rest.length - t.length)) (!dir.isEmpty) dir t out k →
        Keeps fs room true (y :: dir) rest out k
  | name {room : Room} {dir out : List Bytes} {rest x t : Bytes} {k : Nat} : ReadsName dir rest x t →
      fs.link? (x :: dir) = none → Keeps fs (room.move (rest.length - t.length)) true (x :: dir) t out k →
      Keeps fs room true dir rest out k
  | relative {room : Room} {dir mid out : List Bytes} {rest x t u : Bytes} {k : Nat} :
      ReadsLink fs room dir rest x t u → u.head? ≠ some pathSep → u.length < pathMax →
      (room.move (rest.length - t.length)).Spares u.length t → Keeps fs .nested (!dir.isEmpty) dir u mid 0 →
      Keeps fs (room.move (rest.length - t.length)) true mid t out k → Keeps fs room true dir rest out (k + 1)
  | absolute {room : Room} {dir out : List Bytes} {rest x t u : Bytes} {k : Nat} :
      ReadsLink fs room dir rest x t u → u.head? = some pathSep → u.length + t.length < pathMax →
      (room.move (rest.length - t.length)).Before u.length → Keeps fs (.read 0) true [] (u ++ t) out k →
      Keeps fs room true dir rest out (k + 1)

/-- All goes well with an absolute path. -/
def LinksKept (fs : FileSystem) (path : Bytes) : Prop := ∃ out k, Keeps fs .given true [] path.tail out k

variable {fs : FileSystem} {link : LinkAt} {room : Room} {root : Bool} {dir mid out xs ys : List Bytes}
  {rest x t u : Bytes} {k l : Nat}

/-! ## The resolution -/

theorem Resolves.append (h : Resolves fs dir xs mid k) (h' : Resolves fs mid ys out l) :
    Resolves fs dir (xs ++ ys) out (k + l) := by
  induction h with
  | done => simpa using h'
  | dot _ ih => exact .dot (ih h')
  | up _ ih => exact .up (ih h')
  | name hx hnone _ ih => exact .name hx hnone (ih h')
  | link hx hlink _ ih =>
    have hrest := ih h'
    rw [List.append_assoc] at hrest
    rw [Nat.add_right_comm]
    exact .link hx hlink hrest

theorem isEntry_dot : ¬IsEntry dotName := fun h => h.1 rfl

theorem isEntry_up : ¬IsEntry upName := fun h => h.2 rfl

/-- There is one place that a path leads to. -/
theorem Resolves.unique {out' : List Bytes} {k' : Nat} (h : Resolves fs dir xs out k)
    (h' : Resolves fs dir xs out' k') : out = out' ∧ k = k' := by
  induction h generalizing out' k' with
  | done =>
    cases h'
    exact ⟨rfl, rfl⟩
  | dot _ ih =>
    cases h' with
    | dot h' => exact ih h'
    | name hx => exact absurd hx isEntry_dot
    | link hx => exact absurd hx isEntry_dot
  | up _ ih =>
    cases h' with
    | up h' => exact ih h'
    | name hx => exact absurd hx isEntry_up
    | link hx => exact absurd hx isEntry_up
  | name hx hnone _ ih =>
    cases h' with
    | dot => exact absurd hx isEntry_dot
    | up => exact absurd hx isEntry_up
    | name _ _ h' => exact ih h'
    | link _ hsome => cases hnone.symm.trans hsome
  | link hx hsome _ ih =>
    cases h' with
    | dot => exact absurd hx isEntry_dot
    | up => exact absurd hx isEntry_up
    | name _ hnone => cases hnone.symm.trans hsome
    | link _ hsome' h' =>
      obtain rfl := Option.some.inj (hsome.symm.trans hsome')
      obtain ⟨rfl, rfl⟩ := ih h'
      exact ⟨rfl, rfl⟩

theorem components_atEnd (s : Bytes) (ht : atEnd t = true) : components (s ++ t) = components s ++ components t := by
  cases t with
  | nil => simp
  | cons c t =>
    obtain rfl : c = pathSep := by simpa [atEnd, pathIssep] using ht
    rw [components_append, components_sep]

namespace ReadsComponent

theorem components (h : ReadsComponent rest x t) : components rest = x :: Dirlist.components t := by
  rw [← components_dropWhile, h.drop, components_atEnd x h.stop, components_of_isComponent h.component]
  rfl

theorem split (h : ReadsComponent rest x t) : ∃ s, rest = s ++ t := by
  refine ⟨rest.takeWhile pathIssep ++ x, ?_⟩
  rw [List.append_assoc, ← h.drop, List.takeWhile_append_dropWhile]

theorem named (h : ReadsComponent rest x t) : canonNamed rest = true ↔ IsEntry x := by
  have hfree : ∀ c ∈ x, (!pathIssep c) = true := by
    intro c hc
    have hne : c ≠ pathSep := ne_of_mem_of_not_mem hc h.component.2
    simp [pathIssep, hne]
  have htake : (x ++ t).takeWhile (fun c => !pathIssep c) = x := by
    rw [List.takeWhile_append_of_pos hfree]
    cases t with
    | nil => simp
    | cons c t =>
      have hc : pathIssep c = true := h.stop
      simp [hc]
  rw [canonNamed, h.drop, htake]
  exact decide_eq_true_iff

end ReadsComponent

/-- What goes well leads where the resolution leads. -/
theorem Keeps.resolves (h : Keeps fs room root dir rest out k) : Resolves fs dir (components rest) out k := by
  induction h with
  | done hnil _ =>
    rw [hnil]
    exact .done
  | dot hread _ ih =>
    rw [hread.components]
    exact .dot ih
  | up hread _ ih =>
    rw [hread.components]
    exact .up ih
  | name hread hnone _ ih =>
    rw [hread.components]
    exact .name hread.entry hnone ih
  | relative hread hrel _ _ _ _ ihmid ih =>
    rw [hread.components]
    have hboth := ihmid.append ih
    rw [Nat.zero_add] at hboth
    exact .link hread.entry hread.link (by rwa [if_neg hrel])
  | absolute hread habs _ _ _ ih =>
    rw [hread.components]
    rw [components_atEnd _ hread.stop] at ih
    exact .link hread.entry hread.link (by rwa [if_pos habs])

/-! ## The unread text -/

/-- The pointer is in front of `rest`. -/
inductive Unread (rest : Bytes) : Room → Bytes → CanonSource → Prop
  | nested {buf : Bytes} : Unread rest .nested buf (.given rest)
  | given {buf : Bytes} : Unread rest .given buf (.given rest)
  | read {a z : Bytes} {p : Nat} : p = a.length → Unread rest (.read p) (a ++ (rest ++ 0 :: z)) (.buffer p)

variable {buf fresh a z : Bytes} {src : CanonSource} {s : CanonFrame}

theorem Unread.text (h : Unread rest room buf src) (hz : (0 : UInt8) ∉ rest) : src.text buf = .ok rest := by
  cases h with
  | nested => rfl
  | given => rfl
  | read hp => exact cstringAt_eq hp hz

theorem Unread.advance {pre : Bytes} (h : Unread (pre ++ t) room buf src) :
    Unread t (room.move ((pre ++ t).length - t.length)) buf (src.advance (pre ++ t) t) := by
  cases h with
  | nested => exact .nested
  | given => exact .given
  | @read a z p hp =>
    have hlen : (pre ++ t).length - t.length = pre.length := by simp
    have hbuf : a ++ (pre ++ t ++ 0 :: z) = a ++ pre ++ (t ++ 0 :: z) := by simp
    rw [CanonSource.advance, Room.move, hlen, hbuf]
    exact .read (by rw [hp, List.length_append])

theorem drop_cons_of_lt (h : k < buf.length) : ∃ y, buf.drop k = y :: buf.drop (k + 1) :=
  ⟨buf[k], List.drop_eq_getElem_cons h⟩

/-- The text of a relative link in front of it, with a zero. -/
theorem Unread.overwrite (h : Unread t room buf src) (hspare : room.Spares u.length t) :
    Unread t room (u ++ 0 :: buf.drop (u.length + 1)) src := by
  cases h with
  | nested => exact .nested
  | given => exact .given
  | @read a z p hp =>
    rcases hspare with hlt | ⟨heq, rfl⟩
    · have hdrop : (a ++ (t ++ 0 :: z)).drop (u.length + 1) = a.drop (u.length + 1) ++ (t ++ 0 :: z) :=
        List.drop_append_of_le_length (by omega)
      have hbuf : u ++ 0 :: (a.drop (u.length + 1) ++ (t ++ 0 :: z)) =
          u ++ 0 :: a.drop (u.length + 1) ++ (t ++ 0 :: z) := by simp
      rw [hdrop, hbuf]
      refine .read ?_
      rw [List.length_append, List.length_cons, List.length_drop]
      omega
    · have hdrop : (a ++ ([] ++ 0 :: z)).drop (u.length + 1) = z := by
        rw [heq, hp, ← List.drop_drop, List.drop_left]
        rfl
      rw [hdrop]
      exact .read heq.symm

/-- The text of an absolute link in front of it, and it moved up to that text. -/
theorem Unread.join (h : Unread t room buf src) (hbefore : room.Before u.length) (hz : (0 : UInt8) ∉ t)
    (hfits : u.length + t.length < pathMax) (hlen : buf.length = pathMax + 1) :
    ∃ buf', strCopyn (u ++ buf.drop u.length) u.length src (pathMax - u.length) = .ok buf' ∧
      Unread (u ++ t) (.read 0) buf' (.buffer 0) ∧ buf'.length = pathMax + 1 := by
  have hwhole (z : Bytes) : Unread (u ++ t) (.read 0) (u ++ (t ++ 0 :: z)) (.buffer 0) := by
    have hstart : u ++ (t ++ 0 :: z) = [] ++ (u ++ t ++ 0 :: z) := by simp
    rw [hstart]
    exact .read rfl
  have hgiven : ∃ z, strCopyn (u ++ buf.drop u.length) u.length (.given t) (pathMax - u.length) =
      .ok (u ++ (t ++ 0 :: z)) ∧ (u ++ (t ++ 0 :: z)).length = pathMax + 1 := by
    obtain ⟨z, hcopy, hz'⟩ := @strCopyn_given u (buf.drop u.length) t u.length (pathMax - u.length) rfl hz
      (by omega) (by rw [List.length_drop]; omega)
    rw [List.length_drop] at hz'
    refine ⟨z, hcopy, ?_⟩
    simp only [List.length_append, List.length_cons]
    omega
  cases h with
  | nested =>
    obtain ⟨z, hcopy, hz'⟩ := hgiven
    exact ⟨_, hcopy, hwhole z, hz'⟩
  | given =>
    obtain ⟨z, hcopy, hz'⟩ := hgiven
    exact ⟨_, hcopy, hwhole z, hz'⟩
  | @read a z p hp =>
    have hle : u.length ≤ a.length := hp ▸ hbefore
    have hdrop : (a ++ (t ++ 0 :: z)).drop u.length = a.drop u.length ++ (t ++ 0 :: z) :=
      List.drop_append_of_le_length hle
    rw [hdrop]
    obtain ⟨z', hcopy, hz'⟩ := @strCopyn_buffer u (a.drop u.length) t z u.length p (pathMax - u.length) rfl
      (by rw [List.length_drop]; omega) hz (by omega)
    refine ⟨_, hcopy, hwhole z', ?_⟩
    simp only [List.length_append, List.length_cons, List.length_drop] at hz' hlen ⊢
    omega

/-! ## The run -/

theorem Physical.cons (h : Physical fs dir) (hnone : fs.link? (x :: dir) = none) : Physical fs (x :: dir) := by
  intro y ds hsuf
  rcases List.suffix_cons_iff.mp hsuf with heq | hsuf
  · rwa [heq]
  · exact h y ds hsuf

theorem Physical.tail {y : Bytes} (h : Physical fs (y :: dir)) : Physical fs dir :=
  fun z ds hsuf => h z ds (hsuf.trans (List.suffix_cons y dir))

theorem IsPlace.cons (h : IsPlace dir) (hx : IsComponent x) (hentry : IsEntry x) : IsPlace (x :: dir) :=
  List.forall_mem_cons.mpr ⟨⟨hx, hentry⟩, h⟩

theorem IsPlace.components (h : IsPlace dir) : ∀ x ∈ dir, IsComponent x := fun x hx => (h x hx).1

theorem link?_target (h : fs.link? dir = some u) : u ≠ [] ∧ (0 : UInt8) ∉ u := by
  apply fs.targets dir u
  rw [FileSystem.link?] at h
  split at h
  · next heq =>
    rw [heq, Option.some.inj h]
  · cases h

/-- The last name is cut off, and with it the root where it was the only one. -/
theorem Written.truncate {sa : Bytes} (hw : Written true (x :: dir) sa) (hx : IsComponent x) :
    ¬pathRight sa < 0 ∧ sa.take (pathRight sa).toNat = spellUp (!dir.isEmpty) dir := by
  cases dir with
  | nil =>
    rw [hw.right_one hx]
    exact ⟨by decide, rfl⟩
  | cons y ns =>
    obtain ⟨hright, htake⟩ := hw.right hx
    rw [hright, Int.toNat_natCast, htake]
    exact ⟨by omega, rfl⟩

/-- A call between two rounds. -/
structure CanonAt (fs : FileSystem) (room : Room) (root : Bool) (dir : List Bytes) (rest : Bytes) (s : CanonFrame) :
    Prop where
  unread : Unread rest room s.buf s.source
  size : s.buf.length = pathMax + 1
  free : (0 : UInt8) ∉ rest
  written : Written root dir s.sa
  place : IsPlace dir
  physical : Physical fs dir

variable {inner : Nat → Bytes → Bytes → Exec (Nat × Bytes)} {sa : Bytes}

theorem CanonAt.round_end (h : CanonAt fs room root dir rest s)
    (hround : ∀ m, canonRound m ⟨rest, s.sa⟩ = .ok (.inr sa)) (m : Nat) :
    canonLinkRound link inner m s = .ok (.inr (s.ret, sa)) := by
  rw [canonLinkRound, h.unread.text h.free, ok_bind, hround, ok_bind]

theorem CanonAt.round_stay (h : CanonAt fs room root dir rest s)
    (hround : ∀ m, canonRound m ⟨rest, s.sa⟩ = .ok (.inl ⟨t, sa⟩)) (hlink : canonNamed rest = true → link sa = none)
    (m : Nat) : canonLinkRound link inner m s = .ok (.inl { s with source := s.source.advance rest t, sa := sa }) := by
  have hnone : (if canonNamed rest then link sa else none) = none := by
    split
    · next hnamed => exact hlink hnamed
    · rfl
  rw [canonLinkRound, h.unread.text h.free, ok_bind, hround, ok_bind]
  dsimp only
  rw [hnone]

theorem CanonAt.round_follow (h : CanonAt fs room root dir rest s)
    (hround : ∀ m, canonRound m ⟨rest, s.sa⟩ = .ok (.inl ⟨t, sa⟩)) (hnamed : canonNamed rest = true)
    (hlink : link sa = some u) (m : Nat) : canonLinkRound link inner m s =
      canonFollow inner m { s with source := s.source.advance rest t, sa := sa } u := by
  rw [canonLinkRound, h.unread.text h.free, ok_bind, hround, ok_bind]
  dsimp only
  rw [if_pos hnamed, hlink]

/-- What is behind the component is still to be read. -/
theorem CanonAt.move (h : CanonAt fs room root dir rest s) (hread : ReadsComponent rest x t) :
    Unread t (room.move (rest.length - t.length)) s.buf (s.source.advance rest t) ∧ (0 : UInt8) ∉ t := by
  obtain ⟨pre, rfl⟩ := hread.split
  exact ⟨h.unread.advance, fun hmem => h.free (List.mem_append_right pre hmem)⟩

/-- A name goes behind the others. -/
theorem CanonAt.read_name (h : CanonAt fs room true dir rest s) (hread : ReadsName dir rest x t) :
    ∃ sa, (∀ m, canonRound m ⟨rest, s.sa⟩ = .ok (.inl ⟨t, sa⟩)) ∧ Written true (x :: dir) sa ∧
      (¬(x.length = 2 ∧ x[1]? = some 58) → sa = spellUp true (x :: dir)) := by
  have hpush : pushName dir x = x :: dir := pushName_eq hread.behind
  obtain ⟨hpath, hwritten⟩ := canonName_written h.written h.place.components hread.component hread.stop
  have hcanon : canonName (x ++ t) s.sa = ⟨t, (canonName (x ++ t) s.sa).sa⟩ :=
    congrArg (fun p => Canon.mk p (canonName (x ++ t) s.sa).sa) hpath
  refine ⟨(canonName (x ++ t) s.sa).sa, fun m => ?_, hpush ▸ hwritten, fun hdrive => ?_⟩
  · rw [canonRound_name hread.drop hread.component hread.stop hread.entry.1 hread.entry.2, ← hcanon]
  · rw [← hpush]
    exact canonName_spell h.written h.place.components hread.component hread.stop hdrive

theorem canonFollow_absolute (m : Nat) (habs : u.head? = some pathSep) (hu : u.length < pathMax)
    (hcopy : strCopyn (u ++ s.buf.drop u.length) u.length s.source (pathMax - u.length) = .ok buf) :
    canonFollow inner m s u = .ok (.inl ⟨buf, .buffer 0, [pathSep], s.ret + 1⟩) := by
  have hne : u ≠ [] := by
    rintro rfl
    cases habs
  have htake : u.take pathMax = u := List.take_of_length_le (Nat.le_of_lt hu)
  unfold canonFollow
  simp only [htake]
  rw [List.head?_append_of_ne_nil _ hne, if_pos habs, hcopy, ok_bind]

theorem canonFollow_relative (m : Nat) (hrel : u.head? ≠ some pathSep) (hu : u.length < pathMax) (hne : u ≠ [])
    (hz : (0 : UInt8) ∉ u) (hsize : s.buf.length = pathMax + 1) (hright : ¬pathRight s.sa < 0) :
    canonFollow inner m s u = inner m u (s.sa.take (pathRight s.sa).toNat) >>= fun r =>
      if r.1 = 0 then .ok (.inr (0, r.2))
      else .ok (.inl { s with buf := u ++ 0 :: s.buf.drop (u.length + 1), sa := r.2, ret := s.ret + 1 }) := by
  have htake : u.take pathMax = u := List.take_of_length_le (Nat.le_of_lt hu)
  obtain ⟨y, hdrop⟩ : ∃ y, s.buf.drop u.length = y :: s.buf.drop (u.length + 1) := drop_cons_of_lt (by omega)
  have hwrite : writeCell (u ++ s.buf.drop u.length) u.length 0 = .ok (u ++ 0 :: s.buf.drop (u.length + 1)) := by
    rw [hdrop]
    exact writeCell_at rfl
  have htext : cstringAt (u ++ 0 :: s.buf.drop (u.length + 1)) 0 = .ok u :=
    @cstringAt_eq [] u (s.buf.drop (u.length + 1)) 0 rfl hz
  unfold canonFollow
  simp only [htake]
  rw [List.head?_append_of_ne_nil _ hne, if_neg hrel, if_neg hright, hwrite, ok_bind, htext, ok_bind]

theorem canonFrame_relative (fresh : Bytes) (hrel : u.head? ≠ some pathSep) (sa : Bytes) :
    canonFrame fresh u sa = ⟨fresh, .given u, sa, 1⟩ := by
  cases u with
  | nil => rfl
  | cons c u =>
    have hc : ¬pathIssep c = true := by simpa [pathIssep] using hrel
    rw [canonFrame, if_neg hc]

/-- A round over a name that is none of a link. -/
theorem CanonAt.round_name (hs : CanonAt fs room true dir rest s) (hans : Answers fs link)
    (hread : ReadsName dir rest x t) (hnone : fs.link? (x :: dir) = none) :
    ∃ s', (∀ m, canonLinkRound link inner m s = .ok (.inl s')) ∧ s'.ret = s.ret ∧
      CanonAt fs (room.move (rest.length - t.length)) true (x :: dir) t s' := by
  obtain ⟨hunread, hfree⟩ := hs.move hread.toReadsComponent
  obtain ⟨sa, hcanon, hwritten, -⟩ := hs.read_name hread
  have hplace := hs.place.cons hread.component hread.entry
  have hlink : link sa = none := by
    rcases hwritten with rfl | ⟨rfl, -⟩
    · rw [hans.place x dir hplace hs.physical, hnone]
    · exact hans.slash (x :: dir) hplace (hs.physical.cons hnone)
  refine ⟨_, hs.round_stay hcanon fun _ => hlink, rfl, ?_⟩
  exact ⟨hunread, hs.size, hfree, hwritten, hplace, hs.physical.cons hnone⟩

/-- A round over the name of a relative link, whose text a call of its own resolves. -/
theorem CanonAt.round_relative {text : Bytes} {r : Nat} (hs : CanonAt fs room true dir rest s) (hans : Answers fs link)
    (hread : ReadsLink fs room dir rest x t u) (hrel : u.head? ≠ some pathSep) (hu : u.length < pathMax)
    (hspare : (room.move (rest.length - t.length)).Spares u.length t)
    (hcall : Returns (fun m => inner m u (spellUp (!dir.isEmpty) dir)) (r + 1, text))
    (hmid : Written true mid text) (hplacemid : IsPlace mid) (hphysmid : Physical fs mid) :
    ∃ s', Returns (fun m => canonLinkRound link inner m s) (.inl s') ∧ s'.ret = s.ret + 1 ∧
      CanonAt fs (room.move (rest.length - t.length)) true mid t s' := by
  obtain ⟨hunread, hfree⟩ := hs.move hread.toReadsComponent
  obtain ⟨sa, hcanon, hwritten, hexact⟩ := hs.read_name hread.toReadsName
  obtain rfl := hexact hread.drive
  obtain ⟨hne, hz⟩ := link?_target hread.link
  have hplace := hs.place.cons hread.component hread.entry
  have hlink := (hans.place x dir hplace hs.physical).trans hread.link
  obtain ⟨hright, htake⟩ := hwritten.truncate hread.component
  have hround : ∀ m, canonLinkRound link inner m s = _ := fun m =>
    (hs.round_follow hcanon (hread.named.mpr hread.entry) hlink m).trans
      (canonFollow_relative m hrel hu hne hz hs.size hright)
  dsimp only at hround
  rw [htake] at hround
  refine ⟨⟨u ++ 0 :: s.buf.drop (u.length + 1), s.source.advance rest t, text, s.ret + 1⟩,
    (hcall.bind (returns_const ?_)).congr hround, rfl, hunread.overwrite hspare, ?_, hfree, hmid, hplacemid, hphysmid⟩
  · rfl
  · have hsize := hs.size
    simp only [List.length_append, List.length_cons, List.length_drop]
    omega

/-- A call for the text of a relative link starts with no root of its own. -/
theorem returns_call_relative {d : Nat} {r : Nat × Bytes} (hrel : u.head? ≠ some pathSep)
    (hloop : Returns (fun m => loop (canonLinkRound link (pathCanonicalizeLinks link fresh d)) m
      ⟨fresh, .given u, sa, 1⟩) r) :
    Returns (fun m => pathCanonicalizeLinks link fresh (d + 1) m u sa) r := by
  apply hloop.congr
  intro m
  rw [pathCanonicalizeLinks, canonFrame_relative fresh hrel]

theorem Room.outer_move {d n : Nat} (hd : room ≠ .nested → 1 ≤ d) : room.move n ≠ .nested → 1 ≤ d := by
  intro hne
  apply hd
  rintro rfl
  exact hne rfl

/-- Where all goes well the output is the place, and the links are counted. -/
theorem Keeps.run (hans : Answers fs link) (hfresh : fresh.length = pathMax + 1) {d : Nat}
    (h : Keeps fs room root dir rest out k) (hd : room ≠ .nested → 1 ≤ d) (hs : CanonAt fs room root dir rest s) :
    ∃ text, Returns (fun m => loop (canonLinkRound link (pathCanonicalizeLinks link fresh d)) m s) (s.ret + k, text) ∧
      Written true out text ∧ IsPlace out ∧ Physical fs out := by
  induction h generalizing s d with
  | @done room root dir rest hnil hroot =>
    have hround : ∀ m, canonLinkRound link (pathCanonicalizeLinks link fresh d) m s = _ :=
      hs.round_end fun m => canonRound_nil (components_eq_nil hnil) m
    have hwritten := canonEnd_written hs.written hs.place.components
    have htrue : (root || dir.isEmpty) = true := by
      rcases hroot with rfl | rfl
      · rfl
      · exact Bool.or_true root
    rw [htrue] at hwritten
    exact ⟨_, returns_loop_done ⟨0, fun m _ => hround m⟩, hwritten, hs.place, hs.physical⟩
  | @dot room root dir out rest t k hread _ ih =>
    obtain ⟨hunread, hfree⟩ := hs.move hread
    have hround : ∀ m, canonLinkRound link (pathCanonicalizeLinks link fresh d) m s = _ :=
      hs.round_stay (fun m => canonRound_dot hread.drop hread.stop m)
        fun hnamed => absurd (hread.named.mp hnamed) isEntry_dot
    obtain ⟨text, hrun, hrest⟩ := ih (s := { s with source := s.source.advance rest t }) (Room.outer_move hd)
      ⟨hunread, hs.size, hfree, hs.written, hs.place, hs.physical⟩
    exact ⟨text, returns_loop_next ⟨0, fun m _ => hround m⟩ hrun, hrest⟩
  | @up room y dir out rest t k hread _ ih =>
    obtain ⟨hunread, hfree⟩ := hs.move hread
    obtain ⟨hy, hplace⟩ := List.forall_mem_cons.mp hs.place
    obtain ⟨hright, htake⟩ := hs.written.truncate hy.1
    have hcanon (m : Nat) : canonRound m ⟨rest, s.sa⟩ = .ok (.inl ⟨t, spellUp (!dir.isEmpty) dir⟩) := by
      rw [canonRound_up hread.drop hread.stop, if_neg hright, htake]
    have hround : ∀ m, canonLinkRound link (pathCanonicalizeLinks link fresh d) m s = _ :=
      hs.round_stay hcanon fun hnamed => absurd (hread.named.mp hnamed) isEntry_up
    obtain ⟨text, hrun, hrest⟩ := ih (s := { s with
        source := s.source.advance rest t
        sa := spellUp (!dir.isEmpty) dir }) (Room.outer_move hd)
      ⟨hunread, hs.size, hfree, .inl rfl, hplace, hs.physical.tail⟩
    exact ⟨text, returns_loop_next ⟨0, fun m _ => hround m⟩ hrun, hrest⟩
  | name hread hnone _ ih =>
    obtain ⟨s', hround, hret, hs'⟩ := hs.round_name hans hread hnone
    obtain ⟨text, hrun, hrest⟩ := ih (Room.outer_move hd) hs'
    rw [hret] at hrun
    exact ⟨text, returns_loop_next ⟨0, fun m _ => hround m⟩ hrun, hrest⟩
  | @relative room dir mid out rest x t u k hread hrel hu hspare _ _ ihmid ih =>
    -- the call for the text of the link, in the directory of the link
    obtain ⟨d, rfl⟩ : ∃ e, d = e + 1 := ⟨d - 1, by have := hd hread.outer; omega⟩
    obtain ⟨text, hinner, hmid, hplacemid, hphysmid⟩ := ihmid (d := d)
      (s := ⟨fresh, .given u, spellUp (!dir.isEmpty) dir, 1⟩) (fun hn => absurd rfl hn)
      ⟨.nested, hfresh, (link?_target hread.link).2, .inl rfl, hs.place, hs.physical⟩
    obtain ⟨s', hround, hret, hs'⟩ := hs.round_relative hans hread hrel hu hspare
      (returns_call_relative hrel hinner) hmid hplacemid hphysmid
    obtain ⟨text', hrun, hrest⟩ := ih (d := d + 1) (Room.outer_move hd) hs'
    rw [hret, Nat.add_right_comm] at hrun
    exact ⟨text', returns_loop_next hround hrun, hrest⟩
  | @absolute room dir out rest x t u k hread habs hfits hbefore _ ih =>
    obtain ⟨hunread, hfree⟩ := hs.move hread.toReadsComponent
    obtain ⟨sa, hcanon, hwritten, hexact⟩ := hs.read_name hread.toReadsName
    obtain rfl := hexact hread.drive
    obtain ⟨-, hz⟩ := link?_target hread.link
    have hplace := hs.place.cons hread.component hread.entry
    have hlink := (hans.place x dir hplace hs.physical).trans hread.link
    obtain ⟨buf, hcopy, hjoined, hsize⟩ := hunread.join hbefore hfree hfits hs.size
    have hround : ∀ m, canonLinkRound link (pathCanonicalizeLinks link fresh d) m s = _ := fun m =>
      (hs.round_follow hcanon (hread.named.mpr hread.entry) hlink m).trans
        (canonFollow_absolute m habs (by omega) hcopy)
    have hfreeboth : (0 : UInt8) ∉ u ++ t := by
      rw [List.mem_append, not_or]
      exact ⟨hz, hfree⟩
    obtain ⟨text, hrun, hrest⟩ := ih (s := ⟨buf, .buffer 0, [pathSep], s.ret + 1⟩) (fun _ => hd hread.outer)
      ⟨hjoined, hsize, hfreeboth, .inl rfl, fun _ hx => (List.not_mem_nil hx).elim,
        fun _ _ hsuf => absurd (List.suffix_nil.mp hsuf) (List.cons_ne_nil _ _)⟩
    rw [Nat.add_right_comm] at hrun
    exact ⟨text, returns_loop_next ⟨0, fun m _ => hround m⟩ hrun, hrest⟩

/-- A call for an absolute path, behind its first separator. -/
theorem canonAt_start (hfresh : fresh.length = pathMax + 1) (hz : (0 : UInt8) ∉ rest) :
    CanonAt fs .given true [] rest ⟨fresh, .given rest, [pathSep], 1⟩ :=
  ⟨.given, hfresh, hz, .inl rfl, fun _ hx => (List.not_mem_nil hx).elim,
    fun _ _ hsuf => absurd (List.suffix_nil.mp hsuf) (List.cons_ne_nil _ _)⟩

/-- What is at the place that a path spells. -/
def lookup (fs : FileSystem) : LinkAt := fun text =>
  if text.getLast? = some pathSep then none else fs.link? (components text).reverse

theorem answers_lookup (fs : FileSystem) : Answers fs (lookup fs) where
  place x dir hplace _ := by
    have hcomp : ∀ y ∈ x :: dir, IsComponent y := hplace.components
    have hx := hcomp x List.mem_cons_self
    have hlast : (spellUp true (x :: dir)).getLast? ≠ some pathSep := by
      rw [spellUp_getLast? hx]
      exact fun h => hx.2 (List.mem_of_getLast? h)
    rw [lookup, if_neg hlast, components_spellUp hcomp, List.reverse_reverse]
  slash dir _ _ := by
    rw [lookup, if_pos (by simp)]

/-- A directory `d` with `a -> b`, `b -> c` and a file `c` in it, and `a -> /d` beside it. -/
def chainedLinks : FileSystem where
  nodes := [([[100]], .dir), ([[97], [100]], .link [98]), ([[98], [100]], .link [99]), ([[99], [100]], .file),
    ([[97]], .link [47, 100])]
  names := by simp [IsComponent, IsEntry, pathSep, pathDot, dotName, upName]
  parents x dir h := by
    rw [Dict.get?_isSome] at h
    simp only [List.map_cons, List.map_nil, List.mem_cons, List.cons.injEq, List.not_mem_nil, or_false] at h
    rcases h with ⟨-, rfl⟩ | ⟨-, rfl⟩ | ⟨-, rfl⟩ | ⟨-, rfl⟩ | ⟨-, rfl⟩
    · exact .inl rfl
    · exact .inr rfl
    · exact .inr rfl
    · exact .inr rfl
    · exact .inl rfl
  targets place t h := by
    simp only [Dict.get?_cons, Dict.get?_nil] at h
    split_ifs at h <;> cases h <;> decide

end Dirlist
