import Dirlist.Lib.Run

/-! Circular doubly linked lists threaded through the nodes of a heap. A node may carry
several pairs of links, so every operation takes the pair it works on. -/

namespace Ring
open Run

abbrev Addr := Nat

/-- Allocated nodes by address; a freed or never allocated address holds nothing. -/
abbrev Heap (α : Type) := Addr → Option α

variable {α : Type}

def load (h : Heap α) (a : Addr) : Exec α :=
  match h a with
  | some x => .ok x
  | none => .error .null

def deref : Option Addr → Exec Addr
  | some a => .ok a
  | none => .error .null

def upd (h : Heap α) (a : Addr) (f : α → α) : Heap α := Function.update h a ((h a).map f)

def modify (h : Heap α) (a : Addr) (f : α → α) : Exec (Heap α) := do
  let _ ← load h a
  .ok (upd h a f)

/-- One pair of forward and backward links in a node; `rest` is the node without them. -/
structure Links (α : Type) where
  next : α → Option Addr
  prev : α → Option Addr
  setNext : α → Option Addr → α
  setPrev : α → Option Addr → α
  rest : α → α
  next_setNext : ∀ x p, next (setNext x p) = p
  next_setPrev : ∀ x p, next (setPrev x p) = next x
  prev_setNext : ∀ x p, prev (setNext x p) = prev x
  prev_setPrev : ∀ x p, prev (setPrev x p) = p
  rest_setNext : ∀ x p, rest (setNext x p) = rest x
  rest_setPrev : ∀ x p, rest (setPrev x p) = rest x

namespace Links

def nextAt (L : Links α) (h : Heap α) (a : Addr) : Option Addr := (h a).bind L.next

def prevAt (L : Links α) (h : Heap α) (a : Addr) : Option Addr := (h a).bind L.prev

def Linked (L : Links α) (h : Heap α) (a b : Addr) : Prop :=
  L.nextAt h a = some b ∧ L.prevAt h b = some a

/-- The node at `a` is the same in both heaps, up to these links. -/
def SameRest (L : Links α) (h h' : Heap α) (a : Addr) : Prop :=
  (h' a).map L.rest = (h a).map L.rest

/-- Two heaps that differ in these links only. -/
def Frame (L : Links α) (h h' : Heap α) : Prop := ∀ a, L.SameRest h h' a

/-- Append `item` before `first`, that is at the end of the ring `first` begins. -/
def append (L : Links α) (h : Heap α) (first : Option Addr) (item : Addr) :
    Exec (Heap α × Option Addr) :=
  match first with
  | none => do
    let h ← modify h item (L.setNext · (some item))
    let h ← modify h item (L.setPrev · (some item))
    .ok (h, some item)
  | some f => do
    let x ← load h f
    let h ← modify h item (L.setPrev · (L.prev x))
    let h ← modify h item (L.setNext · (some f))
    let x ← load h f
    let p ← deref (L.prev x)
    let h ← modify h p (L.setNext · (some item))
    let h ← modify h f (L.setPrev · (some item))
    .ok (h, some f)

/-- Make the two neighbours of `item` point past it. -/
def unlink (L : Links α) (h : Heap α) (item : Addr) : Exec (Heap α) := do
  let x ← load h item
  let n ← deref (L.next x)
  let h ← modify h n (L.setPrev · (L.prev x))
  let x ← load h item
  let p ← deref (L.prev x)
  modify h p (L.setNext · (L.next x))

def remove (L : Links α) (h : Heap α) (first : Option Addr) (item : Addr) :
    Exec (Heap α × Option Addr) := do
  let x ← load h item
  let (h, first) ←
    if first = some item then
      if L.next x = some item then .ok (h, none)
      else do
        let h ← L.unlink h item
        .ok (h, L.next x)
    else do
      let h ← L.unlink h item
      .ok (h, first)
  let h ← modify h item (L.setNext · none)
  let h ← modify h item (L.setPrev · none)
  .ok (h, first)

end Links

/-! ## Heap updates -/

variable {L : Links α} {h h' : Heap α} {a b c : Addr}

theorem load_eq (ha : (h a).isSome) : ∃ x, h a = some x ∧ load h a = .ok x := by
  obtain ⟨x, hx⟩ := Option.isSome_iff_exists.mp ha
  exact ⟨x, hx, by simp only [load, hx]⟩

theorem modify_eq (ha : (h a).isSome) (f : α → α) : modify h a f = .ok (upd h a f) := by
  obtain ⟨x, _, hl⟩ := load_eq ha
  simp only [modify, hl, ok_bind]

@[simp] theorem upd_isSome (f : α → α) : (upd h a f c).isSome = (h c).isSome := by
  by_cases hc : c = a
  · subst hc
    simp [upd]
  · simp [upd, hc]

theorem upd_of_ne (f : α → α) (hc : c ≠ a) : upd h a f c = h c := by
  simp [upd, hc]

theorem nextAt_upd_setNext (ha : (h a).isSome) (p : Option Addr) :
    L.nextAt (upd h a (L.setNext · p)) c = if c = a then p else L.nextAt h c := by
  obtain ⟨x, hx, _⟩ := load_eq ha
  by_cases hc : c = a
  · subst hc
    simp [Links.nextAt, upd, hx, L.next_setNext]
  · simp [Links.nextAt, upd, hc]

theorem prevAt_upd_setPrev (ha : (h a).isSome) (p : Option Addr) :
    L.prevAt (upd h a (L.setPrev · p)) c = if c = a then p else L.prevAt h c := by
  obtain ⟨x, hx, _⟩ := load_eq ha
  by_cases hc : c = a
  · subst hc
    simp [Links.prevAt, upd, hx, L.prev_setPrev]
  · simp [Links.prevAt, upd, hc]

@[simp] theorem nextAt_upd_setPrev (p : Option Addr) :
    L.nextAt (upd h a (L.setPrev · p)) c = L.nextAt h c := by
  by_cases hc : c = a
  · subst hc
    cases hx : h c <;> simp [Links.nextAt, upd, hx, L.next_setPrev]
  · simp [Links.nextAt, upd, hc]

@[simp] theorem prevAt_upd_setNext (p : Option Addr) :
    L.prevAt (upd h a (L.setNext · p)) c = L.prevAt h c := by
  by_cases hc : c = a
  · subst hc
    cases hx : h c <;> simp [Links.prevAt, upd, hx, L.prev_setNext]
  · simp [Links.prevAt, upd, hc]

namespace Links.SameRest

theorem of_eq (he : h' a = h a) : L.SameRest h h' a := congrArg _ he

theorem trans {h'' : Heap α} (h1 : L.SameRest h h' a) (h2 : L.SameRest h' h'' a) :
    L.SameRest h h'' a := Eq.trans h2 h1

theorem map_eq (hs : L.SameRest h h' a) {β : Type} (f : α → β) (hf : ∀ x, f (L.rest x) = f x) :
    (h' a).map f = (h a).map f := by
  have h' := congrArg (Option.map f) hs
  simpa [Option.map_map, Function.comp_def, hf] using h'

theorem bind_eq (hs : L.SameRest h h' a) {β : Type} (f : α → Option β)
    (hf : ∀ x, f (L.rest x) = f x) : (h' a).bind f = (h a).bind f := by
  have hj : ∀ o : Option α, o.bind f = (o.map f).join := fun o => by cases o <;> rfl
  rw [hj, hj, hs.map_eq f hf]

end Links.SameRest

theorem frame_refl (L : Links α) (h : Heap α) : L.Frame h h := fun _ => rfl

theorem Links.Frame.trans {h₁ h₂ h₃ : Heap α} (h12 : L.Frame h₁ h₂) (h23 : L.Frame h₂ h₃) :
    L.Frame h₁ h₃ := fun a => (h12 a).trans (h23 a)

theorem Links.Frame.upd {f : α → α} (hf : L.Frame h h') (hr : ∀ x, L.rest (f x) = L.rest x) :
    L.Frame h (upd h' a f) := by
  intro c
  refine (hf c).trans ?_
  by_cases hc : c = a
  · subst hc
    cases hx : h' c <;> simp [SameRest, Ring.upd, hx, hr]
  · exact .of_eq (upd_of_ne f hc)

theorem Links.Frame.isSome (hf : L.Frame h h') : (h' a).isSome = (h a).isSome := by
  have := congrArg Option.isSome (hf a)
  simpa using this

theorem isSome_of_nextAt (hn : L.nextAt h a = some b) : (h a).isSome := by
  cases hx : h a with
  | none => simp [Links.nextAt, hx] at hn
  | some x => rfl

theorem isSome_of_prevAt (hp : L.prevAt h a = some b) : (h a).isSome := by
  cases hx : h a with
  | none => simp [Links.prevAt, hx] at hp
  | some x => rfl

/-! ## Rings -/

/-- The ring that starts at `r` and goes on through `ts` back to `r`. -/
structure IsRing (L : Links α) (h : Heap α) (r : Addr) (ts : List Addr) : Prop where
  chain : List.IsChain (L.Linked h) (r :: ts ++ [r])
  nodup : (r :: ts).Nodup

theorem isChain_mono_ends {R S : Addr → Addr → Prop} {l : List Addr}
    (hl : List.IsChain R l) (H : ∀ a ∈ l.dropLast, ∀ b ∈ l.tail, R a b → S a b) :
    List.IsChain S l := by
  induction l with
  | nil => exact .nil
  | cons a l ih =>
    cases l with
    | nil => exact .singleton _
    | cons b l =>
      rw [List.isChain_cons_cons] at hl ⊢
      refine ⟨H a (by simp) b (by simp) hl.1, ih hl.2 fun c hc d hd => H c ?_ d ?_⟩
      · exact List.mem_cons_of_mem _ hc
      · exact List.mem_cons_of_mem _ hd

theorem exists_concat (r : Addr) (ts : List Addr) : ∃ xs p, r :: ts = xs ++ [p] := by
  rcases List.eq_nil_or_concat (r :: ts) with h | ⟨xs, p, h⟩
  · cases h
  · exact ⟨xs, p, by simpa using h⟩

namespace IsRing

variable {r t item : Addr} {ts xs ys : List Addr}

theorem rotate (hr : IsRing L h r (xs ++ t :: ys)) : IsRing L h t (ys ++ r :: xs) := by
  obtain ⟨hc, hn⟩ := hr
  have hs : List.IsChain (L.Linked h) (r :: xs ++ [t]) ∧
      List.IsChain (L.Linked h) (t :: (ys ++ [r])) := by
    rw [← List.isChain_split]
    simpa using hc
  refine ⟨?_, ?_⟩
  · have hj : List.IsChain (L.Linked h) ((t :: ys) ++ r :: (xs ++ [t])) := by
      rw [List.isChain_split]
      exact ⟨by simpa using hs.2, by simpa using hs.1⟩
    simpa using hj
  · have hp : (t :: (ys ++ r :: xs)).Perm (r :: (xs ++ t :: ys)) := by
      have h1 : (t :: ys ++ (r :: xs)).Perm ((r :: xs) ++ t :: ys) := List.perm_append_comm
      simpa using h1
    exact hp.nodup_iff.mpr hn

/-- The same ring, seen from any of its nodes. -/
theorem from_node (hr : IsRing L h r ts) (hs : r :: ts = xs ++ t :: ys) :
    IsRing L h t (ys ++ xs) := by
  cases xs with
  | nil =>
    obtain ⟨rfl, rfl⟩ : r = t ∧ ts = ys := by simpa using hs
    simpa using hr
  | cons x xs =>
    obtain ⟨rfl, rfl⟩ : r = x ∧ ts = xs ++ t :: ys := by simpa using hs
    exact hr.rotate

theorem last_linked (hr : IsRing L h r ts) (hl : r :: ts = xs ++ [t]) : L.Linked h t r := by
  have hc := hr.chain
  rw [hl, List.append_assoc, List.singleton_append, List.isChain_split] at hc
  simpa using hc.2

theorem isSome (hr : IsRing L h r ts) (ha : a ∈ r :: ts) : (h a).isSome := by
  obtain ⟨xs, ys, hs⟩ := List.append_of_mem ha
  have hc := hr.chain
  rw [hs] at hc
  obtain ⟨y, ys', hy⟩ : ∃ y ys', ys ++ [r] = y :: ys' := by
    cases ys with
    | nil => exact ⟨r, [], rfl⟩
    | cons y ys => exact ⟨y, ys ++ [r], rfl⟩
  rw [List.append_assoc, List.cons_append, hy, List.isChain_split, List.isChain_cons_cons] at hc
  exact isSome_of_nextAt hc.2.1.1

/-- Rings only depend on the links of their own nodes. -/
theorem congr (hr : IsRing L h r ts) (hh : ∀ a ∈ r :: ts, L.nextAt h' a = L.nextAt h a ∧
    L.prevAt h' a = L.prevAt h a) : IsRing L h' r ts := by
  refine ⟨isChain_mono_ends hr.chain fun a ha b hb hab => ?_, hr.nodup⟩
  have hb' : b ∈ r :: ts := by
    simpa [or_comm] using hb
  have ha' : a ∈ r :: ts := by
    rw [List.dropLast_concat] at ha
    exact ha
  exact ⟨(hh a ha').1.trans hab.1, (hh b hb').2.trans hab.2⟩

end IsRing

/-! ## Appending -/

/-- The heap `append` leaves when `p` precedes `f`. -/
def appended (L : Links α) (h : Heap α) (f p item : Addr) : Heap α :=
  upd (upd (upd (upd h item (L.setPrev · (some p))) item (L.setNext · (some f)))
    p (L.setNext · (some item))) f (L.setPrev · (some item))

section Appended
variable {f p item : Addr}

theorem append_eq (hf : (h f).isSome) (hp : (h p).isSome) (hi : (h item).isSome)
    (hpf : L.prevAt h f = some p) :
    L.append h (some f) item = .ok (appended L h f p item, some f) := by
  obtain ⟨x, hx, hlx⟩ := load_eq hf
  have hxp : L.prev x = some p := by
    simpa [Links.prevAt, hx] using hpf
  have hf' : (upd (upd h item (L.setPrev · (some p))) item (L.setNext · (some f)) f).isSome := by
    simpa using hf
  obtain ⟨y, hy, hly⟩ := load_eq hf'
  have hyp : L.prev y = some p := by
    have h1 : L.prevAt (upd (upd h item (L.setPrev · (some p))) item (L.setNext · (some f))) f =
        some p := by
      rw [prevAt_upd_setNext, prevAt_upd_setPrev hi, hpf, ite_self]
    simpa [Links.prevAt, hy] using h1
  simp only [Links.append, hlx, hxp, ok_bind]
  rw [modify_eq hi, ok_bind, modify_eq (by simpa using hi), ok_bind, hly, ok_bind, hyp]
  simp only [deref, ok_bind]
  rw [modify_eq (by simpa using hp), ok_bind, modify_eq (by simpa using hf), ok_bind, appended]

theorem nextAt_appended (hp : (h p).isSome) (hi : (h item).isSome) :
    L.nextAt (appended L h f p item) c =
      if c = p then some item else if c = item then some f else L.nextAt h c := by
  rw [appended, nextAt_upd_setPrev, nextAt_upd_setNext (by simpa using hp),
    nextAt_upd_setNext (by simpa using hi), nextAt_upd_setPrev]

theorem prevAt_appended (hf : (h f).isSome) (hi : (h item).isSome) :
    L.prevAt (appended L h f p item) c =
      if c = f then some item else if c = item then some p else L.prevAt h c := by
  rw [appended, prevAt_upd_setPrev (by simpa using hf), prevAt_upd_setNext,
    prevAt_upd_setNext, prevAt_upd_setPrev hi]

theorem frame_appended : L.Frame h (appended L h f p item) :=
  ((((frame_refl L h).upd fun x => L.rest_setPrev x _).upd fun x => L.rest_setNext x _).upd
    fun x => L.rest_setNext x _).upd fun x => L.rest_setPrev x _

theorem appended_of_ne (h1 : c ≠ f) (h2 : c ≠ p) (h3 : c ≠ item) :
    appended L h f p item c = h c := by
  rw [appended, upd_of_ne _ h1, upd_of_ne _ h2, upd_of_ne _ h3, upd_of_ne _ h3]

end Appended

/-- Appending to nothing makes a ring of one. -/
theorem append_none {item : Addr} (hi : (h item).isSome) :
    ∃ h', L.append h none item = .ok (h', some item) ∧ IsRing L h' item [] ∧ L.Frame h h' ∧
      ∀ c, c ≠ item → h' c = h c := by
  refine ⟨upd (upd h item (L.setNext · (some item))) item (L.setPrev · (some item)), ?_, ?_, ?_, ?_⟩
  · simp only [Links.append]
    rw [modify_eq hi, ok_bind, modify_eq (by simpa using hi), ok_bind]
  · refine ⟨?_, by simp⟩
    simp only [List.cons_append, List.nil_append, List.isChain_pair, Links.Linked]
    rw [nextAt_upd_setPrev, nextAt_upd_setNext hi, prevAt_upd_setPrev (by simpa using hi)]
    simp
  · exact ((frame_refl L h).upd fun x => L.rest_setNext x _).upd fun x => L.rest_setPrev x _
  · intro c hc
    rw [upd_of_ne _ hc, upd_of_ne _ hc]

/-- Appending a node that is not yet on the ring puts it at the end. -/
theorem IsRing.append {r item : Addr} {ts : List Addr} (hr : IsRing L h r ts)
    (hi : (h item).isSome) (hni : item ∉ r :: ts) :
    ∃ h', L.append h (some r) item = .ok (h', some r) ∧ IsRing L h' r (ts ++ [item]) ∧
      L.Frame h h' ∧ ∀ c, c ∉ r :: ts ++ [item] → h' c = h c := by
  obtain ⟨xs, p, hxs⟩ := exists_concat r ts
  have hpr : L.Linked h p r := hr.last_linked hxs
  have hpm : p ∈ r :: ts := by
    rw [hxs]
    simp
  have hrs : (h r).isSome := hr.isSome (by simp)
  have hps : (h p).isSome := hr.isSome hpm
  have hnp : item ≠ p := fun he => hni (he ▸ hpm)
  have hnr : item ≠ r := fun he => hni (he ▸ by simp)
  have hnd : (xs ++ [p]).Nodup := hxs ▸ hr.nodup
  refine ⟨appended L h r p item, append_eq hrs hps hi hpr.2, ⟨?_, ?_⟩, frame_appended, ?_⟩
  · have hc : List.IsChain (L.Linked h) (xs ++ [p]) := by
      have := hr.chain
      rw [hxs, List.append_assoc, List.singleton_append, List.isChain_split] at this
      exact this.1
    have hold : List.IsChain (L.Linked (appended L h r p item)) (xs ++ [p]) := by
      refine isChain_mono_ends hc fun a ha b hb hab => ?_
      rw [List.dropLast_concat] at ha
      rw [← hxs, List.tail_cons] at hb
      have hap : a ≠ p := by
        rintro rfl
        exact (List.disjoint_of_nodup_append hnd) ha (by simp)
      have hai : a ≠ item := by
        rintro rfl
        exact hni (hxs ▸ List.mem_append_left _ ha)
      have hbr : b ≠ r := by
        rintro rfl
        exact (List.nodup_cons.mp hr.nodup).1 hb
      have hbi : b ≠ item := by
        rintro rfl
        exact hni (List.mem_cons_of_mem _ hb)
      refine ⟨?_, ?_⟩
      · rw [nextAt_appended hps hi, if_neg hap, if_neg hai, hab.1]
      · rw [prevAt_appended hrs hi, if_neg hbr, if_neg hbi, hab.2]
    have hpi : L.Linked (appended L h r p item) p item := by
      refine ⟨?_, ?_⟩
      · rw [nextAt_appended hps hi, if_pos rfl]
      · rw [prevAt_appended hrs hi, if_neg hnr, if_pos rfl]
    have hir : L.Linked (appended L h r p item) item r := by
      refine ⟨?_, ?_⟩
      · rw [nextAt_appended hps hi, if_neg hnp, if_pos rfl]
      · rw [prevAt_appended hrs hi, if_pos rfl]
    have hl : r :: (ts ++ [item]) ++ [r] = xs ++ p :: [item, r] := by
      rw [← List.cons_append, hxs]
      simp
    rw [hl, List.isChain_split]
    exact ⟨hold, by simp [hpi, hir]⟩
  · rw [← List.cons_append, List.nodup_append]
    refine ⟨hr.nodup, by simp, fun a ha b hb => ?_⟩
    rw [List.mem_singleton.mp hb]
    rintro rfl
    exact hni ha
  · intro c hc
    have hcr : c ∉ r :: ts := fun hm => hc (List.mem_append_left _ hm)
    refine appended_of_ne ?_ ?_ ?_
    · rintro rfl
      exact hcr (by simp)
    · rintro rfl
      exact hcr hpm
    · rintro rfl
      exact hc (by simp)

/-- Appending the first node of a ring to the ring itself closes it on that node alone:
whatever else was on the ring can no longer be reached from it. -/
theorem IsRing.append_self {r : Addr} {ts : List Addr} (hr : IsRing L h r ts) :
    ∃ h', L.append h (some r) r = .ok (h', some r) ∧ IsRing L h' r [] ∧ L.Frame h h' ∧
      ∀ c, c ∉ r :: ts → h' c = h c := by
  obtain ⟨xs, p, hxs⟩ := exists_concat r ts
  have hpr : L.Linked h p r := hr.last_linked hxs
  have hpm : p ∈ r :: ts := by
    rw [hxs]
    simp
  have hrs : (h r).isSome := hr.isSome (by simp)
  have hps : (h p).isSome := hr.isSome hpm
  refine ⟨appended L h r p r, append_eq hrs hps hrs hpr.2, ⟨?_, by simp⟩, frame_appended, ?_⟩
  · simp only [List.cons_append, List.nil_append, List.isChain_pair, Links.Linked]
    rw [nextAt_appended hps hrs, if_pos rfl, ite_self, prevAt_appended hrs hrs, if_pos rfl]
    exact ⟨rfl, rfl⟩
  · intro c hc
    have hcr : c ≠ r := fun he => hc (he ▸ by simp)
    have hcp : c ≠ p := fun he => hc (he ▸ hpm)
    exact appended_of_ne hcr hcp hcr

/-! ## Removing -/

/-- The heap `remove` leaves when `item` stands between `a` and `b`. -/
def removed (L : Links α) (h : Heap α) (a item b : Addr) : Heap α :=
  upd (upd (upd (upd h b (L.setPrev · (some a))) a (L.setNext · (some b)))
    item (L.setNext · none)) item (L.setPrev · none)

section Removed
variable {item : Addr}

theorem unlink_eq (hl : L.Linked h a item) (hr : L.Linked h item b) (hb : b ≠ item) :
    L.unlink h item =
      .ok (upd (upd h b (L.setPrev · (some a))) a (L.setNext · (some b))) := by
  have hi : (h item).isSome := isSome_of_nextAt hr.1
  have ha : (h a).isSome := isSome_of_nextAt hl.1
  have hbs : (h b).isSome := isSome_of_prevAt hr.2
  obtain ⟨x, hx, hlx⟩ := load_eq hi
  have hxn : L.next x = some b := by
    simpa [Links.nextAt, hx] using hr.1
  have hxp : L.prev x = some a := by
    simpa [Links.prevAt, hx] using hl.2
  have hlx' : load (upd h b (L.setPrev · (some a))) item = .ok x := by
    simp only [load, upd_of_ne _ hb.symm, hx]
  simp only [Links.unlink, hlx, hxn, hxp, ok_bind, deref]
  rw [modify_eq hbs, ok_bind, hlx']
  simp only [ok_bind, hxn, hxp]
  rw [modify_eq (by simpa using ha)]

theorem nextAt_removed (ha : (h a).isSome) (hi : (h item).isSome) :
    L.nextAt (removed L h a item b) c =
      if c = item then none else if c = a then some b else L.nextAt h c := by
  rw [removed, nextAt_upd_setPrev, nextAt_upd_setNext (by simpa using hi),
    nextAt_upd_setNext (by simpa using ha), nextAt_upd_setPrev]

theorem prevAt_removed (hb : (h b).isSome) (hi : (h item).isSome) :
    L.prevAt (removed L h a item b) c =
      if c = item then none else if c = b then some a else L.prevAt h c := by
  rw [removed, prevAt_upd_setPrev (by simpa using hi), prevAt_upd_setNext, prevAt_upd_setNext,
    prevAt_upd_setPrev hb]

theorem frame_removed : L.Frame h (removed L h a item b) :=
  ((((frame_refl L h).upd fun x => L.rest_setPrev x _).upd fun x => L.rest_setNext x _).upd
    fun x => L.rest_setNext x _).upd fun x => L.rest_setPrev x _

theorem removed_of_ne (h1 : c ≠ a) (h2 : c ≠ item) (h3 : c ≠ b) :
    removed L h a item b c = h c := by
  rw [removed, upd_of_ne _ h2, upd_of_ne _ h2, upd_of_ne _ h1, upd_of_ne _ h3]

/-- `remove` on a node with two proper neighbours. -/
theorem remove_eq {first : Option Addr} (hl : L.Linked h a item) (hr : L.Linked h item b)
    (hb : b ≠ item) : L.remove h first item =
      .ok (removed L h a item b, if first = some item then some b else first) := by
  have hi : (h item).isSome := isSome_of_nextAt hr.1
  obtain ⟨x, hx, hlx⟩ := load_eq hi
  have hxn : L.next x = some b := by
    simpa [Links.nextAt, hx] using hr.1
  have hne : ¬ (some b = some item) := fun he => hb (Option.some.inj he)
  simp only [Links.remove, hlx, ok_bind, hxn, if_neg hne]
  by_cases hf : first = some item
  all_goals
    simp only [hf, if_true, if_false]
    rw [unlink_eq hl hr hb]
    simp only [ok_bind]
    rw [modify_eq (by simpa using hi), ok_bind, modify_eq (by simpa using hi), ok_bind, removed]

end Removed

/-- A ring without the node between `xs` and `ys`. -/
theorem IsRing.of_removed {r item : Addr} {xs ys : List Addr}
    (hr : IsRing L h r (xs ++ item :: ys)) :
    ∃ a b, L.Linked h a item ∧ L.Linked h item b ∧ b ≠ item ∧ a ∈ r :: xs ∧ b ∈ ys ++ [r] ∧
      IsRing L (removed L h a item b) r (xs ++ ys) := by
  obtain ⟨pre, a, hpre⟩ := exists_concat r xs
  obtain ⟨b, post, hpost⟩ : ∃ b post, ys ++ [r] = b :: post := by
    cases ys with
    | nil => exact ⟨r, [], rfl⟩
    | cons y ys => exact ⟨y, ys ++ [r], rfl⟩
  have hall : r :: (xs ++ item :: ys) ++ [r] = pre ++ a :: item :: b :: post := by
    have : r :: (xs ++ item :: ys) ++ [r] = (r :: xs) ++ item :: (ys ++ [r]) := by simp
    rw [this, hpre, hpost]
    simp
  have hc := hr.chain
  rw [hall, List.isChain_split, List.isChain_cons_cons, List.isChain_cons_cons] at hc
  obtain ⟨hcp, hai, hib, hcb⟩ := hc
  have hnd := hr.nodup
  have hnd' : (pre ++ a :: item :: ys).Nodup := by
    have : pre ++ a :: item :: ys = r :: (xs ++ item :: ys) := by
      rw [← List.cons_append, hpre]
      simp
    rw [this]
    exact hnd
  have hia : item ∉ r :: xs := by
    intro hm
    rw [hpre] at hm
    have hsp : ((pre ++ [a]) ++ item :: ys).Nodup := by simpa using hnd'
    exact List.disjoint_of_nodup_append hsp hm (by simp)
  have hiy : item ∉ ys ++ [r] := by
    intro hm
    rcases List.mem_append.mp hm with hm | hm
    · have := (List.nodup_append.mp hnd').2.1
      simp [hm] at this
    · exact hia (by simp at hm; simp [hm])
  have hdis : List.Disjoint (r :: xs) (item :: ys) :=
    List.disjoint_of_nodup_append (by simpa using hnd)
  have ham : a ∈ r :: xs := by
    rw [hpre]
    simp
  have hbm : b ∈ ys ++ [r] := by
    rw [hpost]
    simp
  have hbi : b ≠ item := fun he => hiy (he ▸ hbm)
  have hai' : a ≠ item := fun he => hia (he ▸ ham)
  have has : (h a).isSome := isSome_of_nextAt hai.1
  have his : (h item).isSome := isSome_of_nextAt hib.1
  have hbs : (h b).isSome := isSome_of_prevAt hib.2
  refine ⟨a, b, hai, hib, hbi, ham, hbm, ⟨?_, ?_⟩⟩
  · have hleft : List.IsChain (L.Linked (removed L h a item b)) (pre ++ [a]) := by
      refine isChain_mono_ends hcp fun c hc d hd hcd => ?_
      rw [List.dropLast_concat] at hc
      rw [← hpre, List.tail_cons] at hd
      have hca : c ≠ a := by
        rintro rfl
        exact (List.disjoint_of_nodup_append hnd') hc (by simp)
      have hci : c ≠ item := by
        rintro rfl
        exact hia (hpre ▸ List.mem_append_left _ hc)
      have hdi : d ≠ item := by
        rintro rfl
        exact hia (List.mem_cons_of_mem _ hd)
      have hdb : d ≠ b := by
        rintro rfl
        rcases List.mem_append.mp hbm with hm | hm
        · exact hdis (List.mem_cons_of_mem _ hd) (List.mem_cons_of_mem _ hm)
        · rw [List.mem_singleton] at hm
          subst hm
          exact (List.nodup_cons.mp hnd).1 (List.mem_append_left _ hd)
      refine ⟨?_, ?_⟩
      · rw [nextAt_removed has his, if_neg hci, if_neg hca, hcd.1]
      · rw [prevAt_removed hbs his, if_neg hdi, if_neg hdb, hcd.2]
    have hright : List.IsChain (L.Linked (removed L h a item b)) (b :: post) := by
      refine isChain_mono_ends hcb fun c hc d hd hcd => ?_
      have hcm : c ∈ ys := by
        rw [← hpost, List.dropLast_concat] at hc
        exact hc
      have hca : c ≠ a := by
        rintro rfl
        exact hdis ham (List.mem_cons_of_mem _ hcm)
      have hci : c ≠ item := by
        rintro rfl
        exact hiy (List.mem_append_left _ hcm)
      have hdi : d ≠ item := by
        rintro rfl
        exact hiy (hpost ▸ List.mem_of_mem_tail hd)
      have hdb : d ≠ b := by
        rintro rfl
        have hpn : (ys ++ [r]).Nodup := by
          have h1 : (r :: ys).Nodup := hnd.sublist (by simp)
          exact (List.perm_append_singleton r ys).nodup_iff.mpr h1
        rw [hpost] at hpn
        exact (List.nodup_cons.mp hpn).1 hd
      refine ⟨?_, ?_⟩
      · rw [nextAt_removed has his, if_neg hci, if_neg hca, hcd.1]
      · rw [prevAt_removed hbs his, if_neg hdi, if_neg hdb, hcd.2]
    have hab : L.Linked (removed L h a item b) a b := by
      refine ⟨?_, ?_⟩
      · rw [nextAt_removed has his, if_neg hai', if_pos rfl]
      · rw [prevAt_removed hbs his, if_neg hbi, if_pos rfl]
    have hl : r :: (xs ++ ys) ++ [r] = pre ++ a :: b :: post := by
      have : r :: (xs ++ ys) ++ [r] = (r :: xs) ++ (ys ++ [r]) := by simp
      rw [this, hpre, hpost]
      simp
    rw [hl, List.isChain_split]
    exact ⟨hleft, by simp [hab, hright]⟩
  · exact hnd.sublist (by simp)

/-- Removing a later node leaves the ring without it. -/
theorem IsRing.remove_later {r item : Addr} {xs ys : List Addr}
    (hr : IsRing L h r (xs ++ item :: ys)) :
    ∃ h', L.remove h (some r) item = .ok (h', some r) ∧ IsRing L h' r (xs ++ ys) ∧
      L.Frame h h' ∧ ∀ c, c ∉ r :: (xs ++ item :: ys) → h' c = h c := by
  obtain ⟨a, b, hai, hib, hb, ham, hbm, hring⟩ := hr.of_removed
  have hne : ¬ (some r = some item) := by
    intro he
    have hnd := (List.nodup_cons.mp hr.nodup).1
    exact hnd (Option.some.inj he ▸ by simp)
  refine ⟨_, by rw [remove_eq hai hib hb, if_neg hne], hring, frame_removed, fun c hc => ?_⟩
  simp only [List.mem_cons, List.mem_append, not_or] at hc ham hbm
  refine removed_of_ne ?_ ?_ ?_
  · rintro rfl
    rcases ham with rfl | hm
    · exact hc.1 rfl
    · exact hc.2.1 hm
  · exact hc.2.2.1
  · rintro rfl
    rcases hbm with hm | hm
    · exact hc.2.2.2 hm
    · exact hc.1 (by simpa using hm)

/-- Removing the first node of a longer ring makes the second one the first. -/
theorem IsRing.remove_first {r t : Addr} {ts : List Addr} (hr : IsRing L h r (t :: ts)) :
    ∃ h', L.remove h (some r) r = .ok (h', some t) ∧ IsRing L h' t ts ∧ L.Frame h h' ∧
      ∀ c, c ∉ r :: t :: ts → h' c = h c := by
  have hrot : IsRing L h t (ts ++ r :: []) := rotate (show IsRing L h r ([] ++ t :: ts) from hr)
  obtain ⟨a, b, hai, hib, hb, ham, hbm, hring⟩ := hrot.of_removed
  have hbt : b = t := by simpa using hbm
  subst hbt
  refine ⟨_, by rw [remove_eq hai hib hb, if_pos rfl], by simpa using hring, frame_removed, fun c hc => ?_⟩
  refine removed_of_ne ?_ ?_ ?_
  · rintro rfl
    exact hc (List.mem_cons_of_mem _ ham)
  · rintro rfl
    exact hc (by simp)
  · rintro rfl
    exact hc (by simp)

/-- Removing the only node leaves nothing. -/
theorem IsRing.remove_last {r : Addr} (hr : IsRing L h r []) :
    ∃ h', L.remove h (some r) r = .ok (h', none) ∧ L.Frame h h' ∧ ∀ c, c ≠ r → h' c = h c := by
  have hs : (h r).isSome := hr.isSome (by simp)
  obtain ⟨x, hx, hlx⟩ := load_eq hs
  have hc := hr.chain
  simp only [List.cons_append, List.nil_append, List.isChain_pair] at hc
  have hxn : L.next x = some r := by
    simpa [Links.nextAt, hx] using hc.1
  refine ⟨upd (upd h r (L.setNext · none)) r (L.setPrev · none), ?_, ?_, ?_⟩
  · simp only [Links.remove, hlx, ok_bind, hxn, if_true]
    rw [modify_eq hs, ok_bind, modify_eq (by simpa using hs), ok_bind]
  · exact ((frame_refl L h).upd fun x => L.rest_setNext x _).upd fun x => L.rest_setPrev x _
  · intro c hc
    rw [upd_of_ne _ hc, upd_of_ne _ hc]

/-! ## Rings that may be empty -/

/-- The ring reached through a variable that is null when nothing is stored. -/
def IsList (L : Links α) (h : Heap α) : Option Addr → List Addr → Prop
  | none, [] => True
  | some r, a :: as => r = a ∧ IsRing L h a as
  | _, _ => False

namespace IsList

variable {first : Option Addr} {item : Addr} {l xs ys : List Addr}

theorem isSome (hl : IsList L h first l) (ha : a ∈ l) : (h a).isSome := by
  cases first with
  | none => cases l with
    | nil => cases ha
    | cons b bs => exact hl.elim
  | some r => cases l with
    | nil => cases ha
    | cons b bs => exact hl.2.isSome ha

theorem nodup (hl : IsList L h first l) : l.Nodup := by
  cases first with
  | none => cases l with
    | nil => exact List.nodup_nil
    | cons b bs => exact hl.elim
  | some r => cases l with
    | nil => exact hl.elim
    | cons b bs => exact hl.2.nodup

theorem congr (hl : IsList L h first l) (hh : ∀ a ∈ l, L.nextAt h' a = L.nextAt h a ∧
    L.prevAt h' a = L.prevAt h a) : IsList L h' first l := by
  cases first with
  | none => cases l with
    | nil => trivial
    | cons b bs => exact hl.elim
  | some r => cases l with
    | nil => exact hl.elim
    | cons b bs => exact ⟨hl.1, hl.2.congr hh⟩

theorem append (hl : IsList L h first l) (hi : (h item).isSome) (hn : item ∉ l) :
    ∃ h' first', L.append h first item = .ok (h', first') ∧ IsList L h' first' (l ++ [item]) ∧
      L.Frame h h' := by
  cases first with
  | none => cases l with
    | nil =>
      obtain ⟨h', he, hr, hf, -⟩ := append_none (L := L) hi
      exact ⟨h', some item, he, ⟨rfl, hr⟩, hf⟩
    | cons b bs => exact hl.elim
  | some r => cases l with
    | nil => exact hl.elim
    | cons b bs =>
      obtain ⟨rfl, hr⟩ := hl
      obtain ⟨h', he, hr', hf, -⟩ := hr.append hi hn
      exact ⟨h', some r, he, ⟨rfl, hr'⟩, hf⟩

theorem remove (hl : IsList L h first (xs ++ item :: ys)) :
    ∃ h' first', L.remove h first item = .ok (h', first') ∧ IsList L h' first' (xs ++ ys) ∧
      L.Frame h h' := by
  cases first with
  | none => cases xs <;> exact hl.elim
  | some r => cases xs with
    | nil =>
      obtain ⟨rfl, hr⟩ := hl
      cases ys with
      | nil =>
        obtain ⟨h', he, hf, -⟩ := hr.remove_last
        exact ⟨h', none, he, trivial, hf⟩
      | cons y ys =>
        obtain ⟨h', he, hr', hf, -⟩ := hr.remove_first
        exact ⟨h', some y, he, ⟨rfl, hr'⟩, hf⟩
    | cons x xs =>
      obtain ⟨rfl, hr⟩ := hl
      obtain ⟨h', he, hr', hf, -⟩ := hr.remove_later
      exact ⟨h', some r, he, ⟨rfl, hr'⟩, hf⟩

end IsList

/-! ## Going round -/

/-- Along a chain of links, `k` steps lead to the node at place `k`. -/
theorem iterate_next {l : List Addr} (hc : List.IsChain (L.Linked h) (a :: l)) {k : Nat} (hk : k ≤ l.length) :
    (fun o => o.bind (L.nextAt h))^[k] (some a) = (a :: l)[k]? := by
  induction k generalizing a l with
  | zero => rfl
  | succ k ih =>
    cases l with
    | nil => cases hk
    | cons b l =>
      obtain ⟨hab, hc⟩ := List.isChain_cons_cons.mp hc
      rw [Function.iterate_succ_apply, Option.bind_some, hab.1, ih hc (Nat.le_of_succ_le_succ hk)]
      rfl

namespace IsRing

variable {r : Addr} {ts : List Addr}

/-- A ring comes back to its first node after as many steps as it has nodes, and not before. -/
theorem iterate_eq_iff (hr : IsRing L h r ts) {k : Nat} (hpos : 0 < k) (hk : k ≤ (r :: ts).length) :
    (fun o => o.bind (L.nextAt h))^[k] (some r) = some r ↔ k = (r :: ts).length := by
  obtain ⟨k, rfl⟩ : ∃ n, k = n + 1 := ⟨k - 1, by omega⟩
  have hlen : k ≤ ts.length := Nat.le_of_succ_le_succ hk
  have hwalk : (fun o => o.bind (L.nextAt h))^[k + 1] (some r) = (r :: (ts ++ [r]))[k + 1]? :=
    iterate_next hr.chain (by simpa using hk)
  rw [hwalk, List.getElem?_cons_succ, List.length_cons, Nat.add_right_cancel_iff]
  rcases Nat.lt_or_eq_of_le hlen with hlt | rfl
  · rw [List.getElem?_append_left hlt]
    refine ⟨fun heq => ?_, fun heq => absurd heq (Nat.ne_of_lt hlt)⟩
    exact absurd (List.mem_of_getElem? heq) (List.nodup_cons.mp hr.nodup).1
  · simp

theorem exists_next (hr : IsRing L h r ts) (ha : a ∈ r :: ts) : ∃ b ∈ r :: ts, L.Linked h a b := by
  obtain ⟨xs, ys, hs⟩ := List.append_of_mem ha
  have hring := hr.from_node hs
  have hmem (b : Addr) : b ∈ a :: (ys ++ xs) ↔ b ∈ r :: ts := by
    rw [hs]
    simp only [List.mem_cons, List.mem_append]
    tauto
  have hc := hring.chain
  cases hy : ys ++ xs with
  | nil =>
    rw [hy] at hc
    exact ⟨a, ha, List.isChain_pair.mp hc⟩
  | cons b l =>
    rw [hy] at hc hmem
    exact ⟨b, (hmem b).mp (by simp), (List.isChain_cons_cons.mp hc).1⟩

theorem exists_prev (hr : IsRing L h r ts) (ha : a ∈ r :: ts) : ∃ b ∈ r :: ts, L.Linked h b a := by
  obtain ⟨xs, ys, hs⟩ := List.append_of_mem ha
  obtain ⟨l, b, hl⟩ := exists_concat a (ys ++ xs)
  have hmem : b ∈ a :: (ys ++ xs) := by simp [hl]
  refine ⟨b, ?_, (hr.from_node hs).last_linked hl⟩
  rw [hs]
  simp only [List.mem_cons, List.mem_append] at hmem ⊢
  tauto

/-- Following the links never leaves the ring. -/
theorem iterate_mem (hr : IsRing L h r ts) (k : Nat) :
    ∃ a ∈ r :: ts, (fun o => o.bind (L.nextAt h))^[k] (some r) = some a := by
  induction k with
  | zero => exact ⟨r, List.mem_cons_self, rfl⟩
  | succ k ih =>
    obtain ⟨a, ha, hwalk⟩ := ih
    obtain ⟨b, hb, hab⟩ := hr.exists_next ha
    refine ⟨b, hb, ?_⟩
    rw [Function.iterate_succ_apply', hwalk, Option.bind_some, hab.1]

/-- From every node of the ring the links lead to its first node. -/
theorem iterate_reaches (hr : IsRing L h r ts) (ha : a ∈ r :: ts) :
    ∃ k, (fun o => o.bind (L.nextAt h))^[k] (some a) = some r := by
  obtain ⟨xs, ys, hs⟩ := List.append_of_mem ha
  have hring := hr.from_node hs
  have hmem : r ∈ a :: (ys ++ xs) := by
    have hfirst : r ∈ xs ++ a :: ys := hs ▸ List.mem_cons_self
    simp only [List.mem_cons, List.mem_append] at hfirst ⊢
    tauto
  obtain ⟨k, hk, hkr⟩ := List.mem_iff_getElem.mp hmem
  have hle : k ≤ (ys ++ xs ++ [a]).length := by
    rw [List.length_append]
    exact (Nat.le_of_lt_succ hk).trans (Nat.le_add_right _ _)
  have hplace : (a :: (ys ++ xs) ++ [a])[k]? = some r := by
    rw [List.getElem?_append_left hk, List.getElem?_eq_getElem hk, hkr]
  exact ⟨k, (iterate_next hring.chain hle).trans hplace⟩

end IsRing

end Ring
