import Dirlist.Lib.Ring

/-! Doubly linked lists that end in null at both sides, as segments: what is linked one after the other, between a
node before and a node behind. -/

namespace Strand
open Run Ring

variable {α : Type} (L : Links α)

/-- The nodes `xs` are linked in this order, behind `before` and in front of `after`. -/
def Seg (h : Heap α) (before : Option Addr) : List Addr → Option Addr → Prop
  | [], _ => True
  | x :: xs, after => (h x).isSome ∧ L.prevAt h x = before ∧ L.nextAt h x = xs.head?.or after ∧ Seg h (some x) xs after

/-- Only links of `touched` nodes have changed. -/
structure Confined (h h' : Heap α) (touched : List Addr) : Prop where
  same : ∀ a, a ∉ touched → h' a = h a
  rest : L.Frame h h'

variable {L} {h h' h'' : Heap α} {before before' after after' : Option Addr} {x y a : Addr}
  {xs ys zs : List Addr}

theorem seg_cons : Seg L h before (x :: xs) after ↔
    (h x).isSome ∧ L.prevAt h x = before ∧ L.nextAt h x = xs.head?.or after ∧ Seg L h (some x) xs after := Iff.rfl

theorem seg_append : Seg L h before (xs ++ ys) after ↔
    Seg L h before xs (ys.head?.or after) ∧ Seg L h (xs.getLast?.or before) ys after := by
  induction xs generalizing before with
  | nil => exact ⟨fun hs => ⟨trivial, hs⟩, fun hs => hs.2⟩
  | cons x xs ih =>
    have hhead : (xs ++ ys).head?.or after = xs.head?.or (ys.head?.or after) := by
      rw [List.head?_append, Option.or_assoc]
    have hlast : (x :: xs).getLast?.or before = xs.getLast?.or (some x) := by
      rw [List.getLast?_cons]
      cases xs.getLast? <;> rfl
    rw [List.cons_append, seg_cons, seg_cons, ih, hhead, hlast, and_assoc, and_assoc, and_assoc]

theorem Seg.isSome (hs : Seg L h before xs after) (ha : a ∈ xs) : (h a).isSome := by
  induction xs generalizing before with
  | nil => exact (List.not_mem_nil ha).elim
  | cons x xs ih =>
    rcases List.mem_cons.mp ha with rfl | ha
    · exact hs.1
    · exact ih hs.2.2.2 ha

/-- A segment depends on its own nodes only. -/
theorem Seg.congr (hs : Seg L h before xs after) (hh : ∀ a ∈ xs, h' a = h a) : Seg L h' before xs after := by
  induction xs generalizing before with
  | nil => trivial
  | cons x xs ih =>
    obtain ⟨hx, hxs⟩ := List.forall_mem_cons.mp hh
    obtain ⟨hsome, hprev, hnext, hrest⟩ := hs
    refine ⟨by rw [hx]; exact hsome, ?_, ?_, ih hrest hxs⟩
    · rw [← hprev, Links.prevAt, hx, Links.prevAt]
    · rw [← hnext, Links.nextAt, hx, Links.nextAt]

theorem Seg.upd (hs : Seg L h before xs after) (ha : a ∉ xs) (f : α → α) : Seg L (upd h a f) before xs after :=
  hs.congr fun _ hc => upd_of_ne f (ne_of_mem_of_not_mem hc ha)

/-- The first node gets another one before it. -/
theorem Seg.setPrev (hs : Seg L h before (x :: xs) after) (hx : x ∉ xs) (before' : Option Addr) :
    Seg L (Ring.upd h x (L.setPrev · before')) before' (x :: xs) after := by
  obtain ⟨hsome, -, hnext, hrest⟩ := hs
  refine ⟨by rw [upd_isSome]; exact hsome, ?_, ?_, hrest.upd hx _⟩
  · rw [prevAt_upd_setPrev hsome, if_pos rfl]
  · rw [nextAt_upd_setPrev, hnext]

/-- The last node gets another one behind it. -/
theorem Seg.setNext (hs : Seg L h before (xs ++ [x]) after) (hx : x ∉ xs) (after' : Option Addr) :
    Seg L (Ring.upd h x (L.setNext · after')) before (xs ++ [x]) after' := by
  obtain ⟨hxs, hsome, hprev, -, -⟩ := seg_append.mp hs
  refine seg_append.mpr ⟨hxs.upd hx _, by rw [upd_isSome]; exact hsome, ?_, ?_, trivial⟩
  · rw [prevAt_upd_setNext, hprev]
  · rw [nextAt_upd_setNext hsome, if_pos rfl]
    rfl

theorem seg_single : Seg L h before [x] after ↔ (h x).isSome ∧ L.prevAt h x = before ∧ L.nextAt h x = after := by
  rw [seg_cons]
  exact ⟨fun hs => ⟨hs.1, hs.2.1, hs.2.2.1⟩, fun hs => ⟨hs.1, hs.2.1, hs.2.2, trivial⟩⟩

theorem seg_first : Seg L h before (x :: ys) after ↔
    Seg L h before [x] (ys.head?.or after) ∧ Seg L h (some x) ys after := by
  rw [seg_cons, seg_single, and_assoc, and_assoc]

theorem seg_split : Seg L h before (xs ++ x :: ys) after ↔ Seg L h before xs (some x) ∧
    Seg L h (xs.getLast?.or before) [x] (ys.head?.or after) ∧ Seg L h (some x) ys after := by
  rw [seg_append, seg_first]
  rfl

/-! ## A whole chain -/

theorem Seg.at_split (hs : Seg L h none (xs ++ a :: ys) none) :
    L.nextAt h a = ys.head? ∧ L.prevAt h a = xs.getLast? := by
  obtain ⟨-, hone, -⟩ := seg_split.mp hs
  obtain ⟨-, hprev, hnext⟩ := seg_single.mp hone
  rw [Option.or_none] at hprev hnext
  exact ⟨hnext, hprev⟩

theorem Seg.next_mem (hs : Seg L h none xs none) (hx : x ∈ xs) (hy : L.nextAt h x = some y) : y ∈ xs := by
  obtain ⟨as, bs, rfl⟩ := List.append_of_mem hx
  rw [hs.at_split.1] at hy
  exact List.mem_append_right as (List.mem_cons_of_mem x (List.mem_of_mem_head? hy))

theorem Seg.prev_mem (hs : Seg L h none xs none) (hx : x ∈ xs) (hy : L.prevAt h x = some y) : y ∈ xs := by
  obtain ⟨as, bs, rfl⟩ := List.append_of_mem hx
  rw [hs.at_split.2] at hy
  exact List.mem_append_left (x :: bs) (List.mem_of_getLast? hy)

/-- The two links of a chain agree. -/
theorem Seg.next_iff_prev (hs : Seg L h none xs none) (hx : x ∈ xs) (hy : y ∈ xs) :
    L.nextAt h x = some y ↔ L.prevAt h y = some x := by
  constructor
  · intro hnext
    obtain ⟨as, bs, rfl⟩ := List.append_of_mem hx
    rw [hs.at_split.1] at hnext
    obtain ⟨bs, rfl⟩ := List.head?_eq_some_iff.mp hnext
    have hs' : Seg L h none ((as ++ [x]) ++ y :: bs) none := by rwa [List.append_assoc]
    rw [hs'.at_split.2, List.getLast?_concat]
  · intro hprev
    obtain ⟨as, bs, rfl⟩ := List.append_of_mem hy
    rw [hs.at_split.2] at hprev
    obtain ⟨as, rfl⟩ := List.getLast?_eq_some_iff.mp hprev
    have hs' : Seg L h none (as ++ x :: y :: bs) none := by rwa [List.append_assoc] at hs
    rw [hs'.at_split.1, List.head?_cons]

theorem Seg.prev_none_iff (hs : Seg L h none xs none) (hx : x ∈ xs) (hnd : xs.Nodup) :
    L.prevAt h x = none ↔ xs.head? = some x := by
  obtain ⟨as, bs, rfl⟩ := List.append_of_mem hx
  rw [hs.at_split.2, List.getLast?_eq_none_iff]
  cases as with
  | nil => exact ⟨fun _ => rfl, fun _ => rfl⟩
  | cons a as =>
    have hxa : x ∉ a :: as := fun hxa => (List.nodup_append.mp hnd).2.2 x hxa x List.mem_cons_self rfl
    exact ⟨nofun, fun heq => (hxa (Option.some.inj heq ▸ List.mem_cons_self)).elim⟩

theorem Seg.next_none_iff (hs : Seg L h none xs none) (hx : x ∈ xs) (hnd : xs.Nodup) :
    L.nextAt h x = none ↔ xs.getLast? = some x := by
  obtain ⟨as, bs, rfl⟩ := List.append_of_mem hx
  rw [hs.at_split.1, List.head?_eq_none_iff, List.getLast?_append_cons]
  cases bs with
  | nil => exact ⟨fun _ => rfl, fun _ => rfl⟩
  | cons b bs =>
    have hxb : x ∉ b :: bs := (List.nodup_cons.mp (List.nodup_append.mp hnd).2.1).1
    exact ⟨nofun, fun heq => (hxb (List.mem_of_getLast? heq)).elim⟩

/-- A heap that holds the same links under other addresses holds the same segment there. -/
theorem Seg.map {σ : Addr → Addr} (hs : Seg L h before xs after) (hsome : ∀ a ∈ xs, (h' (σ a)).isSome)
    (hnext : ∀ a ∈ xs, L.nextAt h' (σ a) = (L.nextAt h a).map σ)
    (hprev : ∀ a ∈ xs, L.prevAt h' (σ a) = (L.prevAt h a).map σ) :
    Seg L h' (before.map σ) (xs.map σ) (after.map σ) := by
  induction xs generalizing before with
  | nil => trivial
  | cons x xs ih =>
    obtain ⟨-, hp, hn, hrest⟩ := hs
    rw [List.forall_mem_cons] at hsome hnext hprev
    refine ⟨hsome.1, ?_, ?_, ih hrest hsome.2 hnext.2 hprev.2⟩
    · rw [hprev.1, hp]
    · rw [hnext.1, hn, List.head?_map]
      cases xs.head? <;> rfl

/-! ## Changes -/

theorem upd_upd (h : Heap α) (a : Addr) (f g : α → α) : upd (upd h a f) a g = upd h a fun x => g (f x) := by
  rw [upd, upd, upd, Function.update_idem, Function.update_self, Option.map_map]
  rfl

theorem Confined.refl (h : Heap α) (touched : List Addr) : Confined L h h touched := ⟨fun _ _ => rfl, frame_refl L h⟩

theorem Confined.upd {f : α → α} (hw : Confined L h h' xs) (ha : a ∈ xs) (hf : ∀ x, L.rest (f x) = L.rest x) :
    Confined L h (Ring.upd h' a f) xs :=
  ⟨fun _ hc => (upd_of_ne f (ne_of_mem_of_not_mem ha hc).symm).trans (hw.same _ hc), hw.rest.upd hf⟩

theorem Confined.setNext (hw : Confined L h h' xs) (ha : a ∈ xs) (p : Option Addr) :
    Confined L h (Ring.upd h' a (L.setNext · p)) xs := hw.upd ha fun x => L.rest_setNext x p

theorem Confined.setPrev (hw : Confined L h h' xs) (ha : a ∈ xs) (p : Option Addr) :
    Confined L h (Ring.upd h' a (L.setPrev · p)) xs := hw.upd ha fun x => L.rest_setPrev x p

theorem Confined.mono (hw : Confined L h h' xs) (hsub : xs ⊆ ys) : Confined L h h' ys :=
  ⟨fun a ha => hw.same a fun hx => ha (hsub hx), hw.rest⟩

theorem Confined.trans (hw : Confined L h h' xs) (hw' : Confined L h' h'' xs) : Confined L h h'' xs :=
  ⟨fun a ha => (hw'.same a ha).trans (hw.same a ha), hw.rest.trans hw'.rest⟩

theorem Seg.within (hs : Seg L h before xs after) (hw : Confined L h h' ys) (hd : ∀ a ∈ xs, a ∉ ys) :
    Seg L h' before xs after := hs.congr fun a ha => hw.same a (hd a ha)

end Strand
