import Dirlist.Lib.Trace
import Dirlist.Strlist.Scan

/-! Runs of `strlist_pushb`, `strlist_prependb` and `strlist_cat` next to the list of byte
strings they stand for. -/

namespace Dirlist
open Trace

inductive GrowOp
  | pushb (x : Bytes)
  | prependb (x : Bytes)
  /-- append a list that holds `ys` -/
  | cat (l : Strlist) (ys : List Bytes)

/-- A step of the code and of the list it stands for. -/
def growStep (s : Strlist × List Bytes) : GrowOp → Strlist × List Bytes
  | .pushb x => (strlistPushb s.1 x, s.2 ++ [x])
  | .prependb x => (strlistPrependb s.1 x, x :: s.2)
  | .cat l ys => (strlistCat s.1 l, s.2 ++ ys)

/-- Elements are not empty and hold no separator, a list to append uses another one, and
only a list with elements has one put in front. -/
def GrowLegal (s : Strlist × List Bytes) : GrowOp → Prop
  | .pushb x => Clean s.1.sep x
  | .prependb x => Clean s.1.sep x ∧ s.2 ≠ []
  | .cat l ys => l.Holds ys ∧ l.sep ≠ s.1.sep ∧ ∀ y ∈ ys, s.1.sep ∉ y

/-- Nothing is pushed behind a separator. -/
def PushesApart (s : Strlist × List Bytes) : GrowOp → Prop
  | .pushb _ => s.1.sa.getLast? ≠ some s.1.sep
  | _ => True

instance (s : Strlist × List Bytes) : (op : GrowOp) → Decidable (PushesApart s op)
  | .pushb _ => inferInstanceAs (Decidable (s.1.sa.getLast? ≠ some s.1.sep))
  | .prependb _ => .isTrue trivial
  | .cat _ _ => .isTrue trivial

/-- What the reading operations say is what they would say of `xs`. -/
structure Reads (sl : Strlist) (xs : List Bytes) : Prop where
  count : strlistCount sl = xs.length
  atN : ∀ i, ((strlistAtN sl i).map fun (p, n) => (sl.sa.drop p).take n) = xs[i]?
  contains : ∀ x, strlistContainsb sl x = decide (x ∈ xs)
  indexof : ∀ x, strlistIndexofb sl x =
    if x ∈ xs then ((offset xs (xs.idxOf x) : Nat) : Int) else -1
  join : ∀ sa delim, strlistJoin sl sa delim = sa ++ [delim].intercalate xs

variable {sep : UInt8} {s t x : Bytes} {xs ys : List Bytes} {sl : Strlist}

theorem Strlist.Holds.reads (h : sl.Holds xs) : Reads sl xs where
  count := h.count
  atN := h.atN
  contains := h.contains
  indexof := h.indexof
  join sa delim := by rw [strlistJoin_eq, h.foreach]

/-! ## Growing -/

/-- The buffer with a separator at its end, unless it is empty or has one already. -/
def opened (sep : UInt8) (s : Bytes) : Bytes :=
  if s.length > 0 ∧ s.getLast? ≠ some sep then s ++ [sep] else s

theorem getLast?_past (x : Bytes) (sep : UInt8) (hs : s ≠ []) :
    (x ++ sep :: s).getLast? = s.getLast? := by
  rw [List.getLast?_append, List.getLast?_cons_of_ne_nil hs, List.getLast?_eq_some_getLast hs]
  rfl

theorem opened_past (x : Bytes) (hs : s ≠ []) : opened sep (x ++ sep :: s) = x ++ sep :: opened sep s := by
  have hpos := List.length_pos_iff.mpr hs
  rw [opened, opened, getLast?_past x sep hs]
  by_cases hend : s.getLast? = some sep
  · simp [hend]
  · simp [hend, hpos]

theorem Lists.append (h : Lists sep s xs) (ht : Lists sep t ys) :
    Lists sep (opened sep s ++ t) (xs ++ ys) := by
  induction h with
  | nil => exact ht
  | @last x hx =>
    have hend : x.getLast? ≠ some sep := fun he => hx.2 (List.mem_of_getLast? he)
    rw [opened, if_pos ⟨hx.length_pos, hend⟩, List.append_assoc]
    exact .cons hx ht
  | @cons x s xs hx hs ih =>
    by_cases hnil : s = []
    · have hopen : opened sep (x ++ sep :: s) = x ++ [sep] := by simp [opened, hnil]
      rw [hopen, hs.eq_nil_iff.mp hnil, List.append_assoc]
      exact .cons hx ht
    · rw [opened_past x hnil, List.append_assoc, List.cons_append]
      exact .cons hx ih

theorem Strlist.Holds.pushb (h : sl.Holds xs) (hx : Clean sl.sep x)
    (hend : sl.sa.getLast? ≠ some sl.sep) : (strlistPushb sl x).Holds (xs ++ [x]) := by
  have happ := Lists.append h (.last hx)
  simp only [opened, hend, ne_eq, not_false_eq_true, and_true] at happ
  exact happ

/-- Exchanging the separator leaves the elements alone. -/
theorem Lists.map_sep {sep' : UInt8} (h : Lists sep' s xs) (hfree : ∀ x ∈ xs, sep ∉ x) :
    Lists sep (s.map fun c => if c = sep' then sep else c) xs := by
  have hsame {x : Bytes} (hx : sep' ∉ x) : (x.map fun c => if c = sep' then sep else c) = x := by
    refine (List.map_congr_left fun c hc => ?_).trans (List.map_id x)
    have hne : c ≠ sep' := fun he => hx (he ▸ hc)
    rw [if_neg hne]
    rfl
  induction h with
  | nil => exact .nil
  | @last x hx =>
    rw [hsame hx.2]
    exact .last ⟨hx.1, hfree x List.mem_cons_self⟩
  | @cons x s xs hx hs ih =>
    rw [List.map_append, List.map_cons, if_pos rfl, hsame hx.2]
    exact .cons ⟨hx.1, hfree x List.mem_cons_self⟩
      (ih fun y hy => hfree y (List.mem_cons_of_mem _ hy))

theorem strlistCat_sa {l : Strlist} (hsep : l.sep ≠ sl.sep) : (strlistCat sl l).sa =
    opened sl.sep sl.sa ++ l.sa.map fun c => if c = l.sep then sl.sep else c := by
  simp only [strlistCat, opened]
  split
  · simp [hsep.symm]
  · simp

theorem Strlist.Holds.cat {l : Strlist} (h : sl.Holds xs) (hl : l.Holds ys) (hsep : l.sep ≠ sl.sep)
    (hfree : ∀ y ∈ ys, sl.sep ∉ y) : (strlistCat sl l).Holds (xs ++ ys) := by
  have happ := Lists.append h (Lists.map_sep hl hfree)
  rw [← strlistCat_sa hsep] at happ
  exact happ

theorem growStep_holds {s : Strlist × List Bytes} {op : GrowOp} (h : s.1.Holds s.2)
    (hlegal : GrowLegal s op) (hop : PushesApart s op) :
    (growStep s op).1.Holds (growStep s op).2 := by
  cases op with
  | pushb x => exact h.pushb hlegal hop
  | prependb x => exact .cons hlegal.1 h
  | cat l ys => exact h.cat hlegal.1 hlegal.2.1 hlegal.2.2

theorem intercalate_concat (delim : UInt8) (x : Bytes) (hxs : xs ≠ []) :
    [delim].intercalate (xs ++ [x]) = [delim].intercalate xs ++ delim :: x := by
  obtain ⟨y, ys, rfl⟩ := List.exists_cons_of_ne_nil hxs
  rw [List.cons_append, ← flatMap_intercalate, ← flatMap_intercalate]
  simp

/-- A push behind a separator is not met again. -/
theorem Strlist.Holds.foreach_push_stuck (h : sl.Holds xs) (hend : sl.sa.getLast? = some sl.sep) :
    strlistForeach (strlistPushb sl x) = xs := by
  have hne : sl.sa ≠ [] := by
    rintro hnil
    rw [hnil] at hend
    cases hend
  have hsa : (strlistPushb sl x).sa = sl.sa ++ sl.sep :: x := by
    simp [strlistPushb, List.length_pos_iff.mpr hne]
  rw [strlistForeach, hsa]
  exact Lists.foreach_stuck h hend x (by rw [List.length_append, List.length_cons]; omega)

theorem pushesApart_of_reads {s : Strlist × List Bytes} {op : GrowOp} (h : s.1.Holds s.2)
    (hreads : Reads (growStep s op).1 (growStep s op).2) : PushesApart s op := by
  cases op with
  | prependb x => trivial
  | cat l ys => trivial
  | pushb x =>
    intro hend
    have hne : s.1.sa ≠ [] := by
      rintro hnil
      rw [hnil] at hend
      cases hend
    have hxs : s.2 ≠ [] := fun hnil => hne ((Lists.eq_nil_iff h).mpr hnil)
    have hjoin := hreads.join [] 0
    rw [growStep, strlistJoin_eq, h.foreach_push_stuck hend, intercalate_concat 0 x hxs] at hjoin
    have hlen := congrArg List.length hjoin
    simp at hlen

/-! ## Runs -/

/-- Along a run of legal operations the list reads as the abstract one exactly as long as
nothing is pushed behind a separator. -/
theorem growRun_reads_iff (sep : UInt8) (ops : List GrowOp)
    (hlegal : Steps growStep GrowLegal (strlistInit sep, []) ops) :
    (∀ done, done <+: ops → Reads (run growStep (strlistInit sep, []) done).1
      (run growStep (strlistInit sep, []) done).2) ↔
    Steps growStep PushesApart (strlistInit sep, []) ops := by
  rw [steps_iff] at hlegal
  refine every_stage_iff
    (P := fun done s => s = run growStep (strlistInit sep, []) done ∧ s.1.Holds s.2)
    (Q := fun _ s => Reads s.1 s.2) ⟨rfl, Lists.nil⟩ (fun _ _ _ h => h.2.reads) ?_ ?_
  · rintro done s op hd ⟨rfl, h⟩ hop
    exact ⟨(run_concat op).symm, growStep_holds h (hlegal done op hd) hop⟩
  · rintro done s op hd ⟨rfl, h⟩ hreads
    exact pushesApart_of_reads h hreads

/-- `a`, then `b` and `c` from a list with another separator, then `d` in front. -/
theorem growRun_reads_abcd :
    Reads (run growStep (strlistInit 58, [])
        [.pushb [97], .cat ⟨[98, 44, 99], true, 44⟩ [[98], [99]], .prependb [100]]).1
      (run growStep (strlistInit 58, [])
        [.pushb [97], .cat ⟨[98, 44, 99], true, 44⟩ [[98], [99]], .prependb [100]]).2 := by
  refine (growRun_reads_iff 58 _ ?_).mpr (by decide) _ (List.prefix_refl _)
  refine ⟨⟨by decide, by decide⟩, ⟨?_, by decide, by decide⟩, ⟨⟨by decide, by decide⟩, by decide⟩, trivial⟩
  exact .cons (x := [98]) ⟨by decide, by decide⟩ (.last ⟨by decide, by decide⟩)

/-- An empty list appended to `a` leaves a separator behind, and `b` is pushed behind it. -/
theorem growRun_misread : ¬∀ (sep : UInt8) (ops : List GrowOp),
    Steps growStep GrowLegal (strlistInit sep, []) ops → ∀ done, done <+: ops →
      Reads (run growStep (strlistInit sep, []) done).1 (run growStep (strlistInit sep, []) done).2 := by
  intro hall
  have hlegal : Steps growStep GrowLegal (strlistInit 58, [])
      [.pushb [97], .cat (strlistInit 44) [], .pushb [98]] :=
    ⟨⟨by decide, by decide⟩, ⟨.nil, by decide, by simp⟩, ⟨by decide, by decide⟩, trivial⟩
  have hcount := (hall 58 _ hlegal _ (List.prefix_refl _)).count
  exact absurd hcount (by decide)

end Dirlist
