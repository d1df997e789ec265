import Dirlist.Lib.Depth
import Dirlist.Rules.Defs

/-! `remove_indirect_deps` strikes out, in the array that it goes through, what the entries lead to,
and then closes the gaps. An entry that is struck out early is not followed, but one that leads to
it is. -/

namespace Dirlist
open Run

variable {α : Type} [DecidableEq α]

/-! ## The code -/

/-- The arrays of targets: one that stands alone, and the one of each target. An entry may be
`NULL`. -/
abbrev Arrays (α : Type) := Option α → List (Option α)

/-- `array_find` for a target and the `NULL` put in its place. -/
def nullFound (l : List (Option α)) (t : α) : List (Option α) :=
  match l.idxOf? (some t) with
  | some i => l.set i none
  | none => l

/-- `remove_indirect_deps_recursive`. The arrays keep their lengths meanwhile. -/
def removeIndirectDepsRecursive (top : Option α) : Nat → Option α → Nat → Arrays α → Exec (Arrays α)
  | 0, _, _, _ => .error .fuel
  | k + 1, a, depth, arr =>
    (List.range' 0 (arr a).length).foldlM (fun arr p =>
      match (arr a)[p]? with
      | some (some t) =>
        let arr := if depth > 0 then Function.update arr top (nullFound (arr top) t) else arr
        if a ≠ some t ∧ depth < 100 ∧ (arr (some t)).length > 0 then
          removeIndirectDepsRecursive top k (some t) (depth + 1) arr
        else .ok arr
      | _ => .ok arr) arr

/-- One round of the loop that closes the gaps, at the index `r`. -/
def shiftDown (s : Nat × List (Option α)) (r : Nat) : Nat × List (Option α) :=
  match s.2[r]? with
  | some (some t) => (s.1 + 1, s.2.set s.1 (some t))
  | _ => s

/-- `remove_indirect_deps` -/
def removeIndirectDeps (k : Nat) (deps : Option α) (arr : Arrays α) : Exec (Nat × Arrays α) := do
  let arr ← removeIndirectDepsRecursive deps k deps 0 arr
  let n := (arr deps).length
  let s := (List.range' 0 n).foldl shiftDown (0, arr deps)
  .ok (n - s.1, Function.update arr deps (s.2.take s.1))

/-! ## Gaps -/

omit [DecidableEq α] in
theorem foldl_shiftDown (kept : List α) (gap rest : List (Option α)) :
    ∃ gap', (List.range' (kept.length + gap.length) rest.length).foldl shiftDown
        (kept.length, kept.map some ++ gap ++ rest) =
      ((kept ++ rest.filterMap id).length, (kept ++ rest.filterMap id).map some ++ gap') := by
  induction rest generalizing kept gap with
  | nil => exact ⟨gap, by simp⟩
  | cons e rest ih =>
    have hread : (kept.map some ++ gap ++ e :: rest)[kept.length + gap.length]? = some e := by
      rw [List.getElem?_append_right (by simp)]
      simp
    rw [List.length_cons, List.range'_succ, List.foldl_cons, shiftDown]
    simp only [hread]
    cases e with
    | none =>
      obtain ⟨gap', hgap⟩ := ih kept (gap ++ [none])
      refine ⟨gap', ?_⟩
      simpa [Nat.add_assoc] using hgap
    | some x =>
      cases gap with
      | nil =>
        obtain ⟨gap', hgap⟩ := ih (kept ++ [x]) []
        refine ⟨gap', ?_⟩
        simpa [List.set_append] using hgap
      | cons g gap =>
        obtain ⟨gap', hgap⟩ := ih (kept ++ [x]) (gap ++ [some x])
        refine ⟨gap', ?_⟩
        simpa [List.set_append, Nat.add_assoc, Nat.add_comm, Nat.add_left_comm] using hgap

omit [DecidableEq α] in
theorem shiftDowns (l : List (Option α)) :
    ∃ gap, (List.range' 0 l.length).foldl shiftDown (0, l) =
      ((l.filterMap id).length, (l.filterMap id).map some ++ gap) := by
  simpa using foldl_shiftDown [] [] l

/-! ## Striking out -/

open Classical in
/-- The entries with `P` replaced by `NULL`. -/
noncomputable def strike (P : α → Prop) (l : List (Option α)) : List (Option α) :=
  l.map fun e => e.filter fun x => ¬P x

variable {P Q : α → Prop} {l : List (Option α)} {t : α}

omit [DecidableEq α] in
theorem strike_strike : strike Q (strike P l) = strike (fun x => P x ∨ Q x) l := by
  simp only [strike, List.map_map]
  congr 1
  funext e
  cases e with
  | none => rfl
  | some x => by_cases hP : P x <;> by_cases hQ : Q x <;> simp [Option.filter, hP, hQ]

omit [DecidableEq α] in
open Classical in
theorem strike_cons (e : Option α) (l : List (Option α)) :
    strike P (e :: l) = (e.filter fun x => ¬P x) :: strike P l := rfl

omit [DecidableEq α] in
theorem strike_none (h : ∀ x, some x ∈ l → ¬P x) : strike P l = l := by
  induction l with
  | nil => rfl
  | cons e l ih =>
    rw [strike_cons, ih fun x hx => h x (List.mem_cons_of_mem _ hx)]
    cases e with
    | none => rfl
    | some x => simp [Option.filter, h x List.mem_cons_self]

omit [DecidableEq α] in
open Classical in
theorem filterMap_strike : (strike P l).filterMap id = (l.filterMap id).filter fun x => ¬P x := by
  induction l with
  | nil => rfl
  | cons e l ih =>
    rw [strike_cons]
    cases e with
    | none => simpa using ih
    | some x => by_cases hx : P x <;> simpa [Option.filter, hx] using ih

omit [DecidableEq α] in
theorem nodup_strike (hnd : (l.filterMap id).Nodup) : ((strike P l).filterMap id).Nodup := by
  rw [filterMap_strike]
  exact hnd.filter _

theorem nullFound_eq (hnd : (l.filterMap id).Nodup) : nullFound l t = strike (fun x => x = t) l := by
  induction l with
  | nil => rfl
  | cons e l ih =>
    rw [strike_cons, nullFound, List.idxOf?_cons]
    by_cases he : e = some t
    · subst he
      have hnot : some t ∉ l := by simpa using (List.nodup_cons.mp hnd).1
      have hsame : strike (fun x => x = t) l = l := strike_none fun x hx hxt => hnot (hxt ▸ hx)
      rw [hsame]
      simp [Option.filter]
    · have hrest : (l.filterMap id).Nodup := by
        cases e with
        | none => exact hnd
        | some x => exact (List.nodup_cons.mp hnd).2
      rw [← ih hrest, nullFound]
      have hhead : e.filter (fun x => decide ¬x = t) = e := by
        cases e with
        | none => rfl
        | some x => simpa [Option.filter] using he
      cases hfound : l.idxOf? (some t) with
      | none => simpa [he, hfound] using hhead.symm
      | some i => simpa [he, hfound] using hhead.symm

/-! ## Layers -/

/-- Paths from a target have at most `n` edges. -/
def Within (deps : α → List α) (n : Nat) (u : α) : Prop :=
  ∀ p, (u :: p).IsChain (fun a b => b ∈ deps a) → p.length ≤ n

variable {deps : α → List α} {n : Nat} {u x : α}

omit [DecidableEq α] in
theorem Within.step (h : Within deps n u) (ht : t ∈ deps u) : ∃ m, n = m + 1 ∧ Within deps m t := by
  have hpos := h [t] (by simpa using ht)
  obtain ⟨m, rfl⟩ : ∃ m, n = m + 1 := ⟨n - 1, by simp at hpos; omega⟩
  refine ⟨m, rfl, fun p hp => ?_⟩
  have hlen := h (t :: p) (List.isChain_cons_cons.mpr ⟨ht, hp⟩)
  simpa using hlen

omit [DecidableEq α] in
theorem Within.path (h : Within deps n u) (hx : Relation.TransGen (fun a b => b ∈ deps a) u x) :
    ∃ m < n, Within deps m x := by
  induction hx with
  | single hx =>
    obtain ⟨m, rfl, hm⟩ := h.step hx
    exact ⟨m, Nat.lt_succ_self m, hm⟩
  | tail _ hx ih =>
    obtain ⟨m, hmn, hm⟩ := ih
    obtain ⟨j, rfl, hj⟩ := hm.step hx
    exact ⟨j, by omega, hj⟩

omit [DecidableEq α] in
theorem Within.acyclic (h : Within deps n u) : ¬Relation.TransGen (fun a b => b ∈ deps a) u u := by
  intro hcycle
  induction n using Nat.strongRecOn with
  | _ n ih =>
    obtain ⟨m, hm, hw⟩ := h.path hcycle
    exact ih m hm hw

/-- One or more edges lead from a target to another. -/
def LeadsTo (deps : α → List α) : α → α → Prop := Relation.TransGen fun a b => b ∈ deps a

/-- The body of the loop of `remove_indirect_deps_recursive`. -/
def reduceBody (top : Option α) (k : Nat) (a : Option α) (depth : Nat) (arr : Arrays α) (p : Nat) :
    Exec (Arrays α) :=
  match (arr a)[p]? with
  | some (some t) =>
    let arr := if depth > 0 then Function.update arr top (nullFound (arr top) t) else arr
    if a ≠ some t ∧ depth < 100 ∧ (arr (some t)).length > 0 then
      removeIndirectDepsRecursive top k (some t) (depth + 1) arr
    else .ok arr
  | _ => .ok arr

/-- All arrays but the one at the top are as they were. -/
structure Untouched (deps : α → List α) (top : Option α) (arr : Arrays α) : Prop where
  deps : ∀ w, top ≠ some w → arr (some w) = (deps w).map some
  nodup : ((arr top).filterMap id).Nodup

variable {top : Option α} {arr : Arrays α} {d : Nat}

theorem Untouched.strike (h : Untouched deps top arr) (P : α → Prop) :
    Untouched deps top (Function.update arr top (strike P (arr top))) where
  deps w hw := by rw [Function.update_of_ne (Ne.symm hw), h.deps w hw]
  nodup := by
    rw [Function.update_self]
    exact nodup_strike h.nodup

theorem strike_update (arr : Arrays α) (P Q : α → Prop) :
    Function.update (Function.update arr top (strike P (arr top))) top
      (strike Q (Function.update arr top (strike P (arr top)) top)) =
      Function.update arr top (strike (fun x => P x ∨ Q x) (arr top)) := by
  rw [Function.update_self, Function.update_idem, strike_strike]

/-- The effect of the layer of `u`, called at depth `d`. -/
def Strikes (deps : α → List α) (top : Option α) (d : Nat) (u : α) : Prop :=
  ∀ arr, Untouched deps top arr → Returns (fun k => removeIndirectDepsRecursive top k (some u) d arr)
    (Function.update arr top (strike (LeadsTo deps u) (arr top)))

/-- A target without dependencies is not followed, and leads to nothing. -/
theorem returns_follow {a : Option α} (hrec : Strikes deps top (d + 1) t) (ha : a ≠ some t) (hd : d < 100)
    (htop : top ≠ some t) (harr : Untouched deps top arr) :
    Returns (fun k => if a ≠ some t ∧ d < 100 ∧ (arr (some t)).length > 0 then
        removeIndirectDepsRecursive top k (some t) (d + 1) arr else .ok arr)
      (Function.update arr top (strike (LeadsTo deps t) (arr top))) := by
  by_cases hlen : (arr (some t)).length > 0
  · simp only [if_pos (⟨ha, hd, hlen⟩ : a ≠ some t ∧ d < 100 ∧ (arr (some t)).length > 0)]
    exact hrec arr harr
  · simp only [hlen, and_false, if_false]
    have hnil : deps t = [] := by simpa [harr.deps t htop] using hlen
    have hnone : ∀ x, some x ∈ arr top → ¬LeadsTo deps t x := by
      intro x _ hx
      obtain ⟨w, hw, -⟩ := Relation.TransGen.head'_iff.mp hx
      rw [hnil] at hw
      cases hw
    rw [strike_none hnone, Function.update_eq_self]
    exact returns_ok arr

theorem returns_reduceBody {a : Option α} {p : Nat} (hread : (arr a)[p]? = some (some t))
    (hrec : Strikes deps top (d + 1) t) (ha : a ≠ some t) (hpos : 0 < d) (hd : d < 100) (htop : top ≠ some t)
    (harr : Untouched deps top arr) :
    Returns (fun k => reduceBody top k a d arr p)
      (Function.update arr top (strike (fun x => x = t ∨ LeadsTo deps t x) (arr top))) := by
  have hnull := nullFound_eq (t := t) harr.nodup
  simp only [reduceBody, hread, gt_iff_lt, if_pos hpos, hnull]
  have hrest := returns_follow hrec ha hd htop (harr.strike fun x => x = t)
  rwa [strike_update] at hrest

/-- A layer below the top strikes out all it leads to. -/
theorem strikes_layer (hw : Within deps n u) (hd : d + n = 100) (hpos : 0 < d)
    (hfar : ∀ w, Relation.ReflTransGen (fun a b => b ∈ deps a) u w → top ≠ some w) : Strikes deps top d u := by
  induction n using Nat.strongRecOn generalizing u d with
  | _ n ih =>
    intro arr harr
    suffices hloop : ∀ (xs pre : List α) (arr : Arrays α), deps u = pre ++ xs → Untouched deps top arr →
        Returns (fun k => (List.range' pre.length xs.length).foldlM (reduceBody top k (some u) d) arr)
          (Function.update arr top (strike (fun x => ∃ t ∈ xs, x = t ∨ LeadsTo deps t x) (arr top))) by
      have hall := hloop (deps u) [] arr rfl harr
      have hsame : (fun x => ∃ t ∈ deps u, x = t ∨ LeadsTo deps t x) = LeadsTo deps u := by
        funext x
        rw [LeadsTo, Relation.TransGen.head'_iff]
        simp only [Relation.reflTransGen_iff_eq_or_transGen]
      rw [hsame] at hall
      refine hall.succ fun k => ?_
      rw [removeIndirectDepsRecursive, harr.deps u (hfar u .refl), List.length_map]
      rfl
    intro xs
    induction xs with
    | nil =>
      intro pre arr _ _
      rw [strike_none (by simp), Function.update_eq_self]
      exact returns_ok arr
    | cons t xs ihx =>
      intro pre arr hsplit harr
      have ht : t ∈ deps u := by simp [hsplit]
      obtain ⟨m, rfl, hm⟩ := hw.step ht
      have hrec : Strikes deps top (d + 1) t :=
        ih m (Nat.lt_succ_self m) hm (by omega) (by omega) fun w htw => hfar w (.head ht htw)
      have hread : (arr (some u))[pre.length]? = some (some t) := by
        rw [harr.deps u (hfar u .refl), hsplit]
        simp
      have hne : some u ≠ some t := by
        rintro ⟨⟩
        exact hw.acyclic (.single ht)
      have hstep := returns_reduceBody hread hrec hne hpos (by omega) (hfar t (.single ht)) harr
      have hrest := ihx (pre ++ [t]) _ (by simp [hsplit]) (harr.strike fun x => x = t ∨ LeadsTo deps t x)
      rw [strike_update] at hrest
      simp only [List.length_append, List.length_singleton] at hrest
      simp only [List.length_cons, List.range'_succ]
      have hfold := returns_foldlM_cons hstep hrest
      simpa only [List.exists_mem_cons_iff] using hfold

/-! ## The top -/

variable {E : List α}

/-- What is struck out: only what an entry leads to, and all that the entries in `done` lead to,
unless another entry leads to them. -/
structure StruckOut (deps : α → List α) (E done : List α) (P : α → Prop) : Prop where
  sound : ∀ x, P x → ∃ e ∈ E, LeadsTo deps e x
  complete : ∀ e ∈ done, (∀ f ∈ E, ¬LeadsTo deps f e) → ∀ x, LeadsTo deps e x → P x

theorem returns_top (hrec : ∀ e ∈ E, Strikes deps top 1 e) (hfar : ∀ e ∈ E, top ≠ some e) {xs pre : List α}
    (hsplit : E = pre ++ xs) (harr : Untouched deps top arr) (htop : arr top = strike P (E.map some))
    (hP : StruckOut deps E pre P) :
    ∃ Q, Returns (fun k => (List.range' pre.length xs.length).foldlM (reduceBody top k top 0) arr)
        (Function.update arr top (strike Q (E.map some))) ∧ StruckOut deps E E Q := by
  induction xs generalizing pre arr P with
  | nil =>
    rw [List.append_nil] at hsplit
    refine ⟨P, ?_, hsplit ▸ hP⟩
    rw [← htop, Function.update_eq_self]
    exact returns_ok arr
  | cons e xs ih =>
    have he : e ∈ E := by simp [hsplit]
    have hsplit' : E = (pre ++ [e]) ++ xs := by simp [hsplit]
    simp only [List.length_cons, List.range'_succ]
    by_cases hPe : P e
    · -- the entry is struck out already, so another one leads to it
      have hread : (arr top)[pre.length]? = some none := by
        rw [htop, hsplit]
        simp [strike, Option.filter, hPe]
      have hP' : StruckOut deps E (pre ++ [e]) P := by
        refine ⟨hP.sound, fun f hf hsource => ?_⟩
        rcases List.mem_append.mp hf with hf | hf
        · exact hP.complete f hf hsource
        · obtain rfl := List.mem_singleton.mp hf
          obtain ⟨f', hf', hlead⟩ := hP.sound f hPe
          exact absurd hlead (hsource f' hf')
      obtain ⟨Q, hr, hQ⟩ := ih hsplit' harr htop hP'
      rw [List.length_append, List.length_singleton] at hr
      refine ⟨Q, returns_foldlM_cons ((returns_ok arr).congr fun k => ?_) hr, hQ⟩
      rw [reduceBody, hread]
    · have hread : (arr top)[pre.length]? = some (some e) := by
        rw [htop, hsplit]
        simp [strike, Option.filter, hPe]
      have hstep : Returns (fun k => reduceBody top k top 0 arr pre.length)
          (Function.update arr top (strike (LeadsTo deps e) (arr top))) := by
        simp only [reduceBody, hread, gt_iff_lt, lt_irrefl, if_false]
        exact returns_follow (hrec e he) (hfar e he) (by decide) (hfar e he) harr
      have hP' : StruckOut deps E (pre ++ [e]) fun x => P x ∨ LeadsTo deps e x := by
        refine ⟨?_, fun f hf hsource x hx => ?_⟩
        · rintro x (hx | hx)
          · exact hP.sound x hx
          · exact ⟨e, he, hx⟩
        · rcases List.mem_append.mp hf with hf | hf
          · exact .inl (hP.complete f hf hsource x hx)
          · exact .inr (List.mem_singleton.mp hf ▸ hx)
      have htop' : Function.update arr top (strike (LeadsTo deps e) (arr top)) top =
          strike (fun x => P x ∨ LeadsTo deps e x) (E.map some) := by
        rw [Function.update_self, htop, strike_strike]
      obtain ⟨Q, hr, hQ⟩ := ih hsplit' (harr.strike _) htop' hP'
      rw [List.length_append, List.length_singleton, Function.update_idem] at hr
      exact ⟨Q, returns_foldlM_cons hstep hr, hQ⟩

omit [DecidableEq α] in
/-- An entry that others lead to is led to by one that none leads to. -/
theorem exists_source (hac : ∀ u, ¬LeadsTo deps u u) {e : α} (he : e ∈ E) (hx : LeadsTo deps e x) :
    ∃ f ∈ E, (∀ g ∈ E, ¬LeadsTo deps g f) ∧ LeadsTo deps f x := by
  have htrans : ∀ u v, Relation.TransGen (fun a b => b ∈ E ∧ LeadsTo deps b a) u v → LeadsTo deps v u := by
    intro u v h
    induction h with
    | single h => exact h.2
    | tail _ h ih => exact h.2.trans ih
  have hacc : Acc (fun a b => a ∈ E ∧ LeadsTo deps a b) e :=
    Search.acc_of_acyclic (fun a b h => h.1) fun u _ hu => hac u (htrans u u hu)
  induction hacc with
  | intro e _ ih =>
    by_cases hsource : ∀ g ∈ E, ¬LeadsTo deps g e
    · exact ⟨e, he, hsource, hx⟩
    · push Not at hsource
      obtain ⟨g, hg, hge⟩ := hsource
      exact ih g ⟨hg, hge⟩ hg (hge.trans hx)

/-- The arrays before the call. -/
def arraysOf (E : List α) (deps : α → List α) : Arrays α
  | none => E.map some
  | some w => (deps w).map some

/-- `remove_indirect_deps` leaves the entries that no other leads to. -/
theorem removeIndirectDeps_spec (deps : α → List α) (E : List α) (top : Option α)
    (hshort : ∀ p : List α, p.IsChain (fun a b => b ∈ deps a) → p.length ≤ 100) (hnd : E.Nodup)
    (htop : ∀ w, top = some w → deps w = E) :
    ∃ kept : List α, Returns (fun k => removeIndirectDeps k top (arraysOf E deps))
        (E.length - kept.length, Function.update (arraysOf E deps) top (kept.map some)) ∧
      kept.Sublist E ∧ ∀ x, x ∈ kept ↔ x ∈ E ∧ ∀ e ∈ E, e ≠ x → ¬LeadsTo deps e x := by
  have hwithin : ∀ u, Within deps 99 u := fun u p hp => Nat.le_of_succ_le_succ (hshort (u :: p) hp)
  have harrTop : arraysOf E deps top = E.map some := by
    cases top with
    | none => rfl
    | some w => rw [arraysOf, htop w rfl]
  have hfar : ∀ e ∈ E, ∀ w, Relation.ReflTransGen (fun a b => b ∈ deps a) e w → top ≠ some w := by
    intro e he w hew heq
    rw [← htop w heq] at he
    exact (hwithin w).acyclic (.head' he hew)
  have hrec : ∀ e ∈ E, Strikes deps top 1 e := fun e he =>
    strikes_layer (hwithin e) rfl Nat.one_pos (hfar e he)
  have harr : Untouched deps top (arraysOf E deps) :=
    ⟨fun w _ => rfl, by rw [harrTop]; simpa using hnd⟩
  have hstart : arraysOf E deps top = strike (fun _ => False) (E.map some) := by
    rw [strike_none (by simp), harrTop]
  obtain ⟨Q, hr, hQ⟩ := returns_top hrec (fun e he => hfar e he e .refl) (List.nil_append E).symm harr hstart
    ⟨fun _ h => h.elim, by simp⟩
  have hcall : Returns (fun k => removeIndirectDepsRecursive top k top 0 (arraysOf E deps))
      (Function.update (arraysOf E deps) top (strike Q (E.map some))) := by
    refine hr.succ fun k => ?_
    rw [removeIndirectDepsRecursive, harrTop, List.length_map]
    rfl
  have hlen : (strike Q (E.map some)).length = E.length := by simp [strike]
  obtain ⟨gap, hgap⟩ := shiftDowns (strike Q (E.map some))
  rw [hlen] at hgap
  refine ⟨(strike Q (E.map some)).filterMap id, hcall.bind ?_, ?_, fun x => ?_⟩
  · simp only [Function.update_self, Function.update_idem, hlen, hgap]
    rw [List.take_left' (by simp)]
    exact returns_ok _
  · rw [filterMap_strike]
    simp
  · have hmem : x ∈ (strike Q (E.map some)).filterMap id ↔ x ∈ E ∧ ¬Q x := by
      rw [filterMap_strike]
      simp
    rw [hmem]
    refine and_congr_right fun hx => ⟨fun hnot e he _ hex => hnot ?_, fun hnone hQx => ?_⟩
    · obtain ⟨f, hf, hsource, hfx⟩ := exists_source (fun u => (hwithin u).acyclic) he hex
      exact hQ.complete f hf hsource x hfx
    · obtain ⟨e, he, hex⟩ := hQ.sound x hQx
      exact hnone e he (fun heq => (hwithin x).acyclic (heq ▸ hex)) hex

/-- Two targets, of which one needs the other. -/
def pairDeps (t : Bool) : List Bool := if t then [false] else []

theorem pairDeps_short (p : List Bool) (hp : p.IsChain fun a b => b ∈ pairDeps a) : p.length ≤ 100 := by
  rcases p with _ | ⟨a, _ | ⟨b, _ | ⟨c, p⟩⟩⟩
  · simp
  · simp
  · simp
  · rw [List.isChain_cons_cons, List.isChain_cons_cons] at hp
    revert hp
    cases a <;> cases b <;> simp [pairDeps]

theorem removeIndirectDeps_pair :
    ∃ kept : List Bool, Returns (fun k => removeIndirectDeps k none (arraysOf [false, true] pairDeps))
      (2 - kept.length, Function.update (arraysOf [false, true] pairDeps) none (kept.map some)) ∧
        kept = [true] := by
  obtain ⟨kept, hr, hsub, hmem⟩ := removeIndirectDeps_spec pairDeps [false, true] none pairDeps_short (by decide)
    (by simp)
  have hfalse : false ∉ kept := fun h => ((hmem false).mp h).2 true (by decide) (by decide) (.single (by decide))
  have htrue : true ∈ kept := by
    refine (hmem true).mpr ⟨by decide, fun e _ he hlead => ?_⟩
    obtain ⟨w, -, hw⟩ := Relation.TransGen.tail'_iff.mp hlead
    revert hw
    cases w <;> decide
  refine ⟨kept, hr, ?_⟩
  rcases List.sublist_cons_iff.mp hsub with hsub | ⟨r, rfl, -⟩
  · rcases List.sublist_singleton.mp hsub with rfl | rfl
    · cases htrue
    · rfl
  · exact absurd List.mem_cons_self hfalse

end Dirlist
