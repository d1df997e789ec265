import Dirlist.Strlist.Grow

/-! The operations that add only what is not there yet, and the difference of two lists. -/

namespace Dirlist

/-- `strlist_index_of`, which takes a string that ends at a zero. -/
def strlistIndexOf (sl : Strlist) (str : Bytes) : Int := strlistIndexofb sl (str.takeWhile (· ≠ 0))

def strlistPushUnique (sl : Strlist) (s : Bytes) : Nat × Strlist :=
  if strlistIndexOf sl s ≠ -1 then (0, sl) else (1, strlistPush sl (s.takeWhile (· ≠ 0)))

def strlistPushbUnique (sl : Strlist) (s : Bytes) : Nat × Strlist :=
  if strlistIndexofb sl s ≠ -1 then (0, sl) else (1, strlistPushb sl s)

def strlistCatUnique (sl l : Strlist) : Nat × Strlist :=
  (strlistForeach l).foldl (fun (ret, sl) x =>
    if !strlistContainsb sl x then (ret + 1, strlistPushb sl x) else (ret, sl)) (0, sl)

/-- `strlist_diff`, which empties `out` first. -/
def strlistDiff (a b out : Strlist) : Nat × Strlist :=
  (strlistForeach a).foldl (fun (count, out) x =>
    if strlistContainsb b x then (count, out) else (count + 1, strlistPushb out x)) (0, { out with sa := [] })

inductive UniqueOp
  | pushUnique (s : Bytes)
  | pushbUnique (s : Bytes)
  /-- add the elements of a list that holds `ys` -/
  | catUnique (l : Strlist) (ys : List Bytes)

/-- What an operation has to offer. -/
def UniqueOp.offers : UniqueOp → List Bytes
  | .pushUnique s => [s]
  | .pushbUnique s => [s]
  | .catUnique _ ys => ys

/-- All that is offered is an element without separators and zeros. -/
def UniqueOp.Legal (sep : UInt8) (op : UniqueOp) : Prop :=
  (∀ x ∈ op.offers, Clean sep x ∧ 0 ∉ x) ∧
    match op with
    | .catUnique l ys => l.Holds ys
    | _ => True

def uniqueCall (sl : Strlist) : UniqueOp → Nat × Strlist
  | .pushUnique s => strlistPushUnique sl s
  | .pushbUnique s => strlistPushbUnique sl s
  | .catUnique l _ => strlistCatUnique sl l

def uniqueRun (sl : Strlist) (ops : List UniqueOp) : Strlist := ops.foldl (fun sl op => (uniqueCall sl op).2) sl

/-- The distinct elements of `offered`, in the order in which they come first. -/
structure Uniques (xs offered : List Bytes) : Prop where
  mem : ∀ x, x ∈ xs ↔ x ∈ offered
  order : xs.Pairwise fun x y => offered.idxOf x < offered.idxOf y

variable {sep : UInt8} {s t x : Bytes} {xs ys zs offered : List Bytes} {sl : Strlist}

theorem Uniques.nodup (h : Uniques xs offered) : xs.Nodup := by
  refine h.order.imp ?_
  rintro x y hlt rfl
  exact Nat.lt_irrefl _ hlt

/-- What the list of distinct elements is after one more offer. -/
def offer (xs : List Bytes) (x : Bytes) : List Bytes := if xs.contains x then xs else xs ++ [x]

theorem offer_eq (xs : List Bytes) (x : Bytes) : offer xs x = if x ∈ xs then xs else xs ++ [x] := by simp [offer]

theorem Uniques.offer (h : Uniques xs offered) (x : Bytes) : Uniques (offer xs x) (offered ++ [x]) := by
  have hold {y : Bytes} (hy : y ∈ xs) : (offered ++ [x]).idxOf y = offered.idxOf y :=
    List.idxOf_append_of_mem ((h.mem y).mp hy)
  have horder : xs.Pairwise fun y z => (offered ++ [x]).idxOf y < (offered ++ [x]).idxOf z :=
    h.order.imp_of_mem fun hy hz hlt => by rwa [hold hy, hold hz]
  rw [offer_eq]
  by_cases hx : x ∈ xs
  · rw [if_pos hx]
    refine ⟨fun y => ?_, horder⟩
    rw [List.mem_append, ← h.mem, List.mem_singleton]
    exact ⟨.inl, fun hy => hy.elim id fun heq => heq ▸ hx⟩
  · rw [if_neg hx]
    refine ⟨fun y => by rw [List.mem_append, List.mem_append, h.mem], ?_⟩
    rw [List.pairwise_append]
    refine ⟨horder, List.pairwise_singleton _ _, fun y hy z hz => ?_⟩
    obtain rfl := List.mem_singleton.mp hz
    have hnew : (offered ++ [z]).idxOf z = offered.length := by
      rw [List.idxOf_append_of_notMem fun hm => hx ((h.mem z).mpr hm), List.idxOf_cons_self, Nat.add_zero]
    rw [hold hy, hnew]
    exact List.idxOf_lt_length_of_mem ((h.mem y).mp hy)

theorem Uniques.foldl (h : Uniques xs offered) (ys : List Bytes) :
    Uniques (ys.foldl Dirlist.offer xs) (offered ++ ys) := by
  induction ys generalizing xs offered with
  | nil => rwa [List.append_nil]
  | cons y ys ih =>
    have hnext := ih (h.offer y)
    rwa [List.append_assoc] at hnext

/-! ## One call -/

/-- The buffer holds `xs` and does not end with a separator. -/
structure Joined (sl : Strlist) (xs : List Bytes) : Prop where
  holds : sl.Holds xs
  open_end : sl.sa.getLast? ≠ some sl.sep

theorem Joined.pushb (h : Joined sl xs) (hx : Clean sl.sep x) : Joined (strlistPushb sl x) (xs ++ [x]) := by
  refine ⟨h.holds.pushb hx h.open_end, ?_⟩
  have hlast : (strlistPushb sl x).sa.getLast? = x.getLast? := by
    rw [strlistPushb]
    dsimp only
    rw [List.getLast?_append, List.getLast?_eq_some_getLast hx.1]
    rfl
  rw [hlast]
  exact fun hend => hx.2 (List.mem_of_getLast? hend)

/-- Where no separator ends the buffer the two pushes are the same. -/
theorem Joined.push_eq (h : Joined sl xs) (x : Bytes) : strlistPush sl x = strlistPushb sl x := by
  rw [strlistPush, strlistPushb]
  simp only [h.open_end, ne_eq, not_false_eq_true, and_true]

/-- A call adds what is new, and returns how much that is. -/
structure Adds (sl : Strlist) (xs ys : List Bytes) (r : Nat × Strlist) : Prop where
  joined : Joined r.2 (ys.foldl offer xs)
  sep : r.2.sep = sl.sep
  count : r.1 + xs.length = (ys.foldl offer xs).length

theorem Joined.adds_one (h : Joined sl xs) (hx : Clean sl.sep x) :
    Adds sl xs [x] (if x ∈ xs then (0, sl) else (1, strlistPushb sl x)) := by
  have hfold : [x].foldl offer xs = if x ∈ xs then xs else xs ++ [x] := offer_eq xs x
  by_cases hmem : x ∈ xs
  · rw [if_pos hmem] at hfold ⊢
    exact ⟨by rw [hfold]; exact h, rfl, by rw [hfold, Nat.zero_add]⟩
  · rw [if_neg hmem] at hfold ⊢
    exact ⟨by rw [hfold]; exact h.pushb hx, rfl, by rw [hfold, List.length_append, Nat.add_comm]; rfl⟩

theorem Joined.indexofb_ne (h : Joined sl xs) (x : Bytes) : strlistIndexofb sl x ≠ -1 ↔ x ∈ xs := by
  rw [h.holds.indexof]
  by_cases hx : x ∈ xs
  · rw [if_pos hx]
    exact iff_of_true (by omega) hx
  · rw [if_neg hx]
    exact iff_of_false (fun hne => hne rfl) hx

theorem Joined.catUnique (h : Joined sl xs) (hys : ∀ y ∈ ys, Clean sl.sep y) (ret : Nat) :
    ∃ r, ys.foldl (fun (ret, sl) x => if !strlistContainsb sl x then (ret + 1, strlistPushb sl x) else (ret, sl))
      (ret, sl) = (ret + r.1, r.2) ∧ Adds sl xs ys r := by
  induction ys generalizing sl xs ret with
  | nil => exact ⟨(0, sl), rfl, h, rfl, Nat.zero_add _⟩
  | cons y ys ih =>
    obtain ⟨hy, hys⟩ := List.forall_mem_cons.mp hys
    have hoffer : (y :: ys).foldl offer xs = ys.foldl offer (offer xs y) := rfl
    rw [List.foldl_cons]
    dsimp only
    rw [h.holds.contains]
    by_cases hmem : y ∈ xs
    · obtain ⟨r, hfold, hadds⟩ := ih h hys ret
      rw [offer_eq, if_pos hmem] at hoffer
      rw [decide_eq_true hmem]
      exact ⟨r, hfold, by rw [hoffer]; exact hadds.joined, hadds.sep, by rw [hoffer]; exact hadds.count⟩
    · obtain ⟨r, hfold, hadds⟩ := ih (h.pushb hy) hys (ret + 1)
      have hcount := hadds.count
      rw [List.length_append, List.length_singleton] at hcount
      rw [offer_eq, if_neg hmem] at hoffer
      rw [decide_eq_false hmem]
      refine ⟨(r.1 + 1, r.2), ?_, by rw [hoffer]; exact hadds.joined, hadds.sep, ?_⟩
      · refine hfold.trans ?_
        rw [Nat.add_assoc, Nat.add_comm 1]
      · rw [hoffer]
        dsimp only
        omega

theorem Joined.call (h : Joined sl xs) {op : UniqueOp} (hop : op.Legal sl.sep) :
    Adds sl xs op.offers (uniqueCall sl op) := by
  cases op with
  | pushUnique s =>
    obtain ⟨hclean, hzero⟩ := hop.1 s List.mem_cons_self
    have hadds := h.adds_one hclean
    rw [UniqueOp.offers, uniqueCall, strlistPushUnique, strlistIndexOf, takeWhile_free hzero, h.push_eq]
    simpa only [h.indexofb_ne] using hadds
  | pushbUnique s =>
    have hadds := h.adds_one (hop.1 s List.mem_cons_self).1
    rw [UniqueOp.offers, uniqueCall, strlistPushbUnique]
    simpa only [h.indexofb_ne] using hadds
  | catUnique l ys =>
    have hclean : ∀ y ∈ ys, Clean sl.sep y := fun y hy => (hop.1 y hy).1
    obtain ⟨r, hfold, hadds⟩ := h.catUnique hclean 0
    have hl : l.Holds ys := hop.2
    rw [UniqueOp.offers, uniqueCall, strlistCatUnique, hl.foreach, hfold, Nat.zero_add]
    exact hadds

/-! ## Runs -/

theorem Joined.run {ops : List UniqueOp} (h : Joined sl xs) (hops : ∀ op ∈ ops, op.Legal sl.sep) :
    Joined (uniqueRun sl ops) ((ops.flatMap UniqueOp.offers).foldl offer xs) ∧ (uniqueRun sl ops).sep = sl.sep := by
  induction ops generalizing sl xs with
  | nil => exact ⟨h, rfl⟩
  | cons op ops ih =>
    obtain ⟨hop, hops⟩ := List.forall_mem_cons.mp hops
    have hadds := h.call hop
    have hrest := ih hadds.joined (by rwa [hadds.sep])
    rw [List.flatMap_cons, List.foldl_append]
    exact ⟨hrest.1, hrest.2.trans hadds.sep⟩

theorem Strlist.Holds.diff {a b out : Strlist} (ha : a.Holds xs) (hb : b.Holds ys) (hxs : ∀ x ∈ xs, Clean out.sep x) :
    Joined (strlistDiff a b out).2 (xs.filter (· ∉ ys)) ∧
      (strlistDiff a b out).1 = (xs.filter (· ∉ ys)).length := by
  have hfrom (r : Nat × Strlist) (zs : List Bytes) (hsep : r.2.sep = out.sep) (hr : Joined r.2 zs)
      (hcount : r.1 = zs.length) :
      Joined (xs.foldl (fun (count, out) x =>
        if strlistContainsb b x then (count, out) else (count + 1, strlistPushb out x)) r).2
          (zs ++ xs.filter (· ∉ ys)) ∧
      (xs.foldl (fun (count, out) x =>
        if strlistContainsb b x then (count, out) else (count + 1, strlistPushb out x)) r).1 =
          (zs ++ xs.filter (· ∉ ys)).length := by
    clear ha
    induction xs generalizing r zs with
    | nil =>
      rw [List.filter_nil, List.append_nil]
      exact ⟨hr, hcount⟩
    | cons x xs ih =>
      obtain ⟨hx, hxs⟩ := List.forall_mem_cons.mp hxs
      obtain ⟨count, o⟩ := r
      rw [List.foldl_cons]
      dsimp only at hsep hr hcount ⊢
      rw [hb.contains]
      by_cases hmem : x ∈ ys
      · rw [decide_eq_true hmem, if_pos rfl, List.filter_cons_of_neg (by simpa using hmem)]
        exact ih hxs (count, o) zs hsep hr hcount
      · rw [decide_eq_false hmem, if_neg Bool.false_ne_true, List.filter_cons_of_pos (by simpa using hmem)]
        have hpush := hr.pushb (hsep ▸ hx)
        have hrest := ih hxs (count + 1, strlistPushb o x) (zs ++ [x]) hsep hpush (by rw [hcount]; simp)
        rwa [List.append_assoc] at hrest
  rw [strlistDiff, ha.foreach]
  exact hfrom _ [] rfl ⟨.nil, by simp⟩ rfl

/-- Over every run the list holds what was offered, each element once and in the order of the first offers,
every call returns how much it adds, and the difference of two lists is that of their elements. -/
theorem uniqueRun_spec (sl : Strlist) (hsl : sl.sa = []) (ops : List UniqueOp) (hops : ∀ op ∈ ops, op.Legal sl.sep) :
    (strlistForeach (uniqueRun sl ops)).Nodup ∧
    Uniques (strlistForeach (uniqueRun sl ops)) (ops.flatMap UniqueOp.offers) ∧
    (∀ op : UniqueOp, op.Legal sl.sep → (uniqueCall (uniqueRun sl ops) op).1 +
      (strlistForeach (uniqueRun sl ops)).length = (strlistForeach (uniqueCall (uniqueRun sl ops) op).2).length) ∧
    ∀ (a b out : Strlist) (xs ys : List Bytes), a.Holds xs → b.Holds ys → (∀ x ∈ xs, Clean out.sep x) →
      strlistForeach (strlistDiff a b out).2 = xs.filter (· ∉ ys) ∧
        (strlistDiff a b out).1 = (xs.filter (· ∉ ys)).length := by
  have hstart : Joined sl [] := by
    refine ⟨?_, by simp [hsl]⟩
    rw [Strlist.Holds, hsl]
    exact .nil
  obtain ⟨hjoined, hsep⟩ := hstart.run hops
  have huniques : Uniques ((ops.flatMap UniqueOp.offers).foldl offer []) (ops.flatMap UniqueOp.offers) :=
    Uniques.foldl ⟨fun x => Iff.rfl, .nil⟩ _
  rw [hjoined.holds.foreach]
  refine ⟨huniques.nodup, huniques, fun op hop => ?_, fun a b out xs ys ha hb hxs => ?_⟩
  · have hadds := hjoined.call (hsep ▸ hop)
    rw [hadds.joined.holds.foreach]
    exact hadds.count
  · obtain ⟨hdiff, hcount⟩ := ha.diff hb hxs
    exact ⟨hdiff.holds.foreach, hcount⟩

/-- `a`, `b` and `a` once more, and `ab` with `b` from another list. -/
theorem uniqueRun_spec_ab :
    Uniques (strlistForeach (uniqueRun (strlistInit 58)
      [.pushUnique [97], .pushbUnique [98], .pushUnique [97],
        .catUnique ⟨[97, 98, 44, 98], true, 44⟩ [[97, 98], [98]]]))
      [[97], [98], [97], [97, 98], [98]] := by
  have hlists : Lists 44 [97, 98, 44, 98] [[97, 98], [98]] :=
    .cons (x := [97, 98]) ⟨by decide, by decide⟩ (.last ⟨by decide, by decide⟩)
  refine (uniqueRun_spec (strlistInit 58) rfl
    [.pushUnique [97], .pushbUnique [98], .pushUnique [97],
      .catUnique ⟨[97, 98, 44, 98], true, 44⟩ [[97, 98], [98]]] ?_).2.1
  intro op hop
  fin_cases hop
  · exact ⟨by decide, trivial⟩
  · exact ⟨by decide, trivial⟩
  · exact ⟨by decide, trivial⟩
  · exact ⟨by decide, hlists⟩

end Dirlist
