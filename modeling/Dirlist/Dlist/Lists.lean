import Dirlist.Dlist.Defs

/-! The operations of lib/dlist on one list: what is linked from its head to its tail, and that no other node is
touched. -/

namespace Dirlist
open Run Ring Strand

variable {α : Type} {h h' : Heap (DlistNode α)} {l : Dlist} {p q : Addr} {before after v : Option Addr}
  {as bs cs xs touched : List Addr}

/-- The list of the nodes `xs`. -/
def dlistOf (xs : List Addr) : Dlist where
  head := xs.head?
  tail := xs.getLast?

theorem dlistOf_append (xs ys : List Addr) :
    dlistOf (xs ++ ys) = ⟨xs.head?.or ys.head?, ys.getLast?.or xs.getLast?⟩ := by
  rw [dlistOf, List.head?_append, List.getLast?_append]

/-- From head to tail the nodes `xs` are linked. -/
structure Strung (h : Heap (DlistNode α)) (xs : List Addr) : Prop where
  seg : Seg dlistLinks h none xs none
  nodup : xs.Nodup

/-! ## Single links -/

theorem nodeSetNext_eq (hq : (h q).isSome) (v : Option Addr) :
    nodeSetNext h q v = .ok (upd h q (dlistLinks.setNext · v)) := modify_eq hq _

theorem nodeSetPrev_eq (hq : (h q).isSome) (v : Option Addr) :
    nodeSetPrev h q v = .ok (upd h q (dlistLinks.setPrev · v)) := modify_eq hq _

/-- A node that stands alone between its neighbours. -/
theorem load_seg (hs : Seg dlistLinks h before [p] after) :
    ∃ x, load h p = .ok x ∧ x.prev = before ∧ x.next = after := by
  obtain ⟨hsome, hprev, hnext⟩ := seg_single.mp hs
  obtain ⟨x, hx, hl⟩ := load_eq hsome
  refine ⟨x, hl, ?_, ?_⟩
  · rw [← hprev, Links.prevAt, hx]
    rfl
  · rw [← hnext, Links.nextAt, hx]
    rfl

theorem seg_new (hp : (h p).isSome) (before after : Option Addr) :
    Seg dlistLinks (upd (upd h p (dlistLinks.setNext · after)) p (dlistLinks.setPrev · before)) before [p] after := by
  have hp' : (upd h p (dlistLinks.setNext · after) p).isSome := by rwa [upd_isSome]
  refine seg_single.mpr ⟨by rwa [upd_isSome], ?_, ?_⟩
  · rw [prevAt_upd_setPrev hp', if_pos rfl]
  · rw [nextAt_upd_setPrev, nextAt_upd_setNext hp, if_pos rfl]

theorem seg_new' (hp : (h p).isSome) (before after : Option Addr) :
    Seg dlistLinks (upd (upd h p (dlistLinks.setPrev · before)) p (dlistLinks.setNext · after)) before [p] after := by
  have hp' : (upd h p (dlistLinks.setPrev · before) p).isSome := by rwa [upd_isSome]
  refine seg_single.mpr ⟨by rwa [upd_isSome], ?_, ?_⟩
  · rw [prevAt_upd_setNext, prevAt_upd_setPrev hp, if_pos rfl]
  · rw [nextAt_upd_setNext hp', if_pos rfl]

theorem relink_last (hs : Seg dlistLinks h before (as ++ [q]) after) (hnd : (as ++ [q]).Nodup) (w : Option Addr) :
    ∃ h', nodeSetNext h q w = .ok h' ∧ Seg dlistLinks h' before (as ++ [q]) w ∧
      Confined dlistLinks h h' (as ++ [q]) := by
  have hq : q ∉ as := fun hq => (List.nodup_append.mp hnd).2.2 q hq q (List.mem_singleton_self q) rfl
  have hmem : q ∈ as ++ [q] := List.mem_append_right as (List.mem_singleton_self q)
  exact ⟨_, nodeSetNext_eq (hs.isSome hmem) w, hs.setNext hq w, (Confined.refl h _).setNext hmem w⟩

theorem relink_first (hs : Seg dlistLinks h before (q :: bs) after) (hnd : (q :: bs).Nodup) (w : Option Addr) :
    ∃ h', nodeSetPrev h q w = .ok h' ∧ Seg dlistLinks h' w (q :: bs) after ∧ Confined dlistLinks h h' (q :: bs) :=
  ⟨_, nodeSetPrev_eq (hs.isSome List.mem_cons_self) w, hs.setPrev (List.nodup_cons.mp hnd).1 w,
    (Confined.refl h _).setPrev List.mem_cons_self w⟩

theorem relink_one (hs : Seg dlistLinks h before [q] after) (w : Option Addr) :
    ∃ h', nodeSetNext h q w = .ok h' ∧ Seg dlistLinks h' before [q] w ∧ Confined dlistLinks h h' [q] :=
  @relink_last _ h q before after [] hs (List.nodup_singleton q) w

/-- What is in front of a link is led to another node. Where nothing is, the list is. -/
theorem linkNext_spec (hs : Seg dlistLinks h before as after) (hnd : as.Nodup) (w : Option Addr) :
    ∃ h', linkNext l h as.getLast? w = .ok (if as = [] then { l with head := w } else l, h') ∧
      Seg dlistLinks h' before as w ∧ Confined dlistLinks h h' as := by
  rcases List.eq_nil_or_concat as with rfl | ⟨ys, t, rfl⟩
  · exact ⟨h, rfl, trivial, .refl h []⟩
  · rw [List.concat_eq_append] at *
    obtain ⟨h', hrun, hseg, hw⟩ := relink_last hs hnd w
    refine ⟨h', ?_, hseg, hw⟩
    rw [List.getLast?_concat, linkNext, hrun, if_neg (List.append_ne_nil_of_right_ne_nil ys (List.cons_ne_nil t []))]
    rfl

theorem linkPrev_spec (hs : Seg dlistLinks h before bs after) (hnd : bs.Nodup) (w : Option Addr) :
    ∃ h', linkPrev l h bs.head? w = .ok (if bs = [] then { l with tail := w } else l, h') ∧
      Seg dlistLinks h' w bs after ∧ Confined dlistLinks h h' bs := by
  cases bs with
  | nil => exact ⟨h, rfl, trivial, .refl h []⟩
  | cons b bs =>
    obtain ⟨h', hrun, hseg, hw⟩ := relink_first hs hnd w
    refine ⟨h', ?_, hseg, hw⟩
    rw [List.head?_cons, linkPrev, hrun, if_neg (List.cons_ne_nil b bs)]
    rfl

/-- The head of a list, when its first nodes `as` are kept and others come behind them. -/
theorem head_kept (hl : l.head = as.head?.or v) (w : Option Addr) :
    (if as = [] then { l with head := w } else l) = { l with head := as.head?.or w } := by
  cases as with
  | nil => rfl
  | cons a as => rw [if_neg (List.cons_ne_nil a as), ← show l.head = (a :: as).head?.or w from hl]

theorem tail_kept (hl : l.tail = bs.getLast?.or v) (w : Option Addr) :
    (if bs = [] then { l with tail := w } else l) = { l with tail := bs.getLast?.or w } := by
  cases bs with
  | nil => rfl
  | cons b bs =>
    have hl : l.tail = (b :: bs).getLast?.or w := by
      rw [hl, List.getLast?_cons]
      rfl
    rw [if_neg (List.cons_ne_nil b bs), ← hl]

/-! ## Adding a node -/

/-- What an operation does: it comes back with a list of the nodes `ys`, and only changes links of `touched`. -/
def Makes (x : Exec (Dlist × Heap (DlistNode α))) (h : Heap (DlistNode α)) (touched ys : List Addr) : Prop :=
  ∃ h', x = .ok (dlistOf ys, h') ∧ Strung h' ys ∧ Confined dlistLinks h h' touched

theorem head_concat (xs : List Addr) (p : Addr) : (xs ++ [p]).head? = xs.head?.or (some p) := by
  rw [List.head?_append]
  rfl

theorem last_cons (p : Addr) (xs : List Addr) : (p :: xs).getLast? = xs.getLast?.or (some p) := by
  rw [List.getLast?_cons]
  cases xs.getLast? <;> rfl

theorem nodup_concat (hnd : xs.Nodup) (hfree : p ∉ xs) : (xs ++ [p]).Nodup :=
  List.nodup_append.mpr ⟨hnd, List.nodup_singleton p, fun _ ha _ hb heq =>
    hfree (List.mem_singleton.mp hb ▸ heq ▸ ha)⟩

theorem not_mem_of_single {a : Addr} (hfree : p ∉ xs) (ha : a ∈ [p]) : a ∉ xs := List.mem_singleton.mp ha ▸ hfree

theorem dlistPush_spec (hs : Strung h xs) (hp : (h p).isSome) (hfree : p ∉ xs) :
    Makes (dlistPush (dlistOf xs) h p) h (p :: xs) (xs ++ [p]) := by
  obtain ⟨hseg, hnd⟩ := hs
  have hp' : (upd h p (dlistLinks.setNext · none) p).isSome := by rwa [upd_isSome]
  have hnew := seg_new hp xs.getLast? none
  have hw : Confined dlistLinks h (upd (upd h p (dlistLinks.setNext · none)) p (dlistLinks.setPrev · xs.getLast?))
      (p :: xs) := ((Confined.refl h _).setNext List.mem_cons_self _).setPrev List.mem_cons_self _
  obtain ⟨h', hrun, hxs, hw'⟩ := linkNext_spec (l := dlistOf xs) ((hseg.upd hfree _).upd hfree _) hnd (some p)
  refine ⟨h', ?_, ⟨?_, nodup_concat hnd hfree⟩, hw.trans (hw'.mono (List.subset_cons_self p xs))⟩
  · have htail : (dlistOf xs).tail = xs.getLast? := rfl
    rw [head_kept (l := dlistOf xs) Option.or_none.symm] at hrun
    simp only [dlistPush, nodeSetNext_eq hp, ok_bind, htail, nodeSetPrev_eq hp', hrun]
    rw [dlistOf, head_concat, List.getLast?_concat]
  · refine seg_append.mpr ⟨hxs, ?_⟩
    rw [Option.or_none]
    exact hnew.within hw' fun a => not_mem_of_single hfree

theorem dlistUnshift_spec (hs : Strung h xs) (hp : (h p).isSome) (hfree : p ∉ xs) :
    Makes (dlistUnshift (dlistOf xs) h p) h (p :: xs) (p :: xs) := by
  obtain ⟨hseg, hnd⟩ := hs
  have hp' : (upd h p (dlistLinks.setPrev · none) p).isSome := by rwa [upd_isSome]
  have hnew := seg_new' hp none xs.head?
  have hw : Confined dlistLinks h (upd (upd h p (dlistLinks.setPrev · none)) p (dlistLinks.setNext · xs.head?))
      (p :: xs) := ((Confined.refl h _).setPrev List.mem_cons_self _).setNext List.mem_cons_self _
  obtain ⟨h', hrun, hxs, hw'⟩ := linkPrev_spec (l := dlistOf xs) ((hseg.upd hfree _).upd hfree _) hnd (some p)
  refine ⟨h', ?_, ⟨?_, List.nodup_cons.mpr ⟨hfree, hnd⟩⟩, hw.trans (hw'.mono (List.subset_cons_self p xs))⟩
  · have hhead : (dlistOf xs).head = xs.head? := rfl
    rw [tail_kept (l := dlistOf xs) Option.or_none.symm] at hrun
    simp only [dlistUnshift, nodeSetPrev_eq hp, ok_bind, hhead, nodeSetNext_eq hp', hrun]
    rw [dlistOf, last_cons, List.head?_cons]
  · refine seg_first.mpr ⟨?_, hxs⟩
    rw [Option.or_none]
    exact hnew.within hw' fun a => not_mem_of_single hfree

/-- The parts around a node. -/
theorem nodup_split (hnd : (as ++ p :: bs).Nodup) : as.Nodup ∧ bs.Nodup ∧ p ∉ as ∧ p ∉ bs ∧ (as ++ bs).Nodup ∧
    (∀ a ∈ as, a ∉ bs) := by
  obtain ⟨has, hpbs, hdisj⟩ := List.nodup_append.mp hnd
  obtain ⟨hp, hbs⟩ := List.nodup_cons.mp hpbs
  have hd : ∀ a ∈ as, a ∉ bs := fun a ha hb => hdisj a ha a (List.mem_cons_of_mem p hb) rfl
  exact ⟨has, hbs, fun hpa => hdisj p hpa p List.mem_cons_self rfl, hp,
    List.nodup_append.mpr ⟨has, hbs, fun a ha b hb heq => hd a ha (heq ▸ hb)⟩, hd⟩

theorem not_mem_split (hp : p ∉ as ++ q :: bs) : p ∉ as ∧ p ≠ q ∧ p ∉ bs := by
  rw [List.mem_append, List.mem_cons, not_or, not_or] at hp
  exact hp

theorem dlistAddAfter_spec (hs : Strung h (as ++ q :: bs)) (hp : (h p).isSome) (hfree : p ∉ as ++ q :: bs) :
    Makes (dlistAddAfter (dlistOf (as ++ q :: bs)) h p q) h (p :: (as ++ q :: bs)) (as ++ q :: p :: bs) := by
  cases bs with
  | nil =>
    have htail : some q = (dlistOf (as ++ [q])).tail := by rw [dlistOf, List.getLast?_concat]
    have hpush := dlistPush_spec hs hp hfree
    rw [dlistAddAfter, if_pos htail]
    rwa [List.append_assoc] at hpush
  | cons b bs =>
    obtain ⟨hseg, hnd⟩ := hs
    obtain ⟨has, hbs, hqa, hqb, -, hdisj⟩ := nodup_split hnd
    obtain ⟨hpa, hpq, hpb⟩ := not_mem_split hfree
    obtain ⟨hsa, hsq, hsb⟩ := seg_split.mp hseg
    have hp' : (upd h p (dlistLinks.setNext · (some b)) p).isSome := by rwa [upd_isSome]
    have hnew := seg_new hp (some q) (some b)
    have hpq' : p ∉ [q] := fun h => hpq (List.mem_singleton.mp h)
    have hqb' : ∀ a ∈ [q], a ∉ b :: bs := fun a => not_mem_of_single hqb
    have hlast : some q ≠ (dlistOf (as ++ q :: b :: bs)).tail := by
      intro heq
      have hlast : (as ++ q :: b :: bs).getLast? = some q := heq.symm
      rw [List.getLast?_append_cons, List.getLast?_cons_cons] at hlast
      exact hqb (List.mem_of_getLast? hlast)
    -- the new node, its right neighbour, then its left one
    obtain ⟨x, hx, -, hxn⟩ := load_seg hsq
    have hsq₂ := (hsq.upd hpq' (dlistLinks.setNext · (some b))).upd hpq' (dlistLinks.setPrev · (some q))
    obtain ⟨x₂, hx₂, -, hxn₂⟩ := load_seg hsq₂
    obtain ⟨h₃, hrun₃, hsb₃, hw₃⟩ := relink_first ((hsb.upd hpb (dlistLinks.setNext · (some b))).upd hpb
      (dlistLinks.setPrev · (some q))) hbs (some p)
    have hsa₃ := ((hsa.upd hpa _).upd hpa _).within hw₃ hdisj
    obtain ⟨h₄, hrun₄, hsq₄, hw₄⟩ := relink_one (hsq₂.within hw₃ hqb') (some p)
    have hw : Confined dlistLinks h h₄ (p :: (as ++ q :: b :: bs)) :=
      ((((Confined.refl h _).setNext List.mem_cons_self _).setPrev List.mem_cons_self _).trans
        (hw₃.mono fun a ha => List.mem_cons_of_mem p (List.mem_append_right as (List.mem_cons_of_mem q ha)))).trans
        (hw₄.mono fun a ha => List.mem_cons_of_mem p (List.mem_append_right as
          (List.mem_singleton.mp ha ▸ List.mem_cons_self)))
    refine ⟨h₄, ?_, ⟨seg_split.mpr ⟨hsa₃.within hw₄ ?_, hsq₄, seg_first.mpr ⟨?_, ?_⟩⟩, ?_⟩, hw⟩
    · have hlist : dlistOf (as ++ q :: b :: bs) = dlistOf (as ++ q :: p :: b :: bs) := by
        rw [dlistOf, dlistOf, List.head?_append, List.head?_append, List.getLast?_append_cons,
          List.getLast?_append_cons, List.getLast?_cons_cons, List.getLast?_cons_cons, List.getLast?_cons_cons]
        rfl
      rw [dlistAddAfter, if_neg hlast, hx, ok_bind, hxn]
      simp only [List.head?_cons, Option.some_or, nodeSetNext_eq hp, ok_bind, nodeSetPrev_eq hp', hx₂, hxn₂, deref,
        hrun₃, hrun₄, hlist]
    · exact fun a ha hq => hqa (List.mem_singleton.mp hq ▸ ha)
    · exact (hnew.within hw₃ fun a => not_mem_of_single hpb).within hw₄ fun a => not_mem_of_single hpq'
    · exact hsb₃.within hw₄ fun a ha hq => hqb (List.mem_singleton.mp hq ▸ ha)
    · have hperm : (as ++ q :: p :: b :: bs).Perm (p :: (as ++ q :: b :: bs)) :=
        ((List.Perm.swap p q (b :: bs)).append_left as).trans List.perm_middle
      exact hperm.nodup_iff.mpr (List.nodup_cons.mpr ⟨hfree, hnd⟩)

theorem dlistAddBefore_spec (hs : Strung h (as ++ q :: bs)) (hp : (h p).isSome) (hfree : p ∉ as ++ q :: bs) :
    Makes (dlistAddBefore (dlistOf (as ++ q :: bs)) h p q) h (p :: (as ++ q :: bs)) (as ++ p :: q :: bs) := by
  rcases List.eq_nil_or_concat as with rfl | ⟨as, t, rfl⟩
  · have hhead : some q = (dlistOf (q :: bs)).head := rfl
    rw [List.nil_append, dlistAddBefore, if_pos hhead]
    exact dlistUnshift_spec hs hp hfree
  · rw [List.concat_eq_append] at *
    obtain ⟨hseg, hnd⟩ := hs
    obtain ⟨hta, hbs, hqa, hqb, -, -⟩ := nodup_split hnd
    obtain ⟨hpa, hpq, hpb⟩ := not_mem_split hfree
    obtain ⟨hsa, hsq, hsb⟩ := seg_split.mp hseg
    rw [List.getLast?_concat, Option.some_or] at hsq
    have hp' : (upd h p (dlistLinks.setNext · (some q)) p).isSome := by rwa [upd_isSome]
    have hnew := seg_new hp (some t) (some q)
    have hpq' : p ∉ [q] := fun h => hpq (List.mem_singleton.mp h)
    have htq : t ≠ q := fun heq => hqa (heq ▸ List.mem_append_right as (List.mem_singleton_self t))
    have hhead : some q ≠ (dlistOf ((as ++ [t]) ++ q :: bs)).head := by
      intro heq
      rw [dlistOf, List.head?_append] at heq
      cases as with
      | nil => exact htq (Option.some.inj heq).symm
      | cons a as => exact hqa (Option.some.inj heq ▸ List.mem_cons_self)
    -- the new node, its left neighbour, then its right one
    have hsq₁ := hsq.upd hpq' (dlistLinks.setNext · (some q))
    obtain ⟨x, hx, hxp, -⟩ := load_seg hsq₁
    have hsq₂ := hsq₁.upd hpq' (dlistLinks.setPrev · (some t))
    obtain ⟨x₂, hx₂, hxp₂, -⟩ := load_seg hsq₂
    obtain ⟨h₃, hrun₃, hsa₃, hw₃⟩ := relink_last ((hsa.upd hpa (dlistLinks.setNext · (some q))).upd hpa
      (dlistLinks.setPrev · (some t))) hta (some p)
    have hqt : ∀ a ∈ [q], a ∉ as ++ [t] := fun a => not_mem_of_single hqa
    obtain ⟨h₄, hrun₄, hsq₄, hw₄⟩ := relink_first (hsq₂.within hw₃ hqt) (List.nodup_singleton q) (some p)
    have hsb₃ := ((hsb.upd hpb (dlistLinks.setNext · (some q))).upd hpb (dlistLinks.setPrev · (some t))).within hw₃
      fun a ha hat => (List.nodup_append.mp hnd).2.2 a hat a (List.mem_cons_of_mem q ha) rfl
    have hw : Confined dlistLinks h h₄ (p :: ((as ++ [t]) ++ q :: bs)) :=
      ((((Confined.refl h _).setNext List.mem_cons_self _).setPrev List.mem_cons_self _).trans
        (hw₃.mono fun a ha => List.mem_cons_of_mem p (List.mem_append_left (q :: bs) ha))).trans
        (hw₄.mono fun a ha => List.mem_cons_of_mem p (List.mem_append_right (as ++ [t])
          (List.mem_singleton.mp ha ▸ List.mem_cons_self)))
    refine ⟨h₄, ?_, ⟨seg_split.mpr ⟨hsa₃.within hw₄ ?_, ?_, seg_first.mpr ⟨hsq₄, hsb₃.within hw₄ ?_⟩⟩, ?_⟩, hw⟩
    · have hlist : dlistOf ((as ++ [t]) ++ q :: bs) = dlistOf ((as ++ [t]) ++ p :: q :: bs) := by
        rw [dlistOf_append, dlistOf_append, head_concat, Option.or_assoc, Option.or_assoc, List.getLast?_cons_cons]
        rfl
      rw [dlistAddBefore, if_neg hhead, nodeSetNext_eq hp, ok_bind, hx, ok_bind, hxp]
      simp only [nodeSetPrev_eq hp', ok_bind, hx₂, hxp₂, deref, hrun₃, hrun₄, hlist]
    · exact fun a ha hq => hqa (List.mem_singleton.mp hq ▸ ha)
    · rw [List.getLast?_concat]
      exact (hnew.within hw₃ fun a => not_mem_of_single hpa).within hw₄ fun a => not_mem_of_single hpq'
    · exact fun a ha hq => hqb (List.mem_singleton.mp hq ▸ ha)
    · exact (List.perm_middle.nodup_iff).mpr (List.nodup_cons.mpr ⟨hfree, hnd⟩)

/-! ## Taking a node out -/

theorem dlistDelete_spec (hs : Strung h (as ++ p :: bs)) :
    Makes (dlistDelete (dlistOf (as ++ p :: bs)) h p) h (as ++ p :: bs) (as ++ bs) := by
  obtain ⟨hseg, hnd⟩ := hs
  obtain ⟨has, hbs, hpa, hpb, hnd', hdisj⟩ := nodup_split hnd
  obtain ⟨hsa, hsp, hsb⟩ := seg_split.mp hseg
  have hpmem : p ∈ as ++ p :: bs := List.mem_append_right as List.mem_cons_self
  have hhead : (dlistOf (as ++ p :: bs)).head = as.head?.or (some p) := by
    rw [dlistOf, List.head?_append, List.head?_cons]
  have htail : (dlistOf (as ++ p :: bs)).tail = bs.getLast?.or (some p) := by
    rw [dlistOf, List.getLast?_append_cons, last_cons]
  -- what was in front of the node
  obtain ⟨x, hx, hxp, hxn⟩ := load_seg hsp
  obtain ⟨h₁, hrun₁, hsa₁, hw₁⟩ := linkNext_spec (l := dlistOf (as ++ p :: bs)) hsa has bs.head?
  rw [head_kept hhead] at hrun₁
  obtain ⟨l₁, hl₁⟩ : ∃ l₁, l₁ = Dlist.mk (as.head?.or bs.head?) (dlistOf (as ++ p :: bs)).tail := ⟨_, rfl⟩
  rw [← hl₁] at hrun₁
  have hsp₁ := hsp.within hw₁ fun a => not_mem_of_single hpa
  -- what was behind it
  obtain ⟨x₁, hx₁, hxp₁, hxn₁⟩ := load_seg hsp₁
  obtain ⟨h₂, hrun₂, hsb₂, hw₂⟩ := linkPrev_spec (l := l₁)
    (hsb.within hw₁ fun a hb ha => hdisj a ha hb) hbs as.getLast?
  rw [tail_kept ((congrArg Dlist.tail hl₁).trans htail)] at hrun₂
  have hsa₂ := hsa₁.within hw₂ hdisj
  -- the node itself
  have hp₂ : (h₂ p).isSome := (hsp₁.within hw₂ fun a => not_mem_of_single hpb).1
  have hp₂' : (upd h₂ p (dlistLinks.setNext · none) p).isSome := by rwa [upd_isSome]
  have hw : Confined dlistLinks h h₂ (as ++ p :: bs) := (hw₁.mono (List.subset_append_left as (p :: bs))).trans
    (hw₂.mono fun a ha => List.mem_append_right as (List.mem_cons_of_mem p ha))
  rw [Option.or_none] at hxp hxn hxp₁ hxn₁
  refine ⟨_, ?_, ⟨seg_append.mpr ⟨?_, ?_⟩, hnd'⟩, (hw.setNext hpmem none).setPrev hpmem none⟩
  · simp only [dlistDelete, hx, hxp, hxn, ok_bind, hrun₁, hx₁, hxp₁, hxn₁, hrun₂, nodeSetNext_eq hp₂,
      nodeSetPrev_eq hp₂']
    rw [hl₁, dlistOf_append as bs]
  · rw [Option.or_none]
    exact (hsa₂.upd hpa _).upd hpa _
  · rw [Option.or_none]
    exact (hsb₂.upd hpb _).upd hpb _

theorem passNext_eq (hs : Strung h (as ++ p :: bs)) :
    passNext (dlistOf (as ++ p :: bs)) h p = linkNext (dlistOf (as ++ p :: bs)) h as.getLast? bs.head? := by
  obtain ⟨x, hx, hxp, hxn⟩ := load_seg (seg_split.mp hs.seg).2.1
  rw [Option.or_none] at hxp hxn
  rw [passNext, hx, ok_bind, hxp, hxn]
  rcases List.eq_nil_or_concat as with rfl | ⟨as, t, rfl⟩
  · exact if_pos rfl
  · rw [List.concat_eq_append] at *
    have hpa := (nodup_split hs.nodup).2.2.1
    have hhead : some p ≠ (dlistOf ((as ++ [t]) ++ p :: bs)).head := by
      rw [dlistOf, List.head?_append, head_concat]
      cases as with
      | nil => exact fun heq => hpa (Option.some.inj heq ▸ List.mem_singleton_self t)
      | cons a as => exact fun heq => hpa (Option.some.inj heq ▸ List.mem_cons_self)
    rw [if_neg hhead, List.getLast?_concat]
    rfl

theorem passPrev_eq (hseg : Seg dlistLinks h as.getLast? [p] bs.head?) (hpb : p ∉ bs)
    (htail : l.tail = bs.getLast?.or (some p)) : passPrev l h p = linkPrev l h bs.head? as.getLast? := by
  obtain ⟨x, hx, hxp, hxn⟩ := load_seg hseg
  rw [passPrev, hx, ok_bind, hxp, hxn, htail]
  cases bs with
  | nil => exact if_pos rfl
  | cons b bs =>
    have hlast : (b :: bs).getLast?.or (some p) ≠ some p := by
      rw [List.getLast?_eq_some_getLast (List.cons_ne_nil b bs)]
      exact fun heq => hpb (Option.some.inj heq ▸ List.getLast_mem (List.cons_ne_nil b bs))
    rw [if_neg hlast, List.head?_cons]
    rfl

/-- The head of a list is the node with none in front, so `dlist_remove`, which asks the list, does what
`dlist_find_delete` does, which asks the node. -/
theorem dlistRemove_eq (hs : Strung h (as ++ p :: bs)) :
    dlistRemove (dlistOf (as ++ p :: bs)) h p = dlistDelete (dlistOf (as ++ p :: bs)) h p := by
  obtain ⟨hseg, hnd⟩ := hs
  obtain ⟨has, hbs, hpa, hpb, -, -⟩ := nodup_split hnd
  obtain ⟨hsa, hsp, hsb⟩ := seg_split.mp hseg
  rw [Option.or_none, Option.or_none] at hsp
  obtain ⟨x, hx, hxp, hxn⟩ := load_seg hsp
  obtain ⟨h₁, hrun₁, -, hw₁⟩ := linkNext_spec (l := dlistOf (as ++ p :: bs)) hsa has bs.head?
  have hsp₁ := hsp.within hw₁ fun a => not_mem_of_single hpa
  obtain ⟨x₁, hx₁, hxp₁, hxn₁⟩ := load_seg hsp₁
  have htail : (if as = [] then { dlistOf (as ++ p :: bs) with head := bs.head? } else dlistOf (as ++ p :: bs)).tail =
      bs.getLast?.or (some p) := by
    rw [apply_ite Dlist.tail, ite_self, dlistOf, List.getLast?_append_cons, last_cons]
  rw [dlistRemove, dlistDelete, passNext_eq ⟨hseg, hnd⟩, hx, ok_bind, hxp, hxn, hrun₁, ok_bind, ok_bind]
  dsimp only
  rw [passPrev_eq hsp₁ hpb htail, hx₁, ok_bind, hxp₁, hxn₁]

theorem dlistRemove_spec (hs : Strung h (as ++ p :: bs)) :
    Makes (dlistRemove (dlistOf (as ++ p :: bs)) h p) h (as ++ p :: bs) (as ++ bs) :=
  dlistRemove_eq hs ▸ dlistDelete_spec hs

end Dirlist
