import Dirlist.Dlist.Lists

/-! `dlist_swap`: the two nodes change places, whether they are neighbours or not and whichever comes first. -/

namespace Dirlist
open Run Ring Strand

variable {α : Type} {h h' : Heap (DlistNode α)} {l : Dlist} {p p1 p2 : Addr} {o v : Option Addr} {xs : List Addr}

/-- What a led link leaves of a list and of the links at every node. -/
theorem linkNext_at (hq : ∀ q ∈ o, (h q).isSome) (w : Option Addr) :
    ∃ h', (∀ l, linkNext l h o w = .ok (⟨if o = none then w else l.head, l.tail⟩, h')) ∧
      (∀ c, dlistLinks.nextAt h' c = if some c = o then w else dlistLinks.nextAt h c) ∧
      (∀ c, dlistLinks.prevAt h' c = dlistLinks.prevAt h c) ∧ Confined dlistLinks h h' o.toList := by
  cases o with
  | none => exact ⟨h, fun l => rfl, fun c => (if_neg nofun).symm, fun c => rfl, .refl h []⟩
  | some q =>
    have hsome := hq q rfl
    refine ⟨upd h q (dlistLinks.setNext · w), fun l => ?_, fun c => ?_, fun c => prevAt_upd_setNext w, ?_⟩
    · rw [linkNext, nodeSetNext_eq hsome, if_neg nofun]
      rfl
    · simp only [nextAt_upd_setNext hsome, Option.some_inj]
    · exact (Confined.refl h _).setNext (List.mem_singleton_self q) w

theorem linkPrev_at (hq : ∀ q ∈ o, (h q).isSome) (w : Option Addr) :
    ∃ h', (∀ l, linkPrev l h o w = .ok (⟨l.head, if o = none then w else l.tail⟩, h')) ∧
      (∀ c, dlistLinks.prevAt h' c = if some c = o then w else dlistLinks.prevAt h c) ∧
      (∀ c, dlistLinks.nextAt h' c = dlistLinks.nextAt h c) ∧ Confined dlistLinks h h' o.toList := by
  cases o with
  | none => exact ⟨h, fun l => rfl, fun c => (if_neg nofun).symm, fun c => rfl, .refl h []⟩
  | some q =>
    have hsome := hq q rfl
    refine ⟨upd h q (dlistLinks.setPrev · w), fun l => ?_, fun c => ?_, fun c => nextAt_upd_setPrev w, ?_⟩
    · rw [linkPrev, nodeSetPrev_eq hsome, if_neg nofun]
      rfl
    · simp only [prevAt_upd_setPrev hsome, Option.some_inj]
    · exact (Confined.refl h _).setPrev (List.mem_singleton_self q) w

/-- Both links of a node are written. -/
theorem nodeSet_at (hp : (h p).isSome) (u v : Option Addr) :
    ∃ h', modify h p (fun x => { x with prev := u, next := v }) = .ok h' ∧
      (∀ c, dlistLinks.nextAt h' c = if c = p then v else dlistLinks.nextAt h c) ∧
      (∀ c, dlistLinks.prevAt h' c = if c = p then u else dlistLinks.prevAt h c) ∧ Confined dlistLinks h h' [p] := by
  have hp' : (upd h p (dlistLinks.setNext · v) p).isSome := by rwa [upd_isSome]
  refine ⟨upd (upd h p (dlistLinks.setNext · v)) p (dlistLinks.setPrev · u), ?_, fun c => ?_, fun c => ?_, ?_⟩
  · rw [modify_eq hp, upd_upd]
    rfl
  · rw [nextAt_upd_setPrev, nextAt_upd_setNext hp]
  · rw [prevAt_upd_setPrev hp', prevAt_upd_setNext]
  · exact ((Confined.refl h _).setNext (List.mem_singleton_self p) v).setPrev (List.mem_singleton_self p) u

theorem load_at (hp : (h p).isSome) : ∃ x, load h p = .ok x ∧ x.prev = dlistLinks.prevAt h p ∧
    x.next = dlistLinks.nextAt h p := by
  obtain ⟨x, hx, hload⟩ := load_eq hp
  refine ⟨x, hload, ?_, ?_⟩
  · rw [Links.prevAt, hx]
    rfl
  · rw [Links.nextAt, hx]
    rfl

theorem singleton_sub (hp : p ∈ xs) : [p] ⊆ xs := fun _ ha => List.mem_singleton.mp ha ▸ hp

theorem toList_sub (ho : ∀ q ∈ o, q ∈ xs) : o.toList ⊆ xs := fun q hq => ho q (Option.mem_toList.mp hq)

theorem map_swap (p1 p2 : Addr) (o : Option Addr) :
    o.map (Equiv.swap p1 p2) = if o = some p1 then some p2 else if o = some p2 then some p1 else o := by
  cases o with
  | none => rfl
  | some a =>
    simp only [Option.map_some, Equiv.swap_apply_def, Option.some_inj]
    rw [apply_ite some, apply_ite some]

/-- The neighbours of the two nodes are led to the other one, and the nodes then change their links. -/
theorem swapped_at {links links' : Addr → Option Addr} {o1 o2 : Option Addr} {a : Addr} (hne : p1 ≠ p2)
    (hlinks : ∀ c ∈ xs, (links c = some p1 ↔ o1 = some c) ∧ (links c = some p2 ↔ o2 = some c))
    (hlinks' : ∀ c, links' c = if some c = o1 then some p2 else if some c = o2 then some p1 else links c)
    (h1 : p1 ∈ xs) (h2 : p2 ∈ xs) (ha : a ∈ xs) :
    (if Equiv.swap p1 p2 a = p2 then links' p1 else if Equiv.swap p1 p2 a = p1 then links' p2
      else links' (Equiv.swap p1 p2 a)) = (links a).map (Equiv.swap p1 p2) := by
  have heq : ∀ c ∈ xs, links' c = (links c).map (Equiv.swap p1 p2) := by
    intro c hc
    obtain ⟨hc1, hc2⟩ := hlinks c hc
    simp only [hlinks', map_swap, hc1, hc2, eq_comm]
  by_cases ha1 : a = p1
  · rw [ha1, Equiv.swap_apply_left, if_pos rfl, heq p1 h1]
  · by_cases ha2 : a = p2
    · rw [ha2, Equiv.swap_apply_right, if_neg hne, if_pos rfl, heq p2 h2]
    · rw [Equiv.swap_apply_of_ne_of_ne ha1 ha2, if_neg ha2, if_neg ha1, heq a ha]

theorem swap_mem {a : Addr} (h1 : p1 ∈ xs) (h2 : p2 ∈ xs) (ha : a ∈ xs) : Equiv.swap p1 p2 a ∈ xs := by
  rw [Equiv.swap_apply_def]
  split
  · exact h2
  · split
    · exact h1
    · exact ha

/-- The two ends of a list whose nodes `p1` and `p2` have changed places. -/
theorem dlistOf_swap (hs : Strung h xs) (h1 : p1 ∈ xs) (h2 : p2 ∈ xs) :
    dlistOf (xs.map (Equiv.swap p1 p2)) =
      ⟨if dlistLinks.prevAt h p1 = none then some p2 else if dlistLinks.prevAt h p2 = none then some p1
        else xs.head?,
      if dlistLinks.nextAt h p1 = none then some p2 else if dlistLinks.nextAt h p2 = none then some p1
        else xs.getLast?⟩ := by
  obtain ⟨hseg, hnd⟩ := hs
  simp only [dlistOf, List.head?_map, List.getLast?_map, map_swap, hseg.prev_none_iff h1 hnd,
    hseg.prev_none_iff h2 hnd, hseg.next_none_iff h1 hnd, hseg.next_none_iff h2 hnd]

theorem dlistSwap_spec (hs : Strung h xs) (h1 : p1 ∈ xs) (h2 : p2 ∈ xs) :
    Makes (dlistSwap (dlistOf xs) h p1 p2) h xs (xs.map (Equiv.swap p1 p2)) := by
  by_cases hne : p1 = p2
  · rw [dlistSwap, if_pos hne, hne, Equiv.swap_self]
    have hid : xs.map (Equiv.refl Addr) = xs := List.map_id xs
    rw [hid]
    exact ⟨h, rfl, hs, .refl h xs⟩
  · have hlist := dlistOf_swap hs h1 h2
    obtain ⟨hseg, hnd⟩ := hs
    obtain ⟨l1, hload1, hprev1, hnext1⟩ := load_at (hseg.isSome h1)
    obtain ⟨l2, hload2, hprev2, hnext2⟩ := load_at (hseg.isSome h2)
    have hnext {a : Addr} (ha : a ∈ xs) : ∀ q ∈ dlistLinks.nextAt h a, q ∈ xs := fun q => hseg.next_mem ha
    have hprev {a : Addr} (ha : a ∈ xs) : ∀ q ∈ dlistLinks.prevAt h a, q ∈ xs := fun q => hseg.prev_mem ha
    have hsome {a : Addr} (ha : a ∈ xs) : (h a).isSome := hseg.isSome ha
    -- the neighbours
    obtain ⟨k1, hrun1, hp1, hn1, hw1⟩ := linkPrev_at (h := h) (o := l2.next)
      (fun q hq => hsome (hnext h2 q (hnext2 ▸ hq))) (some p1)
    obtain ⟨k2, hrun2, hn2, hp2, hw2⟩ := linkNext_at (h := k1) (o := l2.prev)
      (fun q hq => hw1.rest.isSome ▸ hsome (hprev h2 q (hprev2 ▸ hq))) (some p1)
    obtain ⟨k3, hrun3, hp3, hn3, hw3⟩ := linkPrev_at (h := k2) (o := l1.next)
      (fun q hq => hw2.rest.isSome ▸ hw1.rest.isSome ▸ hsome (hnext h1 q (hnext1 ▸ hq))) (some p2)
    obtain ⟨k4, hrun4, hn4, hp4, hw4⟩ := linkNext_at (h := k3) (o := l1.prev)
      (fun q hq => hw3.rest.isSome ▸ hw2.rest.isSome ▸ hw1.rest.isSome ▸ hsome (hprev h1 q (hprev1 ▸ hq))) (some p2)
    have hnext4 (c : Addr) : dlistLinks.nextAt k4 c =
        if some c = l1.prev then some p2 else if some c = l2.prev then some p1 else dlistLinks.nextAt h c := by
      rw [hn4, hn3, hn2, hn1]
    have hprev4 (c : Addr) : dlistLinks.prevAt k4 c =
        if some c = l1.next then some p2 else if some c = l2.next then some p1 else dlistLinks.prevAt h c := by
      rw [hp4, hp3, hp2, hp1]
    have hw : Confined dlistLinks h k4 xs :=
      (((hw1.mono (toList_sub (hnext2 ▸ hnext h2))).trans (hw2.mono (toList_sub (hprev2 ▸ hprev h2)))).trans
        (hw3.mono (toList_sub (hnext1 ▸ hnext h1)))).trans (hw4.mono (toList_sub (hprev1 ▸ hprev h1)))
    -- the nodes
    obtain ⟨x1, hload3, hprev5, hnext5⟩ := load_at (hw.rest.isSome ▸ hsome h1)
    obtain ⟨x2, hload4, hprev6, hnext6⟩ := load_at (hw.rest.isSome ▸ hsome h2)
    obtain ⟨k5, hrun5, hn5, hp5, hw5⟩ := nodeSet_at (hw.rest.isSome ▸ hsome h1) x2.prev x2.next
    obtain ⟨k6, hrun6, hn6, hp6, hw6⟩ := nodeSet_at (hw5.rest.isSome ▸ hw.rest.isSome ▸ hsome h2) x1.prev x1.next
    have hw' : Confined dlistLinks h k6 xs := (hw.trans (hw5.mono (singleton_sub h1))).trans
      (hw6.mono (singleton_sub h2))
    refine ⟨k6, ?_, ⟨hseg.map ?_ ?_ ?_, hnd.map (Equiv.swap p1 p2).injective⟩, hw'⟩
    · rw [hlist, dlistSwap, if_neg hne, hload1, ok_bind, hload2, ok_bind]
      simp only [hrun1, hrun2, hrun3, hrun4, ok_bind, hload3, hload4, hrun5, hrun6]
      rw [hprev1, hprev2, hnext1, hnext2]
      rfl
    · intro a ha
      have hmem : Equiv.swap p1 p2 a ∈ xs := swap_mem h1 h2 ha
      exact hw'.rest.isSome ▸ hsome hmem
    · intro a ha
      have hlinks : ∀ c ∈ xs, (dlistLinks.nextAt h c = some p1 ↔ l1.prev = some c) ∧
          (dlistLinks.nextAt h c = some p2 ↔ l2.prev = some c) := fun c hc =>
        ⟨hprev1 ▸ hseg.next_iff_prev hc h1, hprev2 ▸ hseg.next_iff_prev hc h2⟩
      simp only [hn6, hn5, hnext5, hnext6]
      exact swapped_at hne hlinks hnext4 h1 h2 ha
    · intro a ha
      have hlinks : ∀ c ∈ xs, (dlistLinks.prevAt h c = some p1 ↔ l1.next = some c) ∧
          (dlistLinks.prevAt h c = some p2 ↔ l2.next = some c) := fun c hc =>
        ⟨hnext1 ▸ (hseg.next_iff_prev h1 hc).symm, hnext2 ▸ (hseg.next_iff_prev h2 hc).symm⟩
      simp only [hp6, hp5, hprev5, hprev6]
      exact swapped_at hne hlinks hprev4 h1 h2 ha

end Dirlist
