import Mathlib

/-! Depth-first search with a list of what was discovered. A node that stands in the list when the
search comes to it is passed over, so the list is also what bounds the search. -/

namespace Search

variable {α : Type}

/-- A search that has discovered `seen` and goes through `todo` discovers `l` and leaves the new
nodes in the order `post`. -/
inductive Visits (next : α → List α) : List α → List α → List α → List α → Prop
  | done {seen : List α} : Visits next seen [] seen []
  | skip {seen todo l post : List α} {x : α} :
    x ∈ seen → Visits next seen todo l post → Visits next seen (x :: todo) l post
  | visit {seen todo mid l inner post : List α} {x : α} :
    x ∉ seen → Visits next (seen ++ [x]) (next x) mid inner → Visits next mid todo l post →
      Visits next seen (x :: todo) l (inner ++ x :: post)

/-- A path that does not come to `avoid`. -/
def Reach (next : α → List α) (avoid : List α) : α → α → Prop :=
  Relation.ReflTransGen fun a b => b ∈ next a ∧ b ∉ avoid

variable {next : α → List α} {seen todo l post avoid avoid' : List α} {x y z : α}

theorem Reach.mono (hsub : ∀ x ∈ avoid', x ∈ avoid) (h : Reach next avoid x y) : Reach next avoid' x y := by
  induction h with
  | refl => exact .refl
  | tail _ hab ih => exact ih.tail ⟨hab.1, fun hmem => hab.2 (hsub _ hmem)⟩

theorem Reach.not_mem (h : Reach next avoid x y) (hx : x ∉ avoid) : y ∉ avoid := by
  cases h with
  | refl => exact hx
  | tail _ hab => exact hab.2

theorem Reach.path (h : Reach next avoid x y) : Relation.ReflTransGen (fun a b => b ∈ next a) x y := by
  induction h with
  | refl => exact .refl
  | tail _ hab ih => exact ih.tail hab.1

/-- A path from `x` need not come back to it. -/
theorem transGen_iff_reach :
    x ≠ y ∧ Relation.TransGen (fun a b => b ∈ next a) x y ↔ ∃ z ∈ next x, z ≠ x ∧ Reach next [x] z y := by
  constructor
  · rintro ⟨hne, h⟩
    have hall : y = x ∨ ∃ z ∈ next x, z ≠ x ∧ Reach next [x] z y := by
      clear hne
      induction h with
      | @single y hy =>
        by_cases hyx : y = x
        · exact .inl hyx
        · exact .inr ⟨y, hy, hyx, .refl⟩
      | @tail b c _ hbc ih =>
        by_cases hcx : c = x
        · exact .inl hcx
        · rcases ih with rfl | ⟨z, hz, hzx, hzb⟩
          · exact .inr ⟨c, hbc, hcx, .refl⟩
          · exact .inr ⟨z, hz, hzx, hzb.tail ⟨hbc, by simpa using hcx⟩⟩
    exact hall.resolve_left hne.symm
  · rintro ⟨z, hz, hzx, hzy⟩
    have hy := hzy.not_mem (by simpa using hzx)
    exact ⟨fun he => hy (by simp [he]), .head' hz hzy.path⟩

/-! ## What is found -/

theorem Visits.discovered (h : Visits next seen todo l post) : seen <+: l := by
  induction h with
  | done => exact List.prefix_rfl
  | skip _ _ ih => exact ih
  | @visit seen todo mid l inner post x _ _ _ ih₁ ih₂ =>
    exact ((List.prefix_append seen [x]).trans ih₁).trans ih₂

theorem Visits.nodup (h : Visits next seen todo l post) (hnd : seen.Nodup) : l.Nodup := by
  induction h with
  | done => exact hnd
  | skip _ _ ih => exact ih hnd
  | @visit seen todo mid l inner post x hx _ _ ih₁ ih₂ =>
    refine ih₂ (ih₁ (List.nodup_append.mpr ⟨hnd, List.nodup_singleton x, ?_⟩))
    rintro a ha b hb rfl
    exact hx (List.mem_singleton.mp hb ▸ ha)

/-- The nodes that were left are the new ones. -/
theorem Visits.perm (h : Visits next seen todo l post) : l.Perm (seen ++ post) := by
  induction h with
  | done => simp
  | skip _ _ ih => exact ih
  | @visit seen todo mid l inner post x _ _ _ ih₁ ih₂ =>
    calc l.Perm (mid ++ post) := ih₂
      _ |>.Perm (seen ++ [x] ++ inner ++ post) := ih₁.append_right post
      _ |>.Perm (seen ++ (inner ++ x :: post)) := by
        rw [List.append_assoc, List.append_assoc, List.singleton_append]
        exact List.perm_middle.symm.append_left seen

theorem Visits.mem_l_iff (h : Visits next seen todo l post) : x ∈ l ↔ x ∈ seen ∨ x ∈ post := by
  rw [h.perm.mem_iff, List.mem_append]

theorem Visits.todo_mem (h : Visits next seen todo l post) : ∀ x ∈ todo, x ∈ l := by
  induction h with
  | done => simp
  | skip hx h ih => exact List.forall_mem_cons.mpr ⟨h.discovered.subset hx, ih⟩
  | @visit seen todo mid l inner post x _ h₁ h₂ _ ih₂ =>
    exact List.forall_mem_cons.mpr ⟨h₂.discovered.subset (h₁.discovered.subset (by simp)), ih₂⟩

/-- From a new node nothing is lost. -/
theorem Visits.closed (h : Visits next seen todo l post) : ∀ x ∈ l, x ∈ seen ∨ ∀ y ∈ next x, y ∈ l := by
  induction h with
  | done => exact fun x hx => .inl hx
  | skip _ _ ih => exact ih
  | @visit seen todo mid l inner post x _ h₁ h₂ ih₁ ih₂ =>
    intro z hz
    rcases ih₂ z hz with hz | hz
    · rcases ih₁ z hz with hz | hz
      · rcases List.mem_append.mp hz with hz | hz
        · exact .inl hz
        · obtain rfl := List.mem_singleton.mp hz
          exact .inr fun y hy => h₂.discovered.subset (h₁.todo_mem y hy)
      · exact .inr fun y hy => h₂.discovered.subset (hz y hy)
    · exact .inr hz

theorem Visits.post_sound (h : Visits next seen todo l post) :
    ∀ x ∈ post, ∃ y ∈ todo, y ∉ seen ∧ Reach next seen y x := by
  induction h with
  | done => simp
  | skip _ _ ih =>
    intro z hz
    obtain ⟨y, hy, h⟩ := ih z hz
    exact ⟨y, List.mem_cons_of_mem _ hy, h⟩
  | @visit seen todo mid l inner post x hx h₁ _ ih₁ ih₂ =>
    intro z hz
    rcases List.mem_append.mp hz with hz | hz
    · obtain ⟨y, hy, hne, hyz⟩ := ih₁ z hz
      have hy' : y ∉ seen := fun hmem => hne (List.mem_append_left _ hmem)
      exact ⟨x, List.mem_cons_self, hx, .head ⟨hy, hy'⟩ (hyz.mono fun _ => List.mem_append_left _)⟩
    · rcases List.mem_cons.mp hz with rfl | hz
      · exact ⟨z, List.mem_cons_self, hx, .refl⟩
      · obtain ⟨y, hy, hne, hyz⟩ := ih₂ z hz
        have hsub : ∀ w ∈ seen, w ∈ mid := fun w hw => h₁.discovered.subset (List.mem_append_left _ hw)
        exact ⟨y, List.mem_cons_of_mem _ hy, fun hmem => hne (hsub y hmem), hyz.mono hsub⟩

theorem Visits.fresh (h : Visits next seen todo l post) (hx : x ∈ post) : x ∉ seen := by
  obtain ⟨y, -, hy, hyx⟩ := h.post_sound x hx
  exact hyx.not_mem hy

/-- The search discovers what it can reach by new nodes. -/
theorem Visits.mem_iff (h : Visits next seen todo l post) (x : α) :
    x ∈ l ↔ x ∈ seen ∨ ∃ y ∈ todo, y ∉ seen ∧ Reach next seen y x := by
  refine ⟨fun hx => (h.mem_l_iff.mp hx).imp_right (h.post_sound x), ?_⟩
  rintro (hx | ⟨y, hy, hne, hyx⟩)
  · exact h.discovered.subset hx
  · have hall : x ∈ l ∧ x ∉ seen := by
      induction hyx with
      | refl => exact ⟨h.todo_mem y hy, hne⟩
      | tail _ hab ih => exact ⟨(h.closed _ ih.1).resolve_left ih.2 _ hab.1, hab.2⟩
    exact hall.1

/-- A search from a node leaves what the node leads to. -/
theorem Visits.mem_post_iff (h : Visits next [x] (next x) l post) :
    y ∈ post ↔ x ≠ y ∧ Relation.TransGen (fun a b => b ∈ next a) x y := by
  rw [transGen_iff_reach]
  constructor
  · intro hy
    obtain ⟨z, hz, hzx, hzy⟩ := h.post_sound y hy
    exact ⟨z, hz, by simpa using hzx, hzy⟩
  · rintro ⟨z, hz, hzx, hzy⟩
    have hz' : z ∉ [x] := by simpa using hzx
    have hyl : y ∈ l := (h.mem_iff y).mpr (.inr ⟨z, hz, hz', hzy⟩)
    exact (h.mem_l_iff.mp hyl).resolve_left (hzy.not_mem hz')

theorem append_cons_eq {inner post a b : List α} {r x : α} (h : inner ++ r :: post = a ++ x :: b) :
    (∃ c, inner = a ++ x :: c) ∨ (a = inner ∧ x = r) ∨ ∃ c, a = inner ++ r :: c ∧ post = c ++ x :: b := by
  rcases List.append_eq_append_iff.mp h with ⟨c, hc, hb⟩ | ⟨c, hc, hb⟩
  · cases c with
    | nil => exact .inr (.inl ⟨by simpa using hc, (List.cons.inj hb).1.symm⟩)
    | cons r' c =>
      obtain ⟨rfl, rfl⟩ := List.cons.inj hb
      exact .inr (.inr ⟨c, hc, rfl⟩)
  · cases c with
    | nil => exact .inr (.inl ⟨by simpa using hc.symm, (List.cons.inj hb).1⟩)
    | cons x' c =>
      obtain ⟨rfl, -⟩ := List.cons.inj hb
      exact .inl ⟨c, hc⟩

/-- A node is left after those it leads to, unless they lead back to it. -/
theorem Visits.ordered (h : Visits next seen todo l post) {a b : List α} (hpost : post = a ++ x :: b)
    (hy : y ∈ next x) : y ∈ seen ∨ y ∈ a ∨ Reach next [] y x := by
  induction h generalizing a b with
  | done => cases a <;> cases hpost
  | skip _ _ ih => exact ih hpost
  | @visit seen todo mid l inner post r hr h₁ h₂ ih₁ ih₂ =>
    rcases append_cons_eq hpost with ⟨c, hc⟩ | ⟨rfl, rfl⟩ | ⟨c, rfl, hc⟩
    · rcases ih₁ hc with hy | hy
      · rcases List.mem_append.mp hy with hy | hy
        · exact .inl hy
        · -- the root leads to all nodes of its part
          obtain rfl := List.mem_singleton.mp hy
          obtain ⟨w, hw, -, hwx⟩ := h₁.post_sound x (hc ▸ by simp)
          exact .inr (.inr (.head ⟨hw, by simp⟩ (hwx.mono (by simp))))
      · exact .inr hy
    · rcases h₁.mem_l_iff.mp (h₁.todo_mem y hy) with hy | hy
      · rcases List.mem_append.mp hy with hy | hy
        · exact .inl hy
        · exact .inr (.inr (List.mem_singleton.mp hy ▸ .refl))
      · exact .inr (.inl hy)
    · rcases ih₂ hc with hy | hy | hy
      · rcases h₁.mem_l_iff.mp hy with hy | hy
        · rcases List.mem_append.mp hy with hy | hy
          · exact .inl hy
          · exact .inr (.inl (by simp [List.mem_singleton.mp hy]))
        · exact .inr (.inl (List.mem_append_left _ hy))
      · exact .inr (.inl (by simp [hy]))
      · exact .inr (.inr hy)

/-! ## From root to root -/

/-- A search that starts from one root after the other, also from one that is discovered already.
The nodes it then comes to are `added`; the roots themselves are not. -/
inductive Stages [DecidableEq α] (next : α → List α) : List α → List α → List α → List α → Prop
  | done {seen : List α} : Stages next seen [] seen []
  | enter {seen roots mid l post added : List α} {d : α} :
    Visits next (seen.insert d) (next d) mid post → Stages next mid roots l added →
      Stages next seen (d :: roots) l (post ++ added)

section Stages
variable [DecidableEq α] {roots pre added : List α}

theorem Stages.discovered (h : Stages next seen roots l added) : seen ⊆ l := by
  induction h with
  | done => exact List.Subset.refl _
  | enter hvis _ ih => exact fun x hx => ih (hvis.discovered.subset (List.mem_insert_of_mem hx))

theorem Stages.mem_l_iff (h : Stages next seen roots l added) :
    x ∈ l ↔ x ∈ seen ∨ x ∈ roots ∨ x ∈ added := by
  induction h with
  | done => simp
  | enter hvis _ ih =>
    rw [ih, hvis.mem_l_iff, List.mem_insert_iff, List.mem_append, List.mem_cons]
    tauto

theorem Stages.fresh (h : Stages next seen roots l added) (hx : x ∈ added) : x ∉ seen := by
  induction h with
  | done => cases hx
  | enter hvis _ ih =>
    intro hseen
    rcases List.mem_append.mp hx with hx | hx
    · exact hvis.fresh hx (List.mem_insert_of_mem hseen)
    · exact ih hx (hvis.discovered.subset (List.mem_insert_of_mem hseen))

/-- Nothing is lost from a root, known or not. -/
theorem Stages.entered (h : Stages next seen roots l added) {d : α} (hd : d ∈ roots) : ∀ y ∈ next d, y ∈ l := by
  induction h with
  | done => cases hd
  | enter hvis hrest ih =>
    rcases List.mem_cons.mp hd with rfl | hd
    · exact fun y hy => hrest.discovered (hvis.todo_mem y hy)
    · exact ih hd

theorem Stages.closed (h : Stages next seen roots l added) : ∀ x ∈ l, x ∈ seen ∨ ∀ y ∈ next x, y ∈ l := by
  induction h with
  | done => exact fun x hx => .inl hx
  | @enter seen roots mid l post added d hvis hrest ih =>
    intro z hz
    rcases ih z hz with hz | hz
    · rcases hvis.closed z hz with hz | hz
      · rcases List.mem_insert_iff.mp hz with rfl | hz
        · exact .inr fun y hy => hrest.discovered (hvis.todo_mem y hy)
        · exact .inl hz
      · exact .inr fun y hy => hrest.discovered (hz y hy)
    · exact .inr hz

theorem Stages.sound (h : Stages next seen roots l added) :
    ∀ x ∈ added, ∃ d ∈ roots, ∃ y ∈ next d, y ∉ seen ∧ Reach next seen y x := by
  induction h with
  | done => simp
  | @enter seen roots mid l post added d hvis _ ih =>
    intro z hz
    have hsub : ∀ w ∈ seen, w ∈ seen.insert d := fun w hw => List.mem_insert_of_mem hw
    rcases List.mem_append.mp hz with hz | hz
    · obtain ⟨y, hy, hne, hyz⟩ := hvis.post_sound z hz
      exact ⟨d, List.mem_cons_self, y, hy, fun hmem => hne (hsub y hmem), hyz.mono hsub⟩
    · obtain ⟨e, he, y, hy, hne, hyz⟩ := ih z hz
      have hsub' : ∀ w ∈ seen, w ∈ mid := fun w hw => hvis.discovered.subset (hsub w hw)
      exact ⟨e, List.mem_cons_of_mem _ he, y, hy, fun hmem => hne (hsub' y hmem), hyz.mono hsub'⟩

theorem Stages.split (h : Stages next seen (pre ++ roots) l added) :
    ∃ mid a b, Stages next seen pre mid a ∧ Stages next mid roots l b ∧ added = a ++ b := by
  induction pre generalizing seen added with
  | nil => exact ⟨seen, [], added, .done, h, rfl⟩
  | cons d pre ih =>
    cases h with
    | enter hvis h =>
      obtain ⟨mid, a, b, ha, hb, rfl⟩ := ih h
      exact ⟨mid, _, b, .enter hvis ha, hb, (List.append_assoc ..).symm⟩

/-- A root is added by the stages before it or not at all. -/
theorem Stages.root_fresh (h : Stages next seen (x :: roots) l added) : x ∉ added := by
  intro hx
  cases h with
  | enter hvis hrest =>
    have hself : x ∈ seen.insert x := List.mem_insert_self
    rcases List.mem_append.mp hx with hx | hx
    · exact hvis.fresh hx hself
    · exact hrest.fresh hx (hvis.discovered.subset hself)

end Stages

/-! ## In a finite space -/

/-- In a finite space the search ends. -/
theorem exists_visits [DecidableEq α] {univ : List α} (hnext : ∀ x ∈ univ, ∀ y ∈ next x, y ∈ univ)
    (hseen : ∀ x ∈ seen, x ∈ univ) (htodo : ∀ x ∈ todo, x ∈ univ) (hnd : seen.Nodup) :
    ∃ l post, Visits next seen todo l post ∧ ∀ x ∈ l, x ∈ univ := by
  induction hk : univ.length - seen.length using Nat.strongRecOn generalizing seen todo with
  | _ k ih =>
    induction todo with
    | nil => exact ⟨seen, [], .done, hseen⟩
    | cons x todo iht =>
      obtain ⟨hx, htodo'⟩ := List.forall_mem_cons.mp htodo
      by_cases hmem : x ∈ seen
      · obtain ⟨l, post, h, hl⟩ := iht htodo'
        exact ⟨l, post, .skip hmem h, hl⟩
      · have hnd' : (seen ++ [x]).Nodup := by
          refine List.nodup_append.mpr ⟨hnd, List.nodup_singleton x, ?_⟩
          rintro a ha b hb rfl
          exact hmem (List.mem_singleton.mp hb ▸ ha)
        have hseen' : ∀ y ∈ seen ++ [x], y ∈ univ := by
          intro y hy
          rcases List.mem_append.mp hy with hy | hy
          · exact hseen y hy
          · exact List.mem_singleton.mp hy ▸ hx
        have hlen : (seen ++ [x]).length ≤ univ.length := (List.subperm_of_subset hnd' hseen').length_le
        rw [List.length_append, List.length_singleton] at hlen
        obtain ⟨mid, inner, h₁, hmid⟩ := ih (univ.length - (seen ++ [x]).length)
          (by rw [List.length_append, List.length_singleton]; omega) hseen' (hnext x hx) hnd' rfl
        have hgrow := h₁.discovered.length_le
        rw [List.length_append, List.length_singleton] at hgrow
        obtain ⟨l, post, h₂, hl⟩ := ih (univ.length - mid.length) (by omega) hmid htodo' (h₁.nodup hnd') rfl
        exact ⟨l, inner ++ x :: post, .visit hmem h₁ h₂, hl⟩

theorem exists_stages [DecidableEq α] {univ roots : List α} (hnext : ∀ x ∈ univ, ∀ y ∈ next x, y ∈ univ)
    (hseen : ∀ x ∈ seen, x ∈ univ) (hroots : ∀ x ∈ roots, x ∈ univ) (hnd : seen.Nodup) :
    ∃ l added, Stages next seen roots l added := by
  induction roots generalizing seen with
  | nil => exact ⟨seen, [], .done⟩
  | cons d roots ih =>
    obtain ⟨hd, hroots⟩ := List.forall_mem_cons.mp hroots
    have hseen' : ∀ x ∈ seen.insert d, x ∈ univ := by
      intro x hx
      rcases List.mem_insert_iff.mp hx with rfl | hx
      · exact hd
      · exact hseen x hx
    obtain ⟨mid, post, hvis, hmid⟩ := exists_visits hnext hseen' (hnext d hd) hnd.insert
    obtain ⟨l, added, hrest⟩ := ih hmid hroots (hvis.nodup hnd.insert)
    exact ⟨l, post ++ added, .enter hvis hrest⟩

/-- Without cycles a finite space has no endless path. -/
theorem acc_of_acyclic {r : α → α → Prop} {univ : List α} (hr : ∀ a b, r a b → b ∈ univ)
    (hac : ∀ u, Relation.ReflTransGen r x u → ¬Relation.TransGen r u u) : Acc (fun a b => r b a) x := by
  let S := { u // Relation.ReflTransGen r x u }
  have hsub : ∀ u, Relation.ReflTransGen r x u → u ∈ x :: univ := by
    intro u hu
    rcases Relation.ReflTransGen.cases_tail hu with rfl | ⟨w, -, hw⟩
    · exact List.mem_cons_self
    · exact List.mem_cons_of_mem _ (hr w u hw)
  have hfin : Finite S := (List.finite_toSet (x :: univ)).subset hsub
  have htrans : IsTrans S fun a b => Relation.TransGen r b.1 a.1 := ⟨fun a b c hab hbc => hbc.trans hab⟩
  have hirrefl : Std.Irrefl fun a b : S => Relation.TransGen r b.1 a.1 := ⟨fun a ha => hac a.1 a.2 ha⟩
  have hwf := Finite.wellFounded_of_trans_of_irrefl fun a b : S => Relation.TransGen r b.1 a.1
  have hall : ∀ s : S, Acc (fun a b => r b a) s.1 := by
    intro s
    induction s using hwf.induction with
    | _ s ih => exact .intro _ fun y hy => ih ⟨y, s.2.tail hy⟩ (.single hy)
  exact hall ⟨x, .refl⟩

end Search
