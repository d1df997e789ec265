import Mathlib

/-! Trees that branch on the first bit in which keys differ. The bits of a key are numbered, and a node is labelled
with the place of one of them. -/

namespace Critbit

variable {ℓ α : Type}

inductive Tree (ℓ α : Type)
  | leaf (x : α)
  | node (l : ℓ) (zero one : Tree ℓ α)

namespace Tree

/-- The leaves from left to right. -/
def leaves : Tree ℓ α → List α
  | leaf x => [x]
  | node _ t u => t.leaves ++ u.leaves

def labels : Tree ℓ α → List ℓ
  | leaf _ => []
  | node l t u => l :: (t.labels ++ u.labels)

/-- The leaf that the directions lead to. -/
def nearest (dir : ℓ → Bool) : Tree ℓ α → α
  | leaf x => x
  | node l t u => if dir l then u.nearest dir else t.nearest dir

/-- The labels on the way there. -/
def path (dir : ℓ → Bool) : Tree ℓ α → List ℓ
  | leaf _ => []
  | node l t u => l :: if dir l then u.path dir else t.path dir

/-- A leaf is taken out, and its sibling takes the place of the node above. -/
def erase (dir : ℓ → Bool) : Tree ℓ α → Option (Tree ℓ α)
  | leaf _ => none
  | node l t u =>
    if dir l then
      match u.erase dir with
      | none => some t
      | some u' => some (node l t u')
    else
      match t.erase dir with
      | none => some u
      | some t' => some (node l t' u)

/-- A node that branches to `new` and to what was there. -/
def branch (l : ℓ) (side : Bool) (new old : Tree ℓ α) : Tree ℓ α := if side then node l old new else node l new old

/-- The subtree where the labels are no longer `below` is put beneath a new node. -/
def insert (dir : ℓ → Bool) (below : ℓ → Bool) (graft : Tree ℓ α → Tree ℓ α) : Tree ℓ α → Tree ℓ α
  | leaf x => graft (leaf x)
  | node l t u =>
    if below l then if dir l then node l t (u.insert dir below graft) else node l (t.insert dir below graft) u
    else graft (node l t u)

def update (dir : ℓ → Bool) (f : α → α) : Tree ℓ α → Tree ℓ α
  | leaf x => leaf (f x)
  | node l t u => if dir l then node l t (u.update dir f) else node l (t.update dir f) u

end Tree

/-! ## Sound trees -/

variable (pos : ℓ → Nat) (bit : α → Nat → Bool)

/-- Two keys have the same bits in front of `n`. -/
def Agree (n : Nat) (b c : Nat → Bool) : Prop := ∀ i < n, b i = c i

/-- A node branches on the first bit in which its leaves differ. -/
inductive Ok : Tree ℓ α → Prop
  | leaf (x : α) : Ok (.leaf x)
  | node {l : ℓ} {t u : Tree ℓ α} : Ok t → Ok u → (∀ x ∈ t.leaves, bit x (pos l) = false) →
    (∀ x ∈ u.leaves, bit x (pos l) = true) →
    (∀ x ∈ t.leaves ++ u.leaves, ∀ y ∈ t.leaves ++ u.leaves, Agree (pos l) (bit x) (bit y)) → Ok (.node l t u)

variable {pos bit} {t u : Tree ℓ α} {b c d : Nat → Bool} {dir below : ℓ → Bool} {x y : α} {n : Nat} {l : ℓ}

theorem Agree.symm (h : Agree n b c) : Agree n c b := fun i hi => (h i hi).symm

theorem Agree.trans (h : Agree n b c) (h' : Agree n c d) : Agree n b d := fun i hi => (h i hi).trans (h' i hi)

theorem Agree.mono {m : Nat} (h : Agree n b c) (hm : m ≤ n) : Agree m b c := fun i hi => h i (Nat.lt_of_lt_of_le hi hm)

namespace Tree

theorem leaves_ne_nil (t : Tree ℓ α) : t.leaves ≠ [] := by
  induction t with
  | leaf x => exact List.cons_ne_nil x []
  | node l t u iht _ => exact List.append_ne_nil_of_left_ne_nil iht _

theorem nearest_mem (dir : ℓ → Bool) (t : Tree ℓ α) : t.nearest dir ∈ t.leaves := by
  induction t with
  | leaf x => exact List.mem_singleton_self x
  | node l t u iht ihu =>
    rw [nearest, leaves, List.mem_append]
    split
    · exact .inr ihu
    · exact .inl iht

theorem path_subset (dir : ℓ → Bool) (t : Tree ℓ α) : t.path dir ⊆ t.labels := by
  induction t with
  | leaf x => exact List.Subset.refl []
  | node l t u iht ihu =>
    refine List.cons_subset_cons l ?_
    split
    · exact List.subset_append_of_subset_right _ ihu
    · exact List.subset_append_of_subset_left _ iht

end Tree

theorem Ok.agree (h : Ok pos bit (.node l t u)) {x y : α} (hx : x ∈ (Tree.node l t u).leaves)
    (hy : y ∈ (Tree.node l t u).leaves) : Agree (pos l) (bit x) (bit y) := by
  cases h with
  | node _ _ _ _ hagree => exact hagree x hx y hy

theorem Ok.node_of (ht : Ok pos bit t) (hu : Ok pos bit u)
    (hzero : ∀ x ∈ t.leaves, Agree (pos l) (bit x) c ∧ bit x (pos l) = false)
    (hone : ∀ x ∈ u.leaves, Agree (pos l) (bit x) c ∧ bit x (pos l) = true) : Ok pos bit (.node l t u) := by
  have hall (x : α) (hx : x ∈ t.leaves ++ u.leaves) : Agree (pos l) (bit x) c := by
    rcases List.mem_append.mp hx with hx | hx
    · exact (hzero x hx).1
    · exact (hone x hx).1
  exact .node ht hu (fun x hx => (hzero x hx).2) (fun x hx => (hone x hx).2) fun x hx y hy =>
    (hall x hx).trans (hall y hy).symm

/-- The labels below a node come behind its own. -/
theorem Ok.lt_label (h : Ok pos bit (.node l t u)) : ∀ k ∈ t.labels ++ u.labels, pos l < pos k := by
  have hsub {v : Tree ℓ α} (hv : Ok pos bit v) (side : Bool) (hside : ∀ x ∈ v.leaves, bit x (pos l) = side)
      (hagree : ∀ x ∈ v.leaves, ∀ y ∈ v.leaves, Agree (pos l) (bit x) (bit y)) : ∀ k ∈ v.labels, pos l < pos k := by
    induction hv with
    | leaf x => exact fun k hk => (List.not_mem_nil hk).elim
    | @node k v w hv hw hzero hone _ ihv ihw =>
      have hx := v.nearest_mem fun _ => false
      have hy := w.nearest_mem fun _ => false
      have hx' := List.mem_append_left w.leaves hx
      have hy' := List.mem_append_right v.leaves hy
      have hne : bit (v.nearest fun _ => false) (pos k) ≠ bit (w.nearest fun _ => false) (pos k) := by
        rw [hzero _ hx, hone _ hy]
        exact Bool.false_ne_true
      intro j hj
      rcases List.mem_cons.mp hj with rfl | hj
      · rcases Nat.lt_trichotomy (pos l) (pos j) with hlt | heq | hgt
        · exact hlt
        · rw [← heq, hside _ hx', hside _ hy'] at hne
          exact (hne rfl).elim
        · exact (hne (hagree _ hx' _ hy' _ hgt)).elim
      · rcases List.mem_append.mp hj with hj | hj
        · exact ihv (fun x hx => hside x (List.mem_append_left _ hx))
            (fun x hx y hy => hagree x (List.mem_append_left _ hx) y (List.mem_append_left _ hy)) j hj
        · exact ihw (fun x hx => hside x (List.mem_append_right _ hx))
            (fun x hx y hy => hagree x (List.mem_append_right _ hx) y (List.mem_append_right _ hy)) j hj
  cases h with
  | node ht hu hzero hone hagree =>
    intro k hk
    rcases List.mem_append.mp hk with hk | hk
    · exact hsub ht false hzero
        (fun x hx y hy => hagree x (List.mem_append_left _ hx) y (List.mem_append_left _ hy)) k hk
    · exact hsub hu true hone
        (fun x hx y hy => hagree x (List.mem_append_right _ hx) y (List.mem_append_right _ hy)) k hk

theorem Ok.path_sorted (h : Ok pos bit t) (dir : ℓ → Bool) : (t.path dir).Pairwise fun k l => pos k < pos l := by
  induction h with
  | leaf x => exact List.Pairwise.nil
  | @node l t u ht hu hzero hone hsame iht ihu =>
    have hlt := (Ok.node ht hu hzero hone hsame).lt_label
    rw [Tree.path]
    split
    · exact List.pairwise_cons.mpr ⟨fun k hk => hlt k (List.mem_append_right _ (u.path_subset dir hk)), ihu⟩
    · exact List.pairwise_cons.mpr ⟨fun k hk => hlt k (List.mem_append_left _ (t.path_subset dir hk)), iht⟩

/-! ## Search -/

/-- The nearest leaf has as many bits in common with `b` as any other. -/
theorem Ok.nearest_agree (h : Ok pos bit t) (hdir : ∀ l ∈ t.labels, dir l = b (pos l)) (hx : x ∈ t.leaves)
    (hagree : Agree n (bit x) b) : Agree n (bit (t.nearest dir)) b := by
  induction h with
  | leaf y =>
    obtain rfl := List.mem_singleton.mp hx
    exact hagree
  | @node l t u ht hu hzero hone hsame iht ihu =>
    obtain ⟨hl, hsub⟩ := List.forall_mem_cons.mp hdir
    by_cases hlt : pos l < n
    · -- the bit at the node is one of those in common, so `x` lies where `b` leads to
      have hbit : bit x (pos l) = dir l := (hagree _ hlt).trans hl.symm
      rw [Tree.nearest]
      rcases List.mem_append.mp hx with hx | hx
      · rw [hzero x hx] at hbit
        rw [← hbit, if_neg Bool.false_ne_true]
        exact iht (fun k hk => hsub k (List.mem_append_left _ hk)) hx
      · rw [hone x hx] at hbit
        rw [← hbit, if_pos rfl]
        exact ihu (fun k hk => hsub k (List.mem_append_right _ hk)) hx
    · have hnear := hsame _ (Tree.nearest_mem dir (.node l t u)) _ hx
      exact (hnear.mono (Nat.le_of_not_lt hlt)).trans hagree

/-! ## Insertion -/

/-- The bits of a tree are those of its nearest leaf up to where its labels begin. -/
theorem Ok.agree_nearest (h : Ok pos bit t) (hbelow : ∀ l ∈ t.labels, n ≤ pos l) (hx : x ∈ t.leaves)
    (hy : y ∈ t.leaves) :
    Agree n (bit x) (bit y) := by
  cases h with
  | leaf z =>
    obtain rfl := List.mem_singleton.mp hx
    obtain rfl := List.mem_singleton.mp hy
    exact fun _ _ => rfl
  | node ht hu hzero hone hsame => exact (hsame x hx y hy).mono (hbelow _ List.mem_cons_self)

theorem Tree.leaves_branch (l : ℓ) (side : Bool) (t u : Tree ℓ α) :
    (Tree.branch l side t u).leaves = if side then u.leaves ++ t.leaves else t.leaves ++ u.leaves := by
  cases side <;> rfl

/-- A new leaf next to a tree that has other bits than it from `pos l` on. -/
theorem Ok.branch (h : Ok pos bit t) (hlabels : ∀ k ∈ t.labels, pos l < pos k) (hy : y ∈ t.leaves)
    (hagree : Agree (pos l) (bit y) (bit x)) (hne : bit y (pos l) ≠ bit x (pos l)) :
    Ok pos bit (.branch l (bit x (pos l)) (.leaf x) t) := by
  have hold {z : α} (hz : z ∈ t.leaves) : Agree (pos l + 1) (bit z) (bit y) := h.agree_nearest hlabels hz hy
  have hsame {z : α} (hz : z ∈ t.leaves) : Agree (pos l) (bit z) (bit x) :=
    ((hold hz).mono (Nat.le_succ _)).trans hagree
  have hside {z : α} (hz : z ∈ t.leaves) : bit z (pos l) = !bit x (pos l) := by
    rw [hold hz _ (Nat.lt_succ_self _)]
    exact Bool.eq_not.mpr hne
  have hall {z w : α} (hz : z = x ∨ z ∈ t.leaves) (hw : w = x ∨ w ∈ t.leaves) :
      Agree (pos l) (bit z) (bit w) := by
    rcases hz with rfl | hz <;> rcases hw with rfl | hw
    · exact fun _ _ => rfl
    · exact (hsame hw).symm
    · exact hsame hz
    · exact (hsame hz).trans (hsame hw).symm
  cases hbit : bit x (pos l) with
  | false =>
    refine .node (.leaf x) h ?_ ?_ fun z hz w hw =>
      hall (by simpa [Tree.leaves] using hz) (by simpa [Tree.leaves] using hw)
    · intro z hz
      obtain rfl := List.mem_singleton.mp hz
      exact hbit
    · intro z hz
      rw [hside hz, hbit]
      rfl
  | true =>
    refine .node h (.leaf x) ?_ ?_ fun z hz w hw =>
      hall (by simpa [Tree.leaves, or_comm] using hz) (by simpa [Tree.leaves, or_comm] using hw)
    · intro z hz
      rw [hside hz, hbit]
      rfl
    · intro z hz
      obtain rfl := List.mem_singleton.mp hz
      exact hbit

namespace Tree

theorem leaves_insert (dir below : ℓ → Bool) (l : ℓ) (side : Bool) (x : α) (t : Tree ℓ α) :
    (t.insert dir below (.branch l side (.leaf x))).leaves.Perm (x :: t.leaves) := by
  have hgraft (u : Tree ℓ α) : (Tree.branch l side (.leaf x) u).leaves.Perm (x :: u.leaves) := by
    rw [leaves_branch]
    cases side with
    | false => exact List.Perm.refl _
    | true => exact List.perm_append_singleton x u.leaves
  induction t with
  | leaf y => exact hgraft (.leaf y)
  | node k t u iht ihu =>
    rw [insert]
    split
    · split
      · exact (ihu.append_left t.leaves).trans List.perm_middle
      · exact iht.append_right u.leaves
    · exact hgraft (.node k t u)

theorem labels_insert (dir below : ℓ → Bool) (l : ℓ) (side : Bool) (x : α) (t : Tree ℓ α) :
    (t.insert dir below (.branch l side (.leaf x))).labels.Perm (l :: t.labels) := by
  have hgraft (u : Tree ℓ α) : (Tree.branch l side (.leaf x) u).labels.Perm (l :: u.labels) := by
    cases side with
    | false => exact List.Perm.refl _
    | true => simp [branch, labels]
  induction t with
  | leaf y => exact hgraft (.leaf y)
  | node k t u iht ihu =>
    rw [insert]
    split
    · split
      · exact (((ihu.append_left t.labels).trans List.perm_middle).cons k).trans (List.Perm.swap l k _)
      · exact ((iht.append_right u.labels).cons k).trans (List.Perm.swap l k _)
    · exact hgraft (.node k t u)

end Tree

/-- A leaf that differs from the nearest one first at `pos l` gets its place. -/
theorem Ok.insert (h : Ok pos bit t) (hdir : ∀ k ∈ t.path dir, dir k = bit x (pos k))
    (hbelow : ∀ k ∈ t.path dir, (pos k < pos l → below k = true) ∧ (below k = true → pos k ≤ pos l))
    (hagree : Agree (pos l) (bit (t.nearest dir)) (bit x)) (hne : bit (t.nearest dir) (pos l) ≠ bit x (pos l)) :
    Ok pos bit (t.insert dir below (.branch l (bit x (pos l)) (.leaf x))) := by
  induction h with
  | leaf y => exact (Ok.leaf y).branch (fun k hk => (List.not_mem_nil hk).elim) (List.mem_singleton_self y) hagree hne
  | @node k t u ht hu hzero hone hsame iht ihu =>
    have hok := Ok.node ht hu hzero hone hsame
    obtain ⟨hk, hdir⟩ := List.forall_mem_cons.mp hdir
    obtain ⟨hbk, hbelow⟩ := List.forall_mem_cons.mp hbelow
    have hnear := Tree.nearest_mem dir (.node k t u)
    -- at the new bit itself there is no node, as the nearest leaf would have it right
    have hbit : bit (Tree.nearest dir (.node k t u)) (pos k) = bit x (pos k) := by
      rw [← hk, Tree.nearest]
      split
      · next hd => rw [hone _ (u.nearest_mem dir), hd]
      · next hd => rw [hzero _ (t.nearest_mem dir), Bool.eq_false_iff.mpr hd]
    have hpos : pos k ≠ pos l := fun heq => hne (heq ▸ hbit)
    rw [Tree.insert]
    split
    · -- the new bit lies deeper, so `x` has the bits that the leaves here have in common
      next hlt =>
      have hlt : pos k < pos l := Nat.lt_of_le_of_ne (hbk.2 hlt) hpos
      have hx {z : α} (hz : z ∈ t.leaves ++ u.leaves) : Agree (pos k) (bit z) (bit x) :=
        (hsame z hz _ hnear).trans (hagree.mono (Nat.le_of_lt hlt))
      have hxt (z : α) (hz : z ∈ t.leaves) : Agree (pos k) (bit z) (bit x) ∧ bit z (pos k) = false :=
        ⟨hx (List.mem_append_left _ hz), hzero z hz⟩
      have hxu (z : α) (hz : z ∈ u.leaves) : Agree (pos k) (bit z) (bit x) ∧ bit z (pos k) = true :=
        ⟨hx (List.mem_append_right _ hz), hone z hz⟩
      rw [Tree.nearest] at hagree hne
      split
      · next hd =>
        rw [if_pos hd] at hagree hne hdir hbelow
        refine .node_of ht (ihu hdir hbelow hagree hne) hxt fun z hz => ?_
        rcases List.mem_cons.mp ((Tree.leaves_insert dir below l _ x u).mem_iff.mp hz) with rfl | hz
        · exact ⟨fun _ _ => rfl, hk.symm.trans hd⟩
        · exact hxu z hz
      · next hd =>
        rw [if_neg hd] at hagree hne hdir hbelow
        refine .node_of (iht hdir hbelow hagree hne) hu (fun z hz => ?_) hxu
        rcases List.mem_cons.mp ((Tree.leaves_insert dir below l _ x t).mem_iff.mp hz) with rfl | hz
        · exact ⟨fun _ _ => rfl, hk.symm.trans (Bool.eq_false_iff.mpr hd)⟩
        · exact hxt z hz
    · next hlt =>
      have hgt : pos l < pos k := Nat.lt_of_le_of_ne (Nat.le_of_not_lt fun hlt' => hlt (hbk.1 hlt')) hpos.symm
      refine hok.branch (fun j hj => ?_) hnear hagree hne
      rcases List.mem_cons.mp hj with rfl | hj
      · exact hgt
      · exact Nat.lt_trans hgt (hok.lt_label j hj)

/-! ## Removal -/

namespace Tree

theorem eq_leaf (h : t.erase dir = none) : t = .leaf (t.nearest dir) := by
  cases t with
  | leaf x => rfl
  | node l t u =>
    rw [erase] at h
    split at h <;> split at h <;> cases h

theorem leaves_erase {t' : Tree ℓ α} (h : t.erase dir = some t') :
    ∃ xs ys, t.leaves = xs ++ t.nearest dir :: ys ∧ t'.leaves = xs ++ ys := by
  induction t generalizing t' with
  | leaf x => cases h
  | node l t u iht ihu =>
    rw [erase] at h
    rw [leaves, nearest]
    split at h
    · next hd =>
      rw [if_pos hd]
      split at h
      · next hu =>
        cases h
        exact ⟨t.leaves, [], by rw [eq_leaf hu]; rfl, (List.append_nil _).symm⟩
      · next u' hu =>
        cases h
        obtain ⟨xs, ys, hxs, hys⟩ := ihu hu
        refine ⟨t.leaves ++ xs, ys, ?_, ?_⟩
        · rw [List.append_assoc, ← hxs]
        · rw [leaves, hys, List.append_assoc]
    · next hd =>
      rw [if_neg hd]
      split at h
      · next ht =>
        cases h
        exact ⟨[], u.leaves, by rw [eq_leaf ht]; rfl, rfl⟩
      · next t' ht =>
        cases h
        obtain ⟨xs, ys, hxs, hys⟩ := iht ht
        refine ⟨xs, ys ++ u.leaves, ?_, ?_⟩
        · rw [hxs, List.append_assoc, List.cons_append]
        · rw [leaves, hys, List.append_assoc]

theorem leaves_erase_subset {t' : Tree ℓ α} (h : t.erase dir = some t') : t'.leaves ⊆ t.leaves := by
  obtain ⟨xs, ys, hxs, hys⟩ := leaves_erase h
  rw [hxs, hys]
  exact ((List.sublist_cons_self _ ys).append_left xs).subset

theorem labels_erase {t' : Tree ℓ α} (h : t.erase dir = some t') : t'.labels ⊆ t.labels := by
  induction t generalizing t' with
  | leaf x => cases h
  | node l t u iht ihu =>
    have ht : t.labels ⊆ (node l t u).labels := List.subset_cons_of_subset l (List.subset_append_left _ _)
    have hu : u.labels ⊆ (node l t u).labels := List.subset_cons_of_subset l (List.subset_append_right _ _)
    rw [erase] at h
    split at h <;> split at h <;> cases h
    · exact ht
    · next u' hu' => exact List.cons_subset_cons l (List.append_subset.mpr
        ⟨List.subset_append_left _ _, List.subset_append_of_subset_right _ (ihu hu')⟩)
    · exact hu
    · next t' ht' => exact List.cons_subset_cons l (List.append_subset.mpr
        ⟨List.subset_append_of_subset_left _ (iht ht'), List.subset_append_right _ _⟩)

end Tree

theorem Ok.erase (h : Ok pos bit t) {t' : Tree ℓ α} (he : t.erase dir = some t') : Ok pos bit t' := by
  induction h generalizing t' with
  | leaf x => cases he
  | @node l t u ht hu hzero hone hsame iht ihu =>
    have hnear := Tree.nearest_mem dir (.node l t u)
    have hxt (z : α) (hz : z ∈ t.leaves) := And.intro (hsame z (List.mem_append_left _ hz) _ hnear) (hzero z hz)
    have hxu (z : α) (hz : z ∈ u.leaves) := And.intro (hsame z (List.mem_append_right _ hz) _ hnear) (hone z hz)
    rw [Tree.erase] at he
    split at he
    · split at he
      · cases he
        exact ht
      · next u' hu' =>
        cases he
        exact .node_of ht (ihu hu') hxt fun z hz => hxu z (Tree.leaves_erase_subset hu' hz)
    · split at he
      · cases he
        exact hu
      · next t' ht' =>
        cases he
        exact .node_of (iht ht') hu (fun z hz => hxt z (Tree.leaves_erase_subset ht' hz)) hxu

/-! ## Change of a leaf -/

namespace Tree

theorem leaves_update (dir : ℓ → Bool) (f : α → α) (t : Tree ℓ α) :
    ∃ xs ys, t.leaves = xs ++ t.nearest dir :: ys ∧ (t.update dir f).leaves = xs ++ f (t.nearest dir) :: ys := by
  induction t with
  | leaf x => exact ⟨[], [], rfl, rfl⟩
  | node l t u iht ihu =>
    rw [nearest, update, leaves]
    split
    · obtain ⟨xs, ys, hxs, hys⟩ := ihu
      exact ⟨t.leaves ++ xs, ys, by rw [List.append_assoc, ← hxs], by rw [leaves, hys, List.append_assoc]⟩
    · obtain ⟨xs, ys, hxs, hys⟩ := iht
      refine ⟨xs, ys ++ u.leaves, ?_, ?_⟩
      · rw [hxs, List.append_assoc, List.cons_append]
      · rw [leaves, hys, List.append_assoc, List.cons_append]

theorem labels_update (dir : ℓ → Bool) (f : α → α) (t : Tree ℓ α) : (t.update dir f).labels = t.labels := by
  induction t with
  | leaf x => rfl
  | node l t u iht ihu =>
    rw [update]
    split
    · rw [labels, ihu, labels]
    · rw [labels, iht, labels]

theorem mem_update {f : α → α} (h : x ∈ (t.update dir f).leaves) : ∃ y ∈ t.leaves, x = y ∨ x = f y := by
  obtain ⟨xs, ys, hxs, hys⟩ := leaves_update dir f t
  rw [hys] at h
  rw [hxs]
  rcases List.mem_append.mp h with h | h
  · exact ⟨x, List.mem_append_left _ h, .inl rfl⟩
  · rcases List.mem_cons.mp h with rfl | h
    · exact ⟨_, List.mem_append_right _ List.mem_cons_self, .inr rfl⟩
    · exact ⟨x, List.mem_append_right _ (List.mem_cons_of_mem _ h), .inl rfl⟩

end Tree

theorem Ok.update (h : Ok pos bit t) {f : α → α} (hf : ∀ x, bit (f x) = bit x) : Ok pos bit (t.update dir f) := by
  induction h with
  | leaf x => exact .leaf (f x)
  | @node l t u ht hu hzero hone hsame iht ihu =>
    have hnear := Tree.nearest_mem dir (.node l t u)
    have hxt (z : α) (hz : z ∈ t.leaves) := And.intro (hsame z (List.mem_append_left _ hz) _ hnear) (hzero z hz)
    have hxu (z : α) (hz : z ∈ u.leaves) := And.intro (hsame z (List.mem_append_right _ hz) _ hnear) (hone z hz)
    rw [Tree.update]
    split
    · refine .node_of ht ihu hxt fun z hz => ?_
      obtain ⟨y, hy, rfl | rfl⟩ := Tree.mem_update hz
      · exact hxu z hy
      · rw [hf]
        exact hxu y hy
    · refine .node_of iht hu (fun z hz => ?_) hxu
      obtain ⟨y, hy, rfl | rfl⟩ := Tree.mem_update hz
      · exact hxt z hy
      · rw [hf]
        exact hxt y hy

/-! ## Order -/

/-- The first bit that differs is clear on the left. -/
def Before (b c : Nat → Bool) : Prop := ∃ n, Agree n b c ∧ b n = false ∧ c n = true

theorem Ok.sorted (h : Ok pos bit t) : t.leaves.Pairwise fun x y => Before (bit x) (bit y) := by
  induction h with
  | leaf x => exact List.pairwise_singleton _ x
  | @node l t u _ _ hzero hone hsame iht ihu =>
    refine List.pairwise_append.mpr ⟨iht, ihu, fun x hx y hy => ⟨pos l, ?_, hzero x hx, hone y hy⟩⟩
    exact hsame x (List.mem_append_left _ hx) y (List.mem_append_right _ hy)

/-! ## Keys that begin alike -/

/-- A node that branches on one of the first `n` bits has those that begin with them on one side. -/
theorem Ok.filter_side (h : Ok pos bit (.node l t u)) (hl : pos l < n) {p : α → Bool}
    (hp : ∀ x ∈ (Tree.node l t u).leaves, p x = true → Agree n (bit x) b) :
    (Tree.node l t u).leaves.filter p = (if b (pos l) then u else t).leaves.filter p := by
  cases h with
  | node _ _ hzero hone _ =>
    rw [Tree.leaves, List.filter_append]
    cases hb : b (pos l) with
    | false =>
      have hu : u.leaves.filter p = [] := List.filter_eq_nil_iff.mpr fun x hx hpx => by
        have hbit := hp x (List.mem_append_right _ hx) hpx (pos l) hl
        rw [hone x hx, hb] at hbit
        cases hbit
      rw [hu, List.append_nil]
      rfl
    | true =>
      have ht : t.leaves.filter p = [] := List.filter_eq_nil_iff.mpr fun x hx hpx => by
        have hbit := hp x (List.mem_append_left _ hx) hpx (pos l) hl
        rw [hzero x hx, hb] at hbit
        cases hbit
      rw [ht, List.nil_append]
      rfl

theorem Tree.nearest_first (dir : ℓ → Bool) (h : ∀ l ∈ t.labels, dir l = false) :
    ∃ xs, t.leaves = t.nearest dir :: xs := by
  induction t with
  | leaf x => exact ⟨[], rfl⟩
  | node l t u iht _ =>
    obtain ⟨hl, hsub⟩ := List.forall_mem_cons.mp h
    obtain ⟨xs, hxs⟩ := iht fun k hk => hsub k (List.mem_append_left _ hk)
    refine ⟨xs ++ u.leaves, ?_⟩
    rw [leaves, hxs, nearest, hl]
    rfl

/-- When `b` goes on in zeros, its nearest leaf is the first of those that begin with it. -/
theorem Ok.head_filter (h : Ok pos bit t) (hdir : ∀ l ∈ t.labels, dir l = b (pos l)) (hb : ∀ i, n ≤ i → b i = false)
    {p : α → Bool} (hp : ∀ x ∈ t.leaves, (p x = true ↔ Agree n (bit x) b)) :
    (t.leaves.filter p).head? = if p (t.nearest dir) then some (t.nearest dir) else none := by
  induction h with
  | leaf x =>
    rw [Tree.leaves, Tree.nearest, List.filter_singleton]
    cases p x <;> rfl
  | @node l t u ht hu hzero hone hsame iht ihu =>
    have hok := Ok.node ht hu hzero hone hsame
    obtain ⟨hl, hsub⟩ := List.forall_mem_cons.mp hdir
    obtain ⟨hdt, hdu⟩ := List.forall_mem_append.mp hsub
    obtain ⟨hpt, hpu⟩ := List.forall_mem_append.mp hp
    by_cases hln : pos l < n
    · rw [hok.filter_side hln fun x hx hpx => (hp x hx).mp hpx, Tree.nearest, ← hl]
      cases hd : dir l with
      | false => exact iht hdt hpt
      | true => exact ihu hdu hpu
    · have hbelow : ∀ k ∈ (Tree.node l t u).labels, n ≤ pos k := by
        refine List.forall_mem_cons.mpr ⟨Nat.le_of_not_lt hln, fun k hk => ?_⟩
        exact Nat.le_of_lt (Nat.lt_of_le_of_lt (Nat.le_of_not_lt hln) (hok.lt_label k hk))
      obtain ⟨xs, hxs⟩ := Tree.nearest_first dir fun k hk => (hdir k hk).trans (hb _ (hbelow k hk))
      have hnear := Tree.nearest_mem dir (.node l t u)
      cases hpn : p ((Tree.node l t u).nearest dir) with
      | true =>
        rw [hxs, List.filter_cons_of_pos hpn]
        rfl
      | false =>
        have hnil : (Tree.node l t u).leaves.filter p = [] := List.filter_eq_nil_iff.mpr fun x hx hpx => by
          have hagree := (hok.agree_nearest hbelow hnear hx).trans ((hp x hx).mp hpx)
          rw [(hp _ hnear).mpr hagree] at hpn
          cases hpn
        rw [hnil]
        rfl

end Critbit
