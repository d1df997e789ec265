import Dirlist.Cb.Bits

/-! Crit-bit trees whose leaves have byte strings for keys, none of which begins another one. The nodes of lib/cb and
those of lib/cbmap have a byte and a mask of their own, and follow the bits of a key. -/

namespace Dirlist
open Critbit

variable {ℓ α : Type} (byte : ℓ → Nat) (mask : ℓ → UInt8) (key : α → Bytes) (dir : Bytes → ℓ → Bool)

structure KeysOk (t : Tree ℓ α) : Prop where
  ok : Ok (fun l => bitPos (byte l) (mask l)) (fun x => keyBit (key x)) t
  masks : ∀ l ∈ t.labels, OneBit (mask l)
  apart : ∀ x ∈ t.leaves, ∀ y ∈ t.leaves, key x <+: key y → x = y

/-- A node sends a key where its bit leads to. -/
def Follows : Prop := ∀ q l, OneBit (mask l) → dir q l = keyBit q (bitPos (byte l) (mask l))

variable {byte mask key dir} {t : Tree ℓ α} {x y : α} {q : Bytes}

theorem KeysOk.follows (h : KeysOk byte mask key t) (hdir : Follows byte mask dir) (q : Bytes) :
    ∀ l ∈ t.labels, dir q l = keyBit q (bitPos (byte l) (mask l)) := fun l hl => hdir q l (h.masks l hl)

theorem KeysOk.ascending (h : KeysOk byte mask key t) : t.leaves.Pairwise fun x y => key x < key y :=
  h.ok.sorted.imp before_lt

theorem KeysOk.nodup (h : KeysOk byte mask key t) : t.leaves.Nodup := by
  refine h.ascending.imp fun hlt heq => ?_
  rw [heq] at hlt
  exact List.lt_irrefl _ hlt

/-- Of the keys with the bits of `q`, none ends before it, if one goes on behind it. -/
theorem KeysOk.begins (h : KeysOk byte mask key t) (hx : x ∈ t.leaves) (hq : q <+: key x) (hy : y ∈ t.leaves)
    (hagree : Agree (8 * q.length) (keyBit (key y)) (keyBit q)) : q <+: key y := by
  rcases Nat.le_total q.length (key y).length with hle | hle
  · exact (agree_begin hle).mp hagree
  · have hyq : key y <+: q := (agree_begin hle).mp (hagree.symm.mono (Nat.mul_le_mul_left 8 hle))
    have heq : y = x := h.apart y hy x hx (hyq.trans hq)
    exact heq ▸ hq

/-! ## The nearest key -/

theorem KeysOk.nearest_begins (h : KeysOk byte mask key t) (hdir : Follows byte mask dir) (hx : x ∈ t.leaves)
    (hq : q <+: key x) : q <+: key (t.nearest (dir q)) := by
  have hagree := h.ok.nearest_agree (h.follows hdir q) hx ((agree_begin hq.length_le).mpr hq)
  exact h.begins hx hq (t.nearest_mem _) hagree

theorem KeysOk.nearest_key (h : KeysOk byte mask key t) (hdir : Follows byte mask dir) (hx : x ∈ t.leaves) :
    t.nearest (dir (key x)) = x :=
  (h.apart x hx _ (t.nearest_mem _) (h.nearest_begins hdir hx (List.prefix_refl _))).symm

/-- A key that begins `q` is the nearest one. -/
theorem KeysOk.nearest_begun (h : KeysOk byte mask key t) (hdir : Follows byte mask dir) (hx : x ∈ t.leaves)
    (hq : key x <+: q) : t.nearest (dir q) = x := by
  have hbits := (agree_begin hq.length_le).mpr hq
  have hagree := h.ok.nearest_agree (h.follows hdir q) hx hbits.symm
  exact (h.apart x hx _ (t.nearest_mem _) (h.begins hx (List.prefix_refl _) (t.nearest_mem _)
    (hagree.trans hbits))).symm

/-- The first key with a prefix is the nearest to it. -/
theorem KeysOk.head_begins (h : KeysOk byte mask key t) (hdir : Follows byte mask dir) (q : Bytes) :
    (t.leaves.filter fun x => q.isPrefixOf (key x)).head? =
      if q <+: key (t.nearest (dir q)) then some (t.nearest (dir q)) else none := by
  by_cases hany : ∃ x ∈ t.leaves, q <+: key x
  · obtain ⟨x, hx, hq⟩ := hany
    have hhead := h.ok.head_filter (h.follows hdir q) (n := 8 * q.length) (p := fun x => q.isPrefixOf (key x))
      (fun i hi => by
        rw [keyBit, List.getD_eq_default _ _ (by omega)]
        exact Nat.zero_testBit _)
      fun y hy => by
        rw [List.isPrefixOf_iff_prefix]
        exact ⟨fun hp => (agree_begin hp.length_le).mpr hp, h.begins hx hq hy⟩
    simp only [List.isPrefixOf_iff_prefix] at hhead
    exact hhead
  · have hno : ∀ x ∈ t.leaves, ¬q.isPrefixOf (key x) = true := fun x hx hq =>
      hany ⟨x, hx, List.isPrefixOf_iff_prefix.mp hq⟩
    rw [if_neg fun hq => hany ⟨_, t.nearest_mem _, hq⟩, List.filter_eq_nil_iff.mpr hno]
    rfl

/-- A node in front of the end of a prefix has the keys with the prefix on one side. -/
theorem KeysOk.filter_side {l : ℓ} {t u : Tree ℓ α} (h : KeysOk byte mask key (.node l t u))
    (hdir : Follows byte mask dir) (hl : byte l < q.length) :
    (Critbit.Tree.node l t u).leaves.filter (fun x => q.isPrefixOf (key x)) =
      (if dir q l then u else t).leaves.filter fun x => q.isPrefixOf (key x) := by
  have hmask := h.masks l List.mem_cons_self
  have hpos : bitPos (byte l) (mask l) < 8 * q.length := by
    have hbit := hmask.lt_eight
    rw [bitPos]
    omega
  rw [hdir q l hmask]
  refine h.ok.filter_side hpos fun x _ hx => ?_
  have hx := List.isPrefixOf_iff_prefix.mp hx
  exact (agree_begin hx.length_le).mpr hx

/-- At a node behind the end of a prefix all keys have the prefix, or none. -/
theorem KeysOk.all_begin {l : ℓ} {t u : Tree ℓ α} (h : KeysOk byte mask key (.node l t u)) (hl : q.length ≤ byte l)
    (hx : x ∈ (Critbit.Tree.node l t u).leaves) (hq : q <+: key x) :
    (∀ k ∈ t.labels ++ u.labels, q.length ≤ byte k) ∧ ∀ y ∈ (Critbit.Tree.node l t u).leaves, q <+: key y := by
  have hsub : ∀ k ∈ t.labels ++ u.labels, q.length ≤ byte k := by
    intro k hk
    have hlt := h.ok.lt_label k hk
    have hbit := (h.masks k (List.mem_cons_of_mem l hk)).lt_eight
    dsimp only [bitPos] at hlt
    omega
  refine ⟨hsub, fun y hy => h.begins hx hq hy ?_⟩
  have hagree : Agree (8 * q.length) (keyBit (key y)) (keyBit (key x)) := by
    refine h.ok.agree_nearest (List.forall_mem_cons.mpr ⟨?_, fun k hk => ?_⟩) hy hx
    · exact Nat.le_add_right_of_le (Nat.mul_le_mul_left 8 hl)
    · exact Nat.le_add_right_of_le (Nat.mul_le_mul_left 8 (hsub k hk))
  exact hagree.trans ((agree_begin hq.length_le).mpr hq)

theorem KeysOk.zero {l : ℓ} {t u : Tree ℓ α} (h : KeysOk byte mask key (.node l t u)) : KeysOk byte mask key t := by
  obtain ⟨hok, hmasks, hapart⟩ := h
  cases hok with
  | node ht _ _ _ _ =>
    exact ⟨ht, fun l hl => hmasks l (List.mem_cons_of_mem _ (List.mem_append_left _ hl)), fun x hx y hy =>
      hapart x (List.mem_append_left _ hx) y (List.mem_append_left _ hy)⟩

theorem KeysOk.one {l : ℓ} {t u : Tree ℓ α} (h : KeysOk byte mask key (.node l t u)) : KeysOk byte mask key u := by
  obtain ⟨hok, hmasks, hapart⟩ := h
  cases hok with
  | node _ hu _ _ _ =>
    exact ⟨hu, fun l hl => hmasks l (List.mem_cons_of_mem _ (List.mem_append_right _ hl)), fun x hx y hy =>
      hapart x (List.mem_append_right _ hx) y (List.mem_append_right _ hy)⟩

/-! ## Removal -/

theorem KeysOk.erase (h : KeysOk byte mask key t) {d : ℓ → Bool} {t' : Tree ℓ α} (he : t.erase d = some t') :
    KeysOk byte mask key t' := by
  have hsub := Tree.leaves_erase_subset he
  exact ⟨h.ok.erase he, fun l hl => h.masks l (Tree.labels_erase he hl),
    fun x hx y hy => h.apart x (hsub hx) y (hsub hy)⟩

/-! ## Insertion -/

theorem keysOk_leaf (x : α) : KeysOk byte mask key (.leaf x) := by
  refine ⟨.leaf x, fun _ hl => (List.not_mem_nil hl).elim, fun y hy z hz _ => ?_⟩
  rw [List.mem_singleton.mp hy, List.mem_singleton.mp hz]

theorem getD_split {w a b : Bytes} {i : Nat} (hi : i < w.length) : (w ++ a).getD i 0 = (w ++ b).getD i 0 := by
  rw [List.getD_append _ _ _ _ hi, List.getD_append _ _ _ _ hi]

theorem getD_here (w : Bytes) (c : UInt8) (a : Bytes) : (w ++ c :: a).getD w.length 0 = c := by
  rw [List.getD_append_right _ _ _ _ (Nat.le_refl _), Nat.sub_self]
  rfl

theorem not_prefix_of_ne {w a b : Bytes} {c d : UInt8} (hcd : c ≠ d) : ¬w ++ c :: a <+: w ++ d :: b := by
  rw [List.prefix_append_right_inj, List.cons_prefix_cons]
  exact fun h => hcd h.1

/-- When the nearest key differs from `q`, no key begins `q` or goes on behind it. -/
theorem KeysOk.free (h : KeysOk byte mask key t) (hdir : Follows byte mask dir) {w a b : Bytes} {c d : UInt8}
    (hq : q = w ++ c :: a) (hnear : key (t.nearest (dir q)) = w ++ d :: b) (hcd : c ≠ d) (hx : x ∈ t.leaves) :
    ¬key x <+: q ∧ ¬q <+: key x := by
  constructor
  · intro hpre
    rw [← h.nearest_begun hdir hx hpre, hnear, hq] at hpre
    exact not_prefix_of_ne hcd.symm hpre
  · intro hpre
    have hpre := h.nearest_begins hdir hx hpre
    rw [hnear, hq] at hpre
    exact not_prefix_of_ne hcd hpre

theorem KeysOk.insert [DecidableLE Bytes] (h : KeysOk byte mask key t) (hdir : Follows byte mask dir)
    {below : ℓ → Bool} {l : ℓ} {w a b : Bytes} {c d : UInt8} (hbyte : byte l = w.length)
    (hmask : mask l = otherBits (c ^^^ d)) (hkey : key x = w ++ c :: a)
    (hnear : key (t.nearest (dir (key x))) = w ++ d :: b) (hcd : c ≠ d)
    (hbelow : ∀ k ∈ t.path (dir (key x)),
      (bitPos (byte k) (mask k) < bitPos (byte l) (mask l) → below k = true) ∧
      (below k = true → bitPos (byte k) (mask k) ≤ bitPos (byte l) (mask l))) :
    let t' := t.insert (dir (key x)) below (.branch l (branchBit (mask l) c) (.leaf x))
    KeysOk byte mask key t' ∧ t'.leaves = t.leaves.orderedInsert (fun x y => key x ≤ key y) x := by
  intro t'
  have hperm : t'.leaves.Perm (x :: t.leaves) := Tree.leaves_insert (dir (key x)) below l _ x t
  have hfree {y : α} (hy : y ∈ t.leaves) := h.free hdir hkey hnear hcd hy
  -- the new bit is the first in which the keys differ
  have hone : OneBit (mask l) := hmask ▸ (otherBits_spec hcd).1
  have hc : (key x).getD w.length 0 = c := by rw [hkey, getD_here]
  have hfirst := agree_otherBits (a := key (t.nearest (dir (key x)))) (b := key x) (n := w.length)
    (fun i hi => by rw [hnear, hkey]; exact getD_split hi) (by rw [hnear, getD_here, hc]; exact hcd.symm)
  have hxor : (key (t.nearest (dir (key x)))).getD w.length 0 ^^^ (key x).getD w.length 0 = c ^^^ d := by
    rw [hnear, getD_here, hc, UInt8.xor_comm]
  rw [hxor, ← hbyte, ← hmask] at hfirst
  have hbranch : branchBit (mask l) c = keyBit (key x) (bitPos (byte l) (mask l)) := by
    rw [← hone.branch, hbyte, hc]
  have hapart : ∀ y ∈ t'.leaves, ∀ z ∈ t'.leaves, key y <+: key z → y = z := by
    intro y hy z hz hpre
    rcases List.mem_cons.mp (hperm.mem_iff.mp hy) with heq | hy <;>
      rcases List.mem_cons.mp (hperm.mem_iff.mp hz) with heq' | hz
    · rw [heq, heq']
    · exact ((hfree hz).2 (heq ▸ hpre)).elim
    · exact ((hfree hy).1 (heq' ▸ hpre)).elim
    · exact h.apart y hy z hz hpre
  have hok : KeysOk byte mask key t' := by
    refine ⟨?_, fun k hk => ?_, hapart⟩
    · simp only [t', hbranch]
      exact h.ok.insert (l := l) (fun k hk => h.follows hdir _ k (t.path_subset _ hk)) hbelow hfirst.1 hfirst.2
    · rcases List.mem_cons.mp ((Tree.labels_insert (dir (key x)) below l _ x t).mem_iff.mp hk) with rfl | hk
      · exact hone
      · exact h.masks k hk
  have htotal : Std.Total fun x y : α => key x ≤ key y := ⟨fun x y => Std.Total.total (key x) (key y)⟩
  have htrans : IsTrans α fun x y => key x ≤ key y := ⟨fun x y z => List.le_trans⟩
  have hle {u : Tree ℓ α} (hu : KeysOk byte mask key u) : u.leaves.Pairwise fun x y => key x ≤ key y :=
    hu.ascending.imp List.le_of_lt
  refine ⟨hok, List.Perm.eq_of_pairwise (fun y z hy hz hyz hzy => ?_) (hle hok) ((hle h).orderedInsert x _)
    (hperm.trans (List.perm_orderedInsert _ _ _).symm)⟩
  have hz := hperm.mem_iff.mpr ((List.perm_orderedInsert _ _ _).mem_iff.mp hz)
  exact hapart y hy z hz (List.le_antisymm hyz hzy ▸ List.prefix_refl _)

/-- The two sides of the new node. -/
theorem branchBit_otherBits {c d : UInt8} (hcd : c ≠ d) :
    branchBit (otherBits (c ^^^ d)) d = !branchBit (otherBits (c ^^^ d)) c := by
  obtain ⟨hone, -, hdiff⟩ := otherBits_spec hcd
  have hbit (e : UInt8) : branchBit (otherBits (c ^^^ d)) e =
      e.toNat.testBit (7 - maskBit (otherBits (c ^^^ d))) := by
    have h := hone.branch [e] 0
    rwa [bitPos, keyBit_byte _ _ hone.lt_eight, List.getD_cons_zero] at h
  rw [hbit, hbit]
  exact Bool.eq_not.mpr hdiff.symm

/-! ## Strings -/

/-- A string together with its final zero. -/
def IsString (key : Bytes) : Prop := ∃ s, key = s ++ [0] ∧ 0 ∉ s

theorem IsString.eq_of_begin {k k' : Bytes} (h : IsString k) (h' : IsString k') (hpre : k <+: k') : k = k' := by
  obtain ⟨s, rfl, -⟩ := h
  obtain ⟨s', rfl, hs'⟩ := h'
  obtain ⟨rest, hrest⟩ := hpre
  rcases List.eq_nil_or_concat rest with rfl | ⟨rest, c, rfl⟩
  · rwa [List.append_nil] at hrest
  · rw [List.concat_eq_append, ← List.append_assoc, List.append_assoc s, List.singleton_append] at hrest
    have heq := List.append_inj_left' hrest rfl
    exact (hs' (heq ▸ by simp)).elim

end Dirlist
