import Dirlist.Cb.Keys
import Dirlist.Cb.Defs

/-! A crit-bit tree is the ascending list of its keys, as long as no key begins another one. A key that does is
read behind its end, so strings are put in together with their final zero. -/

namespace Dirlist
open Run Critbit

/-- The keys of a tree from left to right. -/
def cbKeys : Option CritbitTree → List Bytes
  | none => []
  | some root => root.leaves

/-! ## What the operations mean for a list of keys -/

def keysInsert (key : Bytes) (keys : List Bytes) : Option (CbStatus × List Bytes) :=
  if keys.contains key then some (.duplicate, keys)
  else if key = [] ∨ ∃ k ∈ keys, k <+: key ∨ key <+: k then none
  else some (.success, keys.orderedInsert (· ≤ ·) key)

def keysStep (op : CbOp) (keys : List Bytes) : Option (CbResult × List Bytes) :=
  match op with
  | .insert key => (keysInsert key keys).map fun x => (.status x.1, x.2)
  | .erase key => some (if keys.contains key then (.status .success, keys.erase key) else (.status .notfound, keys))
  | .find key => some (.found (keys.filter (key.isPrefixOf ·)).head?, keys)
  | .findPrefix key numresults offset =>
    some (.results (((keys.filter (key.isPrefixOf ·)).drop offset.toNat).take numresults.toNat), keys)
  | .clear => some (.none, [])

def keysRun : List CbOp → List Bytes → Option (List CbResult × List Bytes)
  | [], keys => some ([], keys)
  | op :: ops, keys => (keysStep op keys).bind fun x => (keysRun ops x.2).map fun y => (x.1 :: y.1, y.2)

/-! ## Trees that are kept -/

structure CbTreeOk (t : CritbitTree) : Prop where
  keys : KeysOk CritbitNode.byte CritbitNode.mask (fun str => str) t
  filled : ∀ k ∈ t.leaves, k ≠ []

def CbOk (root : Option CritbitTree) : Prop := ∀ t ∈ root, CbTreeOk t

def nodePos (node : CritbitNode) : Nat := bitPos node.byte node.mask

variable {t : CritbitTree} {root : Option CritbitTree} {key k str : Bytes} {σ : Type}

theorem cbBranch_follows : Follows CritbitNode.byte CritbitNode.mask cbBranch := by
  intro key node h
  rw [← h.branch, cbBranch]
  split
  · next hle =>
    obtain ⟨i, hi, hmask⟩ := h
    rw [List.getD_eq_default _ _ hle, hmask, branchBit_bitMask hi]
    exact (Nat.zero_testBit _).symm
  · rfl

theorem cbLess_iff {a b : CritbitNode} (ha : OneBit a.mask) (hb : OneBit b.mask) :
    cbLess a b = true ↔ nodePos a < nodePos b := by
  rw [nodePos, nodePos, ha.pos_lt_iff hb]
  simp [cbLess]

theorem cbMatches_eq (key str : Bytes) : cbMatches key str = key.isPrefixOf str := by
  rw [Bool.eq_iff_iff, List.isPrefixOf_iff_prefix, cbMatches, Bool.and_eq_true, decide_eq_true_iff,
    decide_eq_true_iff]
  constructor
  · rintro ⟨hle, hdiff⟩
    exact (byteDiff_begin hle).mp hdiff
  · exact fun h => ⟨h.length_le, (byteDiff_begin h.length_le).mpr h⟩

theorem cbFind_spec (h : CbOk root) (key : Bytes) :
    cbFind key root = ((cbKeys root).filter (key.isPrefixOf ·)).head? := by
  cases root with
  | none => rfl
  | some t =>
    rw [cbFind, cbKeys, (h t rfl).keys.head_begins cbBranch_follows]
    simp only [cbMatches_eq, List.isPrefixOf_iff_prefix]

/-! ## Removal -/

theorem CbTreeOk.nearest_key (h : CbTreeOk t) (hkey : key ∈ t.leaves) : t.nearest (cbBranch key) = key :=
  h.keys.nearest_key cbBranch_follows hkey

theorem cbErase_found (h : CbTreeOk t) (hkey : key ∈ t.leaves) :
    cbErase key (some t) = (.success, t.erase (cbBranch key)) := by
  have hdiff : byteDiff key key = 0 := (byteDiff_eq_zero rfl).mpr rfl
  simp [cbErase, h.nearest_key hkey, hdiff]

theorem cbErase_missing (hkey : key ∉ t.leaves) : cbErase key (some t) = (.notfound, some t) := by
  have hnot : ¬((t.nearest (cbBranch key)).length = key.length ∧ byteDiff key (t.nearest (cbBranch key)) = 0) := by
    rintro ⟨hlen, hdiff⟩
    exact hkey ((byteDiff_eq_zero hlen.symm).mp hdiff ▸ t.nearest_mem _)
  simp [cbErase, hnot]

/-- Without one of its keys a tree has the others. -/
theorem CbTreeOk.erase_keys (h : CbTreeOk t) (hkey : key ∈ t.leaves) : CbOk (t.erase (cbBranch key)) ∧
    cbKeys (t.erase (cbBranch key)) = t.leaves.erase key := by
  cases he : t.erase (cbBranch key) with
  | none =>
    have hleaf := Tree.eq_leaf he
    rw [h.nearest_key hkey] at hleaf
    refine ⟨fun u hu => (nomatch hu), ?_⟩
    rw [hleaf]
    exact (List.erase_cons_head key []).symm
  | some t' =>
    obtain ⟨xs, ys, hxs, hys⟩ := Tree.leaves_erase he
    rw [h.nearest_key hkey] at hxs
    have hnot : key ∉ xs := by
      have hnd := h.keys.nodup
      rw [hxs] at hnd
      exact fun hmem => (List.nodup_append.mp hnd).2.2 key hmem key List.mem_cons_self rfl
    refine ⟨fun u hu => ?_, ?_⟩
    · rw [← Option.some.inj hu]
      exact ⟨h.keys.erase he, fun k hk => h.filled k (Tree.leaves_erase_subset he hk)⟩
    · rw [hxs, List.erase_append_right _ hnot, List.erase_cons_head]
      exact hys

/-! ## Insertion -/

theorem cbCommon_spec {keylen len : Nat} (byte : Nat) (ikey iptr : Bytes) (hkey : byte + ikey.length = keylen)
    (hptr : byte + iptr.length = len) (hlt : keylen < 2 ^ 32) : ∃ w a b, ikey = w ++ a ∧ iptr = w ++ b ∧
      cbCommon keylen len byte ikey iptr = .ok (byte + w.length, a, b) ∧ ∀ x ∈ a.head?, ∀ y ∈ b.head?, x ≠ y := by
  induction ikey generalizing byte iptr with
  | nil =>
    have hfull : ¬byte < keylen := by
      rw [← hkey]
      exact Nat.lt_irrefl byte
    exact ⟨[], [], iptr, rfl, rfl, by simp [cbCommon, hfull], nofun⟩
  | cons x ikey ih =>
    cases iptr with
    | nil =>
      have hfull : ¬byte < len := by
        rw [← hptr]
        exact Nat.lt_irrefl byte
      exact ⟨[], x :: ikey, [], rfl, rfl, by simp [cbCommon, hfull], fun _ _ => nofun⟩
    | cons y iptr =>
      rw [List.length_cons] at hkey hptr
      have hin : (byte < keylen && byte < len) = true := by simp; omega
      rw [cbCommon, if_pos hin]
      by_cases hxy : x = y
      · subst hxy
        have hnext : (byte + 1) % 2 ^ 32 = byte + 1 := Nat.mod_eq_of_lt (by omega)
        obtain ⟨w, a, b, ha, hb, hrun, hne⟩ := ih (byte + 1) iptr (by omega) (by omega)
        refine ⟨x :: w, a, b, by rw [ha]; rfl, by rw [hb]; rfl, ?_, hne⟩
        rw [if_pos rfl, hnext, hrun, List.length_cons, Nat.add_assoc, Nat.add_comm 1]
      · rw [if_neg hxy]
        refine ⟨[], x :: ikey, y :: iptr, rfl, rfl, rfl, fun c hc d hd => ?_⟩
        rw [← Option.some.inj hc, ← Option.some.inj hd]
        exact hxy

theorem cbPrev_eq (key : Bytes) (prev : Option CritbitNode) (t : CritbitTree) :
    cbPrev key prev t = (t.path (cbBranch key)).getLast?.or prev := by
  induction t generalizing prev with
  | leaf str => rfl
  | node node zero one ihz iho =>
    rw [cbPrev, Tree.path]
    split
    · rw [iho, List.getLast?_cons]
      cases (one.path (cbBranch key)).getLast? <;> rfl
    · rw [ihz, List.getLast?_cons]
      cases (zero.path (cbBranch key)).getLast? <;> rfl

/-- The walk from the root ends at a node that is not before the new one. -/
theorem cbPlace_eq {node : CritbitNode} (hbyte : node.byte < key.length) (graft : CritbitTree → CritbitTree)
    (hend : ∃ p ∈ t.path (cbBranch key), ¬cbLess p node = true) :
    cbPlace key node graft t = .ok (t.insert (cbBranch key) (cbLess · node) graft) := by
  induction t with
  | leaf str =>
    obtain ⟨p, hp, -⟩ := hend
    exact (List.not_mem_nil hp).elim
  | node next zero one ihz iho =>
    rw [cbPlace, Tree.insert]
    split
    · next hless =>
      have hin : ¬key.length ≤ next.byte := by
        have hle : next.byte ≤ node.byte := by
          simp only [cbLess, Bool.or_eq_true, Bool.and_eq_true, decide_eq_true_eq] at hless
          omega
        omega
      have hbranch : cbBranch key next = branchBit next.mask (key.getD next.byte 0) := by rw [cbBranch, if_neg hin]
      obtain ⟨p, hp, hpn⟩ := hend
      rw [if_neg hin, ← hbranch]
      rcases List.mem_cons.mp hp with rfl | hp
      · exact (hpn hless).elim
      · split at hp
        · next hd =>
          rw [if_pos hd, if_pos hd, iho ⟨p, hp, hpn⟩]
          rfl
        · next hd =>
          rw [if_neg hd, if_neg hd, ihz ⟨p, hp, hpn⟩]
          rfl
    · rfl

/-- Whichever way the place is found, the new node comes where its bit belongs. -/
theorem cbInsert_place (h : CbTreeOk t) {node : CritbitNode} (hone : OneBit node.mask) (hbyte : node.byte < key.length)
    (graft : CritbitTree → CritbitTree) : ∃ below : CritbitNode → Bool,
      (if (cbPrev key none t).any (cbLess node) then cbPlace key node graft t
        else .ok (t.insert (cbBranch key) (fun _ => true) graft)) = .ok (t.insert (cbBranch key) below graft) ∧
      ∀ k ∈ t.path (cbBranch key), (nodePos k < nodePos node → below k = true) ∧
        (below k = true → nodePos k ≤ nodePos node) := by
  have hmask : ∀ k ∈ t.path (cbBranch key), OneBit k.mask := fun k hk => h.keys.masks k (t.path_subset _ hk)
  rw [cbPrev_eq, Option.or_none]
  cases hlast : (t.path (cbBranch key)).getLast? with
  | none =>
    rw [List.getLast?_eq_none_iff.mp hlast]
    exact ⟨fun _ => true, rfl, fun k hk => (List.not_mem_nil hk).elim⟩
  | some prev =>
    obtain ⟨ks, hks⟩ := List.getLast?_eq_some_iff.mp hlast
    have hmem : prev ∈ t.path (cbBranch key) := by
      rw [hks]
      exact List.mem_append_right ks (List.mem_singleton_self prev)
    rw [Option.any_some]
    split
    · next hless =>
      have hless := (cbLess_iff hone (hmask prev hmem)).mp hless
      refine ⟨(cbLess · node), cbPlace_eq hbyte graft ⟨prev, hmem, fun hp => ?_⟩, fun k hk => ?_⟩
      · exact Nat.lt_asymm hless ((cbLess_iff (hmask prev hmem) hone).mp hp)
      · rw [cbLess_iff (hmask k hk) hone]
        exact ⟨id, Nat.le_of_lt⟩
    · next hless =>
      have hless : nodePos prev ≤ nodePos node :=
        Nat.le_of_not_lt fun hlt => hless ((cbLess_iff hone (hmask prev hmem)).mpr hlt)
      refine ⟨fun _ => true, rfl, fun k hk => ⟨fun _ => rfl, fun _ => ?_⟩⟩
      have hsorted := h.keys.ok.path_sorted (cbBranch key)
      rw [hks] at hk hsorted
      rcases List.mem_append.mp hk with hk | hk
      · exact Nat.le_trans (Nat.le_of_lt ((List.pairwise_append.mp hsorted).2.2 k hk prev (by simp))) hless
      · rwa [List.mem_singleton.mp hk]

/-- What a step of the trees is in the list of the keys. -/
structure Refines {β : Type} (x : Exec (β × Option CritbitTree)) (y : Option (β × List Bytes)) : Prop where
  ok : ∀ z ∈ y, ∃ root, x = .ok (z.1, root) ∧ CbOk root ∧ cbKeys root = z.2
  error : y = none → ∃ e, x = .error e

section
variable {β : Type} {x : Exec (β × Option CritbitTree)} {y : Option (β × List Bytes)}

theorem Refines.of_ok (root : Option CritbitTree) {r : β} {keys : List Bytes} (hy : y = some (r, keys))
    (hx : x = .ok (r, root)) (hok : CbOk root) (hkeys : cbKeys root = keys) : Refines x y := by
  refine ⟨fun z hz => ⟨root, ?_⟩, fun hno => (nomatch hy.symm.trans hno)⟩
  rw [hy] at hz
  rw [← Option.some.inj hz]
  exact ⟨hx, hok, hkeys⟩

theorem Refines.of_error {e : Fault} (hy : y = none) (hx : x = .error e) : Refines x y :=
  ⟨fun _ hz => (nomatch hy.symm.trans hz), fun _ => ⟨e, hx⟩⟩
end

theorem cbOk_none : CbOk none := fun _ ht => nomatch ht

theorem cbOk_some (h : CbTreeOk t) : CbOk (some t) := fun _ hu => Option.some.inj hu ▸ h

theorem cbInsert_empty (key : Bytes) : Refines (cbInsert key none) (keysInsert key []) := by
  by_cases hkey : key = []
  · subst hkey
    exact .of_error rfl rfl
  · have hlen : key.length ≠ 0 := fun h => hkey (List.length_eq_zero_iff.mp h)
    have hnew : keysInsert key [] = some (.success, [key]) := by simp [keysInsert, hkey]
    refine .of_ok (some (.leaf key)) hnew ?_ (cbOk_some ⟨keysOk_leaf key, ?_⟩) rfl
    · simp [cbInsert, makeExternalNode, hlen]
    · intro k hk
      rwa [List.mem_singleton.mp hk]

/-- The two keys differ in a byte. -/
theorem cbInsert_differ (h : CbTreeOk t) {w a b : Bytes} {x y : UInt8} (hkey : key = w ++ x :: a)
    (hstr : t.nearest (cbBranch key) = w ++ y :: b) (hxy : x ≠ y)
    (hrun : cbCommon key.length (t.nearest (cbBranch key)).length 0 key (t.nearest (cbBranch key)) =
      .ok (w.length, x :: a, y :: b)) : Refines (cbInsert key (some t)) (keysInsert key t.leaves) := by
  have hw : w.length < key.length := by simp [hkey]
  have hlen : key.length ≠ 0 := Nat.ne_zero_of_lt hw
  have hfilled : key ≠ [] := fun h => hlen (List.length_eq_zero_iff.mpr h)
  have hfree : ∀ k ∈ t.leaves, ¬k <+: key ∧ ¬key <+: k := fun k hk =>
    h.keys.free cbBranch_follows hkey hstr hxy hk
  have hnew : keysInsert key t.leaves = some (.success, t.leaves.orderedInsert (· ≤ ·) key) := by
    have hnot : ¬∃ k ∈ t.leaves, k <+: key ∨ key <+: k := fun ⟨k, hk, hrel⟩ => hrel.elim (hfree k hk).1 (hfree k hk).2
    rw [keysInsert, if_neg fun hmem => (hfree key (List.contains_iff_mem.mp hmem)).1 (List.prefix_refl key),
      if_neg (not_or.mpr ⟨hfilled, hnot⟩)]
  obtain ⟨node, hbyte, hmask⟩ : ∃ node : CritbitNode, node.byte = w.length ∧ node.mask = otherBits (x ^^^ y) :=
    ⟨⟨_, _⟩, rfl, rfl⟩
  have hone : OneBit node.mask := hmask ▸ (otherBits_spec hxy).1
  obtain ⟨below, hplace, hbelow⟩ := cbInsert_place h hone (hbyte ▸ hw)
    (.branch node (branchBit node.mask x) (.leaf key))
  obtain ⟨hok, hleaves⟩ := h.keys.insert cbBranch_follows hbyte hmask hkey hstr hxy hbelow
  have hperm := Tree.leaves_insert (cbBranch key) below node (branchBit node.mask x) key t
  refine .of_ok _ hnew ?_ (cbOk_some ⟨hok, fun k hk => ?_⟩) hleaves
  swap
  · rcases List.mem_cons.mp (hperm.mem_iff.mp hk) with rfl | hk
    · exact hfilled
    · exact h.filled k hk
  have hnode : CritbitNode.mk w.length node.mask = node := by rw [← hbyte]
  have hend : ¬w.length = key.length := Nat.ne_of_lt hw
  simp only [cbInsert, hrun, ok_bind, makeExternalNode, if_neg hlen, ← hmask, hnode]
  simp only [hend, decide_false, Bool.false_and, Bool.false_eq_true, if_false]
  split at hplace
  · next hany => rw [if_pos hany, hplace, ok_bind]
  · next hany => rw [if_neg hany, Except.ok.inj hplace]

theorem cbInsert_refines (h : CbOk root) (hlt : key.length < 2 ^ 32) :
    Refines (cbInsert key root) (keysInsert key (cbKeys root)) := by
  cases root with
  | none => exact cbInsert_empty key
  | some t =>
    have ht := h t rfl
    have hmem := t.nearest_mem (cbBranch key)
    obtain ⟨w, a, b, hkey, hstr, hrun, hne⟩ := cbCommon_spec 0 key (t.nearest (cbBranch key))
      (Nat.zero_add _) (Nat.zero_add _) hlt
    rw [Nat.zero_add] at hrun
    -- where one of the two keys begins the other, it is read behind its end
    have hfault (hrel : t.nearest (cbBranch key) <+: key ∨ key <+: t.nearest (cbBranch key))
        (hdiff : t.nearest (cbBranch key) ≠ key) (hend : a = [] ∨ b = []) :
        Refines (cbInsert key (some t)) (keysInsert key t.leaves) := by
      have hnone : keysInsert key t.leaves = none := by
        rw [keysInsert, if_neg fun hk => hdiff (ht.nearest_key (List.contains_iff_mem.mp hk)),
          if_pos (.inr ⟨_, hmem, hrel⟩)]
      have hlen : ¬(w.length = key.length ∧ w.length = (t.nearest (cbBranch key)).length) := by
        rintro ⟨hl, hl'⟩
        have ha : a = [] := by simpa [hkey] using hl
        have hb : b = [] := by simpa [hstr] using hl'
        exact hdiff (by rw [hstr, hkey, ha, hb])
      refine .of_error (e := .bounds) hnone ?_
      simp only [cbInsert, hrun, ok_bind, Bool.and_eq_true, decide_eq_true_eq, if_neg hlen]
      rcases hend with rfl | rfl
      · rfl
      · cases a <;> rfl
    cases a with
    | nil =>
      rw [List.append_nil] at hkey
      cases b with
      | nil =>
        rw [List.append_nil] at hstr
        have hin : key ∈ t.leaves := by
          rw [hkey, ← hstr]
          exact hmem
        have hdup : keysInsert key t.leaves = some (.duplicate, t.leaves) := by
          rw [keysInsert, if_pos (List.contains_iff_mem.mpr hin)]
        refine .of_ok _ hdup ?_ h rfl
        have hlen : w.length = key.length := by rw [hkey]
        have hlen' : w.length = (t.nearest (cbBranch key)).length := by rw [hstr]
        simp only [cbInsert, hrun, ok_bind]
        rw [decide_eq_true hlen, decide_eq_true hlen']
        rfl
      | cons y b =>
        refine hfault (.inr ⟨y :: b, by rw [hstr, ← hkey]⟩) (fun heq => ?_) (.inl rfl)
        rw [heq, hkey] at hstr
        simp at hstr
    | cons x a =>
      cases b with
      | nil =>
        rw [List.append_nil] at hstr
        refine hfault (.inl ⟨x :: a, by rw [hstr, ← hkey]⟩) (fun heq => ?_) (.inr rfl)
        rw [← heq, hstr] at hkey
        simp at hkey
      | cons y b => exact cbInsert_differ ht hkey hstr (hne x rfl y rfl) hrun

/-! ## Keys with a prefix -/

theorem cbFindTopI_keys (h : KeysOk CritbitNode.byte CritbitNode.mask (fun str => str) t) {top : CritbitTree}
    (htop : top.leaves.filter (key.isPrefixOf ·) = t.leaves.filter (key.isPrefixOf ·)) :
    (cbFindTopI key top t).leaves.filter (key.isPrefixOf ·) = t.leaves.filter (key.isPrefixOf ·) := by
  induction t generalizing top with
  | leaf str => rfl
  | node node zero one ihz iho =>
    rw [cbFindTopI]
    split
    · exact htop
    · next hlt =>
      have hside := h.filter_side cbBranch_follows (q := key) (Nat.lt_of_not_le hlt)
      rw [cbBranch, if_neg hlt] at hside
      split
      · next hd =>
        rw [if_pos hd] at hside
        exact (iho h.one hside).trans hside.symm
      · next hd =>
        rw [if_neg hd] at hside
        exact (ihz h.zero hside).trans hside.symm

/-- What becomes of the results and the offset at a key that matches. -/
def pageStep (numresults : Int) (st : List Bytes × Int) (str : Bytes) : List Bytes × Int :=
  if st.1.length = numresults then st
  else if st.2 > 0 then (st.1, st.2 - 1) else (st.1 ++ [str], st.2)

variable {numresults : Int} {st : List Bytes × Int}

theorem pageStep_le (hle : st.1.length ≤ numresults) (str : Bytes) :
    (pageStep numresults st str).1.length ≤ numresults := by
  rw [pageStep]
  split
  · exact hle
  · split
    · exact hle
    · rw [List.length_append, List.length_singleton]
      omega

theorem pageFold_le (hle : st.1.length ≤ numresults) (strs : List Bytes) :
    (strs.foldl (pageStep numresults) st).1.length ≤ numresults := by
  induction strs generalizing st with
  | nil => exact hle
  | cons str strs ih => exact ih (pageStep_le hle str)

theorem pageFold_full (st : List Bytes × Int) (hfull : st.1.length = numresults) (strs : List Bytes) :
    strs.foldl (pageStep numresults) st = st := by
  induction strs with
  | nil => rfl
  | cons str strs ih => rw [List.foldl_cons, pageStep, if_pos hfull, ih]

theorem cbFindPrefixI_eq (hle : st.1.length ≤ numresults) : cbFindPrefixI key numresults t st =
    .ok ((t.leaves.filter (key.isPrefixOf ·)).foldl (pageStep numresults) st) := by
  obtain ⟨results, offset⟩ := st
  induction t generalizing results offset with
  | leaf str =>
    rw [cbFindPrefixI, if_neg (Int.not_lt.mpr hle), Tree.leaves, List.filter_singleton, cbMatches_eq]
    cases key.isPrefixOf str with
    | false => simp
    | true =>
      rw [cond_true, List.foldl_cons, List.foldl_nil, pageStep, if_pos rfl, apply_ite Except.ok, apply_ite Except.ok]
  | node node zero one ihz iho =>
    rw [cbFindPrefixI, if_neg (Int.not_lt.mpr hle), Tree.leaves, List.filter_append, List.foldl_append]
    split
    · next hfull =>
      have hzero := pageFold_full (results, offset) hfull (zero.leaves.filter (key.isPrefixOf ·))
      rw [hzero, pageFold_full _ hfull]
    · rw [ihz results offset hle, ok_bind]
      have hle' := pageFold_le hle (zero.leaves.filter (key.isPrefixOf ·))
      generalize (zero.leaves.filter (key.isPrefixOf ·)).foldl (pageStep numresults) (results, offset) = st at hle' ⊢
      obtain ⟨results', offset'⟩ := st
      dsimp only at hle' ⊢
      split
      · exact iho results' offset' hle'
      · next hfull =>
        have hfull : ((results', offset').1.length : Int) = numresults := Int.le_antisymm hle' (Int.not_lt.mp hfull)
        rw [pageFold_full _ hfull]

/-- A page: the matches behind the offset, as many as there is room for. -/
theorem pageFold_eq (results strs : List Bytes) (hle : results.length ≤ numresults) (offset : Int) :
    (strs.foldl (pageStep numresults) (results, offset)).1 =
      results ++ (strs.drop offset.toNat).take (numresults.toNat - results.length) := by
  induction strs generalizing results offset with
  | nil => simp
  | cons str strs ih =>
    rw [List.foldl_cons, pageStep]
    dsimp only
    split
    · next hfull =>
      have hroom : numresults.toNat - results.length = 0 := by omega
      rw [pageFold_full _ hfull, hroom, List.take_zero, List.append_nil]
    · next hroom =>
      split
      · next hoff =>
        have hsucc : offset.toNat = (offset - 1).toNat + 1 := by omega
        rw [ih results hle, hsucc, List.drop_succ_cons]
      · next hoff =>
        have hzero : offset.toNat = 0 := by omega
        have hsucc : numresults.toNat - results.length = numresults.toNat - (results ++ [str]).length + 1 := by
          rw [List.length_append, List.length_singleton]
          omega
        rw [ih _ (by rw [List.length_append, List.length_singleton]; omega), hzero, hsucc, List.drop_zero,
          List.drop_zero, List.take_succ_cons, List.append_assoc, List.singleton_append]

theorem cbFindPrefix_eq (h : CbOk root) (key : Bytes) (numresults offset : Int) :
    cbFindPrefix key numresults offset root =
      .ok ((((cbKeys root).filter (key.isPrefixOf ·)).drop offset.toNat).take numresults.toNat) := by
  cases root with
  | none => simp [cbFindPrefix, cbKeys]
  | some t =>
    rw [cbFindPrefix, cbKeys]
    split
    · next hpos =>
      have hle : ((([] : List Bytes), offset).1.length : Int) ≤ numresults := Int.le_of_lt hpos
      rw [cbFindPrefixI_eq hle, ok_bind, cbFindTopI_keys (h t rfl).keys rfl]
      exact congrArg Except.ok (pageFold_eq [] _ hle offset)
    · next hpos =>
      have hzero : numresults.toNat = 0 := by omega
      rw [hzero, List.take_zero]

/-! ## Runs -/

/-- The lengths of the keys that are put in fit the 32 bits that a node has for a byte. -/
def CbFits (ops : List CbOp) : Prop := ∀ key, CbOp.insert key ∈ ops → key.length < 2 ^ 32

theorem cbStep_refines (h : CbOk root) (op : CbOp) (hfits : ∀ key, op = .insert key → key.length < 2 ^ 32) :
    Refines (cbStep op root) (keysStep op (cbKeys root)) := by
  cases op with
  | insert key =>
    obtain ⟨hok, herr⟩ := cbInsert_refines h (hfits key rfl)
    rw [cbStep, keysStep]
    cases hins : keysInsert key (cbKeys root) with
    | none =>
      obtain ⟨e, he⟩ := herr hins
      exact .of_error rfl (by rw [he, error_bind])
    | some z =>
      obtain ⟨root', hrun, hroot', hkeys⟩ := hok z hins
      exact .of_ok _ rfl (by rw [hrun, ok_bind]) hroot' hkeys
  | erase key =>
    cases root with
    | none => exact .of_ok _ rfl rfl h rfl
    | some t =>
      rw [cbStep, keysStep, cbKeys]
      by_cases hkey : key ∈ t.leaves
      · obtain ⟨hok, hkeys⟩ := (h t rfl).erase_keys hkey
        rw [if_pos (List.contains_iff_mem.mpr hkey), cbErase_found (h t rfl) hkey]
        exact .of_ok _ rfl rfl hok hkeys
      · rw [if_neg (mt List.contains_iff_mem.mp hkey), cbErase_missing hkey]
        exact .of_ok _ rfl rfl h rfl
  | find key => exact .of_ok _ rfl (by rw [cbStep, cbFind_spec h]) h rfl
  | findPrefix key numresults offset =>
    refine .of_ok _ rfl ?_ h rfl
    rw [cbStep, cbFindPrefix_eq h, ok_bind]
  | clear => exact .of_ok _ rfl rfl cbOk_none rfl

/-- A run of the trees gives back what a run on the list of the keys does, and it is at fault when that has nothing
to give back. -/
theorem cbRun_refines (ops : List CbOp) (hfits : CbFits ops) (h : CbOk root) :
    Refines (cbRun ops root) (keysRun ops (cbKeys root)) := by
  induction ops generalizing root with
  | nil => exact .of_ok _ rfl rfl h rfl
  | cons op ops ih =>
    have hstep := cbStep_refines h op fun key hop => hfits key (hop ▸ List.mem_cons_self)
    have hrest : CbFits ops := fun key hkey => hfits key (List.mem_cons_of_mem op hkey)
    rw [cbRun, keysRun]
    cases hkeys : keysStep op (cbKeys root) with
    | none =>
      obtain ⟨e, he⟩ := hstep.error hkeys
      exact .of_error rfl (by rw [he, error_bind])
    | some z =>
      obtain ⟨root', hrun, hroot', hz⟩ := hstep.ok z hkeys
      have hnext := ih hrest hroot'
      rw [hrun, ok_bind, Option.bind_some, ← hz]
      cases hrun' : keysRun ops (cbKeys root') with
      | none =>
        obtain ⟨e, he⟩ := hnext.error hrun'
        exact .of_error (e := e) rfl (by simp only [he, error_bind])
      | some w =>
        obtain ⟨root'', hw, hroot'', hkeys''⟩ := hnext.ok w hrun'
        exact .of_ok _ rfl (by simp only [hw, ok_bind]) hroot'' hkeys''

/-! ## Strings

`cb_insert_str` and its like take the final zero of a string for its last byte, so that no string begins another. -/

theorem keysStep_strings {op : CbOp} {keys : List Bytes} (hkeys : ∀ k ∈ keys, IsString k)
    (hop : ∀ key, op = .insert key → IsString key) :
    ∃ r keys', keysStep op keys = some (r, keys') ∧ ∀ k ∈ keys', IsString k := by
  cases op with
  | insert key =>
    have hkey := hop key rfl
    rw [keysStep, keysInsert]
    by_cases hmem : key ∈ keys
    · rw [if_pos (List.contains_iff_mem.mpr hmem)]
      exact ⟨_, _, rfl, hkeys⟩
    · have hnot : ¬(key = [] ∨ ∃ k ∈ keys, k <+: key ∨ key <+: k) := by
        rintro (rfl | ⟨k, hk, hpre | hpre⟩)
        · obtain ⟨s, hs, -⟩ := hkey
          simp at hs
        · exact hmem ((hkeys k hk).eq_of_begin hkey hpre ▸ hk)
        · exact hmem (hkey.eq_of_begin (hkeys k hk) hpre ▸ hk)
      rw [if_neg (mt List.contains_iff_mem.mp hmem), if_neg hnot]
      refine ⟨_, _, rfl, fun k hk => ?_⟩
      rcases (List.mem_orderedInsert _).mp hk with rfl | hk
      · exact hkey
      · exact hkeys k hk
  | erase key =>
    rw [keysStep]
    split
    · exact ⟨_, _, rfl, fun k hk => hkeys k (List.mem_of_mem_erase hk)⟩
    · exact ⟨_, _, rfl, hkeys⟩
  | find key => exact ⟨_, _, rfl, hkeys⟩
  | findPrefix key numresults offset => exact ⟨_, _, rfl, hkeys⟩
  | clear => exact ⟨_, _, rfl, fun k hk => (List.not_mem_nil hk).elim⟩

theorem keysRun_strings {ops : List CbOp} (hops : ∀ key, CbOp.insert key ∈ ops → IsString key) {keys : List Bytes}
    (hkeys : ∀ k ∈ keys, IsString k) : (keysRun ops keys).isSome := by
  induction ops generalizing keys with
  | nil => rfl
  | cons op ops ih =>
    obtain ⟨r, keys', hstep, hkeys'⟩ := keysStep_strings hkeys fun key hop => hops key (hop ▸ List.mem_cons_self)
    rw [keysRun, hstep, Option.bind_some, Option.isSome_map]
    exact ih (fun key hkey => hops key (List.mem_cons_of_mem op hkey)) hkeys'

/-- Every run of the operations on a tree is one on the ascending list of its keys. Only a key that begins another,
or that another begins, is not to be put in, and none of the strings does. -/
theorem cbRun_sorted (ops : List CbOp) (hfits : CbFits ops) :
    (∀ rs keys, keysRun ops [] = some (rs, keys) → ∃ root, cbRun ops none = .ok (rs, root) ∧ cbKeys root = keys ∧
      keys.Pairwise (· < ·)) ∧
    (keysRun ops [] = none → ∃ e, cbRun ops none = .error e) ∧
    ((∀ key, CbOp.insert key ∈ ops → IsString key) → (keysRun ops []).isSome) := by
  have hrun := cbRun_refines ops hfits cbOk_none
  refine ⟨fun rs keys hkeys => ?_, hrun.error, fun hops => keysRun_strings hops fun k hk => (List.not_mem_nil hk).elim⟩
  obtain ⟨root, hroot, hok, rfl⟩ := hrun.ok (rs, keys) hkeys
  refine ⟨root, hroot, rfl, ?_⟩
  cases root with
  | none => exact List.Pairwise.nil
  | some t => exact (hok t rfl).keys.ascending

theorem cbRun_sorted_three : ∃ root, cbRun [.insert [98, 0], .insert [97, 99, 0], .insert [97, 98, 0],
      .findPrefix [97] 5 1, .erase [98, 0], .find [98]] none =
    .ok ([.status .success, .status .success, .status .success, .results [[97, 99, 0]], .status .success,
      .found none], root) := by
  have hfits : CbFits [.insert [98, 0], .insert [97, 99, 0], .insert [97, 98, 0], .findPrefix [97] 5 1,
      .erase [98, 0], .find [98]] := by
    intro key hkey
    have hkey : key = [98, 0] ∨ key = [97, 99, 0] ∨ key = [97, 98, 0] := by simpa using hkey
    rcases hkey with rfl | rfl | rfl <;> decide
  obtain ⟨root, hrun, -⟩ := (cbRun_sorted _ hfits).1 _ _ rfl
  exact ⟨root, hrun⟩

/-! ## Iteration -/

/-- Calls one after the other, up to the first one that gives something else than zero. -/
def eachUntil (f : Bytes → σ → Int × σ) : List Bytes → σ → Int × σ
  | [], data => (0, data)
  | x :: xs, data => if (f x data).1 = 0 then eachUntil f xs (f x data).2 else f x data

theorem eachUntil_append (f : Bytes → σ → Int × σ) (xs ys : List Bytes) (data : σ) :
    eachUntil f (xs ++ ys) data =
      if (eachUntil f xs data).1 = 0 then eachUntil f ys (eachUntil f xs data).2 else eachUntil f xs data := by
  induction xs generalizing data with
  | nil => rfl
  | cons x xs ih =>
    rw [List.cons_append, eachUntil, eachUntil]
    split
    · exact ih _
    · rfl

theorem cbForeachI_eq (matchCb : Bytes → σ → Int × σ) (key : Bytes) (t : CritbitTree) (data : σ) :
    cbForeachI matchCb key t data = eachUntil matchCb (t.leaves.filter (key.isPrefixOf ·)) data := by
  induction t generalizing data with
  | leaf str =>
    rw [cbForeachI, Tree.leaves, List.filter_singleton, cbMatches_eq]
    cases key.isPrefixOf str with
    | false => rfl
    | true =>
      rw [cond_true, if_pos rfl, eachUntil, eachUntil]
      split
      · next hzero => rw [← hzero]
      · rfl
  | node node zero one ihz iho =>
    rw [cbForeachI, Tree.leaves, List.filter_append, eachUntil_append, ← ihz, ← iho]

/-- After any run, the callback sees the keys with the prefix in ascending order, until it gives something else than
zero. -/
theorem cbForeach_ascending (matchCb : Bytes → σ → Int × σ) {ops : List CbOp} (hfits : CbFits ops) {rs : List CbResult}
    (hrun : cbRun ops none = .ok (rs, root)) (key : Bytes) (data : σ) :
    ∃ keys, keysRun ops [] = some (rs, keys) ∧ keys.Pairwise (· < ·) ∧
      cbForeach matchCb key root data = eachUntil matchCb (keys.filter (key.isPrefixOf ·)) data := by
  have hrefines := cbRun_refines ops hfits cbOk_none
  cases hkeys : keysRun ops [] with
  | none =>
    obtain ⟨e, he⟩ := hrefines.error hkeys
    cases hrun.symm.trans he
  | some z =>
    obtain ⟨root', hrun', hok, hz⟩ := hrefines.ok z hkeys
    cases hrun.symm.trans hrun'
    refine ⟨z.2, rfl, ?_, ?_⟩
    · rw [← hz]
      cases root with
      | none => exact List.Pairwise.nil
      | some t => exact (hok t rfl).keys.ascending
    · rw [← hz]
      cases root with
      | none => rfl
      | some t => rw [cbForeach, cbForeachI_eq, cbFindTopI_keys (hok t rfl).keys rfl, cbKeys]

theorem cbForeach_ascending_two : ∃ rs root keys, cbRun [.insert [98, 0], .insert [97, 0]] none = .ok (rs, root) ∧
    keysRun [.insert [98, 0], .insert [97, 0]] [] = some (rs, keys) ∧
    cbForeach (fun str data => (0, data ++ str)) [] root [] =
      eachUntil (fun str data => (0, data ++ str)) (keys.filter ([].isPrefixOf ·)) [] := by
  have hfits : CbFits [.insert [98, 0], .insert [97, 0]] := by
    intro key hkey
    have hkey : key = [98, 0] ∨ key = [97, 0] := by simpa using hkey
    rcases hkey with rfl | rfl <;> decide
  have hrun : ∃ rs root, cbRun [.insert [98, 0], .insert [97, 0]] none = .ok (rs, root) := ⟨_, _, rfl⟩
  obtain ⟨rs, root, hrun⟩ := hrun
  obtain ⟨keys, hkeys, -, heach⟩ := cbForeach_ascending (fun str data => (0, data ++ str)) hfits hrun [] []
  exact ⟨rs, root, keys, hrun, hkeys, heach⟩

end Dirlist
