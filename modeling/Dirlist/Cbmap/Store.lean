import Dirlist.Cb.Keys
import Dirlist.Cbmap.Defs
import Dirlist.Lib.Dict

/-! A crit-bit map is the list of its entries in ascending order of their keys. The key of an insertion is compared
over its own length alone, so one that another key goes on behind changes the value of that one. -/

namespace Dirlist
open Run Critbit

def cbmapEntries (map : Cbmap) : Dict Bytes Bytes :=
  match map.root with
  | none => []
  | some root => root.leaves.map fun data => (data.key, data.value)

/-! ## What the operations mean for a list of entries -/

def entriesInsert (key value : Bytes) (es : Dict Bytes Bytes) : Option (Int × Dict Bytes Bytes) :=
  match (es.filter fun e => key.isPrefixOf e.1).head? with
  | some e => some (2, es.set e.1 value)
  | none =>
    if ∃ e ∈ es, e.1 <+: key then none else some (1, es.orderedInsert (fun e e' => e.1 ≤ e'.1) (key, value))

def entriesStep (op : CbmapOp) (es : Dict Bytes Bytes) : Option (CbmapResult × Dict Bytes Bytes) :=
  match op with
  | .insert key value => (entriesInsert key value es).map fun x => (.code x.1, x.2)
  | .get key => some (.value (es.get? key), es)
  | .delete key => some (.code (if (es.get? key).isSome then 1 else 0), es.erase key)
  | .count => some (.number es.length, es)

def entriesRun : List CbmapOp → Dict Bytes Bytes → Option (List CbmapResult × Dict Bytes Bytes)
  | [], es => some ([], es)
  | op :: ops, es => (entriesStep op es).bind fun x => (entriesRun ops x.2).map fun y => (x.1 :: y.1, y.2)

/-! ## Maps that are kept -/

abbrev DataOk (t : CbmapTree) : Prop :=
  KeysOk CbmapInternalNode.byte CbmapInternalNode.otherbits CbmapDataNode.key t

structure MapOk (map : Cbmap) : Prop where
  tree : ∀ t ∈ map.root, DataOk t
  count : map.count = (cbmapEntries map).length

variable {t : CbmapTree} {map : Cbmap} {key value : Bytes} {data : CbmapDataNode}

theorem cbmapDirection_follows : Follows CbmapInternalNode.byte CbmapInternalNode.otherbits cbmapDirection := by
  intro key q h
  rw [← h.branch, cbmapDirection]
  split
  · rfl
  · next hle => rw [List.getD_eq_default _ _ (Nat.le_of_not_lt hle)]

def entryOf (data : CbmapDataNode) : Bytes × Bytes := (data.key, data.value)

theorem entries_get (h : DataOk t) (hmem : data ∈ t.leaves) :
    Dict.get? (t.leaves.map entryOf) data.key = some data.value := by
  obtain ⟨-, -, hapart⟩ := h
  have hall : ∀ ds : List CbmapDataNode, ds ⊆ t.leaves → data ∈ ds →
      Dict.get? (ds.map entryOf) data.key = some data.value := by
    intro ds hds hd
    induction ds with
    | nil => exact (List.not_mem_nil hd).elim
    | cons e ds ih =>
      rw [List.map_cons, Dict.get?_cons]
      split
      · next heq =>
        have heq' : e = data := hapart e (hds List.mem_cons_self) data hmem (heq ▸ List.prefix_refl _)
        rw [heq', entryOf]
      · next hne =>
        rcases List.mem_cons.mp hd with rfl | hd
        · exact (hne rfl).elim
        · exact ih (fun x hx => hds (List.mem_cons_of_mem e hx)) hd
  exact hall t.leaves (List.Subset.refl _) hmem

theorem entries_get_none (hnot : ∀ data ∈ t.leaves, data.key ≠ key) : Dict.get? (t.leaves.map entryOf) key = none := by
  rw [Dict.get?_eq_none, List.map_map]
  intro hmem
  obtain ⟨data, hdata, heq⟩ := List.mem_map.mp hmem
  exact hnot data hdata heq

/-- The data node that is found has the key, or there is none with it. -/
theorem DataOk.found (h : DataOk t) (key : Bytes) :
    (t.nearest (cbmapDirection key)).key = key ∨ ∀ data ∈ t.leaves, data.key ≠ key := by
  by_cases hany : ∃ data ∈ t.leaves, data.key = key
  · obtain ⟨data, hdata, rfl⟩ := hany
    rw [h.nearest_key cbmapDirection_follows hdata]
    exact .inl rfl
  · exact .inr fun data hdata heq => hany ⟨data, hdata, heq⟩

theorem keyCompare_iff (a b : Bytes) : (a.length = b.length ∧ byteDiff a b = 0) ↔ a = b := by
  constructor
  · rintro ⟨hlen, hdiff⟩
    exact (byteDiff_eq_zero hlen).mp hdiff
  · rintro rfl
    exact ⟨rfl, (byteDiff_eq_zero rfl).mpr rfl⟩

theorem cbmapGet_spec (h : MapOk map) (key : Bytes) : cbmapGet map key = (cbmapEntries map).get? key := by
  obtain ⟨root, count⟩ := map
  cases root with
  | none => rfl
  | some t =>
    have ht := h.tree t rfl
    have hmem := t.nearest_mem (cbmapDirection key)
    simp only [cbmapGet, cbmapEntries, Bool.and_eq_true, decide_eq_true_eq, keyCompare_iff]
    split
    · next heq =>
      have hget := entries_get ht hmem
      rw [heq] at hget
      exact hget.symm
    · next hne =>
      have hno := (ht.found key).resolve_left hne
      exact (entries_get_none hno).symm

/-! ## Deletion -/

theorem erase_entries {xs ys : List CbmapDataNode} (h : DataOk t) (hsplit : t.leaves = xs ++ data :: ys) :
    Dict.erase (t.leaves.map entryOf) data.key = (xs ++ ys).map entryOf := by
  have hnd := h.nodup
  have hdata : data ∈ t.leaves := by
    rw [hsplit]
    exact List.mem_append_right _ List.mem_cons_self
  have hkeep (e : CbmapDataNode) (he : e ∈ xs ++ ys) : (entryOf e).1 ≠ data.key := by
    intro heq
    have hmem : e ∈ t.leaves := by
      rw [hsplit]
      exact ((List.sublist_cons_self data ys).append_left xs).subset he
    have heq' : e = data := h.apart e hmem data hdata (heq ▸ List.prefix_refl _)
    rw [hsplit] at hnd
    exact (List.nodup_cons.mp (List.perm_middle.nodup_iff.mp hnd)).1 (heq' ▸ he)
  rw [Dict.erase, hsplit, List.map_append, List.map_cons, List.filter_append,
    List.filter_cons_of_neg (by simp [entryOf]), ← List.filter_append, ← List.map_append, List.filter_eq_self]
  intro e he
  obtain ⟨d, hd, rfl⟩ := List.mem_map.mp he
  exact decide_eq_true (hkeep d hd)

theorem cbmapDelete_spec (h : MapOk map) (key : Bytes) :
    (cbmapDelete map key).1 = (if ((cbmapEntries map).get? key).isSome then 1 else 0) ∧
    cbmapEntries (cbmapDelete map key).2 = (cbmapEntries map).erase key ∧ MapOk (cbmapDelete map key).2 := by
  rw [← cbmapGet_spec h key]
  obtain ⟨root, count⟩ := map
  cases root with
  | none => exact ⟨rfl, rfl, h⟩
  | some t =>
    have ht := h.tree t rfl
    have hmem := t.nearest_mem (cbmapDirection key)
    by_cases heq : (t.nearest (cbmapDirection key)).key = key
    · have hcmp := (keyCompare_iff _ _).mpr heq
      have hdel : cbmapDelete ⟨some t, count⟩ key = (1, ⟨t.erase (cbmapDirection key), count - 1⟩) := by
        simp [cbmapDelete, hcmp.1, hcmp.2]
      have hget : (cbmapGet ⟨some t, count⟩ key).isSome = true := by simp [cbmapGet, hcmp.1, hcmp.2]
      rw [hdel, hget]
      obtain ⟨xs, ys, hsplit, hentries⟩ : ∃ xs ys, t.leaves = xs ++ t.nearest (cbmapDirection key) :: ys ∧
          cbmapEntries ⟨t.erase (cbmapDirection key), count - 1⟩ = (xs ++ ys).map entryOf := by
        cases he : t.erase (cbmapDirection key) with
        | none =>
          refine ⟨[], [], ?_, rfl⟩
          have hleaf := Tree.eq_leaf he
          generalize t.nearest (cbmapDirection key) = d at hleaf
          rw [hleaf]
          rfl
        | some t' =>
          obtain ⟨xs, ys, hxs, hys⟩ := Tree.leaves_erase he
          exact ⟨xs, ys, hxs, congrArg (List.map entryOf) hys⟩
      have herase := erase_entries ht hsplit
      rw [heq] at herase
      refine ⟨rfl, hentries.trans herase.symm, fun u hu => ht.erase hu, ?_⟩
      have hcount := h.count
      rw [hentries]
      simp only [cbmapEntries, hsplit, List.length_map, List.length_append, List.length_cons] at hcount ⊢
      omega
    · have hcmp := mt (keyCompare_iff _ _).mp heq
      have hdel : cbmapDelete ⟨some t, count⟩ key = (0, ⟨some t, count⟩) := by
        rw [not_and_or] at hcmp
        simp [cbmapDelete, hcmp]
      have hget : (cbmapGet ⟨some t, count⟩ key).isSome = false := by simp [cbmapGet, hcmp]
      rw [hdel, hget]
      refine ⟨rfl, (List.filter_eq_self.mpr fun e he => ?_).symm, h⟩
      obtain ⟨d, hd, rfl⟩ := List.mem_map.mp he
      exact decide_eq_true (((ht.found key).resolve_left heq) d hd)

/-! ## Insertion -/

theorem updateValue_eq (value : Bytes) (data : CbmapDataNode) :
    cbmapDataNodeUpdateValue value data = { data with value } := by
  simp only [cbmapDataNodeUpdateValue, Bool.and_eq_true, decide_eq_true_eq, keyCompare_iff]
  split
  · next heq => rw [← heq]
  · rfl

/-- The key is done, it goes on behind the other one, or they differ in a byte. -/
theorem cbmapNewbyte_spec (newbyte : Nat) (dataKey keyBytes : Bytes) (hlt : newbyte + keyBytes.length < 2 ^ 32) :
    ∃ w a b, keyBytes = w ++ a ∧ dataKey = w ++ b ∧
      ((a = [] ∧ cbmapNewbyte newbyte dataKey keyBytes = .ok none) ∨
      (a ≠ [] ∧ b = [] ∧ cbmapNewbyte newbyte dataKey keyBytes = .error .bounds) ∨
      ∃ k a' c b', a = k :: a' ∧ b = c :: b' ∧ k ≠ c ∧
        cbmapNewbyte newbyte dataKey keyBytes = .ok (some (newbyte + w.length, c, k))) := by
  have hend : newbyte ≠ 2 ^ 32 := by omega
  induction keyBytes generalizing newbyte dataKey with
  | nil =>
    refine ⟨[], [], dataKey, rfl, rfl, .inl ⟨rfl, ?_⟩⟩
    rw [cbmapNewbyte.eq_def, if_neg hend]
  | cons k keyBytes ih =>
    cases dataKey with
    | nil =>
      refine ⟨[], k :: keyBytes, [], rfl, rfl, .inr (.inl ⟨List.cons_ne_nil _ _, rfl, ?_⟩)⟩
      rw [cbmapNewbyte.eq_def, if_neg hend]
    | cons c dataKey =>
      have hstep : cbmapNewbyte newbyte (c :: dataKey) (k :: keyBytes) =
          if c ≠ k then .ok (some (newbyte, c, k)) else cbmapNewbyte (newbyte + 1) dataKey keyBytes := by
        rw [cbmapNewbyte.eq_def, if_neg hend]
      rw [hstep]
      by_cases hck : c = k
      · subst hck
        rw [List.length_cons] at hlt
        obtain ⟨w, a, b, ha, hb, hcases⟩ := ih (newbyte + 1) dataKey (by omega) (by omega)
        have hlen : newbyte + 1 + w.length = newbyte + (c :: w).length := by rw [List.length_cons]; omega
        rw [hlen] at hcases
        refine ⟨c :: w, a, b, congrArg (c :: ·) ha, congrArg (c :: ·) hb, ?_⟩
        rwa [if_neg (not_not.mpr rfl)]
      · exact ⟨[], k :: keyBytes, c :: dataKey, rfl, rfl, .inr (.inr ⟨k, keyBytes, c, dataKey, rfl, rfl, Ne.symm hck,
          by rw [if_pos hck]; rfl⟩)⟩

theorem entries_filter (ds : List CbmapDataNode) (key : Bytes) :
    ((ds.map entryOf).filter fun e => key.isPrefixOf e.1) =
      (ds.filter fun data => key.isPrefixOf data.key).map entryOf := by
  rw [List.filter_map]
  rfl

/-- The first entry with the prefix is that of the nearest data node. -/
theorem DataOk.head_entry (h : DataOk t) (key : Bytes) :
    ((t.leaves.map entryOf).filter fun e => key.isPrefixOf e.1).head? =
      if key <+: (t.nearest (cbmapDirection key)).key then some (entryOf (t.nearest (cbmapDirection key)))
      else none := by
  rw [entries_filter, List.head?_map, h.head_begins cbmapDirection_follows]
  split <;> rfl

/-- A changed data node keeps its place. -/
theorem entries_update (h : DataOk t) (dir : CbmapInternalNode → Bool) (value : Bytes) :
    (t.update dir (cbmapDataNodeUpdateValue value)).leaves.map entryOf =
      Dict.set (t.leaves.map entryOf) (t.nearest dir).key value := by
  obtain ⟨xs, ys, hxs, hys⟩ := t.leaves_update dir (cbmapDataNodeUpdateValue value)
  have hget := entries_get h (t.nearest_mem dir)
  have hkeep (e : CbmapDataNode) (he : e ∈ xs ++ ys) : (entryOf e).1 ≠ (t.nearest dir).key := by
    intro heq
    have hnd := h.nodup
    have hmem : e ∈ t.leaves := by
      rw [hxs]
      exact ((List.sublist_cons_self _ ys).append_left xs).subset he
    have heq' : e = t.nearest dir := h.apart e hmem _ (t.nearest_mem dir) (heq ▸ List.prefix_refl _)
    rw [hxs] at hnd
    exact (List.nodup_cons.mp (List.perm_middle.nodup_iff.mp hnd)).1 (heq' ▸ he)
  have hsame (zs : List CbmapDataNode) (hzs : zs ⊆ xs ++ ys) : (zs.map entryOf).map
      (fun e => if e.1 = (t.nearest dir).key then ((t.nearest dir).key, value) else e) = zs.map entryOf := by
    rw [List.map_map]
    exact List.map_congr_left fun e he => if_neg (hkeep e (hzs he))
  rw [Dict.set, hget, Option.isSome_some, if_pos rfl, hys, hxs, updateValue_eq, List.map_append, List.map_append,
    List.map_append, List.map_cons, List.map_cons, List.map_cons, hsame xs (List.subset_append_left _ _),
    hsame ys (List.subset_append_right _ _)]
  simp [entryOf]

theorem DataOk.update (h : DataOk t) (dir : CbmapInternalNode → Bool) (value : Bytes) :
    DataOk (t.update dir (cbmapDataNodeUpdateValue value)) := by
  have hkey (d : CbmapDataNode) : (cbmapDataNodeUpdateValue value d).key = d.key := by rw [updateValue_eq]
  obtain ⟨xs, ys, hxs, hys⟩ := t.leaves_update dir (cbmapDataNodeUpdateValue value)
  have hbits : Ok _ _ (t.update dir (cbmapDataNodeUpdateValue value)) := h.ok.update fun d => by rw [hkey]
  refine ⟨hbits, fun l hl => h.masks l (Tree.labels_update dir _ t ▸ hl), fun x hx y hy hpre => ?_⟩
  have hnear := t.nearest_mem dir
  have hin (z : CbmapDataNode) (hz : z ∈ xs ++ ys) : z ∈ t.leaves := by
    rw [hxs]
    exact ((List.sublist_cons_self _ ys).append_left xs).subset hz
  have hnot (z : CbmapDataNode) (hz : z ∈ xs ++ ys) : z ≠ t.nearest dir := by
    have hnd := h.nodup
    rw [hxs] at hnd
    exact fun heq => (List.nodup_cons.mp (List.perm_middle.nodup_iff.mp hnd)).1 (heq ▸ hz)
  have hcases (z : CbmapDataNode) (hz : z ∈ (t.update dir (cbmapDataNodeUpdateValue value)).leaves) :
      z = cbmapDataNodeUpdateValue value (t.nearest dir) ∨ z ∈ xs ++ ys := by
    rw [hys] at hz
    exact List.mem_cons.mp (List.perm_middle.mem_iff.mp hz)
  rcases hcases x hx with rfl | hx <;> rcases hcases y hy with rfl | hy
  · rfl
  · rw [hkey] at hpre
    exact (hnot y hy (h.apart _ hnear y (hin y hy) hpre).symm).elim
  · rw [hkey] at hpre
    exact (hnot x hx (h.apart x (hin x hx) _ hnear hpre)).elim
  · exact h.apart x (hin x hx) y (hin y hy) hpre

theorem cbmapBelow_iff {newnode q : CbmapInternalNode} (h : OneBit newnode.otherbits) (h' : OneBit q.otherbits) :
    cbmapBelow newnode q = true ↔ bitPos q.byte q.otherbits ≤ bitPos newnode.byte newnode.otherbits := by
  rw [← Nat.not_lt, h.pos_lt_iff h', cbmapBelow, Bool.not_eq_true', ← Bool.not_eq_true, not_iff_not, Bool.or_eq_true,
    Bool.and_eq_true, decide_eq_true_eq, decide_eq_true_eq, decide_eq_true_eq, eq_comm]

/-- What a step of the maps is in the list of the entries. -/
structure MapRefines {β : Type} (x : Exec (β × Cbmap)) (y : Option (β × Dict Bytes Bytes)) : Prop where
  ok : ∀ z ∈ y, ∃ map, x = .ok (z.1, map) ∧ MapOk map ∧ cbmapEntries map = z.2
  error : y = none → ∃ e, x = .error e

section
variable {β : Type} {x : Exec (β × Cbmap)} {y : Option (β × Dict Bytes Bytes)}

theorem MapRefines.of_ok (map : Cbmap) {r : β} {es : Dict Bytes Bytes} (hy : y = some (r, es)) (hx : x = .ok (r, map))
    (hok : MapOk map) (hes : cbmapEntries map = es) : MapRefines x y := by
  refine ⟨fun z hz => ⟨map, ?_⟩, fun hno => (nomatch hy.symm.trans hno)⟩
  rw [hy] at hz
  rw [← Option.some.inj hz]
  exact ⟨hx, hok, hes⟩

theorem MapRefines.of_error {e : Fault} (hy : y = none) (hx : x = .error e) : MapRefines x y :=
  ⟨fun _ hz => (nomatch hy.symm.trans hz), fun _ => ⟨e, hx⟩⟩
end

theorem cbmapInsert_refines (h : MapOk map) (hlt : key.length < 2 ^ 32) (value : Bytes) :
    MapRefines (cbmapInsert map key value) (entriesInsert key value (cbmapEntries map)) := by
  obtain ⟨root, count⟩ := map
  cases root with
  | none =>
    have hcount := h.count
    have hspec : entriesInsert key value [] = some (1, [(key, value)]) := by simp [entriesInsert]
    refine .of_ok ⟨some (.leaf ⟨key, value⟩), count + 1⟩ hspec rfl ⟨fun t ht => ?_, ?_⟩ rfl
    · rw [← Option.some.inj ht]
      exact keysOk_leaf _
    · exact congrArg (· + 1) hcount
  | some t =>
    have ht : DataOk t := h.tree t rfl
    have hmem := t.nearest_mem (cbmapDirection key)
    obtain ⟨w, a, b, hkey, hnear, hcases⟩ := cbmapNewbyte_spec 0
      (t.nearest (cbmapDirection key)).key key (by rwa [Nat.zero_add])
    have hhead := ht.head_entry key
    rcases hcases with ⟨rfl, hrun⟩ | ⟨ha, rfl, hrun⟩ | ⟨k, a', c, b', rfl, rfl, hkc, hrun⟩
    · -- the value of the nearest key is changed
      rw [List.append_nil] at hkey
      rw [if_pos ⟨b, by rw [hnear, ← hkey]⟩] at hhead
      have hspec : entriesInsert key value (t.leaves.map entryOf) =
          some (2, Dict.set (t.leaves.map entryOf) (t.nearest (cbmapDirection key)).key value) := by
        rw [entriesInsert, hhead]
        rfl
      have hentries := entries_update ht (cbmapDirection key) value
      refine .of_ok ⟨some (t.update (cbmapDirection key) (cbmapDataNodeUpdateValue value)), count⟩ hspec ?_
        ⟨fun u hu => ?_, ?_⟩ hentries
      · rw [cbmapInsert]
        simp only [hrun, ok_bind]
      · rw [← Option.some.inj hu]
        exact ht.update _ _
      · have hcount := h.count
        have hlen := congrArg List.length (Dict.map_fst_set (d := t.leaves.map entryOf)
          (k := (t.nearest (cbmapDirection key)).key) (v := value))
        rw [entries_get ht hmem, Option.isSome_some, if_pos rfl, List.length_map, List.length_map] at hlen
        refine hcount.trans (Eq.symm ?_)
        exact (congrArg List.length hentries).trans hlen
    · rw [List.append_nil] at hnear
      have hno : ¬key <+: (t.nearest (cbmapDirection key)).key := by
        intro hpre
        have hle := hpre.length_le
        rw [hnear, hkey, List.length_append] at hle
        exact ha (List.length_eq_zero_iff.mp (by omega))
      rw [if_neg hno] at hhead
      refine .of_error (e := .bounds) ?_ (by rw [cbmapInsert]; simp only [hrun, error_bind])
      have hany : ∃ e ∈ t.leaves.map entryOf, e.1 <+: key :=
        ⟨_, List.mem_map_of_mem hmem, ⟨a, by rw [entryOf, hnear, hkey]⟩⟩
      exact (by rw [entriesInsert, hhead]; exact if_pos hany :
        entriesInsert key value (t.leaves.map entryOf) = none)
    · rw [Nat.zero_add] at hrun
      have hfree {d : CbmapDataNode} (hd : d ∈ t.leaves) := ht.free cbmapDirection_follows hkey hnear hkc hd
      rw [if_neg (hfree hmem).2] at hhead
      have hnot : ¬∃ e ∈ t.leaves.map entryOf, e.1 <+: key := by
        rintro ⟨e, he, hpre⟩
        obtain ⟨d, hd, rfl⟩ := List.mem_map.mp he
        exact (hfree hd).1 hpre
      have hspec : entriesInsert key value (t.leaves.map entryOf) =
          some (1, (t.leaves.map entryOf).orderedInsert (fun e e' => e.1 ≤ e'.1) (key, value)) := by
        rw [entriesInsert, hhead]
        exact if_neg hnot
      obtain ⟨newnode, hbyte, hmask⟩ : ∃ q : CbmapInternalNode, q.byte = w.length ∧ q.otherbits = otherBits (k ^^^ c) :=
        ⟨⟨_, _⟩, rfl, rfl⟩
      have hone : OneBit newnode.otherbits := hmask ▸ (otherBits_spec hkc).1
      have hbelow : ∀ q ∈ t.path (cbmapDirection key),
          (bitPos q.byte q.otherbits < bitPos newnode.byte newnode.otherbits → cbmapBelow newnode q = true) ∧
          (cbmapBelow newnode q = true → bitPos q.byte q.otherbits ≤ bitPos newnode.byte newnode.otherbits) := by
        intro q hq
        rw [cbmapBelow_iff hone (ht.masks q (t.path_subset _ hq))]
        exact ⟨Nat.le_of_lt, id⟩
      have hkey' : (CbmapDataNode.mk key value).key = w ++ k :: a' := hkey
      obtain ⟨hok, hleaves⟩ := KeysOk.insert ht cbmapDirection_follows hbyte hmask hkey' hnear hkc hbelow
      have hentries : (t.insert (cbmapDirection key) (cbmapBelow newnode)
          (.branch newnode (branchBit newnode.otherbits k) (.leaf ⟨key, value⟩))).leaves.map entryOf =
          (t.leaves.map entryOf).orderedInsert (fun e e' => e.1 ≤ e'.1) (key, value) := by
        rw [hleaves]
        exact List.map_orderedInsert (r := fun d d' : CbmapDataNode => d.key ≤ d'.key)
          (s := fun e e' : Bytes × Bytes => e.1 ≤ e'.1) entryOf t.leaves ⟨key, value⟩ (fun d _ => Iff.rfl)
          fun d _ => Iff.rfl
      refine .of_ok ⟨some (t.insert (cbmapDirection key) (cbmapBelow newnode)
        (.branch newnode (branchBit newnode.otherbits k) (.leaf ⟨key, value⟩))), count + 1⟩ hspec ?_
        ⟨fun u hu => ?_, ?_⟩ hentries
      · have hnode : CbmapInternalNode.mk w.length newnode.otherbits = newnode := by rw [← hbyte]
        have hside : branchBit newnode.otherbits c = !branchBit newnode.otherbits k := by
          rw [hmask]
          exact branchBit_otherBits hkc
        rw [cbmapInsert]
        simp only [hrun, ok_bind, UInt8.xor_comm c k, ← hmask, hnode, hside, Bool.not_not]
      · rw [← Option.some.inj hu]
        exact hok
      · have hcount : count = (t.leaves.map entryOf).length := h.count
        refine Eq.trans ?_ (congrArg List.length hentries).symm
        rw [List.orderedInsert_length, ← hcount]

/-! ## Runs -/

/-- The lengths of the keys that are put in fit the 32 bits of `newbyte`. -/
def MapFits (ops : List CbmapOp) : Prop := ∀ key value, CbmapOp.insert key value ∈ ops → key.length < 2 ^ 32

theorem cbmapStep_refines (h : MapOk map) (op : CbmapOp)
    (hfits : ∀ key value, op = .insert key value → key.length < 2 ^ 32) :
    MapRefines (cbmapStep op map) (entriesStep op (cbmapEntries map)) := by
  cases op with
  | insert key value =>
    obtain ⟨hok, herr⟩ := cbmapInsert_refines h (hfits key value rfl) value
    rw [cbmapStep, entriesStep]
    cases hins : entriesInsert key value (cbmapEntries map) with
    | none =>
      obtain ⟨e, he⟩ := herr hins
      exact .of_error (e := e) rfl (by rw [he, error_bind])
    | some z =>
      obtain ⟨map', hrun, hmap', hes⟩ := hok z hins
      exact .of_ok _ rfl (by rw [hrun, ok_bind]) hmap' hes
  | get key => exact .of_ok _ rfl (by rw [cbmapStep, cbmapGet_spec h]) h rfl
  | delete key =>
    obtain ⟨hcode, hes, hok⟩ := cbmapDelete_spec h key
    exact .of_ok _ rfl (by rw [cbmapStep, hcode]) hok hes
  | count => exact .of_ok _ rfl (by rw [cbmapStep, h.count]) h rfl

theorem cbmapRun_refines (ops : List CbmapOp) (hfits : MapFits ops) (h : MapOk map) :
    MapRefines (cbmapRun ops map) (entriesRun ops (cbmapEntries map)) := by
  induction ops generalizing map with
  | nil => exact .of_ok _ rfl rfl h rfl
  | cons op ops ih =>
    have hstep := cbmapStep_refines h op fun key value hop => hfits key value (hop ▸ List.mem_cons_self)
    have hrest : MapFits ops := fun key value hkey => hfits key value (List.mem_cons_of_mem op hkey)
    rw [cbmapRun, entriesRun]
    cases hes : entriesStep op (cbmapEntries map) with
    | none =>
      obtain ⟨e, he⟩ := hstep.error hes
      exact .of_error (e := e) rfl (by rw [he, error_bind])
    | some z =>
      obtain ⟨map', hrun, hmap', hz⟩ := hstep.ok z hes
      have hnext := ih hrest hmap'
      rw [hrun, ok_bind, Option.bind_some, ← hz]
      cases hrun' : entriesRun ops (cbmapEntries map') with
      | none =>
        obtain ⟨e, he⟩ := hnext.error hrun'
        exact .of_error (e := e) rfl (by simp only [he, error_bind])
      | some w =>
        obtain ⟨map'', hw, hmap'', hes''⟩ := hnext.ok w hrun'
        exact .of_ok _ rfl (by simp only [hw, ok_bind]) hmap'' hes''

theorem mapOk_new : MapOk cbmapNew := ⟨fun _ ht => (nomatch ht), rfl⟩

theorem MapOk.ascending (h : MapOk map) : (cbmapEntries map).Pairwise fun e e' => e.1 < e'.1 := by
  obtain ⟨root, count⟩ := map
  cases root with
  | none => exact List.Pairwise.nil
  | some t => exact List.pairwise_map.mpr (h.tree t rfl).ascending

/-! ## Strings -/

/-- A finite map: a value replaces the one that is there. -/
def mapStep (op : CbmapOp) (es : Dict Bytes Bytes) : CbmapResult × Dict Bytes Bytes :=
  match op with
  | .insert key value =>
    if (es.get? key).isSome then (.code 2, es.set key value)
    else (.code 1, es.orderedInsert (fun e e' => e.1 ≤ e'.1) (key, value))
  | .get key => (.value (es.get? key), es)
  | .delete key => (.code (if (es.get? key).isSome then 1 else 0), es.erase key)
  | .count => (.number es.length, es)

def mapRun : List CbmapOp → Dict Bytes Bytes → List CbmapResult × Dict Bytes Bytes
  | [], es => ([], es)
  | op :: ops, es => ((mapStep op es).1 :: (mapRun ops (mapStep op es).2).1, (mapRun ops (mapStep op es).2).2)

variable {es : Dict Bytes Bytes}

theorem entriesInsert_strings (hes : ∀ e ∈ es, IsString e.1) (hkey : IsString key) (value : Bytes) :
    (entriesInsert key value es).map (fun x => (CbmapResult.code x.1, x.2)) =
      some (mapStep (.insert key value) es) := by
  rw [entriesInsert, mapStep]
  cases hhead : (es.filter fun e => key.isPrefixOf e.1).head? with
  | some e =>
    have hmem := List.mem_filter.mp (List.mem_of_head? hhead)
    have heq : key = e.1 := hkey.eq_of_begin (hes e hmem.1) (List.isPrefixOf_iff_prefix.mp hmem.2)
    have hget : (es.get? key).isSome := Dict.get?_isSome.mpr (heq ▸ List.mem_map_of_mem hmem.1)
    rw [if_pos hget, heq]
    rfl
  | none =>
    have hnil := List.filter_eq_nil_iff.mp (List.head?_eq_none_iff.mp hhead)
    have hnot : ¬∃ e ∈ es, e.1 <+: key := by
      rintro ⟨e, he, hpre⟩
      have heq := (hes e he).eq_of_begin hkey hpre
      exact hnil e he (List.isPrefixOf_iff_prefix.mpr (heq ▸ List.prefix_refl _))
    have hget : ¬(es.get? key).isSome := by
      rw [Dict.get?_isSome, List.mem_map]
      rintro ⟨e, he, rfl⟩
      exact hnot ⟨e, he, List.prefix_refl _⟩
    rw [if_neg hget]
    exact congrArg (Option.map _) (if_neg hnot)

theorem mapStep_strings (op : CbmapOp) (hes : ∀ e ∈ es, IsString e.1)
    (hop : ∀ key value, op = .insert key value → IsString key) : ∀ e ∈ (mapStep op es).2, IsString e.1 := by
  cases op with
  | insert key value =>
    have hkey := hop key value rfl
    rw [mapStep]
    split
    · next hget =>
      intro e he
      have hmem : e.1 ∈ (es.set key value).map Prod.fst := List.mem_map_of_mem he
      rw [Dict.map_fst_set, if_pos hget] at hmem
      obtain ⟨e', he', heq⟩ := List.mem_map.mp hmem
      exact heq ▸ hes e' he'
    · intro e he
      rcases (List.mem_orderedInsert _).mp he with rfl | he
      · exact hkey
      · exact hes e he
  | get key => exact hes
  | delete key => exact fun e he => hes e (List.mem_filter.mp he).1
  | count => exact hes

theorem entriesRun_strings {ops : List CbmapOp} (hops : ∀ key value, CbmapOp.insert key value ∈ ops → IsString key)
    (hes : ∀ e ∈ es, IsString e.1) : entriesRun ops es = some (mapRun ops es) := by
  induction ops generalizing es with
  | nil => rfl
  | cons op ops ih =>
    have hstep : entriesStep op es = some (mapStep op es) := by
      cases op with
      | insert key value => exact entriesInsert_strings hes (hops key value List.mem_cons_self) value
      | get key => rfl
      | delete key => rfl
      | count => rfl
    have hnext := mapStep_strings op hes fun key value hop => hops key value (hop ▸ List.mem_cons_self)
    rw [entriesRun, hstep, Option.bind_some, ih (fun key value h => hops key value (List.mem_cons_of_mem op h)) hnext]
    rfl

/-- Every run of the operations is one on the ascending list of the entries. With strings for keys that is a finite
map; a key that another one goes on behind changes the value of that one, and a key that goes on behind another one is
compared with what lies behind the end of that one. -/
theorem cbmapRun_entries (ops : List CbmapOp) (hfits : MapFits ops) :
    (∀ rs es, entriesRun ops [] = some (rs, es) → ∃ map, cbmapRun ops cbmapNew = .ok (rs, map) ∧
      cbmapEntries map = es ∧ es.Pairwise fun e e' => e.1 < e'.1) ∧
    (entriesRun ops [] = none → ∃ e, cbmapRun ops cbmapNew = .error e) ∧
    ((∀ key value, CbmapOp.insert key value ∈ ops → IsString key) → entriesRun ops [] = some (mapRun ops [])) := by
  have hrun := cbmapRun_refines ops hfits mapOk_new
  refine ⟨fun rs es hes => ?_, hrun.error, fun hops => entriesRun_strings hops fun e he => (List.not_mem_nil he).elim⟩
  obtain ⟨map, hmap, hok, rfl⟩ := hrun.ok (rs, es) hes
  exact ⟨map, hmap, rfl, hok.ascending⟩

theorem mapFits_two : MapFits [.insert [97, 98] [1], .insert [97] [2], .get [97, 98], .get [97]] := by
  intro key value hkey
  have hkey : key = [97, 98] ∧ value = [1] ∨ key = [97] ∧ value = [2] := by simpa using hkey
  rcases hkey with ⟨rfl, -⟩ | ⟨rfl, -⟩ <;> decide

/-- The value of `ab` is lost to `a`. -/
theorem cbmapRun_entries_two : ∃ map, cbmapRun [.insert [97, 98] [1], .insert [97] [2], .get [97, 98], .get [97]]
      cbmapNew = .ok ([.code 1, .code 2, .value (some [2]), .value none], map) := by
  obtain ⟨map, hrun, -⟩ := (cbmapRun_entries _ mapFits_two).1 _ _ rfl
  exact ⟨map, hrun⟩

/-! ## Visits -/

section
variable {σ : Type} (visitorFn : Bytes → Bytes → σ → Int × σ)

/-- Visits one after the other, up to the first one that gives something else than 1. -/
def visitEach : Dict Bytes Bytes → σ → Int × σ
  | [], userData => (1, userData)
  | e :: es, userData =>
    if (visitorFn e.1 e.2 userData).1 = 1 then visitEach es (visitorFn e.1 e.2 userData).2
    else (0, (visitorFn e.1 e.2 userData).2)

/-- A single entry gives back what the visitor does. -/
def visitEntries : Dict Bytes Bytes → σ → Int × σ
  | [e], userData => visitorFn e.1 e.2 userData
  | es, userData => visitEach visitorFn es userData

theorem visitEach_append (es es' : Dict Bytes Bytes) (userData : σ) : visitEach visitorFn (es ++ es') userData =
    if (visitEach visitorFn es userData).1 = 1 then visitEach visitorFn es' (visitEach visitorFn es userData).2
    else visitEach visitorFn es userData := by
  induction es generalizing userData with
  | nil => rfl
  | cons e es ih =>
    rw [List.cons_append, visitEach, visitEach]
    split
    · exact ih _
    · rfl

theorem visitEach_code (es : Dict Bytes Bytes) (userData : σ) (hne : (visitEach visitorFn es userData).1 ≠ 1) :
    (visitEach visitorFn es userData).1 = 0 := by
  induction es generalizing userData with
  | nil => exact (hne rfl).elim
  | cons e es ih =>
    rw [visitEach] at hne ⊢
    split
    · next hone => exact ih _ (by rwa [if_pos hone] at hne)
    · rfl

/-- Of a visit to a subtree, it only matters whether it goes on. -/
theorem cbmapVisit_each (t : CbmapTree) (userData : σ) : visitEach visitorFn (t.leaves.map entryOf) userData =
    (if (cbmapVisit visitorFn t userData).1 = 1 then 1 else 0, (cbmapVisit visitorFn t userData).2) ∧
    (t.labels ≠ [] → cbmapVisit visitorFn t userData = visitEach visitorFn (t.leaves.map entryOf) userData) := by
  induction t generalizing userData with
  | leaf data =>
    refine ⟨?_, fun hne => (hne rfl).elim⟩
    have hvisit : cbmapVisit visitorFn (.leaf data) userData = visitorFn data.key data.value userData := rfl
    rw [hvisit, Tree.leaves, List.map_cons, List.map_nil, visitEach, visitEach, entryOf]
    split <;> rfl
  | node q zero one ihz iho =>
    have hnode : cbmapVisit visitorFn (.node q zero one) userData =
        visitEach visitorFn ((Critbit.Tree.node q zero one).leaves.map entryOf) userData := by
      rw [Tree.leaves, List.map_append, visitEach_append, (ihz userData).1, cbmapVisit]
      by_cases hz : (cbmapVisit visitorFn zero userData).1 = 1
      · simp only [hz, if_true, ne_eq, not_true_eq_false, if_false]
        rw [(iho _).1]
        split
        · rfl
        · next hone => rw [if_pos (not_not.mp hone)]
      · simp [hz]
    refine ⟨?_, fun _ => hnode⟩
    rw [hnode]
    split
    · next hone => rw [← hone]
    · next hne => rw [← visitEach_code visitorFn _ _ hne]

theorem cbmapVisit_entries (t : CbmapTree) (userData : σ) :
    cbmapVisit visitorFn t userData = visitEntries visitorFn (t.leaves.map entryOf) userData := by
  cases t with
  | leaf data => rfl
  | node q zero one =>
    rw [(cbmapVisit_each visitorFn (.node q zero one) userData).2 (List.cons_ne_nil _ _)]
    obtain ⟨d, ds, hzero⟩ := List.exists_cons_of_ne_nil zero.leaves_ne_nil
    obtain ⟨e, es, hone⟩ := List.exists_cons_of_ne_nil one.leaves_ne_nil
    rw [Tree.leaves, hzero, hone]
    cases ds <;> rfl

theorem cbmapTop_nearest (keyPrefix : Bytes) (top t : CbmapTree) :
    (cbmapTop keyPrefix top t).2 = t.nearest (cbmapDirection keyPrefix) := by
  induction t generalizing top with
  | leaf data => rfl
  | node q zero one ihz iho =>
    rw [cbmapTop, Tree.nearest]
    split
    · exact iho _
    · exact ihz _

theorem cbmapTop_stays {keyPrefix : Bytes} (top : CbmapTree) (h : ∀ q ∈ t.labels, keyPrefix.length ≤ q.byte) :
    (cbmapTop keyPrefix top t).1 = top := by
  induction t with
  | leaf data => rfl
  | node q zero one ihz iho =>
    obtain ⟨hq, hsub⟩ := List.forall_mem_cons.mp h
    obtain ⟨hzero, hone⟩ := List.forall_mem_append.mp hsub
    rw [cbmapTop, if_neg (Nat.not_lt.mpr hq), if_neg (Nat.not_lt.mpr hq)]
    split
    · exact iho hone
    · exact ihz hzero

theorem cbmapTop_leaves (h : DataOk t) {keyPrefix : Bytes}
    (hpre : keyPrefix <+: (t.nearest (cbmapDirection keyPrefix)).key) : (cbmapTop keyPrefix t t).1.leaves =
      t.leaves.filter fun data => keyPrefix.isPrefixOf data.key := by
  induction t with
  | leaf data =>
    refine (List.filter_eq_self.mpr fun d hd => ?_).symm
    rw [List.mem_singleton.mp hd]
    exact List.isPrefixOf_iff_prefix.mpr hpre
  | node q zero one ihz iho =>
    by_cases hlt : q.byte < keyPrefix.length
    · rw [h.filter_side cbmapDirection_follows hlt, cbmapTop, if_pos hlt, if_pos hlt]
      rw [Tree.nearest] at hpre
      split
      · next hd => exact iho h.one (by rwa [if_pos hd] at hpre)
      · next hd => exact ihz h.zero (by rwa [if_neg hd] at hpre)
    · obtain ⟨hlabels, hall⟩ := h.all_begin (Nat.le_of_not_lt hlt) (Tree.nearest_mem _ _) hpre
      have hbehind : ∀ k ∈ (Critbit.Tree.node q zero one).labels, keyPrefix.length ≤ k.byte :=
        List.forall_mem_cons.mpr ⟨Nat.le_of_not_lt hlt, hlabels⟩
      rw [cbmapTop_stays _ hbehind]
      exact (List.filter_eq_self.mpr fun d hd => List.isPrefixOf_iff_prefix.mpr (hall d hd)).symm

theorem cbmapBegins_true {a p : Bytes} (h : p <+: a) : cbmapBegins a p = .ok true := by
  obtain ⟨s, rfl⟩ := h
  induction p with
  | nil => rw [cbmapBegins]
  | cons c p ih => rw [List.cons_append, cbmapBegins, if_neg (not_not.mpr rfl), ih]

theorem cbmapBegins_short {a p : Bytes} (h : a <+: p) (hne : a ≠ p) : cbmapBegins a p = .error .bounds := by
  obtain ⟨s, rfl⟩ := h
  have hs : s ≠ [] := fun hs => hne (by rw [hs, List.append_nil])
  obtain ⟨d, s, rfl⟩ := List.exists_cons_of_ne_nil hs
  clear hne hs
  induction a with
  | nil => rfl
  | cons c a ih => rw [List.cons_append, cbmapBegins, if_neg (not_not.mpr rfl), ih]

theorem cbmapBegins_false {a p : Bytes} (h : ¬p <+: a) (h' : ¬a <+: p) : cbmapBegins a p = .ok false := by
  induction p generalizing a with
  | nil => exact (h (List.nil_prefix)).elim
  | cons k p ih =>
    cases a with
    | nil => exact (h' (List.nil_prefix)).elim
    | cons c a =>
      rw [cbmapBegins]
      split
      · rfl
      · next heq =>
        obtain rfl := not_not.mp heq
        exact ih (fun hp => h (List.cons_prefix_cons.mpr ⟨rfl, hp⟩)) fun hp => h' (List.cons_prefix_cons.mpr ⟨rfl, hp⟩)

/-- A visit to a prefix sees the entries with the prefix, in order. A key that ends within the prefix is read behind
its end. -/
theorem cbmapVisitPrefix_eq (h : MapOk map) (keyPrefix : Bytes) (userData : σ) :
    ((∃ e ∈ cbmapEntries map, e.1 <+: keyPrefix ∧ e.1 ≠ keyPrefix) →
      cbmapVisitPrefix visitorFn map keyPrefix userData = .error .bounds) ∧
    ((¬∃ e ∈ cbmapEntries map, e.1 <+: keyPrefix ∧ e.1 ≠ keyPrefix) →
      cbmapVisitPrefix visitorFn map keyPrefix userData =
        .ok (visitEntries visitorFn ((cbmapEntries map).filter fun e => keyPrefix.isPrefixOf e.1) userData)) := by
  obtain ⟨root, count⟩ := map
  cases root with
  | none => exact ⟨fun ⟨e, he, _⟩ => (List.not_mem_nil he).elim, fun _ => rfl⟩
  | some t =>
    have ht := h.tree t rfl
    have hmem := t.nearest_mem (cbmapDirection keyPrefix)
    have hrun : cbmapVisitPrefix visitorFn ⟨some t, count⟩ keyPrefix userData =
        cbmapBegins (t.nearest (cbmapDirection keyPrefix)).key keyPrefix >>= fun b => if b then
          .ok (cbmapVisit visitorFn (cbmapTop keyPrefix t t).1 userData) else .ok (1, userData) := by
      rw [← cbmapTop_nearest keyPrefix t t]
      rfl
    rw [hrun]
    constructor
    · rintro ⟨e, he, hpre, hne⟩
      obtain ⟨d, hd, rfl⟩ := List.mem_map.mp he
      rw [ht.nearest_begun cbmapDirection_follows hd hpre, cbmapBegins_short hpre hne, error_bind]
    · intro hno
      have hentries : (cbmapEntries ⟨some t, count⟩).filter (fun e => keyPrefix.isPrefixOf e.1) =
          (t.leaves.filter fun data => keyPrefix.isPrefixOf data.key).map entryOf := entries_filter t.leaves keyPrefix
      rw [hentries]
      by_cases hpre : keyPrefix <+: (t.nearest (cbmapDirection keyPrefix)).key
      · rw [cbmapBegins_true hpre, ok_bind, if_pos rfl, cbmapVisit_entries, cbmapTop_leaves ht hpre]
      · have hnear : ¬(t.nearest (cbmapDirection keyPrefix)).key <+: keyPrefix := by
          intro hshort
          refine hno ⟨_, List.mem_map_of_mem hmem, hshort, fun heq => hpre ?_⟩
          have heq : (t.nearest (cbmapDirection keyPrefix)).key = keyPrefix := heq
          rw [heq]
        have hnone := ht.head_begins cbmapDirection_follows keyPrefix
        rw [if_neg hpre, List.head?_eq_none_iff] at hnone
        rw [cbmapBegins_false hpre hnear, hnone]
        rfl

/-- After any run, a visit to a prefix sees the entries with it in ascending order, unless a shorter key begins it. -/
theorem cbmapVisitPrefix_ascending {ops : List CbmapOp} (hfits : MapFits ops) {rs : List CbmapResult}
    (hrun : cbmapRun ops cbmapNew = .ok (rs, map)) (keyPrefix : Bytes) (userData : σ) :
    ∃ es, entriesRun ops [] = some (rs, es) ∧ (es.Pairwise fun e e' => e.1 < e'.1) ∧
      ((∃ e ∈ es, e.1 <+: keyPrefix ∧ e.1 ≠ keyPrefix) →
        cbmapVisitPrefix visitorFn map keyPrefix userData = .error .bounds) ∧
      ((¬∃ e ∈ es, e.1 <+: keyPrefix ∧ e.1 ≠ keyPrefix) → cbmapVisitPrefix visitorFn map keyPrefix userData =
        .ok (visitEntries visitorFn (es.filter fun e => keyPrefix.isPrefixOf e.1) userData)) ∧
      cbmapVisitAll visitorFn map userData = .ok (visitEntries visitorFn es userData) := by
  have hrefines := cbmapRun_refines ops hfits mapOk_new
  cases hes : entriesRun ops [] with
  | none =>
    obtain ⟨e, he⟩ := hrefines.error hes
    cases hrun.symm.trans he
  | some z =>
    obtain ⟨map', hrun', hok, hz⟩ := hrefines.ok z hes
    cases hrun.symm.trans hrun'
    have hvisit := cbmapVisitPrefix_eq visitorFn hok keyPrefix userData
    have hall := (cbmapVisitPrefix_eq visitorFn hok [] userData).2 fun ⟨e, _, hpre, hne⟩ =>
      hne (List.prefix_nil.mp hpre)
    have heach : (cbmapEntries map).filter (fun e => List.isPrefixOf [] e.1) = cbmapEntries map :=
      List.filter_eq_self.mpr fun e _ => rfl
    rw [heach] at hall
    refine ⟨z.2, rfl, ?_, ?_, ?_, ?_⟩ <;> rw [← hz]
    · exact hok.ascending
    · exact hvisit.1
    · exact hvisit.2
    · exact hall
end

theorem cbmapVisitPrefix_ascending_two : ∃ rs map es,
    cbmapRun [.insert [97, 98] [1], .insert [97] [2], .get [97, 98], .get [97]] cbmapNew = .ok (rs, map) ∧
    entriesRun [.insert [97, 98] [1], .insert [97] [2], .get [97, 98], .get [97]] [] = some (rs, es) ∧
    cbmapVisitAll (fun key _ userData => (1, userData ++ key)) map [] =
      .ok (visitEntries (fun key _ userData => (1, userData ++ key)) es []) := by
  have hrun : ∃ rs map, cbmapRun [.insert [97, 98] [1], .insert [97] [2], .get [97, 98], .get [97]] cbmapNew =
      .ok (rs, map) := ⟨_, _, rfl⟩
  obtain ⟨rs, map, hrun⟩ := hrun
  obtain ⟨es, hes, -, -, -, hall⟩ := cbmapVisitPrefix_ascending (fun key _ userData => (1, userData ++ key))
    mapFits_two hrun [] []
  exact ⟨rs, map, es, hrun, hes, hall⟩

end Dirlist
