import Dirlist.Hmap.Order
import Dirlist.Lib.Couple

/-! The table as its callers see it: every root slot and the tuples linked to it, as the entries they hold.
The calls answer what these chains say, without an address, so tables with the same chains answer alike. -/

namespace Dirlist
open Run Ring

/-- The entry after `hmap_set`. -/
def HmapEntry.rewrite (e : HmapEntry) (data : Bytes) : HmapEntry :=
  { e with vals := .chars (some data), dataLen := data.length }

/-- What the root slot of a bucket holds, if it holds something, and what the tuples linked to it hold. -/
structure Chain where
  root : Option HmapEntry
  rest : List HmapEntry
deriving DecidableEq, Repr

namespace Chain

def toList (c : Chain) : List HmapEntry := c.root.toList ++ c.rest

def find? (c : Chain) (key : Bytes) : Option HmapEntry := c.toList.find? fun e => e.key = key

/-- A new entry is alone in the bucket if it gets the root slot. -/
def put (c : Chain) (e : HmapEntry) : Chain :=
  match c.root with
  | none => ⟨some e, []⟩
  | some r => ⟨some r, c.rest ++ [e]⟩

def set (c : Chain) (key data : Bytes) : Chain :=
  if c.root.any fun e => e.key = key then { c with root := c.root.map fun e => e.rewrite data }
  else { c with rest := c.rest.lookmap fun e => if e.key = key then some (e.rewrite data) else none }

def erase (c : Chain) (key : Bytes) : Chain :=
  if c.root.any fun e => e.key = key then { c with root := none }
  else { c with rest := c.rest.eraseP fun e => e.key = key }

end Chain

/-! ## Calls on chains -/

section
variable (bs : Nat) (T : Addr → Chain)

def chainsSearch (key : Bytes) : HmapError × Option HmapEntry :=
  if key = [] then (.keyEmpty, none)
  else
    match (T (bucketIndex bs key)).find? key with
    | some e => (.success, some e)
    | none => (.tupleNotFound, none)

/-- A key that does not fit into a tuple is a fault when it comes to storing it. -/
def chainsAdd (key : Bytes) (arg : HmapArg) : Exec (Except HmapError Nat × (Addr → Chain)) :=
  let i := bucketIndex bs key
  if key = [] then .ok (.error .keyEmpty, T)
  else if ((T i).find? key).isSome then .ok (.error .tupleAlreadyExist, T)
  else
    match arg.vals? with
    | none => .ok (.error .dataTypeInvalid, T)
    | some v =>
      if key.length < maxSizeKey then
        .ok (.ok i, Function.update T i ((T i).put ⟨key, v, arg.lenOver 0, arg.dataType⟩))
      else .error .bounds

def chainsSet (key data : Bytes) : Exec (Option HmapEntry × (Addr → Chain)) :=
  let i := bucketIndex bs key
  if key = [] then .ok (none, T)
  else if ((T i).find? key).isSome then
    let T := Function.update T i ((T i).set key data)
    .ok ((T i).find? key, T)
  else do
    let (_, T) ← chainsAdd bs T key (.chars data)
    .ok ((T i).find? key, T)

def chainsDelete (key : Bytes) : HmapError × (Addr → Chain) :=
  let i := bucketIndex bs key
  if key = [] then (.keyEmpty, T)
  else if ((T i).find? key).isSome then (.success, Function.update T i ((T i).erase key))
  else (.tupleNotFound, T)

end

/-! ## Tables with given chains -/

/-- What a root slot holds: nothing if it has no key. -/
def Tuple.slot (t : Tuple) : Option HmapEntry := if t.key = [] then none else some t.entry

/-- Root slot `i` and the tuples `l` hold what the chain says, under keys that fit. -/
structure ChainAt (cells : Heap Tuple) (i : Addr) (l : List Addr) (c : Chain) : Prop where
  root : (cells i).map Tuple.slot = some c.root
  unused : ∀ t, cells i = some t → t.key = [] → t.dataLen = 0
  rest : l.map (contentAt cells) = c.rest.map some
  short : ∀ e ∈ c.toList, e.key.length < maxSizeKey

structure ChainsInv (bs : Nat) (T : Addr → Chain) (db : HmapDb) (ts : Addr → List Addr) (ord : List Addr) : Prop where
  inv : ListInv db ts ord
  size : db.bucketSize = bs
  chain : ∀ i < bs, ChainAt db.cells i (ts i) (T i)

def Chained (bs : Nat) (T : Addr → Chain) (db : HmapDb) : Prop := ∃ ts ord, ChainsInv bs T db ts ord

variable {bs : Nat} {T : Addr → Chain} {db db' : HmapDb} {cells cells' : Heap Tuple} {c c' : Chain}
  {ts : Addr → List Addr}
  {ord : List Addr} {key : Bytes} {i p : Addr} {l : List Addr} {e : HmapEntry}

theorem keyAt_eq_contentAt (cells : Heap Tuple) (a : Addr) : keyAt cells a = (contentAt cells a).map HmapEntry.key := by
  simp [keyAt, contentAt, Tuple.entry, Function.comp_def]

theorem SameCore.contentAt {a : Addr} (h : SameCore cells cells' a) : contentAt cells' a = contentAt cells a :=
  h.map_eq _ fun _ => rfl

theorem contentAt_of_slot {cells : Heap Tuple} (h : (cells i).map Tuple.slot = some (some e)) :
    contentAt cells i = some e ∧ e.key ≠ [] := by
  obtain ⟨t, ht, hs⟩ := Option.map_eq_some_iff.mp h
  rw [Tuple.slot] at hs
  split at hs
  · cases hs
  · rename_i hk
    cases hs
    exact ⟨by simp [contentAt, ht], hk⟩

theorem keyAt_of_slot {cells : Heap Tuple} (h : (cells i).map Tuple.slot = some none) : keyAt cells i = some [] := by
  obtain ⟨t, ht, hs⟩ := Option.map_eq_some_iff.mp h
  rw [Tuple.slot] at hs
  split at hs
  · rename_i hk
    simp [keyAt, ht, hk]
  · cases hs

theorem slot_of_contentAt {cells : Heap Tuple} (h : contentAt cells i = some e) (hk : e.key ≠ []) :
    (cells i).map Tuple.slot = some (some e) := by
  obtain ⟨t, ht, rfl⟩ := Option.map_eq_some_iff.mp h
  rw [ht, Option.map_some, Tuple.slot, if_neg (show t.key ≠ [] from hk)]

theorem lookmap_append {α : Type} {f : α → Option α} {xs ys : List α} {x y : α} (hxs : ∀ z ∈ xs, f z = none)
    (hx : f x = some y) : (xs ++ x :: ys).lookmap f = xs ++ y :: ys := by
  induction xs with
  | nil => exact List.lookmap_cons_some f _ hx
  | cons z xs ih =>
    obtain ⟨hz, hxs⟩ := List.forall_mem_cons.mp hxs
    rw [List.cons_append, List.lookmap_cons_none f _ hz, ih hxs, List.cons_append]

namespace ChainAt

theorem root_congr (hc : ChainAt cells i l c) (h : SameCore cells cells' i) :
    (cells' i).map Tuple.slot = some c.root ∧ ∀ t, cells' i = some t → t.key = [] → t.dataLen = 0 := by
  refine ⟨(h.map_eq _ fun _ => rfl).trans hc.root, fun t ht hk => ?_⟩
  have hboth := h.map_eq (fun t => (t.key, t.dataLen)) fun _ => rfl
  rw [ht] at hboth
  obtain ⟨u, hu, hpair⟩ := Option.map_eq_some_iff.mp hboth.symm
  obtain ⟨hkey, hlen⟩ := Prod.mk.inj hpair
  exact hlen.symm.trans (hc.unused u hu (hkey.trans hk))

/-- A bucket whose tuples have changed nothing but their links. -/
theorem congr (hc : ChainAt cells i l c) (h : ∀ a ∈ i :: l, SameCore cells cells' a) : ChainAt cells' i l c := by
  obtain ⟨hroot, hunused⟩ := hc.root_congr (h i List.mem_cons_self)
  refine ⟨hroot, hunused, ?_, hc.short⟩
  rw [← hc.rest]
  exact List.map_congr_left fun a ha => (h a (List.mem_cons_of_mem _ ha)).contentAt

/-- The search along the addresses finds what the chain finds. -/
theorem find (hc : ChainAt cells i l c) (hk : key ≠ []) :
    ((i :: l).find? fun p => keyAt cells p = some key).map (contentAt cells) = (c.find? key).map some := by
  have hq : (fun p => decide (keyAt cells p = some key)) =
      (fun o : Option HmapEntry => decide (o.map HmapEntry.key = some key)) ∘ contentAt cells := by
    funext p
    rw [keyAt_eq_contentAt]
    rfl
  have hrest : (l.find? fun p => keyAt cells p = some key).map (contentAt cells) =
      (c.rest.find? fun e => e.key = key).map some := by
    rw [hq, ← List.find?_map, hc.rest, List.find?_map]
    simp
  rw [Chain.find?, Chain.toList, List.find?_cons]
  have hroot := hc.root
  cases hr : c.root with
  | none =>
    rw [hr] at hroot
    have hne : ¬keyAt cells i = some key := by
      rw [keyAt_of_slot hroot]
      exact fun h => hk (Option.some.inj h).symm
    simpa [hne] using hrest
  | some e =>
    rw [hr] at hroot
    obtain ⟨hcontent, -⟩ := contentAt_of_slot hroot
    by_cases he : e.key = key
    · simp [keyAt_eq_contentAt, hcontent, he]
    · simpa [keyAt_eq_contentAt, hcontent, he] using hrest

/-- Where the tuple that a search finds stands in the chain. -/
theorem locate (hc : ChainAt cells i l c) (hk : key ≠ [])
    (hf : ((i :: l).find? fun p => keyAt cells p = some key) = some p) :
    (p = i ∧ ∃ e, c.root = some e ∧ e.key = key) ∨
      (c.root.any fun e => e.key = key) = false ∧ ∃ us vs es e es', l = us ++ p :: vs ∧ c.rest = es ++ e :: es' ∧
        us.map (contentAt cells) = es.map some ∧ contentAt cells p = some e ∧
        vs.map (contentAt cells) = es'.map some ∧ e.key = key ∧ ∀ x ∈ es, x.key ≠ key := by
  obtain ⟨hp, as, vs, happ, has⟩ := List.find?_eq_some_iff_append.mp hf
  have hkp : keyAt cells p = some key := of_decide_eq_true hp
  have hroot := hc.root
  cases as with
  | nil =>
    obtain ⟨rfl, rfl⟩ := List.cons.inj happ
    cases hr : c.root with
    | none =>
      rw [hr] at hroot
      exact absurd (Option.some.inj ((keyAt_of_slot hroot).symm.trans hkp)).symm hk
    | some e =>
      rw [hr] at hroot
      rw [keyAt_eq_contentAt, (contentAt_of_slot hroot).1] at hkp
      exact .inl ⟨rfl, e, rfl, Option.some.inj hkp⟩
  | cons a us =>
    rw [List.cons_append, List.cons.injEq] at happ
    obtain ⟨rfl, rfl⟩ := happ
    have hrest := hc.rest
    rw [List.map_append, List.map_cons] at hrest
    obtain ⟨es, es₁, hes, hus, htail⟩ := List.map_eq_append_iff.mp hrest.symm
    obtain ⟨e, es', rfl, he, hvs⟩ := List.map_eq_cons_iff.mp htail
    refine .inr ⟨?_, us, vs, es, e, es', rfl, hes, hus.symm, he.symm, hvs.symm, ?_, fun x hx hxk => ?_⟩
    · cases hr : c.root with
      | none => rfl
      | some r =>
        rw [hr] at hroot
        have hi := has i List.mem_cons_self
        rw [keyAt_eq_contentAt, (contentAt_of_slot hroot).1] at hi
        simpa using hi
    · rw [keyAt_eq_contentAt, ← he] at hkp
      exact Option.some.inj hkp
    · have hmem : some x ∈ us.map (contentAt cells) := hus ▸ List.mem_map_of_mem hx
      obtain ⟨a, ha, hax⟩ := List.mem_map.mp hmem
      have hno := has a (List.mem_cons_of_mem _ ha)
      rw [keyAt_eq_contentAt, hax] at hno
      simp [hxk] at hno

theorem put_root {root : Tuple} (hc : ChainAt cells i l c) (hroot : cells i = some root) (hempty : root.key = [])
    (hcontent : contentAt cells' i = some e) (hk : e.key ≠ []) (hlen : e.key.length < maxSizeKey) :
    ChainAt cells' i [] (c.put e) := by
  have hnone : c.root = none := by
    have h := hc.root
    rw [hroot, Option.map_some, Tuple.slot, if_pos hempty] at h
    exact (Option.some.inj h).symm
  have hput : c.put e = ⟨some e, []⟩ := by rw [Chain.put, hnone]
  rw [hput]
  refine ⟨slot_of_contentAt hcontent hk, fun t ht hkey => ?_, rfl, by simpa [Chain.toList] using hlen⟩
  rw [contentAt, ht] at hcontent
  exact absurd (congrArg HmapEntry.key (Option.some.inj hcontent) ▸ hkey) hk

theorem put_rest (hc : ChainAt cells i l c) (hsame : ∀ a ∈ i :: l, SameCore cells cells' a)
    (hfull : keyAt cells i ≠ some []) (hcontent : contentAt cells' p = some e) (hlen : e.key.length < maxSizeKey) :
    ChainAt cells' i (l ++ [p]) (c.put e) := by
  have hc' := hc.congr hsame
  obtain ⟨r, hr⟩ : ∃ r, c.root = some r := by
    refine Option.ne_none_iff_exists'.mp fun hnone => hfull (keyAt_of_slot ?_)
    rw [hc.root, hnone]
  have hput : c.put e = ⟨some r, c.rest ++ [e]⟩ := by rw [Chain.put, hr]
  have htoList : (c.put e).toList = c.toList ++ [e] := by
    rw [hput, Chain.toList, Chain.toList, hr, List.append_assoc]
  refine ⟨?_, hc'.unused, ?_, fun x hx => ?_⟩
  · rw [hc'.root, hput, hr]
  · rw [List.map_append, hc'.rest, hput, List.map_append, List.map_singleton, List.map_singleton, hcontent]
  · rw [htoList] at hx
    rcases List.mem_append.mp hx with hx | hx
    · exact hc.short x hx
    · exact List.mem_singleton.mp hx ▸ hlen

theorem set {t : Tuple} {data : Bytes} (hc : ChainAt cells i l c) (hk : key ≠ []) (hnd : (i :: l).Nodup)
    (hf : ((i :: l).find? fun p => keyAt cells p = some key) = some p) (ht : cells p = some t)
    (ht' : cells' p = some { t with vals := .chars (some data), dataLen := data.length })
    (hsame : ∀ a, a ≠ p → cells' a = cells a) : ChainAt cells' i l (c.set key data) := by
  have hcontent' (e : HmapEntry) (he : contentAt cells p = some e) : contentAt cells' p = some (e.rewrite data) := by
    rw [contentAt, ht] at he
    rw [contentAt, ht', ← Option.some.inj he]
    rfl
  have hother {as : List Addr} (has : p ∉ as) : as.map (contentAt cells') = as.map (contentAt cells) :=
    List.map_congr_left fun a ha => by rw [contentAt, contentAt, hsame a fun h => has (h ▸ ha)]
  rcases hc.locate hk hf with ⟨rfl, e, hr, he⟩ | ⟨hno, us, vs, es, e, es', rfl, hrest, hus, hp, hvs, he, hes⟩
  · have hset : c.set key data = { c with root := some (e.rewrite data) } := by
      rw [Chain.set, hr, Option.any_some, if_pos (decide_eq_true he), Option.map_some]
    have hroot := hc.root
    rw [hr] at hroot
    obtain ⟨hcontent, hek⟩ := contentAt_of_slot hroot
    have hslot := slot_of_contentAt (hcontent' e hcontent) hek
    rw [hset]
    refine ⟨hslot, fun u hu huk => ?_, ?_, ?_⟩
    · rw [hu, Option.map_some, Tuple.slot, if_pos huk] at hslot
      cases hslot
    · rw [hother (List.nodup_cons.mp hnd).1, hc.rest]
    · have hshort := hc.short
      simp only [Chain.toList, hr, Option.toList_some, List.singleton_append, List.forall_mem_cons] at hshort ⊢
      exact hshort
  · obtain ⟨hpi, hnd⟩ : i ≠ p ∧ p ∉ us ++ vs := by
      have hpos := List.nodup_middle.mp (List.nodup_cons.mp hnd).2
      exact ⟨fun h => (List.nodup_cons.mp hnd).1 (by simp [h]), (List.nodup_cons.mp hpos).1⟩
    have hset : c.set key data = { c with rest := es ++ e.rewrite data :: es' } := by
      rw [Chain.set, hno, if_neg Bool.false_ne_true, hrest]
      exact congrArg _ (lookmap_append (fun x hx => if_neg (hes x hx)) (if_pos he))
    rw [hset]
    refine ⟨?_, fun u hu huk => hc.unused u (by rwa [← hsame i hpi]) huk, ?_, ?_⟩
    · rw [hsame i hpi]
      exact hc.root
    · rw [List.map_append, List.map_cons, hother fun h => hnd (List.mem_append_left _ h),
        hother fun h => hnd (List.mem_append_right _ h), hus, hvs, hcontent' e hp, List.map_append, List.map_cons]
    · have hshort := hc.short
      rw [Chain.toList, hrest] at hshort
      simp only [Chain.toList, List.forall_mem_append, List.forall_mem_cons] at hshort ⊢
      exact hshort

theorem erase (hc : ChainAt cells i l c) (hk : key ≠ []) (hnd : (i :: l).Nodup)
    (hf : ((i :: l).find? fun p => keyAt cells p = some key) = some p)
    (hsame : ∀ a, a ≠ p → SameCore cells cells' a)
    (hempty : p = i → keyAt cells' p = some [] ∧ (cells' p).map Tuple.dataLen = some 0) :
    ChainAt cells' i (l.erase p) (c.erase key) := by
  have hother {as : List Addr} (has : p ∉ as) : as.map (contentAt cells') = as.map (contentAt cells) :=
    List.map_congr_left fun a ha => (hsame a fun h => has (h ▸ ha)).contentAt
  rcases hc.locate hk hf with ⟨rfl, e, hr, he⟩ | ⟨hno, us, vs, es, e, es', rfl, hrest, hus, hp, hvs, he, hes⟩
  · obtain ⟨hkey, hlen⟩ := hempty rfl
    have hpl : p ∉ l := (List.nodup_cons.mp hnd).1
    have herase : c.erase key = { c with root := none } := by
      rw [Chain.erase, hr, Option.any_some, if_pos (decide_eq_true he)]
    obtain ⟨t, ht, htk⟩ := Option.map_eq_some_iff.mp hkey
    rw [herase, List.erase_of_not_mem hpl]
    refine ⟨?_, fun u hu _ => ?_, ?_, fun x hx => hc.short x (List.mem_append_right _ hx)⟩
    · rw [ht, Option.map_some, Tuple.slot, if_pos htk]
    · rw [hu, Option.map_some] at hlen
      exact Option.some.inj hlen
    · rw [hother hpl, hc.rest]
  · obtain ⟨hpi, hnd⟩ : i ≠ p ∧ p ∉ us ++ vs := by
      have hpos := List.nodup_middle.mp (List.nodup_cons.mp hnd).2
      exact ⟨fun h => (List.nodup_cons.mp hnd).1 (by simp [h]), (List.nodup_cons.mp hpos).1⟩
    have hpu : p ∉ us := fun h => hnd (List.mem_append_left _ h)
    have herase : c.erase key = { c with rest := es ++ es' } := by
      rw [Chain.erase, hno, if_neg Bool.false_ne_true, hrest,
        List.eraseP_append_right _ fun x hx => by simpa using hes x hx, List.eraseP_cons_of_pos (by simpa using he)]
    obtain ⟨hroot, hunused⟩ := hc.root_congr (hsame i hpi)
    rw [herase, List.erase_append_right _ hpu, List.erase_cons_head]
    refine ⟨hroot, hunused, ?_, fun x hx => hc.short x ?_⟩
    · rw [hother hnd, List.map_append, hus, hvs, List.map_append]
    · simp only [Chain.toList, hrest, List.mem_append, List.mem_cons] at hx ⊢
      tauto

end ChainAt

/-! ## The calls on a table -/

theorem IsBucket.nodup (hb : IsBucket cells i l) : (i :: l).Nodup := by
  rcases hb with ⟨rfl, -⟩ | hr
  · exact List.nodup_singleton i
  · exact hr.nodup

/-- An over-long key that is to be stored does not fit, in the root slot or in a new tuple. -/
theorem hmapAdd_overlong {arg : HmapArg} {v : HmapVals} {root : Tuple} (hk : key ≠ []) (hlen : ¬key.length < maxSizeKey)
    (hv : arg.vals? = some v) (hs : Returns (fun n => hmapSearch n db key) (.tupleNotFound, none))
    (hroot : db.cells (db.indexOf key) = some root) :
    Settles (fun n => hmapAdd n db key arg) (.error .bounds) := by
  have hload : load db.cells (db.indexOf key) = .ok root := by simp only [load, hroot]
  have hkey (t : Tuple) : hmapSetKey t key = .error .bounds := if_neg hlen
  unfold hmapAdd
  simp only [hk, if_false]
  refine Settles.bind hs ?_
  simp only [hload, ok_bind]
  split
  · rw [hmapReuseRoot, hmapSetData_eq hv]
    simp only [hkey, error_bind]
    exact settles_const _
  · rw [hmapAddSecondary, hmapSetData_eq hv]
    simp only [hkey, error_bind]
    exact settles_const _

namespace ChainsInv

theorem index_lt (hr : ChainsInv bs T db ts ord) (key : Bytes) : bucketIndex bs key < bs :=
  Nat.mod_lt _ (hr.size ▸ hr.inv.pos)

theorem indexOf (hr : ChainsInv bs T db ts ord) (key : Bytes) : db.indexOf key = bucketIndex bs key := by
  rw [← hr.size]
  rfl

theorem nodup (hr : ChainsInv bs T db ts ord) {j : Addr} (hj : j < bs) : (j :: ts j).Nodup :=
  (hr.inv.bucket j (hr.size.symm ▸ hj)).links.nodup

/-- A search and the chain find the same. -/
theorem search (hr : ChainsInv bs T db ts ord) (hk : key ≠ []) (hi : bucketIndex bs key = i) :
    (∃ p e, ((i :: ts i).find? fun p => keyAt db.cells p = some key) = some p ∧ contentAt db.cells p = some e ∧
      (T i).find? key = some e ∧ Returns (fun n => hmapSearch n db key) (.success, some p)) ∨
    (T i).find? key = none ∧ Returns (fun n => hmapSearch n db key) (.tupleNotFound, none) := by
  have hix : db.indexOf key = i := (hr.indexOf key).trans hi
  have hs := returns_hmapSearch hk (hr.inv.bucket _ (hr.inv.index_lt key)).links
  have hfind := (hr.chain i (hi ▸ hr.index_lt key)).find hk
  rw [hix] at hs
  cases hf : (i :: ts i).find? fun p => keyAt db.cells p = some key with
  | some p =>
    rw [hf] at hs hfind
    obtain ⟨e, he, hpe⟩ := Option.map_eq_some_iff.mp hfind.symm
    exact .inl ⟨p, e, rfl, hpe.symm, he, hs⟩
  | none =>
    rw [hf] at hs hfind
    exact .inr ⟨Option.map_eq_none_iff.mp hfind.symm, hs⟩

/-- A change to bucket `i` by way of the tuple `p`. -/
theorem update {ord' : List Addr} (hr : ChainsInv bs T db ts ord) (hi' : ListInv db' (Function.update ts i l) ord')
    (hsize : db'.bucketSize = db.bucketSize) (hsame : ∀ a, a ≠ p → SameCore db.cells db'.cells a)
    (hp : ∀ j < bs, j ≠ i → p ∉ j :: ts j) (hc : ChainAt db'.cells i l c) :
    Chained bs (Function.update T i c) db' := by
  refine ⟨_, _, hi', hsize.trans hr.size, fun j hj => ?_⟩
  by_cases hji : j = i
  · subst hji
    rwa [Function.update_self, Function.update_self]
  · rw [Function.update_of_ne hji, Function.update_of_ne hji]
    exact (hr.chain j hj).congr fun a ha => hsame a fun h => hp j hj hji (h ▸ ha)

theorem not_mem_other (hr : ChainsInv bs T db ts ord) (hi : i < bs) (hp : p ∈ i :: ts i) {j : Addr} (hj : j < bs)
    (hji : j ≠ i) : p ∉ j :: ts j := by
  rw [← hr.size] at hi hj
  exact fun h => hji ((hr.inv.bucket j hj).unique (hr.inv.bucket i hi) hj hi h hp)

theorem not_mem_of_none (hr : ChainsInv bs T db ts ord) (hp : db.cells p = none) {j : Addr} (hj : j < bs) :
    p ∉ j :: ts j := by
  intro h
  have hsome := (hr.inv.bucket j (hr.size.symm ▸ hj)).links.isSome h
  rw [hp] at hsome
  cases hsome

end ChainsInv

/-- Equal answers from a table and its chains, and chains that fit the table again. -/
def SameAnswer {α : Type} (bs : Nat) (x : α × HmapDb) (y : α × (Addr → Chain)) : Prop :=
  x.1 = y.1 ∧ Chained bs y.2 x.2

theorem Chained.init (hbs : 1 ≤ bs) : Chained bs (fun _ => ⟨none, []⟩) (hmapInit bs) := by
  refine ⟨_, _, listInv_init hbs, rfl, fun i hi => ?_⟩
  have hcell : (hmapInit bs).cells i = some .zero := if_pos hi
  refine ⟨by rw [hcell]; rfl, fun t ht _ => ?_, rfl, by simp [Chain.toList]⟩
  rw [hcell] at ht
  cases ht
  rfl

theorem Chained.search (h : Chained bs T db) (key : Bytes) :
    ∃ r o, Returns (fun n => hmapSearch n db key) (r, o) ∧
      chainsSearch bs T key = (r, o.bind (contentAt db.cells)) := by
  by_cases hk : key = []
  · refine ⟨.keyEmpty, none, ?_, if_pos hk⟩
    unfold hmapSearch
    simp only [hk, if_true]
    exact returns_ok _
  · obtain ⟨ts, ord, hr⟩ := h
    obtain ⟨i, hi⟩ : ∃ i, bucketIndex bs key = i := ⟨_, rfl⟩
    rcases hr.search hk hi with ⟨p, e, -, hpe, he, hs⟩ | ⟨hno, hs⟩
    · refine ⟨_, _, hs, ?_⟩
      rw [chainsSearch, if_neg hk, hi, he, Option.bind_some, hpe]
    · refine ⟨_, _, hs, ?_⟩
      rw [chainsSearch, if_neg hk, hi, hno, Option.bind_none]

theorem Chained.add (h : Chained bs T db) (key : Bytes) (arg : HmapArg) :
    Coupled (SameAnswer bs) (fun n => hmapAdd n db key arg) (fun _ => chainsAdd bs T key arg) := by
  by_cases hk : key = []
  · have hadd : Returns (fun n => hmapAdd n db key arg) (.error .keyEmpty, db) := by
      unfold hmapAdd
      simp only [hk, if_true]
      exact returns_ok _
    exact coupled_returns hadd (returns_const (if_pos hk)) ⟨rfl, h⟩
  obtain ⟨ts, ord, hr⟩ := id h
  obtain ⟨i, hi⟩ : ∃ i, bucketIndex bs key = i := ⟨_, rfl⟩
  have hlt : i < bs := hi ▸ hr.index_lt key
  have hix : db.indexOf key = i := (hr.indexOf key).trans hi
  rcases hr.search hk hi with ⟨p, e, -, -, he, hs⟩ | ⟨hno, hs⟩
  · have hspec : chainsAdd bs T key arg = .ok (.error .tupleAlreadyExist, T) := by
      simp only [chainsAdd, if_neg hk, hi, he, Option.isSome_some, if_true]
    exact coupled_returns (hmapAdd_present hk hs) (returns_const hspec) ⟨rfl, h⟩
  cases hv : arg.vals? with
  | none =>
    have hspec : chainsAdd bs T key arg = .ok (.error .dataTypeInvalid, T) := by
      simp only [chainsAdd, if_neg hk, hi, hno, Option.isSome_none, Bool.false_eq_true, if_false, hv]
    exact coupled_returns (hr.inv.add_invalid hk hv hs) (returns_const hspec) ⟨rfl, h⟩
  | some v =>
    by_cases hlen : key.length < maxSizeKey
    · obtain ⟨db', p, l, hadd, hi', hput⟩ := hr.inv.add hk hlen hv hs
      rw [hix] at hadd hi'
      have hspec : chainsAdd bs T key arg =
          .ok (.ok i, Function.update T i ((T i).put ⟨key, v, arg.lenOver 0, arg.dataType⟩)) := by
        simp only [chainsAdd, if_neg hk, hi, hno, Option.isSome_none, Bool.false_eq_true, if_false, hv, if_pos hlen]
      refine coupled_returns hadd (returns_const hspec) ⟨rfl, ?_⟩
      rcases hput.place with ⟨root, hroot, hempty, hp, rfl, hcontent⟩ | ⟨hfull, hp, rfl, hcontent⟩
      · obtain rfl : p = i := hp.trans hix
        rw [(hr.chain p hlt).unused root hroot hempty] at hcontent
        exact hr.update hi' hput.size hput.same (fun j hj hji => hr.not_mem_other hlt List.mem_cons_self hj hji)
          ((hr.chain p hlt).put_root hroot hempty hcontent hk hlen)
      · rw [hix] at hfull hi'
        refine hr.update hi' hput.size hput.same (fun j hj _ => hr.not_mem_of_none hp hj)
          ((hr.chain i hlt).put_rest (fun a ha => hput.same a fun hap => ?_) hfull hcontent hlen)
        exact hr.not_mem_of_none hp hlt (hap ▸ ha)
    · obtain ⟨root, hroot⟩ :=
        Option.isSome_iff_exists.mp ((hr.inv.bucket _ (hr.inv.index_lt key)).links.isSome List.mem_cons_self)
      refine ⟨_, .error .bounds, hmapAdd_overlong hk hlen hv hs hroot, ⟨0, fun _ _ => ?_⟩, .error (by decide)⟩
      simp only [chainsAdd, if_neg hk, hi, hno, Option.isSome_none, Bool.false_eq_true, if_false, hv, if_neg hlen]

theorem Chained.set (h : Chained bs T db) (key data : Bytes) :
    Coupled (fun x y => x.1.bind (contentAt x.2.cells) = y.1 ∧ Chained bs y.2 x.2) (fun n => hmapSet n db key data)
      (fun _ => chainsSet bs T key data) := by
  by_cases hk : key = []
  · have hset : Returns (fun n => hmapSet n db key data) (none, db) := by
      unfold hmapSet
      simp only [hk, if_true]
      exact returns_ok _
    exact coupled_returns hset (returns_const (if_pos hk)) ⟨rfl, h⟩
  obtain ⟨ts, ord, hr⟩ := id h
  obtain ⟨i, hi⟩ : ∃ i, bucketIndex bs key = i := ⟨_, rfl⟩
  have hlt : i < bs := hi ▸ hr.index_lt key
  rcases hr.search hk hi with ⟨p, e, hf, hpe, he, hs⟩ | ⟨hno, hs⟩
  · have hkp : keyAt db.cells p = some key := by simpa using List.find?_some hf
    obtain ⟨db', t, hset, hi', hsize, ht, ht', hsame⟩ := hr.inv.set data hk hkp hs
    have hc := (hr.chain i hlt).set hk (hr.nodup hlt) hf ht ht' hsame
    -- The keys are as before, so the search finds the same tuple.
    have hkeys : ∀ a, keyAt db'.cells a = keyAt db.cells a := by
      intro a
      by_cases hap : a = p
      · subst hap
        rw [keyAt, keyAt, ht', ht]
        rfl
      · rw [keyAt, keyAt, hsame a hap]
    have hfind := hc.find hk
    simp only [hkeys, hf, Option.map_some] at hfind
    obtain ⟨e', he', hpe'⟩ := Option.map_eq_some_iff.mp hfind.symm
    have hspec : chainsSet bs T key data = .ok (some e', Function.update T i ((T i).set key data)) := by
      simp only [chainsSet, if_neg hk, hi, he, Option.isSome_some, if_true, Function.update_self, he']
    refine coupled_returns hset (returns_const hspec) ⟨hpe'.symm, ?_⟩
    rw [← Function.update_eq_self i ts] at hi'
    refine hr.update hi' hsize (p := p) (fun a ha => ?_) (fun j hj hji => ?_) hc
    · rw [SameCore, hsame a ha]
    · exact hr.not_mem_other hlt (List.mem_of_find?_eq_some hf) hj hji
  · have hspec : chainsSet bs T key data = (do
        let (_, T) ← chainsAdd bs T key (.chars data)
        .ok ((T i).find? key, T)) := by
      simp only [chainsSet, if_neg hk, hi, hno, Option.isSome_none, Bool.false_eq_true, if_false]
    unfold hmapSet
    simp only [if_neg hk, hspec]
    refine .behind hs (Coupled.bind (h.add key (.chars data)) ?_)
    rintro ⟨r, db'⟩ ⟨r', T'⟩ ⟨-, h'⟩
    obtain ⟨q, o, hs', hspec'⟩ := h'.search key
    refine coupled_returns (hs'.bind (returns_ok _)) (returns_ok _) ⟨?_, h'⟩
    rw [chainsSearch, if_neg hk, hi] at hspec'
    dsimp only
    cases hfind : (T' i).find? key with
    | some e =>
      rw [hfind] at hspec'
      obtain ⟨hq, ho⟩ := Prod.mk.inj hspec'
      rw [← hq, if_pos rfl, ← ho]
    | none =>
      rw [hfind] at hspec'
      rw [← (Prod.mk.inj hspec').1, if_neg (by decide), Option.bind_none]

theorem Chained.delete (h : Chained bs T db) (key : Bytes) :
    Coupled (SameAnswer bs) (fun n => hmapDelete n db key) (fun _ => .ok (chainsDelete bs T key)) := by
  by_cases hk : key = []
  · have hdel : Returns (fun n => hmapDelete n db key) (.keyEmpty, db) := by
      unfold hmapDelete hmapSearch
      simp only [hk, if_true, ok_bind]
      exact returns_ok _
    have hspec : chainsDelete bs T key = (.keyEmpty, T) := if_pos hk
    exact coupled_returns hdel (returns_ok _) ⟨by rw [hspec], by rwa [hspec]⟩
  obtain ⟨ts, ord, hr⟩ := id h
  obtain ⟨i, hi⟩ : ∃ i, bucketIndex bs key = i := ⟨_, rfl⟩
  have hlt : i < bs := hi ▸ hr.index_lt key
  have hix : db.indexOf key = i := (hr.indexOf key).trans hi
  rcases hr.search hk hi with ⟨p, e, hf, -, he, hs⟩ | ⟨hno, hs⟩
  · have hspec : chainsDelete bs T key = (.success, Function.update T i ((T i).erase key)) := by
      simp only [chainsDelete, if_neg hk, hi, he, Option.isSome_some, if_true]
    have hpi := List.mem_of_find?_eq_some hf
    have hkp : keyAt db.cells p = some key := by simpa using List.find?_some hf
    obtain ⟨db', hdel, hi', hsize, hsame, hempty⟩ := hr.inv.delete hk (hix.symm ▸ hpi) hkp hs
    rw [hix] at hi' hempty
    refine coupled_returns hdel (returns_ok _) ⟨by rw [hspec], ?_⟩
    rw [hspec]
    exact hr.update hi' hsize hsame (fun j hj hji => hr.not_mem_other hlt hpi hj hji)
      ((hr.chain i hlt).erase hk (hr.nodup hlt) hf hsame hempty)
  · have hspec : chainsDelete bs T key = (.tupleNotFound, T) := by
      simp only [chainsDelete, if_neg hk, hi, hno, Option.isSome_none, Bool.false_eq_true, if_false]
    exact coupled_returns (hmapDelete_absent hk hs) (returns_ok _) ⟨by rw [hspec], by rwa [hspec]⟩

/-! ## Sequences of calls -/

inductive HmapCall
  | op (op : HmapOp)
  | search (key : Bytes)
deriving DecidableEq, Repr

/-- What a call gives back. A tuple is given by what it holds. -/
inductive HmapAnswer
  | added (r : Except HmapError Nat)
  | set (e : Option HmapEntry)
  | deleted (r : HmapError)
  | found (r : HmapError) (e : Option HmapEntry)

def hmapCall (n : Nat) (db : HmapDb) : HmapCall → Exec (HmapAnswer × HmapDb)
  | .op (.add key arg) => do
    let (r, db) ← hmapAdd n db key arg
    .ok (.added r, db)
  | .op (.set key data) => do
    let (p, db) ← hmapSet n db key data
    .ok (.set (p.bind (contentAt db.cells)), db)
  | .op (.delete key) => do
    let (r, db) ← hmapDelete n db key
    .ok (.deleted r, db)
  | .search key => do
    let (r, p) ← hmapSearch n db key
    .ok (.found r (p.bind (contentAt db.cells)), db)

def hmapAnswers (n : Nat) (db : HmapDb) : List HmapCall → Exec (List HmapAnswer)
  | [] => .ok []
  | c :: calls => do
    let (a, db) ← hmapCall n db c
    let answers ← hmapAnswers n db calls
    .ok (a :: answers)

def chainsCall (bs : Nat) (T : Addr → Chain) : HmapCall → Exec (HmapAnswer × (Addr → Chain))
  | .op (.add key arg) => do
    let (r, T) ← chainsAdd bs T key arg
    .ok (.added r, T)
  | .op (.set key data) => do
    let (e, T) ← chainsSet bs T key data
    .ok (.set e, T)
  | .op (.delete key) =>
    let (r, T) := chainsDelete bs T key
    .ok (.deleted r, T)
  | .search key =>
    let (r, e) := chainsSearch bs T key
    .ok (.found r e, T)

def chainsAnswers (bs : Nat) (T : Addr → Chain) : List HmapCall → Exec (List HmapAnswer)
  | [] => .ok []
  | c :: calls => do
    let (a, T) ← chainsCall bs T c
    let answers ← chainsAnswers bs T calls
    .ok (a :: answers)

theorem Chained.call (h : Chained bs T db) (c : HmapCall) :
    Coupled (SameAnswer bs) (fun n => hmapCall n db c) (fun _ => chainsCall bs T c) := by
  cases c with
  | op op =>
    cases op with
    | add key arg =>
      refine (h.add key arg).bind ?_
      rintro ⟨r, db'⟩ ⟨r', T'⟩ ⟨rfl, h'⟩
      exact coupled_ok ⟨rfl, h'⟩
    | set key data =>
      refine (h.set key data).bind ?_
      rintro ⟨p, db'⟩ ⟨e, T'⟩ ⟨rfl, h'⟩
      exact coupled_ok ⟨rfl, h'⟩
    | delete key =>
      have hcall : chainsCall bs T (.op (.delete key)) =
          .ok (chainsDelete bs T key) >>= fun x => .ok (.deleted x.1, x.2) :=
        rfl
      rw [hcall]
      refine (h.delete key).bind ?_
      rintro ⟨r, db'⟩ ⟨r', T'⟩ ⟨rfl, h'⟩
      exact coupled_ok ⟨rfl, h'⟩
  | search key =>
    obtain ⟨r, p, hs, hspec⟩ := h.search key
    have hcall : chainsCall bs T (.search key) = .ok (.found r (p.bind (contentAt db.cells)), T) := by
      rw [chainsCall, hspec]
    exact coupled_returns (hs.bind (returns_ok _)) (returns_const hcall) ⟨rfl, h⟩

theorem Chained.answers (h : Chained bs T db) (calls : List HmapCall) :
    Coupled Eq (fun n => hmapAnswers n db calls) (fun _ => chainsAnswers bs T calls) := by
  induction calls generalizing db T with
  | nil => exact coupled_ok rfl
  | cons c calls ih =>
    refine (h.call c).bind ?_
    rintro ⟨a, db'⟩ ⟨a', T'⟩ ⟨rfl, h'⟩
    refine (ih h').bind ?_
    rintro as as' rfl
    exact coupled_ok rfl

/-- Tables with the same chains cannot be told apart. -/
theorem Chained.same_answers (h : Chained bs T db) (h' : Chained bs T db') (calls : List HmapCall) :
    ∃ x, Settles (fun n => hmapAnswers n db calls) x ∧ Settles (fun n => hmapAnswers n db' calls) x := by
  obtain ⟨x, y, hx, hy, hxy⟩ := h.answers calls
  obtain ⟨x', y', hx', hy', hxy'⟩ := h'.answers calls
  refine ⟨x, hx, ?_⟩
  rwa [hxy.eq.1, hy.unique hy', ← hxy'.eq.1]

theorem hmapStep_eq (n : Nat) (db : HmapDb) (op : HmapOp) :
    hmapStep n db op = hmapCall n db (.op op) >>= fun x => .ok x.2 := by
  cases op with
  | add key arg =>
    rw [hmapStep, hmapCall]
    cases hmapAdd n db key arg <;> rfl
  | set key data =>
    rw [hmapStep, hmapCall]
    cases hmapSet n db key data <;> rfl
  | delete key =>
    rw [hmapStep, hmapCall]
    cases hmapDelete n db key <;> rfl

/-- A run that comes back leaves a table with chains. -/
theorem Chained.run (h : Chained bs T db) {ops : List HmapOp} (hrun : Returns (fun n => hmapRun n db ops) db') :
    ∃ T', Chained bs T' db' := by
  induction ops generalizing db T with
  | nil =>
    obtain rfl := hrun.unique (returns_ok _)
    exact ⟨T, h⟩
  | cons op ops ih =>
    obtain ⟨x, y, hx, -, hxy⟩ := h.call (.op op)
    have hstep (n : Nat) : hmapRun n db (op :: ops) = hmapCall n db (.op op) >>= fun x => hmapRun n x.2 ops := by
      rw [hmapRun, hmapStep_eq]
      cases hmapCall n db (.op op) <;> rfl
    have hrun' : Settles (fun n => hmapCall n db (.op op) >>= fun x => hmapRun n x.2 ops) (.ok db') :=
      hrun.congr fun n => (hstep n).symm
    cases hxy with
    | error _ => cases hrun'.unique hx.bind_error
    | @ok a b hab =>
      obtain ⟨M, hM⟩ := hx
      obtain ⟨N, hN⟩ := hrun'
      refine ih hab.2 ⟨max M N, fun n hn => ?_⟩
      have h' := hN n (le_trans (le_max_right M N) hn)
      have hcall : hmapCall n db (.op op) = .ok a := hM n (le_trans (le_max_left M N) hn)
      dsimp only at h'
      rwa [hcall, ok_bind] at h'

end Dirlist
