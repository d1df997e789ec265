import Dirlist.Hashmap.Defs

/-! Runs of lib/hashmap beside a map from keys to pairs, where keys that compare equal are one. Besides the pairs, a run
can only tell how many keys each bucket holds: `hashmap_remove` follows a null pointer in a bucket that is there but
empty. -/

namespace Dirlist
open Run

variable {κ υ : Type} {f : HashmapFuncs κ} {capacity : Nat} {key key' : κ} {value : υ} {pair : HashmapPair κ υ}
  {list left : List (HashmapPair κ υ)} {m m' : Hashmap κ υ}

/-- The comparator is 0 on an equivalence that the hash respects, the hash is an index of the table, and a key compares
equal with its copy. -/
structure HashmapFuncs.Lawful (f : HashmapFuncs κ) (capacity : Nat) : Prop where
  refl : ∀ a, f.comparator a a = 0
  symm : ∀ a b, f.comparator a b = 0 → f.comparator b a = 0
  trans : ∀ a b c, f.comparator a b = 0 → f.comparator b c = 0 → f.comparator a c = 0
  bound : ∀ a, f.hashFunc a capacity < capacity
  respects : ∀ a b, f.comparator a b = 0 → f.hashFunc a capacity = f.hashFunc b capacity
  dup : ∀ a, f.comparator (f.keyDup a) a = 0

/-! ## The map from keys to pairs -/

/-- Which pair is put in for a key, how many keys each bucket that is there holds, how many there are in all, and the
keys in the order they were put in. -/
structure PairMap (κ υ : Type) where
  pair : κ → Option (HashmapPair κ υ)
  load : Nat → Option Nat
  size : Nat
  keys : List κ

def PairMap.empty (κ υ : Type) : PairMap κ υ where
  pair _ := none
  load _ := none
  size := 0
  keys := []

variable (f capacity) in
def PairMap.put (A : PairMap κ υ) (key : κ) (value : υ) : HashmapPair κ υ × PairMap κ υ :=
  let offset := f.hashFunc key capacity
  match A.pair key with
  | some pair =>
    ({ pair with value := value }, { A with
      pair := fun a => if f.comparator a key = 0 then some { pair with value := value } else A.pair a })
  | none =>
    let pair := { key := f.keyDup key, value := value }
    (pair, {
      pair := fun a => if f.comparator a key = 0 then some pair else A.pair a
      load := Function.update A.load offset (some ((A.load offset).getD 0 + 1))
      size := A.size + 1
      keys := A.keys ++ [pair.key] })

variable (f capacity) in
/-- A bucket that is there and holds no key is a fault. -/
def PairMap.remove (A : PairMap κ υ) (key : κ) : Exec (PairMap κ υ) :=
  match A.load (f.hashFunc key capacity) with
  | none => .ok A
  | some 0 => .error .null
  | some (n + 1) =>
    match A.pair key with
    | none => .ok A
    | some _ => .ok { A with
      pair := fun a => if f.comparator a key = 0 then none else A.pair a
      load := Function.update A.load (f.hashFunc key capacity) (some n)
      size := A.size - 1 }

/-- The keys are left. -/
def PairMap.clear (A : PairMap κ υ) : PairMap κ υ where
  pair _ := none
  load _ := none
  size := 0
  keys := A.keys

variable (f capacity) in
def pairMapStep (op : HashmapOp κ υ) (A : PairMap κ υ) : Exec (HashmapOut κ υ × PairMap κ υ) :=
  match op with
  | .put key value => .ok (.pair (some (A.put f capacity key value).1), (A.put f capacity key value).2)
  | .find key => .ok (.pair (A.pair key), A)
  | .get key => .ok (.value ((A.pair key).map HashmapPair.value), A)
  | .containsKey key => .ok (.flag (A.pair key).isSome, A)
  | .remove key => do .ok (.none, ← A.remove f capacity key)
  | .size => .ok (.number A.size, A)
  | .keys => .ok (.keys A.keys, A)
  | .clear => .ok (.none, A.clear)

variable (f capacity) in
def pairMapRun : List (HashmapOp κ υ) → PairMap κ υ → Exec (List (HashmapOut κ υ) × PairMap κ υ)
  | [], A => .ok ([], A)
  | op :: ops, A => do
    let (out, A) ← pairMapStep f capacity op A
    let (outs, A) ← pairMapRun ops A
    .ok (out :: outs, A)

/-! ## One list -/

/-- No two keys of a list compare equal. -/
def KeysApart (f : HashmapFuncs κ) (list : List (HashmapPair κ υ)) : Prop :=
  list.Pairwise fun a b => f.comparator a.key b.key ≠ 0

theorem keysApart_map : KeysApart f list ↔ (list.map HashmapPair.key).Pairwise fun a b => f.comparator a b ≠ 0 := by
  rw [KeysApart, List.pairwise_map]

theorem searchList_cons : searchList f key (pair :: list) =
    if f.comparator pair.key key = 0 then some pair else searchList f key list := by
  by_cases heq : f.comparator pair.key key = 0
  · rw [if_pos heq]
    exact List.find?_cons_of_pos (decide_eq_true heq)
  · rw [if_neg heq]
    exact List.find?_cons_of_neg fun h => heq (of_decide_eq_true h)

theorem searchList_eq_none : searchList f key list = none ↔ ∀ pair ∈ list, f.comparator pair.key key ≠ 0 := by
  rw [searchList, List.find?_eq_none]
  exact forall₂_congr fun pair _ => not_congr decide_eq_true_iff

/-- Keys that compare equal are found at the same pair. -/
theorem searchList_same (hf : f.Lawful capacity) (heq : f.comparator key' key = 0) :
    searchList f key' list = searchList f key list := by
  induction list with
  | nil => rfl
  | cons pair rest ih =>
    have hiff : f.comparator pair.key key' = 0 ↔ f.comparator pair.key key = 0 :=
      ⟨fun h => hf.trans _ _ _ h heq, fun h => hf.trans _ _ _ h (hf.symm _ _ heq)⟩
    rw [searchList_cons, searchList_cons, ih]
    simp only [hiff]

theorem assignList_length : (assignList f key value list).length = list.length := by
  induction list with
  | nil => rfl
  | cons pair rest ih =>
    rw [assignList]
    split
    · rfl
    · rw [List.length_cons, List.length_cons, ih]

theorem assignList_keys : (assignList f key value list).map HashmapPair.key = list.map HashmapPair.key := by
  induction list with
  | nil => rfl
  | cons pair rest ih =>
    rw [assignList]
    split
    · rfl
    · rw [List.map_cons, List.map_cons, ih]

/-- The first pair of a key is the one that is found. -/
theorem searchList_assign (hf : f.Lawful capacity) (hfound : searchList f key list = some pair) (a : κ) :
    searchList f a (assignList f key value list) =
      if f.comparator a key = 0 then some { pair with value := value } else searchList f a list := by
  induction list with
  | nil => cases hfound
  | cons first rest ih =>
    rw [searchList_cons] at hfound
    rw [assignList]
    by_cases heq : f.comparator first.key key = 0
    · rw [if_pos heq] at hfound
      obtain rfl := Option.some.inj hfound
      rw [if_pos heq, searchList_cons, searchList_cons]
      by_cases ha : f.comparator a key = 0
      · rw [if_pos ha, if_pos (hf.trans _ _ _ heq (hf.symm _ _ ha))]
      · have hne : f.comparator first.key a ≠ 0 := fun h => ha (hf.trans _ _ _ (hf.symm _ _ h) heq)
        rw [if_neg ha, if_neg hne, if_neg hne]
    · rw [if_neg heq] at hfound
      rw [if_neg heq, searchList_cons, searchList_cons, ih hfound]
      by_cases ha : f.comparator a key = 0
      · have hne : f.comparator first.key a ≠ 0 := fun h => heq (hf.trans _ _ _ h ha)
        simp only [if_pos ha, if_neg hne]
      · simp only [if_neg ha]

/-- `hashmap_remove` comes back from every list but the empty one, without the pair of the key. -/
theorem removeLoop_found (hf : f.Lawful capacity) (hapart : KeysApart f list)
    (hfound : searchList f key list = some pair) :
    ∃ left, removeLoop f key list = .ok (some left) ∧ list.length = left.length + 1 ∧ left.Sublist list ∧
      ∀ a, searchList f a left = if f.comparator a key = 0 then none else searchList f a list := by
  induction list with
  | nil => cases hfound
  | cons first rest ih =>
    obtain ⟨hfirst, hrest⟩ := List.pairwise_cons.mp hapart
    rw [searchList_cons] at hfound
    rw [removeLoop]
    by_cases heq : f.comparator first.key key = 0
    · refine ⟨rest, if_pos heq, List.length_cons, List.sublist_cons_self first rest, fun a => ?_⟩
      rw [searchList_cons]
      by_cases ha : f.comparator a key = 0
      · rw [if_pos ha]
        have hfirsta : f.comparator first.key a = 0 := hf.trans _ _ _ heq (hf.symm _ _ ha)
        exact searchList_eq_none.mpr fun b hb h =>
          hfirst b hb (hf.trans _ _ _ hfirsta (hf.symm _ _ h))
      · have hne : f.comparator first.key a ≠ 0 := fun h => ha (hf.trans _ _ _ (hf.symm _ _ h) heq)
        rw [if_neg ha, if_neg hne]
    · rw [if_neg heq] at hfound
      obtain ⟨left, hrun, hlength, hsub, hsearch⟩ := ih hrest hfound
      have hne : rest.isEmpty = false := by
        cases rest with
        | nil => cases hfound
        | cons _ _ => rfl
      refine ⟨first :: left, ?_, ?_, hsub.cons_cons first, fun a => ?_⟩
      · rw [if_neg heq, hne, hrun]
        rfl
      · rw [List.length_cons, List.length_cons, hlength]
      · rw [searchList_cons, searchList_cons, hsearch]
        by_cases ha : f.comparator a key = 0
        · have hne : f.comparator first.key a ≠ 0 := fun h => heq (hf.trans _ _ _ h ha)
          simp only [if_pos ha, if_neg hne]
        · simp only [if_neg ha]

theorem removeLoop_missed (hne : list ≠ []) (hmissed : searchList f key list = none) :
    removeLoop f key list = .ok none := by
  induction list with
  | nil => exact (hne rfl).elim
  | cons first rest ih =>
    obtain ⟨hfirst, hrest⟩ := List.forall_mem_cons.mp (searchList_eq_none.mp hmissed)
    rw [removeLoop, if_neg hfirst]
    cases rest with
    | nil => rfl
    | cons second rest =>
      rw [ih (List.cons_ne_nil second rest) (searchList_eq_none.mpr hrest)]
      rfl

/-! ## The table -/

variable {A A' : PairMap κ υ}

/-- A table that holds the pairs of `A`. -/
structure HashmapHolds (f : HashmapFuncs κ) (m : Hashmap κ υ) (A : PairMap κ υ) : Prop where
  pair : ∀ key, A.pair key = (m.table (f.hashFunc key m.capacity)).bind (searchList f key)
  load : ∀ b, A.load b = (m.table b).map List.length
  size : A.size = m.size
  keys : A.keys = m.keys
  apart : ∀ b list, m.table b = some list → KeysApart f list

theorem hashmapOffset_eq (hf : f.Lawful m.capacity) (key : κ) :
    hashmapOffset f m key = .ok (f.hashFunc key m.capacity) := if_pos (hf.bound key)

theorem hashmapHolds_init (f : HashmapFuncs κ) (capacity : Nat) :
    HashmapHolds f (hashmapInit capacity) (PairMap.empty κ υ) :=
  ⟨fun _ => rfl, fun _ => rfl, rfl, rfl, nofun⟩

theorem HashmapHolds.clear (h : HashmapHolds f m A) : HashmapHolds f (hashmapClear m) A.clear :=
  ⟨fun _ => rfl, fun _ => rfl, rfl, h.keys, nofun⟩

theorem HashmapHolds.search (h : HashmapHolds f m A) (hf : f.Lawful m.capacity) (key : κ) :
    hashmapSearch f m key = .ok (A.pair key) := by
  rw [hashmapSearch, hashmapOffset_eq hf, ok_bind, h.pair]

theorem HashmapHolds.containsKey (h : HashmapHolds f m A) (hf : f.Lawful m.capacity) (key : κ) :
    hashmapContainsKey f m key = .ok (A.pair key).isSome := by
  rw [hashmapContainsKey, hashmapOffset_eq hf, ok_bind, h.pair]
  cases m.table (f.hashFunc key m.capacity) <;> rfl

/-- A bucket gets another list. -/
theorem HashmapHolds.update {offset n : Nat} {ks : List κ} {new : List (HashmapPair κ υ)} (h : HashmapHolds f m A)
    (hapart : KeysApart f new)
    (hpair : ∀ a, A'.pair a = if f.hashFunc a m.capacity = offset then searchList f a new else A.pair a)
    (hload : A'.load = Function.update A.load offset (some new.length)) (hsize : A'.size = n) (hkeys : A'.keys = ks) :
    HashmapHolds f ⟨m.capacity, n, Function.update m.table offset (some new), ks⟩ A' := by
  refine ⟨fun a => ?_, fun b => ?_, hsize, hkeys, fun b list hlist => ?_⟩
  · dsimp only
    rw [hpair]
    by_cases ha : f.hashFunc a m.capacity = offset
    · rw [if_pos ha, ha, Function.update_self]
      rfl
    · rw [if_neg ha, Function.update_of_ne ha, h.pair]
  · dsimp only
    rw [hload]
    by_cases hb : b = offset
    · rw [hb, Function.update_self, Function.update_self]
      rfl
    · rw [Function.update_of_ne hb, Function.update_of_ne hb, h.load]
  · dsimp only at hlist
    by_cases hb : b = offset
    · rw [hb, Function.update_self] at hlist
      exact Option.some.inj hlist ▸ hapart
    · rw [Function.update_of_ne hb] at hlist
      exact h.apart b list hlist

/-- A key that compares equal belongs to the same bucket. -/
theorem ite_offset {β : Type} {u v w : β} (hf : f.Lawful capacity) (a : κ)
    (hv : f.hashFunc a capacity = f.hashFunc key capacity → f.comparator a key ≠ 0 → v = w) :
    (if f.comparator a key = 0 then u else w) =
      if f.hashFunc a capacity = f.hashFunc key capacity then (if f.comparator a key = 0 then u else v) else w := by
  by_cases ha : f.comparator a key = 0
  · rw [if_pos ha, if_pos (hf.respects a key ha), if_pos ha]
  · by_cases hoffset : f.hashFunc a capacity = f.hashFunc key capacity
    · rw [if_neg ha, if_pos hoffset, if_neg ha, hv hoffset ha]
    · rw [if_neg ha, if_neg hoffset]

theorem hashmapPut_holds (hf : f.Lawful m.capacity) (h : HashmapHolds f m A) (key : κ) (value : υ) :
    ∃ m', hashmapPut f m key value = .ok ((A.put f m.capacity key value).1, m') ∧
      HashmapHolds f m' (A.put f m.capacity key value).2 ∧ m'.capacity = m.capacity := by
  have hpair := h.pair key
  have hload := h.load (f.hashFunc key m.capacity)
  rw [hashmapPut, hashmapOffset_eq hf, ok_bind]
  cases hfound : A.pair key with
  | some pair =>
    obtain ⟨list, hlist, hsearch⟩ := Option.bind_eq_some_iff.mp (hpair.symm.trans hfound)
    have hload : A.load (f.hashFunc key m.capacity) = some list.length := by rw [hload, hlist, Option.map_some]
    simp only [PairMap.put, hfound, hlist, Option.getD_some, hsearch]
    refine ⟨_, rfl, h.update ?_ (fun a => ?_) ?_ h.size h.keys, rfl⟩
    · rw [keysApart_map, assignList_keys, ← keysApart_map]
      exact h.apart _ list hlist
    · rw [searchList_assign hf hsearch]
      refine ite_offset hf a fun hoffset _ => ?_
      rw [h.pair, hoffset, hlist]
      rfl
    · rw [assignList_length, ← hload, Function.update_eq_self]
  | none =>
    obtain ⟨list, hlist⟩ : ∃ list, (m.table (f.hashFunc key m.capacity)).getD [] = list := ⟨_, rfl⟩
    have hsearch (a : κ) (ha : f.hashFunc a m.capacity = f.hashFunc key m.capacity) :
        A.pair a = searchList f a list := by
      rw [h.pair, ha, ← hlist]
      cases m.table (f.hashFunc key m.capacity) <;> rfl
    have hmissed : searchList f key list = none := (hsearch key rfl).symm.trans hfound
    have hlength : (A.load (f.hashFunc key m.capacity)).getD 0 = list.length := by
      rw [hload, ← hlist]
      cases m.table (f.hashFunc key m.capacity) <;> rfl
    have hapart : KeysApart f list := by
      cases htable : m.table (f.hashFunc key m.capacity) with
      | none =>
        rw [htable] at hlist
        exact hlist ▸ List.Pairwise.nil
      | some list' =>
        rw [htable] at hlist
        exact hlist ▸ h.apart _ list' htable
    simp only [PairMap.put, hfound, hlist, hmissed]
    refine ⟨_, rfl, h.update (List.pairwise_cons.mpr ⟨fun b hb => ?_, hapart⟩) (fun a => ?_) ?_ ?_ ?_, rfl⟩
    · exact fun heq => searchList_eq_none.mp hmissed b hb (hf.trans _ _ _ (hf.symm _ _ heq) (hf.dup key))
    · have hiff : f.comparator (f.keyDup key) a = 0 ↔ f.comparator a key = 0 :=
        ⟨fun heq => hf.trans _ _ _ (hf.symm _ _ heq) (hf.dup key),
          fun heq => hf.trans _ _ _ (hf.dup key) (hf.symm _ _ heq)⟩
      rw [searchList_cons]
      simp only [hiff]
      exact ite_offset hf a fun hoffset _ => (hsearch a hoffset).symm
    · rw [hlength, List.length_cons]
    · rw [h.size]
    · rw [h.keys]

theorem hashmapRemove_holds (hf : f.Lawful m.capacity) (h : HashmapHolds f m A) (key : κ) :
    (hashmapRemove f m key = .error .null ∧ A.remove f m.capacity key = .error .null) ∨
      ∃ m' A', hashmapRemove f m key = .ok m' ∧ A.remove f m.capacity key = .ok A' ∧ HashmapHolds f m' A' ∧
        m'.capacity = m.capacity := by
  have hpair := h.pair key
  have hload := h.load (f.hashFunc key m.capacity)
  rw [hashmapRemove, hashmapOffset_eq hf, ok_bind, PairMap.remove, hload]
  cases hlist : m.table (f.hashFunc key m.capacity) with
  | none => exact .inr ⟨m, A, rfl, rfl, h, rfl⟩
  | some list =>
    rw [hlist] at hpair
    cases list with
    | nil => exact .inl ⟨rfl, rfl⟩
    | cons first rest =>
      have hpair : A.pair key = searchList f key (first :: rest) := hpair
      cases hfound : A.pair key with
      | none =>
        have hrun := removeLoop_missed (List.cons_ne_nil first rest) (hpair.symm.trans hfound)
        refine .inr ⟨m, A, ?_, rfl, h, rfl⟩
        dsimp only
        rw [hrun, ok_bind]
      | some pair =>
        obtain ⟨left, hrun, hlength, hsub, hsearch⟩ :=
          removeLoop_found hf (h.apart _ _ hlist) (hpair.symm.trans hfound)
        refine .inr ⟨⟨m.capacity, m.size - 1, Function.update m.table (f.hashFunc key m.capacity) (some left), m.keys⟩,
          _, ?_, rfl, h.update ((h.apart _ _ hlist).sublist hsub) (fun a => ?_) ?_ ?_ h.keys, rfl⟩
        · dsimp only
          rw [hrun, ok_bind]
        · rw [hsearch]
          refine ite_offset hf a fun hoffset _ => ?_
          rw [h.pair, hoffset, hlist]
          rfl
        · rw [← Nat.succ.inj hlength]
        · rw [h.size]

/-! ## Runs -/

/-- Both sides fail alike, or give the same and still hold the same pairs. -/
def Alike (f : HashmapFuncs κ) (capacity : Nat) {β : Type} (x : Exec (β × Hashmap κ υ))
    (y : Exec (β × PairMap κ υ)) : Prop :=
  (∃ e, x = .error e ∧ y = .error e) ∨
    ∃ out m' A', x = .ok (out, m') ∧ y = .ok (out, A') ∧ HashmapHolds f m' A' ∧ m'.capacity = capacity

theorem hashmapStep_alike (hf : f.Lawful m.capacity) (h : HashmapHolds f m A) (op : HashmapOp κ υ) :
    Alike f m.capacity (hashmapStep f op m) (pairMapStep f m.capacity op A) := by
  cases op with
  | put key value =>
    obtain ⟨m', hrun, h', hcap⟩ := hashmapPut_holds hf h key value
    refine .inr ⟨_, m', _, ?_, rfl, h', hcap⟩
    rw [hashmapStep, hrun, ok_bind]
  | find key =>
    refine .inr ⟨_, m, A, ?_, rfl, h, rfl⟩
    rw [hashmapStep, hashmapFind, h.search hf, ok_bind]
  | get key =>
    refine .inr ⟨_, m, A, ?_, rfl, h, rfl⟩
    rw [hashmapStep, hashmapGet, h.search hf, ok_bind, ok_bind]
  | containsKey key =>
    refine .inr ⟨_, m, A, ?_, rfl, h, rfl⟩
    rw [hashmapStep, h.containsKey hf, ok_bind]
  | remove key =>
    obtain ⟨hrun, hspec⟩ | ⟨m', A', hrun, hspec, h', hcap⟩ := hashmapRemove_holds hf h key
    · refine .inl ⟨.null, ?_, ?_⟩
      · rw [hashmapStep, hrun, error_bind]
      · rw [pairMapStep, hspec, error_bind]
    · refine .inr ⟨.none, m', A', ?_, ?_, h', hcap⟩
      · rw [hashmapStep, hrun, ok_bind]
      · rw [pairMapStep, hspec, ok_bind]
  | size => exact .inr ⟨_, m, A, rfl, by rw [pairMapStep, h.size], h, rfl⟩
  | keys => exact .inr ⟨_, m, A, rfl, by rw [pairMapStep, h.keys], h, rfl⟩
  | clear => exact .inr ⟨_, _, _, rfl, rfl, h.clear, rfl⟩

theorem hashmapRun_alike (hf : f.Lawful capacity) (ops : List (HashmapOp κ υ)) (h : HashmapHolds f m A)
    (hcap : m.capacity = capacity) : Alike f capacity (hashmapRun f ops m) (pairMapRun f capacity ops A) := by
  induction ops generalizing m A with
  | nil => exact .inr ⟨[], m, A, rfl, rfl, h, hcap⟩
  | cons op ops ih =>
    subst hcap
    rw [hashmapRun, pairMapRun]
    obtain ⟨e, hx, hy⟩ | ⟨out, m₁, A₁, hx, hy, h₁, hcap₁⟩ := hashmapStep_alike hf h op
    · rw [hx, hy]
      exact .inl ⟨e, rfl, rfl⟩
    · rw [hx, hy]
      obtain ⟨e, hx', hy'⟩ | ⟨outs, m₂, A₂, hx', hy', h₂, hcap₂⟩ := ih h₁ hcap₁
      · refine .inl ⟨e, ?_, ?_⟩
        · simp only [ok_bind, hx', error_bind]
        · simp only [ok_bind, hy', error_bind]
      · refine .inr ⟨out :: outs, m₂, A₂, ?_, ?_, h₂, hcap₂⟩
        · simp only [ok_bind, hx']
        · simp only [ok_bind, hy']

/-- A run on a new table gives what the map of pairs gives, and fails exactly where this does: at a key whose bucket
is there and holds no key any more. -/
theorem hashmapRun_outs (hf : f.Lawful capacity) (ops : List (HashmapOp κ υ)) :
    (hashmapRun f ops (hashmapInit capacity)).map Prod.fst =
      (pairMapRun f capacity ops (.empty κ υ)).map Prod.fst := by
  obtain ⟨e, hx, hy⟩ | ⟨outs, m', A', hx, hy, -, -⟩ := hashmapRun_alike hf ops (hashmapHolds_init f capacity) rfl
  · rw [hx, hy]
    rfl
  · rw [hx, hy]
    rfl

/-- The default comparator only looks at 32 bits, so the default functions make a map where the capacity divides
2 ^ 32, of the keys up to these bits. -/
theorem hashmapDefaultComparator_eq_zero (l r : UInt64) :
    hashmapDefaultComparator l r = 0 ↔ l.toNat % 2 ^ 32 = r.toNat % 2 ^ 32 := by
  have hl := l.toNat_lt
  have hr := r.toNat_lt
  have hzero : hashmapDefaultComparator l r = 0 ↔ (l - r).toBitVec.truncate 32 = 0#32 := by
    rw [hashmapDefaultComparator, ← BitVec.toInt_inj, BitVec.toInt_zero]
  have hbits : ((l - r).toBitVec.truncate 32).toNat = (l - r).toNat % 2 ^ 32 := BitVec.toNat_setWidth 32 _
  have hnat : (0#32).toNat = 0 := rfl
  rw [hzero, ← BitVec.toNat_inj, hbits, hnat, UInt64.toNat_sub]
  omega

theorem hashmapDefault_lawful (hdvd : capacity ∣ 2 ^ 32) : hashmapDefault.Lawful capacity := by
  have hpos : 0 < capacity := Nat.pos_of_dvd_of_pos hdvd (Nat.two_pow_pos 32)
  have hsame (a b : UInt64) : hashmapDefault.comparator a b = 0 ↔ a.toNat % 2 ^ 32 = b.toNat % 2 ^ 32 :=
    hashmapDefaultComparator_eq_zero a b
  refine ⟨fun a => ?_, fun a b hab => ?_, fun a b c hab hbc => ?_, fun a => Nat.mod_lt _ hpos, fun a b hab => ?_,
    fun a => ?_⟩
  · rw [hsame]
  · rw [hsame] at hab ⊢
    exact hab.symm
  · rw [hsame] at hab hbc ⊢
    exact hab.trans hbc
  · rw [hsame] at hab
    have hmod := congrArg (· % capacity) hab
    rwa [Nat.mod_mod_of_dvd _ hdvd, Nat.mod_mod_of_dvd _ hdvd] at hmod
  · exact (hsame a a).mpr rfl

/-- Two keys that differ by 2 ^ 32 are one, and the second removal finds the bucket empty. -/
theorem hashmapRun_outs_default :
    (hashmapRun hashmapDefault
      [.put 1 'a', .put 9 'b', .put 0x100000001 'c', .get 1, .size, .remove 9, .containsKey 9, .remove 1, .size]
      (hashmapInit 8)).map Prod.fst =
        .ok [.pair (some ⟨1, 'a'⟩), .pair (some ⟨9, 'b'⟩), .pair (some ⟨1, 'c'⟩), .value (some 'c'), .number 2,
          .none, .flag false, .none, .number 0] ∧
    (hashmapRun hashmapDefault [.put 1 'a', .remove 1, .remove 1] (hashmapInit 8)).map Prod.fst = .error .null :=
  ⟨(hashmapRun_outs (hashmapDefault_lawful (by decide)) _).trans rfl,
    (hashmapRun_outs (hashmapDefault_lawful (by decide)) _).trans rfl⟩

end Dirlist
