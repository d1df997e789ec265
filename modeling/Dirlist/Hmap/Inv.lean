import Dirlist.Hmap.Search
import Dirlist.Lib.Dict

/-! The representation invariant of the table and the finite map it stands for. Each
bucket is judged by itself, so an operation only has to account for the bucket it
touches. -/

namespace Dirlist
open Run Ring

def bucketIndex (bucketSize : Nat) (key : Bytes) : Addr := (hmapHash key).toNat % bucketSize

/-- Key and bucket index of a tuple. -/
def headAt (cells : Heap Tuple) (a : Addr) : Option (Bytes × Addr) :=
  (cells a).map fun t => (t.key, t.index)

/-- Bucket `i` with the secondary tuples `l`: its links are sound, only the root slot may
be empty, every stored key hashes here and none is stored twice. -/
structure BucketOk (bs : Nat) (cells : Heap Tuple) (i : Addr) (l : List Addr) : Prop where
  links : IsBucket cells i l
  high : ∀ a ∈ l, bs ≤ a
  full : ∀ a ∈ l, keyAt cells a ≠ some []
  home : ∀ a ∈ i :: l, ∀ k j, k ≠ [] → headAt cells a = some (k, j) → j = i ∧ bucketIndex bs k = i
  keys : ∀ a ∈ i :: l, ∀ b ∈ i :: l, ∀ k, k ≠ [] → keyAt cells a = some k →
    keyAt cells b = some k → a = b

/-- What is left of that when keys may be stored twice: the links are sound, only the root slot may be
empty, and every stored tuple knows its bucket. -/
structure BucketSound (bs : Nat) (cells : Heap Tuple) (i : Addr) (l : List Addr) : Prop where
  links : IsBucket cells i l
  high : ∀ a ∈ l, bs ≤ a
  full : ∀ a ∈ l, keyAt cells a ≠ some []
  index : ∀ a ∈ i :: l, ∀ k j, k ≠ [] → headAt cells a = some (k, j) → j = i

/-- A tuple that holds a key. -/
def IsLive (cells : Heap Tuple) (a : Addr) : Prop := ∃ k, k ≠ [] ∧ keyAt cells a = some k

/-- `ts` gives the secondary tuples of each bucket, `ord` all stored tuples in the order
of insertion. -/
structure HmapInv (db : HmapDb) (ts : Addr → List Addr) (ord : List Addr) : Prop where
  pos : 0 < db.bucketSize
  brk : db.bucketSize ≤ db.brk
  fresh : ∀ a, db.brk ≤ a → db.cells a = none
  bucket : ∀ i < db.bucketSize, BucketOk db.bucketSize db.cells i (ts i)
  list : IsList listLinks db.cells db.listTuple ord
  live : ∀ a, a ∈ ord ↔ (∃ i < db.bucketSize, a ∈ i :: ts i) ∧ IsLive db.cells a
  count : db.tupleCount = ord.length

def entryAt (cells : Heap Tuple) (a : Addr) : Option (Bytes × HmapVals) :=
  (cells a).map fun t => (t.key, t.vals)

def entries (cells : Heap Tuple) (ord : List Addr) : Dict Bytes HmapVals :=
  ord.filterMap (entryAt cells)

/-- The table `db` stands for the finite map `d`, whose order is the order of insertion. -/
def Rep (db : HmapDb) (d : Dict Bytes HmapVals) : Prop :=
  ∃ ts ord, HmapInv db ts ord ∧ d = entries db.cells ord

/-! ## Frames -/

variable {cells cells' : Heap Tuple} {bs : Nat} {i : Addr} {l l' : List Addr}

theorem keyAt_eq_headAt (cells : Heap Tuple) (a : Addr) :
    keyAt cells a = (headAt cells a).map Prod.fst := by
  simp [keyAt, headAt, Function.comp_def]

/-- What the buckets read of a tuple. -/
def bucketView (cells : Heap Tuple) (a : Addr) : Option (Option Addr × Option Addr × Bytes × Addr) :=
  (cells a).map fun t => (t.hashNext, t.hashPrev, t.key, t.index)

theorem map_of_view {β γ : Type} {o o' : Option Tuple} {f : Tuple → β} (h : o'.map f = o.map f)
    (g : β → γ) : o'.map (g ∘ f) = o.map (g ∘ f) := by
  rw [← Option.map_map, ← Option.map_map, h]

theorem headAt_of_view {a : Addr} (h : bucketView cells' a = bucketView cells a) :
    headAt cells' a = headAt cells a := map_of_view h fun v => (v.2.2.1, v.2.2.2)

theorem links_of_view {a : Addr} (h : bucketView cells' a = bucketView cells a) :
    hashLinks.nextAt cells' a = hashLinks.nextAt cells a ∧
      hashLinks.prevAt cells' a = hashLinks.prevAt cells a := by
  have hj : ∀ (o : Option Tuple) (f : Tuple → Option Addr), o.bind f = (o.map f).join :=
    fun o f => by cases o <;> rfl
  refine ⟨?_, ?_⟩
  · exact (hj _ _).trans ((congrArg Option.join (map_of_view h fun v => v.1)).trans (hj _ _).symm)
  · exact (hj _ _).trans ((congrArg Option.join (map_of_view h fun v => v.2.1)).trans (hj _ _).symm)

theorem IsBucket.congr (hb : IsBucket cells i l)
    (h : ∀ a ∈ i :: l, bucketView cells' a = bucketView cells a) : IsBucket cells' i l := by
  rcases hb with ⟨rfl, t, ht, hn, hp, hk⟩ | hr
  · have hs := h i (by simp)
    rw [bucketView, bucketView, ht, Option.map_some, hn, hp, hk] at hs
    obtain ⟨t', ht', he⟩ := Option.map_eq_some_iff.mp hs
    simp only [Prod.mk.injEq] at he
    exact .inl ⟨rfl, t', ht', he.1, he.2.1, he.2.2.1⟩
  · exact .inr (hr.congr fun a ha => links_of_view (h a ha))

/-- A bucket after a change to it: the root slot may have been emptied, and what is left
of the other tuples keeps key and index. -/
theorem BucketOk.shrink (hb : BucketOk bs cells i l) (hl : IsBucket cells' i l')
    (hsub : ∀ a ∈ l', a ∈ l) (hsame : ∀ a ∈ l', headAt cells' a = headAt cells a)
    (hroot : headAt cells' i = headAt cells i ∨ keyAt cells' i = some []) :
    BucketOk bs cells' i l' := by
  have hmem : ∀ a ∈ i :: l', a ∈ i :: l := by
    intro a ha
    rcases List.mem_cons.mp ha with rfl | ha
    · exact List.mem_cons_self
    · exact List.mem_cons_of_mem _ (hsub a ha)
  -- Where a key is left, the tuple is as it was.
  have hold : ∀ a ∈ i :: l', keyAt cells' a ≠ some [] → headAt cells' a = headAt cells a := by
    intro a ha hk
    rcases List.mem_cons.mp ha with rfl | ha
    · exact hroot.resolve_right hk
    · exact hsame a ha
  have hkey : ∀ a ∈ i :: l', ∀ k, k ≠ [] → keyAt cells' a = some k → keyAt cells a = some k := by
    intro a ha k hk he
    have hne : keyAt cells' a ≠ some [] := fun hn => hk (Option.some.inj (he.symm.trans hn))
    rwa [keyAt_eq_headAt, ← hold a ha hne, ← keyAt_eq_headAt]
  refine ⟨hl, fun a ha => hb.high a (hsub a ha), fun a ha => ?_, fun a ha k j hk he => ?_,
    fun a ha b hb' k hk hea heb => ?_⟩
  · rw [keyAt_eq_headAt, hsame a ha, ← keyAt_eq_headAt]
    exact hb.full a (hsub a ha)
  · have hne : keyAt cells' a ≠ some [] := by
      rw [keyAt_eq_headAt, he]
      simpa using hk
    exact hb.home a (hmem a ha) k j hk (hold a ha hne ▸ he)
  · exact hb.keys a (hmem a ha) b (hmem b hb') k hk (hkey a ha k hk hea) (hkey b hb' k hk heb)

theorem BucketOk.congr (hb : BucketOk bs cells i l)
    (h : ∀ a ∈ i :: l, bucketView cells' a = bucketView cells a) : BucketOk bs cells' i l := by
  have hhead : ∀ a ∈ i :: l, headAt cells' a = headAt cells a :=
    fun a ha => headAt_of_view (h a ha)
  exact hb.shrink (hb.links.congr h) (fun _ ha => ha)
    (fun a ha => hhead a (List.mem_cons_of_mem _ ha)) (.inl (hhead i List.mem_cons_self))

/-- A bucket after a new key was put into the tuple `p`. -/
theorem BucketOk.insert {p : Addr} {key : Bytes} (hb : BucketOk bs cells i l)
    (hl : IsBucket cells' i l') (hsub : ∀ a ∈ i :: l', a = p ∨ a ∈ i :: l)
    (hsame : ∀ a ∈ i :: l', a ≠ p → headAt cells' a = headAt cells a)
    (hp : headAt cells' p = some (key, i)) (hhigh : ∀ a ∈ l', bs ≤ a) (hi : i ∉ l')
    (hk : key ≠ []) (hh : bucketIndex bs key = i) (hno : ∀ a ∈ i :: l, keyAt cells a ≠ some key) :
    BucketOk bs cells' i l' := by
  have hmem : ∀ a ∈ i :: l', a ≠ p → a ∈ i :: l := fun a ha hne => (hsub a ha).resolve_left hne
  have hkp : keyAt cells' p = some key := by
    rw [keyAt_eq_headAt, hp]
    rfl
  have hkey : ∀ a ∈ i :: l', a ≠ p → keyAt cells' a = keyAt cells a := by
    intro a ha hne
    rw [keyAt_eq_headAt, hsame a ha hne, ← keyAt_eq_headAt]
  refine ⟨hl, hhigh, fun a ha => ?_, fun a ha k j hk' he => ?_, fun a ha b hb' k hk' hea heb => ?_⟩
  · by_cases hap : a = p
    · subst hap
      rw [hkp]
      simpa using hk
    · have ha' : a ∈ i :: l' := List.mem_cons_of_mem _ ha
      rw [hkey a ha' hap]
      have hai : a ≠ i := fun h => hi (h ▸ ha)
      exact hb.full a ((List.mem_cons.mp (hmem a ha' hap)).resolve_left hai)
  · by_cases hap : a = p
    · subst hap
      rw [hp] at he
      simp only [Option.some.injEq, Prod.mk.injEq] at he
      obtain ⟨rfl, rfl⟩ := he
      exact ⟨rfl, hh⟩
    · exact hb.home a (hmem a ha hap) k j hk' (hsame a ha hap ▸ he)
  · by_cases hap : a = p <;> by_cases hbp : b = p
    · rw [hap, hbp]
    · subst hap
      rw [hkp, Option.some.injEq] at hea
      subst hea
      exact absurd (hkey b hb' hbp ▸ heb) (hno b (hmem b hb' hbp))
    · subst hbp
      rw [hkp, Option.some.injEq] at heb
      subst heb
      exact absurd (hkey a ha hap ▸ hea) (hno a (hmem a ha hap))
    · exact hb.keys a (hmem a ha hap) b (hmem b hb' hbp) k hk' (hkey a ha hap ▸ hea)
        (hkey b hb' hbp ▸ heb)

theorem BucketOk.sound (hb : BucketOk bs cells i l) : BucketSound bs cells i l :=
  ⟨hb.links, hb.high, hb.full, fun a ha k j hk he => (hb.home a ha k j hk he).1⟩

theorem BucketSound.unique {j a : Addr} (hbi : BucketSound bs cells i l) (hbj : BucketSound bs cells j l')
    (hib : i < bs) (hjb : j < bs) (ha : a ∈ i :: l) (hb : a ∈ j :: l') : i = j := by
  rcases List.mem_cons.mp ha with rfl | ha'
  · rcases List.mem_cons.mp hb with rfl | hb'
    · rfl
    · exact absurd hib (Nat.not_lt.mpr (hbj.high a hb'))
  · have hhigh := hbi.high a ha'
    have hb' : a ∈ l' := by
      rcases List.mem_cons.mp hb with rfl | hb'
      · exact absurd hjb (Nat.not_lt.mpr hhigh)
      · exact hb'
    obtain ⟨t, ht⟩ := Option.isSome_iff_exists.mp (hbi.links.isSome ha)
    have hk : t.key ≠ [] := by
      have := hbi.full a ha'
      simpa [keyAt, ht] using this
    have hh : headAt cells a = some (t.key, t.index) := by simp [headAt, ht]
    exact (hbi.index a ha _ _ hk hh).symm.trans (hbj.index a hb _ _ hk hh)

theorem BucketSound.congr (hb : BucketSound bs cells i l)
    (h : ∀ a ∈ i :: l, bucketView cells' a = bucketView cells a) : BucketSound bs cells' i l := by
  have hhead : ∀ a ∈ i :: l, headAt cells' a = headAt cells a := fun a ha => headAt_of_view (h a ha)
  refine ⟨hb.links.congr h, hb.high, fun a ha => ?_, fun a ha k j hk he => ?_⟩
  · rw [keyAt_eq_headAt, hhead a (List.mem_cons_of_mem _ ha), ← keyAt_eq_headAt]
    exact hb.full a ha
  · exact hb.index a ha k j hk (hhead a ha ▸ he)

/-! ## The whole table -/

namespace HmapInv

variable {db db' : HmapDb} {ts : Addr → List Addr} {ord ord' : List Addr}

theorem index_lt (hi : HmapInv db ts ord) (key : Bytes) : db.indexOf key < db.bucketSize :=
  Nat.mod_lt _ hi.pos

/-- No tuple belongs to two buckets. -/
theorem bucket_unique (hi : HmapInv db ts ord) {i j a : Addr} (hib : i < db.bucketSize)
    (hjb : j < db.bucketSize) (ha : a ∈ i :: ts i) (hb : a ∈ j :: ts j) : i = j :=
  (hi.bucket i hib).sound.unique (hi.bucket j hjb).sound hib hjb ha hb

/-- A stored key lies in the bucket it hashes to. -/
theorem mem_home (hi : HmapInv db ts ord) {a : Addr} {key : Bytes} (ha : a ∈ ord)
    (hk : keyAt db.cells a = some key) : key ≠ [] ∧ a ∈ db.indexOf key :: ts (db.indexOf key) := by
  obtain ⟨⟨i, hib, ha'⟩, k, hne, hk'⟩ := (hi.live a).mp ha
  obtain rfl : k = key := Option.some.inj (hk'.symm.trans hk)
  obtain ⟨t, ht, he⟩ := Option.map_eq_some_iff.mp hk
  have hh : headAt db.cells a = some (k, t.index) := by simp [headAt, ht, he]
  obtain ⟨-, hi'⟩ := (hi.bucket i hib).home a ha' _ _ hne hh
  refine ⟨hne, ?_⟩
  have : db.indexOf k = i := hi'
  rw [this]
  exact ha'

theorem mem_ord (hi : HmapInv db ts ord) {a : Addr} {key : Bytes} (hne : key ≠ [])
    (ha : a ∈ db.indexOf key :: ts (db.indexOf key)) (hk : keyAt db.cells a = some key) :
    a ∈ ord := (hi.live a).mpr ⟨⟨_, hi.index_lt key, ha⟩, key, hne, hk⟩

theorem key_unique (hi : HmapInv db ts ord) {a b : Addr} {key : Bytes} (ha : a ∈ ord)
    (hb : b ∈ ord) (hka : keyAt db.cells a = some key) (hkb : keyAt db.cells b = some key) :
    a = b := by
  obtain ⟨hne, ha'⟩ := hi.mem_home ha hka
  obtain ⟨-, hb'⟩ := hi.mem_home hb hkb
  exact (hi.bucket _ (hi.index_lt key)).keys a ha' b hb' key hne hka hkb

/-- What a search returns on a sound table. -/
theorem search (hi : HmapInv db ts ord) {key : Bytes} (hne : key ≠ []) :
    (∃ p ∈ ord, keyAt db.cells p = some key ∧
      Returns (fun n => hmapSearch n db key) (.success, some p)) ∨
    ((∀ p ∈ ord, keyAt db.cells p ≠ some key) ∧
      Returns (fun n => hmapSearch n db key) (.tupleNotFound, none)) := by
  have hs := returns_hmapSearch hne (hi.bucket _ (hi.index_lt key)).links
  cases hf : (db.indexOf key :: ts (db.indexOf key)).find? fun p => keyAt db.cells p = some key with
  | some p =>
    rw [hf] at hs
    have hk : keyAt db.cells p = some key := by simpa using List.find?_some hf
    exact .inl ⟨p, hi.mem_ord hne (List.mem_of_find?_eq_some hf) hk, hk, hs⟩
  | none =>
    rw [hf] at hs
    rw [List.find?_eq_none] at hf
    refine .inr ⟨fun p hp hk => ?_, hs⟩
    exact hf p (hi.mem_home hp hk).2 (by simpa using hk)

/-- The invariant after a change to bucket `i`. -/
theorem update (hi : HmapInv db ts ord) {i : Addr} {l : List Addr}
    (hsize : db'.bucketSize = db.bucketSize) (hbrk : db.brk ≤ db'.brk)
    (hfresh : ∀ a, db'.brk ≤ a → db'.cells a = none)
    (hb : BucketOk db.bucketSize db'.cells i l)
    (hother : ∀ j < db.bucketSize, j ≠ i → ∀ a ∈ j :: ts j,
      bucketView db'.cells a = bucketView db.cells a)
    (hlist : IsList listLinks db'.cells db'.listTuple ord')
    (hlive : ∀ a, a ∈ ord' ↔
      (∃ j < db.bucketSize, a ∈ j :: Function.update ts i l j) ∧ IsLive db'.cells a)
    (hcount : db'.tupleCount = ord'.length) :
    HmapInv db' (Function.update ts i l) ord' := by
  refine ⟨hsize ▸ hi.pos, ?_, hfresh, fun j hj => ?_, hlist, fun a => ?_, hcount⟩
  · rw [hsize]
    exact hi.brk.trans hbrk
  · rw [hsize] at hj ⊢
    by_cases hji : j = i
    · subst hji
      rwa [Function.update_self]
    · rw [Function.update_of_ne hji]
      exact (hi.bucket j hj).congr (hother j hj hji)
  · rw [hsize]
    exact hlive a

end HmapInv

/-! ## The map a table stands for -/

theorem entries_get? {ord : List Addr} {a : Addr} {t : Tuple} (ha : a ∈ ord)
    (ht : cells a = some t)
    (huniq : ∀ b ∈ ord, keyAt cells b = some t.key → b = a) :
    (entries cells ord).get? t.key = some t.vals := by
  induction ord with
  | nil => cases ha
  | cons b ord ih =>
    have huniq' : ∀ c ∈ ord, keyAt cells c = some t.key → c = a :=
      fun c hc => huniq c (List.mem_cons_of_mem _ hc)
    by_cases hba : b = a
    · subst hba
      rw [entries, List.filterMap_cons_some (show entryAt cells b = some (t.key, t.vals) by
        simp [entryAt, ht]), Dict.get?_cons, if_pos rfl]
    · have ha' : a ∈ ord := (List.mem_cons.mp ha).resolve_left fun h => hba h.symm
      cases hb : cells b with
      | none =>
        rw [entries, List.filterMap_cons_none (by simp [entryAt, hb])]
        exact ih ha' huniq'
      | some u =>
        have hne : u.key ≠ t.key := fun he => hba (huniq b (by simp) (by simp [keyAt, hb, he]))
        rw [entries, List.filterMap_cons_some (show entryAt cells b = some (u.key, u.vals) by
          simp [entryAt, hb]), Dict.get?_cons, if_neg hne]
        exact ih ha' huniq'

theorem entries_get?_none {ord : List Addr} {key : Bytes}
    (h : ∀ b ∈ ord, keyAt cells b ≠ some key) : (entries cells ord).get? key = none := by
  rw [Dict.get?_eq_none]
  intro hm
  obtain ⟨⟨k, v⟩, he, rfl⟩ := List.mem_map.mp hm
  obtain ⟨b, hb, heb⟩ := List.mem_filterMap.mp he
  obtain ⟨t, ht, hkv⟩ := Option.map_eq_some_iff.mp heb
  exact h b hb (by simpa [keyAt, ht] using congrArg Prod.fst hkv)

theorem entries_congr {ord : List Addr} (h : ∀ a ∈ ord, entryAt cells' a = entryAt cells a) :
    entries cells' ord = entries cells ord := List.filterMap_congr h

theorem entries_append (cells : Heap Tuple) (ord₁ ord₂ : List Addr) :
    entries cells (ord₁ ++ ord₂) = entries cells ord₁ ++ entries cells ord₂ :=
  List.filterMap_append

end Dirlist
