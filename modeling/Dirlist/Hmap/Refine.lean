import Dirlist.Hmap.Update

/-! Runs of the table against runs of a finite map. A run agrees with the map exactly as
long as no step stores a new key into an emptied root slot whose ring still holds other
tuples. -/

namespace Dirlist
open Run Ring

/-! ## The finite map -/

abbrev HmapSpec := Bytes → Option HmapVals

/-- The value a call stores, if it stores one under an absent key. -/
def HmapOp.vals? : HmapOp → Option HmapVals
  | .add _ arg => arg.vals?
  | .set _ data => some (.chars (some data))
  | .delete _ => none

/-- What one call means: `hmap_add` leaves a stored key alone, `hmap_set` overwrites. -/
def HmapOp.spec (m : HmapSpec) : HmapOp → HmapSpec
  | .add key arg => if (m key).isSome ∨ arg.vals? = none then m else Function.update m key arg.vals?
  | .set key data => Function.update m key (some (.chars (some data)))
  | .delete key => Function.update m key none

theorem spec_of_ne (m : HmapSpec) {op : HmapOp} {key : Bytes} (h : key ≠ op.key) :
    op.spec m key = m key := by
  cases op with
  | add k arg =>
    simp only [HmapOp.spec]
    split
    · rfl
    · exact Function.update_of_ne h _ _
  | set k data => exact Function.update_of_ne h _ _
  | delete k => exact Function.update_of_ne h _ _

/-- The same with the order of insertion kept. -/
def HmapOp.apply (d : Dict Bytes HmapVals) : HmapOp → Dict Bytes HmapVals
  | .add key arg =>
    match arg.vals? with
    | some v => d.add key v
    | none => d
  | .set key data => d.set key (.chars (some data))
  | .delete key => d.erase key

theorem get?_apply (d : Dict Bytes HmapVals) (op : HmapOp) : (op.apply d).get? = op.spec d.get? := by
  funext k
  cases op with
  | add key arg =>
    cases hv : arg.vals? with
    | none => simp [HmapOp.apply, HmapOp.spec, hv]
    | some v =>
      simp only [HmapOp.apply, HmapOp.spec, hv, Dict.get?_add, reduceCtorEq, or_false]
      cases hd : d.get? key with
      | none =>
        by_cases hk : key = k
        · simp [hk]
        · simp [hk, Function.update_of_ne (Ne.symm hk)]
      | some w => simp
  | set key data =>
    simp only [HmapOp.apply, HmapOp.spec, Dict.get?_set]
    by_cases hk : key = k
    · simp [hk]
    · simp [hk, Function.update_of_ne (Ne.symm hk)]
  | delete key =>
    simp only [HmapOp.apply, HmapOp.spec, Dict.get?_erase]
    by_cases hk : key = k
    · simp [hk]
    · simp [hk, Function.update_of_ne (Ne.symm hk)]

/-- A search gives the value `v`, or reports that there is none. -/
def Finds (db : HmapDb) (key : Bytes) : Option HmapVals → Prop
  | some v => ∃ p t, Returns (fun n => hmapSearch n db key) (.success, some p) ∧
    db.cells p = some t ∧ t.key = key ∧ t.vals = v
  | none => Returns (fun n => hmapSearch n db key) (.tupleNotFound, none)

/-- Every search gives what the map holds. -/
def Agrees (db : HmapDb) (m : HmapSpec) : Prop := ∀ key, key ≠ [] → Finds db key (m key)

theorem Rep.agrees {db : HmapDb} {d : Dict Bytes HmapVals} (h : Rep db d) : Agrees db d.get? := by
  obtain ⟨ts, ord, hi, rfl⟩ := h
  intro key hk
  rcases hi.search hk with ⟨p, hp, hkp, hs⟩ | ⟨hno, hs⟩
  · obtain ⟨t, ht, rfl⟩ := Option.map_eq_some_iff.mp hkp
    rw [entries_get? hp ht fun b hb hkb => hi.key_unique hb hp hkb hkp]
    exact ⟨p, t, hs, ht, rfl, rfl⟩
  · rw [entries_get?_none hno]
    exact hs

theorem rep_init {bs : Nat} (hbs : 1 ≤ bs) : Rep (hmapInit bs) [] := by
  have hcell : ∀ i < bs, (hmapInit bs).cells i = some .zero := fun i hi => if_pos hi
  refine ⟨fun _ => [], [], ⟨hbs, Nat.le_refl _, fun a ha => ?_, fun i hi => ?_, trivial, ?_, rfl⟩, rfl⟩
  · exact if_neg (Nat.not_lt.mpr ha)
  · refine ⟨.inl ⟨rfl, .zero, hcell i hi, rfl, rfl, rfl⟩, by simp, by simp, ?_, ?_⟩
    · intro a ha k j hk he
      rw [List.mem_singleton.mp ha, headAt, hcell i hi] at he
      cases he
      exact absurd rfl hk
    · intro a ha b hb k hk hea heb
      rw [List.mem_singleton.mp ha, List.mem_singleton.mp hb]
  · intro a
    constructor
    · intro h
      cases h
    · rintro ⟨⟨i, hi, ha⟩, k, hk, he⟩
      rw [List.mem_singleton.mp ha, keyAt, hcell i hi] at he
      cases he
      exact absurd rfl hk

/-! ## One step -/

/-- The step stores a new key into an empty root slot that is on a ring with others. -/
def LosesRing (db : HmapDb) (op : HmapOp) : Prop :=
  op.vals?.isSome ∧ Returns (fun n => hmapSearch n db op.key) (.tupleNotFound, none) ∧
    ∃ t, db.cells (db.indexOf op.key) = some t ∧ t.key = [] ∧
      t.hashNext ≠ none ∧ t.hashNext ≠ some (db.indexOf op.key)

section Step
variable {db : HmapDb} {ts : Addr → List Addr} {ord : List Addr} {key : Bytes}

/-- A root slot that is linked to nothing else has no secondary tuples. -/
theorem HmapInv.alone (hi : HmapInv db ts ord) {i : Addr} (hlt : i < db.bucketSize) {t : Tuple}
    (ht : db.cells i = some t) (hn : t.hashNext = none ∨ t.hashNext = some i) : ts i = [] := by
  rcases (hi.bucket i hlt).links with ⟨h, -⟩ | hr
  · exact h
  · cases hts : ts i with
    | nil => rfl
    | cons b l =>
      rw [hts] at hr
      have hl : hashLinks.Linked db.cells i b := by
        have hc := hr.chain
        rw [List.cons_append, List.cons_append, List.isChain_cons_cons] at hc
        exact hc.1
      have hb := hashNext_of_linked hl ht
      have hib : b ≠ i := by
        rintro rfl
        exact (List.nodup_cons.mp hr.nodup).1 List.mem_cons_self
      rcases hn with hn | hn
      · cases hb.symm.trans hn
      · exact absurd (Option.some.inj (hb.symm.trans hn)) hib

/-- `hmap_add` of an absent key. -/
theorem hmapAdd_absent (hi : HmapInv db ts ord) (arg : HmapArg) {v : HmapVals} (hk : key ≠ [])
    (hlen : key.length < maxSizeKey) (hv : arg.vals? = some v)
    (hno : ∀ a ∈ ord, keyAt db.cells a ≠ some key)
    (hs : Returns (fun n => hmapSearch n db key) (.tupleNotFound, none))
    (halone : ∀ t, db.cells (db.indexOf key) = some t → t.key = [] →
      t.hashNext = none ∨ t.hashNext = some (db.indexOf key)) :
    ∃ db', Returns (fun n => hmapAdd n db key arg) (.ok (db.indexOf key), db') ∧
      Rep db' (entries db.cells ord ++ [(key, v)]) := by
  have hlt := hi.index_lt key
  obtain ⟨root, hroot⟩ := Option.isSome_iff_exists.mp ((hi.bucket _ hlt).links.isSome List.mem_cons_self)
  by_cases he : root.key = []
  · obtain ⟨db', heq, hrep⟩ := hmapReuseRoot_spec hi hk hlen hv hno hroot he
      (hi.alone hlt hroot (halone root hroot he))
    exact ⟨db', hmapAdd_of_reuse hk hs hroot he heq, hrep⟩
  · obtain ⟨db', heq, hrep⟩ := hmapAddSecondary_spec hi hk hlen hv hno hroot he
    exact ⟨db', hmapAdd_of_secondary hk hs hroot he heq, hrep⟩

/-- `hmap_add` of an absent key with a data type it does not know stores nothing. -/
theorem hmapAdd_invalid (hi : HmapInv db ts ord) {arg : HmapArg} (hk : key ≠ [])
    (hv : arg.vals? = none) (hs : Returns (fun n => hmapSearch n db key) (.tupleNotFound, none)) :
    Returns (fun n => hmapAdd n db key arg) (.error .dataTypeInvalid, db) := by
  obtain ⟨root, hroot⟩ :=
    Option.isSome_iff_exists.mp ((hi.bucket _ (hi.index_lt key)).links.isSome List.mem_cons_self)
  exact hmapAdd_of_invalid hk hs hroot hv

theorem hmapAdd_present {arg : HmapArg} {p : Addr} (hk : key ≠ [])
    (hs : Returns (fun n => hmapSearch n db key) (.success, some p)) :
    Returns (fun n => hmapAdd n db key arg) (.error .tupleAlreadyExist, db) := by
  unfold hmapAdd
  simp only [hk, if_false]
  exact Returns.bind hs (returns_ok _)

theorem hmapSet_absent {data : Bytes} {db' : HmapDb} {r : Except HmapError Nat}
    {q : HmapError × Option Addr} (hk : key ≠ [])
    (hs : Returns (fun n => hmapSearch n db key) (.tupleNotFound, none))
    (ha : Returns (fun n => hmapAdd n db key (.chars data)) (r, db'))
    (hs' : Returns (fun n => hmapSearch n db' key) q) :
    Returns (fun n => hmapSet n db key data) (if q.1 = .success then q.2 else none, db') := by
  unfold hmapSet
  simp only [hk, if_false]
  exact Returns.bind hs (Returns.bind ha (Returns.bind hs' (returns_ok _)))

theorem hmapDelete_absent (hk : key ≠ [])
    (hs : Returns (fun n => hmapSearch n db key) (.tupleNotFound, none)) :
    Returns (fun n => hmapDelete n db key) (.tupleNotFound, db) := by
  unfold hmapDelete
  refine Returns.bind hs (returns_const ?_)
  dsimp only
  rw [if_neg hk, if_neg (by decide)]

/-- Every step but one that loses a ring keeps the representation. -/
theorem hmapStep_rep {d : Dict Bytes HmapVals} {op : HmapOp} (h : Rep db d) (hk : op.key ≠ [])
    (hlen : op.key.length < maxSizeKey) (hring : ¬ LosesRing db op) :
    ∃ db', Returns (fun n => hmapStep n db op) db' ∧ Rep db' (op.apply d) := by
  obtain ⟨ts, ord, hi, rfl⟩ := h
  have hrep : Rep db (entries db.cells ord) := ⟨ts, ord, hi, rfl⟩
  have halone : op.vals?.isSome →
      Returns (fun n => hmapSearch n db op.key) (.tupleNotFound, none) →
      ∀ t, db.cells (db.indexOf op.key) = some t → t.key = [] →
      t.hashNext = none ∨ t.hashNext = some (db.indexOf op.key) := by
    intro hv hs t ht he
    by_contra hcon
    rw [not_or] at hcon
    exact hring ⟨hv, hs, t, ht, he, hcon⟩
  cases op with
  | add key arg =>
    rcases hi.search hk with ⟨p, hp, hkp, hs⟩ | ⟨hno, hs⟩
    · refine ⟨db, Returns.bind (hmapAdd_present hk hs) (returns_ok _), ?_⟩
      obtain ⟨t, ht, rfl⟩ := Option.map_eq_some_iff.mp hkp
      have hget := entries_get? hp ht fun b hb hkb => hi.key_unique hb hp hkb hkp
      cases hv : arg.vals? with
      | none => simpa only [HmapOp.apply, hv] using hrep
      | some v => simpa only [HmapOp.apply, hv, Dict.add, hget, Option.isSome_some, if_true] using hrep
    · cases hv : arg.vals? with
      | none =>
        refine ⟨db, Returns.bind (hmapAdd_invalid hi hk hv hs) (returns_ok _), ?_⟩
        simpa only [HmapOp.apply, hv] using hrep
      | some v =>
        obtain ⟨db', hadd, hrep'⟩ := hmapAdd_absent hi arg hk hlen hv hno hs
          (halone (by simp [HmapOp.vals?, hv]) hs)
        refine ⟨db', Returns.bind hadd (returns_ok _), ?_⟩
        have hnone : (entries db.cells ord).get? key = none := entries_get?_none hno
        simpa only [HmapOp.apply, hv, Dict.add_of_none hnone, HmapOp.key] using hrep'
  | set key data =>
    rcases hi.search hk with ⟨p, hp, hkp, hs⟩ | ⟨hno, hs⟩
    · obtain ⟨db', hset, hrep'⟩ := hmapSet_present hi data hk hp hkp hs
      exact ⟨db', Returns.bind hset (returns_ok _), hrep'⟩
    · obtain ⟨db', hadd, hrep'⟩ := hmapAdd_absent hi (.chars data) hk hlen rfl hno hs
        (halone rfl hs)
      obtain ⟨ts', ord', hi', -⟩ := id hrep'
      have hs' : ∃ q, Returns (fun n => hmapSearch n db' key) q := by
        rcases hi'.search hk with ⟨p, -, -, hs'⟩ | ⟨-, hs'⟩
        · exact ⟨_, hs'⟩
        · exact ⟨_, hs'⟩
      obtain ⟨q, hs'⟩ := hs'
      refine ⟨db', Returns.bind (hmapSet_absent hk hs hadd hs') (returns_ok _), ?_⟩
      have hnone : (entries db.cells ord).get? key = none := entries_get?_none hno
      simpa only [HmapOp.apply, Dict.set_of_none hnone, HmapOp.key] using hrep'
  | delete key =>
    rcases hi.search hk with ⟨p, hp, hkp, hs⟩ | ⟨hno, hs⟩
    · obtain ⟨db', hdel, hrep'⟩ := hmapDelete_present hi hk hp hkp hs
      exact ⟨db', Returns.bind hdel (returns_ok _), hrep'⟩
    · refine ⟨db, Returns.bind (hmapDelete_absent hk hs) (returns_ok _), ?_⟩
      have herase : (entries db.cells ord).erase key = entries db.cells ord := by
        refine List.filter_eq_self.mpr fun e he => ?_
        have hnone : (entries db.cells ord).get? key = none := entries_get?_none hno
        rw [Dict.get?_eq_none] at hnone
        have hne : e.1 ≠ key := fun h => hnone (h ▸ List.mem_map_of_mem he)
        simpa using hne
      simpa only [HmapOp.apply, herase] using hrep

/-- A root slot linked to something else has a secondary tuple, and that holds a key. -/
theorem HmapInv.exists_secondary (hi : HmapInv db ts ord) {i : Addr} (hlt : i < db.bucketSize)
    {root : Tuple} (hroot : db.cells i = some root) (hnone : root.hashNext ≠ none)
    (hself : root.hashNext ≠ some i) :
    ∃ b t, b ∈ ord ∧ db.cells b = some t ∧ t.key ≠ [] ∧ db.indexOf t.key = i := by
  obtain ⟨b, hb⟩ : ∃ b, b ∈ ts i := by
    rcases (hi.bucket i hlt).links with ⟨-, t, ht, hn, -, -⟩ | hr
    · exact absurd (Option.some.inj (hroot.symm.trans ht) ▸ hn) hnone
    · cases hts : ts i with
      | cons b l => exact ⟨b, List.mem_cons_self⟩
      | nil =>
        rw [hts] at hr
        have hc := hr.chain
        simp only [List.cons_append, List.nil_append, List.isChain_pair] at hc
        exact absurd (hashNext_of_linked hc hroot) hself
  have hbi : b ∈ i :: ts i := List.mem_cons_of_mem _ hb
  obtain ⟨t, ht⟩ := Option.isSome_iff_exists.mp ((hi.bucket i hlt).links.isSome hbi)
  have hkb : keyAt db.cells b = some t.key := by simp [keyAt, ht]
  have hne : t.key ≠ [] := by
    have hfull := (hi.bucket i hlt).full b hb
    rw [hkb] at hfull
    simpa using hfull
  have hhead : headAt db.cells b = some (t.key, t.index) := by simp [headAt, ht]
  exact ⟨b, t, (hi.live b).mpr ⟨⟨i, hlt, hbi⟩, t.key, hne, hkb⟩, ht, hne,
    ((hi.bucket i hlt).home b hbi t.key t.index hne hhead).2⟩

/-- After `hmap_add` into an empty root slot only the new key is found in the bucket. -/
theorem hmapAdd_reuse (hi : HmapInv db ts ord) (arg : HmapArg) {v : HmapVals} {root : Tuple}
    (hk : key ≠ []) (hlen : key.length < maxSizeKey) (hv : arg.vals? = some v)
    (hs : Returns (fun n => hmapSearch n db key) (.tupleNotFound, none))
    (hroot : db.cells (db.indexOf key) = some root) (he : root.key = []) :
    ∃ db', Returns (fun n => hmapAdd n db key arg) (.ok (db.indexOf key), db') ∧
      ∀ k, k ≠ [] → db.indexOf k = db.indexOf key → Returns (fun n => hmapSearch n db' k)
        (if k = key then (.success, some (db.indexOf key)) else (.tupleNotFound, none)) := by
  obtain ⟨cells', first, heq, hring, hcontent, -, -, -⟩ :=
    hmapReuseRoot_eq (hi.bucket _ (hi.index_lt key)).links hi.list (hi.root_not_mem hroot he) hlen hv hroot
  obtain ⟨t, ht, hc⟩ := Option.map_eq_some_iff.mp hcontent
  simp only [Prod.mk.injEq] at hc
  have hkt : keyAt cells' (db.indexOf key) = some key := by
    rw [keyAt, ht, Option.map_some, hc.1]
  refine ⟨{ db with cells := cells', listTuple := first, tupleCount := db.tupleCount + 1 },
    hmapAdd_of_reuse hk hs hroot he heq, fun k hk' hkix => ?_⟩
  · obtain ⟨db', hdb'⟩ : ∃ db' : HmapDb, db' = { db with
      cells := cells', listTuple := first, tupleCount := db.tupleCount + 1 } := ⟨_, rfl⟩
    have hix : db'.indexOf k = db.indexOf key := by
      rw [hdb']
      exact hkix
    have hcells : db'.cells = cells' := by rw [hdb']
    have hb : IsBucket db'.cells (db'.indexOf k) [] := by
      rw [hcells, hix]
      exact .inr hring
    have hsearch := returns_hmapSearch hk' hb
    rw [← hdb']
    rw [hcells, hix, List.find?_cons, List.find?_nil, hkt] at hsearch
    by_cases hkk : k = key
    · simpa [hkk, searchResult] using hsearch
    · have hkk' : ¬ key = k := fun h => hkk h.symm
      simpa [hkk, hkk', searchResult] using hsearch

/-- A step that loses a ring makes a key unreachable that it is not about. -/
theorem LosesRing.step {d : Dict Bytes HmapVals} {op : HmapOp} (hl : LosesRing db op)
    (h : Rep db d) (hk : op.key ≠ []) (hlen : op.key.length < maxSizeKey) :
    ∃ db' key, Returns (fun n => hmapStep n db op) db' ∧ key ≠ [] ∧ key ≠ op.key ∧
      (d.get? key).isSome ∧ Returns (fun n => hmapSearch n db' key) (.tupleNotFound, none) := by
  obtain ⟨ts, ord, hi, rfl⟩ := h
  obtain ⟨hv, hs, root, hroot, he, hnone, hself⟩ := hl
  obtain ⟨v, hv⟩ := Option.isSome_iff_exists.mp hv
  obtain ⟨b, t, hb, ht, hne, hhome⟩ := hi.exists_secondary (hi.index_lt op.key) hroot hnone hself
  have hkb : keyAt db.cells b = some t.key := by simp [keyAt, ht]
  have hget := entries_get? hb ht fun c hc hkc => hi.key_unique hc hb hkc hkb
  have hkop : t.key ≠ op.key := by
    intro hk'
    rcases hi.search hk with ⟨p, -, -, hs'⟩ | ⟨hno, -⟩
    · cases hs.unique hs'
    · exact hno b hb (hk' ▸ hkb)
  have hsome : ((entries db.cells ord).get? t.key).isSome := by simp [hget]
  cases op with
  | add key arg =>
    obtain ⟨db', hadd, hsearch⟩ := hmapAdd_reuse hi arg hk hlen hv hs hroot he
    have hlost := hsearch t.key hne hhome
    rw [if_neg hkop] at hlost
    exact ⟨db', t.key, Returns.bind hadd (returns_ok _), hne, hkop, hsome, hlost⟩
  | set key data =>
    obtain ⟨db', hadd, hsearch⟩ := hmapAdd_reuse hi (.chars data) hk hlen hv hs hroot he
    have hlost := hsearch t.key hne hhome
    rw [if_neg hkop] at hlost
    have hset := hmapSet_absent hk hs hadd (hsearch _ hk rfl)
    exact ⟨db', t.key, Returns.bind hset (returns_ok _), hne, hkop, hsome, hlost⟩
  | delete key => cases hv

end Step

/-! ## Whole runs -/

/-- No step of the run loses a ring. -/
def KeepsRings : HmapDb → List HmapOp → Prop
  | _, [] => True
  | db, op :: ops => ¬ LosesRing db op ∧
    ∀ db', Returns (fun n => hmapStep n db op) db' → KeepsRings db' ops

/-- The run comes back and agrees with the map after each of its steps. -/
def RunAgrees (db : HmapDb) (m : HmapSpec) (ops : List HmapOp) : Prop :=
  ∀ done, done <+: ops → ∃ db', Returns (fun n => hmapRun n db done) db' ∧
    Agrees db' (done.foldl HmapOp.spec m)

theorem returns_hmapRun_cons {db db₁ db₂ : HmapDb} {op : HmapOp} {ops : List HmapOp}
    (hstep : Returns (fun n => hmapStep n db op) db₁) (hrun : Returns (fun n => hmapRun n db₁ ops) db₂) :
    Returns (fun n => hmapRun n db (op :: ops)) db₂ :=
  Returns.bind hstep hrun

theorem RunAgrees.cons {db db₁ : HmapDb} {m : HmapSpec} {op : HmapOp} {ops : List HmapOp}
    (hm : Agrees db m) (hstep : Returns (fun n => hmapStep n db op) db₁)
    (h : RunAgrees db₁ (op.spec m) ops) : RunAgrees db m (op :: ops) := by
  intro done hdone
  cases done with
  | nil => exact ⟨db, returns_ok _, hm⟩
  | cons op' done =>
    obtain ⟨rfl, hdone'⟩ := List.cons_prefix_cons.mp hdone
    obtain ⟨db', hrun, hagree⟩ := h done hdone'
    exact ⟨db', returns_hmapRun_cons hstep hrun, hagree⟩

theorem RunAgrees.tail {db db₁ : HmapDb} {m : HmapSpec} {op : HmapOp} {ops : List HmapOp}
    (h : RunAgrees db m (op :: ops)) (hstep : Returns (fun n => hmapStep n db op) db₁) :
    RunAgrees db₁ (op.spec m) ops := by
  intro done hdone
  obtain ⟨db', hrun, hagree⟩ := h (op :: done) (List.cons_prefix_cons.mpr ⟨rfl, hdone⟩)
  refine ⟨db', ?_, hagree⟩
  obtain ⟨M, hM⟩ := hstep
  obtain ⟨N, hN⟩ := hrun
  refine ⟨max M N, fun n hn => ?_⟩
  have hMn := hM n ((le_max_left M N).trans hn)
  have hNn := hN n ((le_max_right M N).trans hn)
  dsimp only at hMn hNn
  rwa [hmapRun, hMn, ok_bind] at hNn

theorem Rep.runAgrees {db : HmapDb} {d : Dict Bytes HmapVals} {ops : List HmapOp} (h : Rep db d)
    (hops : ∀ op ∈ ops, op.key ≠ [] ∧ op.key.length < maxSizeKey) :
    RunAgrees db d.get? ops ↔ KeepsRings db ops := by
  induction ops generalizing db d with
  | nil =>
    refine iff_of_true (fun done hdone => ?_) trivial
    rw [List.prefix_nil.mp hdone]
    exact ⟨db, returns_ok _, h.agrees⟩
  | cons op ops ih =>
    have hop := hops op List.mem_cons_self
    have hrest : ∀ o ∈ ops, o.key ≠ [] ∧ o.key.length < maxSizeKey :=
      fun o ho => hops o (List.mem_cons_of_mem _ ho)
    by_cases hl : LosesRing db op
    · refine iff_of_false (fun hrun => ?_) fun hkeep => hkeep.1 hl
      obtain ⟨db', key, hstep, hk, hko, hsome, hlost⟩ := hl.step h hop.1 hop.2
      -- The map still holds the key, so the search ought to have found it.
      obtain ⟨db'', hnil, hagree⟩ := hrun.tail hstep [] List.nil_prefix
      obtain rfl : db' = db'' := (returns_ok db').unique hnil
      obtain ⟨v, hv⟩ := Option.isSome_iff_exists.mp hsome
      have hfind := hagree key hk
      rw [List.foldl_nil, spec_of_ne _ hko, hv] at hfind
      obtain ⟨p, t, hs, -⟩ := hfind
      cases hlost.unique hs
    · obtain ⟨db', hstep, hrep⟩ := hmapStep_rep h hop.1 hop.2 hl
      have hih := ih hrep hrest
      rw [get?_apply] at hih
      constructor
      · intro hrun
        refine ⟨hl, fun db'' hstep' => ?_⟩
        obtain rfl : db' = db'' := hstep.unique hstep'
        exact hih.mp (hrun.tail hstep)
      · rintro ⟨-, hkeep⟩
        exact RunAgrees.cons h.agrees hstep (hih.mpr (hkeep db' hstep))

/-- On a fresh table, a run gives at each moment what a finite map gives if and only if
none of its steps loses a ring. -/
theorem hmapRun_agrees_iff (bucketSize : Nat) (hbs : 1 ≤ bucketSize) (ops : List HmapOp)
    (hops : ∀ op ∈ ops, op.key ≠ [] ∧ op.key.length < maxSizeKey) :
    RunAgrees (hmapInit bucketSize) (fun _ => none) ops ↔ KeepsRings (hmapInit bucketSize) ops :=
  (rep_init hbs).runAgrees hops

theorem hmapRun_agrees_iff_one_bucket :
    RunAgrees (hmapInit 1) (fun _ => none) [.add [97] (.int 1), .set [98] [120], .delete [97]] ↔
      KeepsRings (hmapInit 1) [.add [97] (.int 1), .set [98] [120], .delete [97]] :=
  hmapRun_agrees_iff 1 (by decide) _ (by decide)

/-! ## A run that loses a key -/

theorem steady_hmapSearch (db : HmapDb) (key : Bytes) : Steady (fun n => hmapSearch n db key) := by
  have hring : ∀ itr s, Steady (fun n => loop (searchRing db.cells key itr) n s) :=
    fun itr => steady_loop fun s => by
      cases s <;> exact steady_const _
  have hfrom : ∀ s, Steady (fun n => loop (searchFrom db.cells key (db.indexOf key)) n s) :=
    steady_loop fun s => by
      cases s with
      | none => exact steady_const _
      | some itr => exact (hring itr _).bind fun o => by cases o <;> exact steady_const _
  unfold hmapSearch
  by_cases hk : key = []
  · simp only [hk, if_true]
    exact steady_const _
  · simp only [hk, if_false]
    exact (hfrom _).bind fun o => by cases o <;> exact steady_const _

theorem steady_hmapAdd (db : HmapDb) (key : Bytes) (arg : HmapArg) :
    Steady (fun n => hmapAdd n db key arg) := by
  unfold hmapAdd
  by_cases hk : key = []
  · simp only [hk, if_true]
    exact steady_const _
  · simp only [hk, if_false]
    exact (steady_hmapSearch db key).bind fun _ => steady_const _

theorem steady_hmapDelete (db : HmapDb) (key : Bytes) : Steady (fun n => hmapDelete n db key) :=
  (steady_hmapSearch db key).bind fun _ => steady_const _

theorem steady_hmapSet (db : HmapDb) (key data : Bytes) :
    Steady (fun n => hmapSet n db key data) := by
  unfold hmapSet
  by_cases hk : key = []
  · simp only [hk, if_true]
    exact steady_const _
  · simp only [hk, if_false]
    refine (steady_hmapSearch db key).bind fun q => ?_
    by_cases hq : q.1 = .success
    · simp only [hq, if_true]
      exact steady_const _
    · simp only [hq, if_false]
      exact (steady_hmapAdd db key _).bind fun a =>
        (steady_hmapSearch a.2 key).bind fun _ => steady_const _

theorem steady_hmapRun (db : HmapDb) (ops : List HmapOp) : Steady (fun n => hmapRun n db ops) := by
  induction ops generalizing db with
  | nil => exact steady_const _
  | cons op ops ih =>
    refine Steady.bind ?_ fun db' => ih db'
    cases op with
    | add key arg => exact (steady_hmapAdd db key arg).bind fun _ => steady_const _
    | set key data => exact (steady_hmapSet db key data).bind fun _ => steady_const _
    | delete key => exact (steady_hmapDelete db key).bind fun _ => steady_const _

/-- With one bucket: store `a` and `b`, delete `a`, store `c`. The key `b` is lost. -/
theorem hmapRun_loses_key : ¬ RunAgrees (hmapInit 1) (fun _ => none)
    [.add [97] (.int 1), .add [98] (.int 2), .delete [97], .add [99] (.int 3)] := by
  intro h
  obtain ⟨db', hrun, hagree⟩ := h _ (List.prefix_refl _)
  have hlost : (hmapRun 20 (hmapInit 1)
      [.add [97] (.int 1), .add [98] (.int 2), .delete [97], .add [99] (.int 3)] >>=
      fun db => hmapSearch 20 db [98]) = .ok (.tupleNotFound, none) := by rfl
  obtain ⟨db, hdb, hnf⟩ := bind_eq_ok hlost
  obtain rfl : db = db' := ((steady_hmapRun _ _).returns hdb).unique hrun
  obtain ⟨p, t, hs, -⟩ : Finds db [98] (some (.int 2)) := hagree [98] (by decide)
  cases ((steady_hmapSearch _ _).returns hnf).unique hs

end Dirlist
