import Dirlist.Set.Inv

/-! `set_add` refines insertion into a set, through any number of rehashings. Rehashing
calls `set_add` on the table it builds, which may rehash in turn; the length of the table
bounds how deep this goes. -/

namespace Dirlist
open Run

variable {s t : SetT} {val : Bytes}

/-! ## The loop over the old table -/

/-- What one `set_add` may do to a sound table of `L` buckets or more. -/
def AddsTo (add : SetT → Bytes → Exec (Nat × SetT)) (s : SetT) (val : Bytes) : Prop :=
  add s val = .error .assert ∨ ∃ s', add s val = .ok (if val ∈ setValues s then 2 else 1, s') ∧
    SetOk s' ∧ s.len ≤ s'.len ∧ s'.hashFp = s.hashFp ∧ (val ∈ setValues s → s' = s) ∧
    (val ∉ setValues s → (setValues s').Perm (val :: setValues s))

theorem foldlM_add {add : SetT → Bytes → Exec (Nat × SetT)} {L : Nat}
    (hadd : ∀ t val, SetOk t → L ≤ t.len → AddsTo add t val) (vals : List Bytes) (ht : SetOk t)
    (hL : L ≤ t.len) (hnd : (vals ++ setValues t).Nodup) :
    (vals.foldlM (fun t val => do
        let (_, t) ← add t val
        .ok t) t : Exec SetT) = .error .assert ∨
      ∃ t', (vals.foldlM (fun t val => do
        let (_, t) ← add t val
        .ok t) t : Exec SetT) = .ok t' ∧ SetOk t' ∧ L ≤ t'.len ∧ t'.hashFp = t.hashFp ∧
        (setValues t').Perm (vals ++ setValues t) := by
  induction vals generalizing t with
  | nil => exact .inr ⟨t, rfl, ht, hL, rfl, List.Perm.refl _⟩
  | cons val vals ih =>
    rw [List.foldlM_cons]
    rcases hadd t val ht hL with he | ⟨t₁, he, ht₁, hlen, hfp, -, hperm⟩
    · left
      rw [he]
      rfl
    · have hval : val ∉ setValues t := by
        have hnd' := (List.nodup_cons.mp hnd).1
        exact fun h => hnd' (List.mem_append_right _ h)
      have hnd₁ : (vals ++ setValues t₁).Nodup := by
        have hp : (vals ++ setValues t₁).Perm (val :: (vals ++ setValues t)) :=
          ((hperm hval).append_left vals).trans List.perm_middle
        exact hp.nodup_iff.mpr hnd
      rw [he, ok_bind, ok_bind]
      rcases ih ht₁ (hL.trans hlen) hnd₁ with he' | ⟨t₂, he', ht₂, hL₂, hfp₂, hperm₂⟩
      · exact .inl he'
      · refine .inr ⟨t₂, he', ht₂, hL₂, hfp₂.trans hfp, ?_⟩
        exact hperm₂.trans (((hperm hval).append_left vals).trans List.perm_middle)

/-! ## One call -/

theorem setValues_empty (hashFp : Bytes → UInt32) (len : Nat) :
    setValues (emptySet hashFp len) = [] := by
  have hwalk : emptySlot.walk = [] := rfl
  simp [setValues, emptySet, hwalk]

theorem setOk_empty {k : Nat} (hashFp : Bytes → UInt32) (hk : 10 ≤ k) (hb : 2 ^ k < 2 ^ 31) :
    SetOk (emptySet hashFp (2 ^ k)) := by
  have hwalk : emptySlot.walk = [] := rfl
  refine ⟨⟨k, hk, rfl⟩, hb, fun _ _ _ => rfl, fun i _ b hbm => ?_, fun i _ => ?_, ?_, ?_⟩
  · rw [emptySet, hwalk] at hbm
    cases hbm
  · rw [emptySet, hwalk]
    exact List.nodup_nil
  · rw [setValues_empty]
    rfl
  · simp [setChained, emptySet, emptySlot]

theorem setOk_init (hashFp : Bytes → UInt32) : SetOk (setInit hashFp) :=
  setOk_empty hashFp (Nat.le_refl 10) (by decide)

/-- `entries - overflow` is the number of occupied array elements. -/
theorem SetOk.occupied_eq (h : SetOk s) :
    (s.entries + (2 ^ 32 - s.overflow)) % 2 ^ 32 = setOccupied s := by
  have hlen := h.length_values
  have hocc : setOccupied s ≤ s.len := by
    rw [setOccupied]
    exact (List.length_filter_le _ _).trans (Nat.le_of_eq List.length_range)
  have hb := h.bound
  rw [h.entries, h.overflow, hlen]
  omega

/-- Rehashing keeps the values, if the longer table can be had at all. -/
theorem setRealloc_spec {add : SetT → Bytes → Exec (Nat × SetT)} {k : Nat} (h : SetOk s)
    (hk : s.len = 2 ^ k)
    (hadd : ∀ t v, SetOk t → 2 ^ (k + 1) ≤ t.len → AddsTo add t v) :
    setRealloc add s = .error .assert ∨ ∃ t, setRealloc add s = .ok t ∧ SetOk t ∧
      s.len ≤ t.len ∧ t.hashFp = s.hashFp ∧ (setValues t).Perm (setValues s) := by
  have hk10 : 10 ≤ k := by
    obtain ⟨j, hj, hlen⟩ := h.pow
    have := Nat.pow_right_injective (Nat.le_refl 2) (hk.symm.trans hlen)
    omega
  have hsucc : 2 ^ (k + 1) = s.len * 2 := by rw [hk, Nat.pow_succ]
  have hdouble : s.len * 2 % 2 ^ 32 = 2 ^ (k + 1) := by
    have hb := h.bound
    rw [hsucc]
    omega
  rw [setRealloc, hdouble]
  by_cases hmax : 2 ^ 31 ≤ 2 ^ (k + 1)
  · exact .inl (if_pos hmax)
  · have hempty := setOk_empty s.hashFp (Nat.le_succ_of_le hk10) (Nat.not_le.mp hmax)
    have hnd : (setValues s ++ setValues (emptySet s.hashFp (2 ^ (k + 1)))).Nodup := by
      rw [setValues_empty, List.append_nil]
      exact h.nodup_values
    rw [if_neg hmax]
    rcases foldlM_add hadd (setValues s) hempty (Nat.le_refl _) hnd with
      he | ⟨t, he, ht, hL, hfp, hperm⟩
    · exact .inl he
    · refine .inr ⟨t, he, ht, ?_, hfp, ?_⟩
      · omega
      · rwa [setValues_empty, List.append_nil] at hperm

/-- Each nested call works on a longer table, so fuel for 31 doublings is enough. -/
theorem setAdd_spec (n : Nat) {k : Nat} (h : SetOk s) (hk : s.len = 2 ^ k) (hn : 31 ≤ n + k)
    (val : Bytes) : AddsTo (setAdd n) s val := by
  induction n generalizing s k val with
  | zero =>
    have hb := h.bound
    rw [hk] at hb
    have := (Nat.pow_lt_pow_iff_right (by decide)).mp hb
    omega
  | succ n ih =>
    unfold AddsTo
    rw [setAdd, h.has, ok_bind]
    by_cases hval : val ∈ setValues s
    · refine .inr ⟨s, ?_, h, Nat.le_refl _, rfl, fun _ => rfl, fun hn => absurd hval hn⟩
      simp only [hval, decide_true, if_true]
    · rw [decide_eq_false hval, if_neg Bool.false_ne_true, if_neg hval]
      by_cases hfull : 4 * ((s.entries + (2 ^ 32 - s.overflow)) % 2 ^ 32) > 3 * s.len
      · have hadd : ∀ t v, SetOk t → 2 ^ (k + 1) ≤ t.len → AddsTo (setAdd n) t v := by
          intro t v ht hL
          obtain ⟨j, -, hj⟩ := ht.pow
          have hkj : k + 1 ≤ j := by
            rw [hj] at hL
            exact (Nat.pow_le_pow_iff_right (by decide)).mp hL
          exact ih ht hj (by omega) v
        rw [if_pos hfull]
        rcases setRealloc_spec h hk hadd with he | ⟨t, he, ht, hL, hfp, hperm⟩
        · left
          rw [he]
          rfl
        · have hvt : val ∉ setValues t := fun hv => hval (hperm.mem_iff.mp hv)
          right
          rw [he, ok_bind]
          refine ⟨_, rfl, ht.insert hvt, ?_, ?_, fun hv => absurd hv hval,
            fun _ => (ht.values_insert val).trans (hperm.cons val)⟩
          · rw [ht.insert_eq]
            exact hL
          · rw [ht.insert_eq]
            exact hfp
      · rw [if_neg hfull, ok_bind]
        refine .inr ⟨_, rfl, h.insert hval, ?_, ?_, fun hv => absurd hv hval,
          fun _ => h.values_insert val⟩
        · rw [h.insert_eq]
        · rw [h.insert_eq]

/-! ## Fuel -/

theorem foldlM_mono {σ : Type} {f g : σ → Bytes → Exec σ}
    (hfg : ∀ t v, f t v ≠ .error .fuel → g t v = f t v) (vals : List Bytes) (t : σ)
    (h : vals.foldlM f t ≠ .error .fuel) : vals.foldlM g t = vals.foldlM f t := by
  induction vals generalizing t with
  | nil => rfl
  | cons v vals ih =>
    rw [List.foldlM_cons] at h ⊢
    rw [List.foldlM_cons]
    cases hf : f t v with
    | error e =>
      have hne : f t v ≠ .error .fuel := by
        rw [hf] at h ⊢
        exact h
      rw [hfg t v hne, hf]
      rfl
    | ok t' =>
      rw [hfg t v (by simp [hf]), hf, ok_bind, ok_bind]
      rw [hf, ok_bind] at h
      exact ih t' h

theorem steady_setAdd (s : SetT) (val : Bytes) : Steady (fun n => setAdd n s val) := by
  intro m
  induction m generalizing s val with
  | zero => exact fun n _ hne => absurd rfl hne
  | succ m ih =>
    intro n hmn hne
    obtain ⟨j, rfl⟩ : ∃ j, n = j + 1 := ⟨n - 1, by omega⟩
    have hadd : ∀ t v, setAdd m t v ≠ .error .fuel → setAdd j t v = setAdd m t v :=
      fun t v h => ih t v j (by omega) h
    have hre : setRealloc (setAdd m) s ≠ .error .fuel →
        setRealloc (setAdd j) s = setRealloc (setAdd m) s := by
      intro h
      unfold setRealloc at h ⊢
      dsimp only at h ⊢
      split
      · rfl
      · rename_i hmax
        rw [if_neg hmax] at h
        refine foldlM_mono (fun t v hf => ?_) _ _ h
        cases hm : setAdd m t v with
        | error e =>
          have hme : setAdd m t v ≠ .error .fuel := by
            simpa [hm] using hf
          rw [hadd t v hme, hm]
        | ok x => rw [hadd t v (by simp [hm]), hm]
    dsimp only at hne ⊢
    rw [setAdd] at hne ⊢
    rw [setAdd]
    cases hh : setHas s val with
    | error e => rfl
    | ok b =>
      rw [hh, ok_bind] at hne
      rw [ok_bind, ok_bind]
      cases b with
      | true => rfl
      | false =>
        simp only [Bool.false_eq_true, if_false] at hne ⊢
        split
        · rename_i hfull
          rw [if_pos hfull] at hne
          have hr : setRealloc (setAdd m) s ≠ .error .fuel := by
            intro he
            rw [he] at hne
            exact hne rfl
          rw [hre hr]
        · rfl

theorem steady_setRun (s : SetT) (vals : List Bytes) : Steady (fun n => setRun n s vals) := by
  induction vals generalizing s with
  | nil => exact steady_const _
  | cons val vals ih => exact (steady_setAdd s val).bind fun x => ih x.2

/-! ## Walking over the values -/

/-- The values of the slots from `index` on. -/
def valuesFrom (s : SetT) (index : Nat) : Nat → List Bytes
  | 0 => []
  | left + 1 => (s.array index).walk.map Bucket.value ++ valuesFrom s (index + 1) left

theorem valuesFrom_eq (s : SetT) (index left : Nat) : valuesFrom s index left =
    (List.range' index left).flatMap fun i => (s.array i).walk.map Bucket.value := by
  induction left generalizing index with
  | zero => rfl
  | succ left ih => rw [valuesFrom, ih, List.range'_succ, List.flatMap_cons]

/-- The values an iterator has still to meet. -/
def valuesAfter (s : SetT) (it : SetIterator) : List Bytes :=
  match it.current with
  | none => []
  | some (b, next) => (b :: next).map Bucket.value ++ valuesFrom s (it.index + 1) (s.len - (it.index + 1))

theorem nextSlot_spec (s : SetT) (index left : Nat) (hlen : index + left = s.len) :
    (nextSlot s index left = none ∧ valuesFrom s index left = []) ∨
      ∃ it, nextSlot s index left = some it ∧ it.index < s.len ∧ it.current.isSome ∧
        valuesAfter s it = valuesFrom s index left := by
  induction left generalizing index with
  | zero => exact .inl ⟨rfl, rfl⟩
  | succ left ih =>
    rw [nextSlot, valuesFrom]
    cases hh : (s.array index).head with
    | none =>
      have hwalk : (s.array index).walk = [] := by simp [SetSlot.walk, hh]
      rw [hwalk]
      exact ih (index + 1) (by omega)
    | some e =>
      have hlt : index < s.len := by omega
      refine .inr ⟨_, rfl, hlt, rfl, ?_⟩
      have hleft : s.len - (index + 1) = left := by omega
      simp only [valuesAfter, SetSlot.walk, hh, hleft]

theorem setIteratorInit_spec (s : SetT) :
    valuesAfter s (setIteratorInit s).1 = setValues s := by
  have hall : valuesFrom s 0 s.len = setValues s := by
    rw [valuesFrom_eq, setValues, List.range_eq_range']
  unfold setIteratorInit
  rcases nextSlot_spec s 0 s.len (Nat.zero_add _) with ⟨he, hv⟩ | ⟨it, he, -, -, hv⟩
  · rw [he, ← hall, hv]
    rfl
  · rw [he, ← hall, ← hv]

/-- A step of an iterator passes over one value. -/
theorem setIteratorNext_spec (s : SetT) {it : SetIterator} {b : Bucket} {next : List Bucket}
    (hc : it.current = some (b, next)) (hi : it.index < s.len) :
    valuesAfter s it = b.value :: valuesAfter s (setIteratorNext s it).1 ∧
      ((setIteratorNext s it).1.current.isSome → (setIteratorNext s it).1.index < s.len) := by
  unfold setIteratorNext
  rw [hc]
  cases next with
  | cons c next =>
    refine ⟨?_, fun _ => hi⟩
    simp [valuesAfter, hc]
  | nil =>
    dsimp only
    rcases nextSlot_spec s (it.index + 1) (s.len - (it.index + 1)) (by omega) with
      ⟨he, hv⟩ | ⟨it', he, hlt, -, hv⟩
    · rw [he]
      refine ⟨?_, fun h => by cases h⟩
      simp [valuesAfter, hc, hv]
    · rw [he]
      refine ⟨?_, fun _ => hlt⟩
      rw [hv]
      simp [valuesAfter, hc]

theorem returns_setForeach (s : SetT) (it : SetIterator)
    (hi : it.current.isSome → it.index < s.len) (vals : List Bytes) :
    Returns (fun n => loop (setForeach s) n (it, vals)) (vals ++ valuesAfter s it) := by
  induction hv : valuesAfter s it generalizing it vals with
  | nil =>
    have hc : it.current = none := by
      cases hc : it.current with
      | none => rfl
      | some x => simp [valuesAfter, hc] at hv
    refine returns_loop_done (returns_const ?_)
    simp only [hc, List.append_nil]
  | cons v rest ih =>
    cases hc : it.current with
    | none => simp [valuesAfter, hc] at hv
    | some x =>
      obtain ⟨b, next⟩ := x
      obtain ⟨hstep, hnext⟩ := setIteratorNext_spec s hc (hi (by rw [hc]; rfl))
      rw [hv] at hstep
      obtain ⟨rfl, hrest⟩ := List.cons.inj hstep
      have hih := ih _ hnext (vals ++ [b.value]) hrest.symm
      rw [List.append_assoc, List.singleton_append] at hih
      refine returns_loop_next (returns_const ?_) hih
      simp only [hc]

theorem setIteratorInit_index (s : SetT) :
    (setIteratorInit s).1.current.isSome → (setIteratorInit s).1.index < s.len := by
  unfold setIteratorInit
  rcases nextSlot_spec s 0 s.len (Nat.zero_add _) with ⟨he, -⟩ | ⟨it, he, hlt, -, -⟩
  · rw [he]
    exact fun h => by cases h
  · rw [he]
    exact fun _ => hlt

/-- Iterating meets the values in the order of the array. -/
theorem returns_setIterate (s : SetT) : Returns (fun n => setIterate n s) (setValues s) := by
  have h := returns_setForeach s _ (setIteratorInit_index s) []
  rwa [setIteratorInit_spec, List.nil_append] at h

/-- Writing values one after the other into an array that is long enough. -/
theorem foldlM_arrayPut (vals : List Bytes) (pre : List Bytes) (rest : List (Option Bytes))
    (hlen : vals.length ≤ rest.length) :
    (vals.foldlM (fun (array, i) val => do
      let array ← arrayPut array i (some val)
      .ok (array, i + 1)) (pre.map some ++ rest, pre.length) : Exec (List (Option Bytes) × Nat)) =
      .ok ((pre ++ vals).map some ++ rest.drop vals.length, (pre ++ vals).length) := by
  induction vals generalizing pre rest with
  | nil => simp [List.foldlM_nil, pure, Except.pure]
  | cons v vals ih =>
    cases rest with
    | nil => simp at hlen
    | cons r rest =>
      have hput : arrayPut (pre.map some ++ r :: rest) pre.length (some v) =
          .ok ((pre ++ [v]).map some ++ rest) := by
        have hi : pre.length < (pre.map some ++ r :: rest).length := by simp
        rw [arrayPut, if_pos hi]
        simp
      have hnext := ih (pre ++ [v]) rest (by simpa using hlen)
      rw [List.foldlM_cons]
      simp only [hput, ok_bind]
      simpa using hnext

theorem setToarray_spec (hent : s.entries = (setValues s).length)
    (hlt : (setValues s).length < 2 ^ 32 - 1) :
    setToarray s = .ok ((setValues s).map some ++ [none]) := by
  have hsize : (s.entries + 1) % 2 ^ 32 = (setValues s).length + 1 := by
    rw [hent]
    omega
  have hfold := foldlM_arrayPut (setValues s) [] (List.replicate ((setValues s).length + 1) none)
    (by simp)
  have hdrop : (List.replicate ((setValues s).length + 1) (none : Option Bytes)).drop
      (setValues s).length = [none] := by
    simp
  simp only [List.map_nil, List.nil_append, List.length_nil, hdrop] at hfold
  have hput : arrayPut ((setValues s).map some ++ [none]) (setValues s).length none =
      .ok ((setValues s).map some ++ [none]) := by
    simp [arrayPut]
  rw [setToarray]
  dsimp only
  rw [hsize, hfold, ok_bind, hent, hput]

/-! ## Whole runs -/

/-- The set holds the values of `vals`, each once, whichever way it is looked at. -/
structure SetHolds (s : SetT) (vals : List Bytes) : Prop where
  has : ∀ x, setHas s x = .ok (decide (x ∈ vals))
  entries : s.entries = vals.dedup.length
  overflow : s.overflow = s.entries - setOccupied s
  iterate : ∃ l : List Bytes, Returns (fun n => setIterate n s) l ∧ l.Perm vals.dedup
  toarray : ∃ l : List Bytes, setToarray s = .ok (l.map some ++ [none]) ∧ l.Perm vals.dedup

/-- Adding `vals` one after the other gives a set that holds them, and adding one more
value returns 2 and changes nothing if it is among them, and returns 1 otherwise. -/
def SetRefines (hashFp : Bytes → UInt32) (vals : List Bytes) : Prop :=
  ∃ s, Returns (fun n => setRun n (setInit hashFp) vals) s ∧ SetHolds s vals ∧
    ∀ x, (∀ n, setAdd n s x ≠ .error .assert) → ∃ s',
      Returns (fun n => setAdd n s x) (if x ∈ vals then 2 else 1, s') ∧ (x ∈ vals → s' = s)

/-- A call that does not abort returns. -/
theorem returns_setAdd (h : SetOk s) (hab : ∀ n, setAdd n s val ≠ .error .assert) :
    ∃ s', Returns (fun n => setAdd n s val) (if val ∈ setValues s then 2 else 1, s') ∧ SetOk s' ∧
      s'.hashFp = s.hashFp ∧ (val ∈ setValues s → s' = s) ∧
      (val ∉ setValues s → (setValues s').Perm (val :: setValues s)) := by
  obtain ⟨k, -, hk⟩ := h.pow
  rcases setAdd_spec 31 h hk (by omega) val with he | ⟨s', he, hok, -, hfp, hin, hout⟩
  · exact absurd he (hab 31)
  · exact ⟨s', (steady_setAdd s val).returns he, hok, hfp, hin, hout⟩

theorem setValues_dedup {vals : List Bytes} (h : SetOk s)
    (hmem : ∀ x, x ∈ setValues s ↔ x ∈ vals) : (setValues s).Perm vals.dedup := by
  rw [List.perm_ext_iff_of_nodup h.nodup_values (List.nodup_dedup vals)]
  intro x
  rw [hmem x, List.mem_dedup]

/-- A run that does not abort returns a sound table with the values added. -/
theorem returns_setRun (h : SetOk s) (vals : List Bytes)
    (hab : ∀ n, setRun n s vals ≠ .error .assert) :
    ∃ s', Returns (fun n => setRun n s vals) s' ∧ SetOk s' ∧ s'.hashFp = s.hashFp ∧
      ∀ x, x ∈ setValues s' ↔ x ∈ setValues s ∨ x ∈ vals := by
  induction vals generalizing s with
  | nil => exact ⟨s, returns_ok _, h, rfl, by simp⟩
  | cons val vals ih =>
    have hab₁ : ∀ n, setAdd n s val ≠ .error .assert := by
      intro n he
      refine hab n ?_
      rw [setRun, he]
      rfl
    obtain ⟨s₁, hr₁, hok₁, hfp₁, hin, hout⟩ := returns_setAdd h hab₁
    have hmem₁ : ∀ x, x ∈ setValues s₁ ↔ x ∈ setValues s ∨ x = val := by
      intro x
      by_cases hv : val ∈ setValues s
      · rw [hin hv]
        constructor
        · exact .inl
        · rintro (hx | rfl)
          · exact hx
          · exact hv
      · rw [(hout hv).mem_iff, List.mem_cons, or_comm]
    have hbind : ∀ n, (setAdd n s val >>= fun x => setRun n x.2 vals) ≠ .error .assert := hab
    have hab₂ : ∀ n, setRun n s₁ vals ≠ .error .assert :=
      Steady.ne_of_bind (g := fun n (x : Nat × SetT) => setRun n x.2 vals) (steady_setRun s₁ vals) hr₁ (by decide) hbind
    obtain ⟨s₂, hr₂, hok₂, hfp₂, hmem₂⟩ := ih hok₁ hab₂
    refine ⟨s₂, hr₁.bind hr₂, hok₂, hfp₂.trans hfp₁, fun x => ?_⟩
    rw [hmem₂ x, hmem₁ x, List.mem_cons, or_assoc]

/-- The same from the fresh table. -/
theorem returns_setRun_init (hashFp : Bytes → UInt32) (vals : List Bytes)
    (hab : ∀ n, setRun n (setInit hashFp) vals ≠ .error .assert) :
    ∃ s, Returns (fun n => setRun n (setInit hashFp) vals) s ∧ SetOk s ∧ s.hashFp = hashFp ∧
      ∀ x, x ∈ setValues s ↔ x ∈ vals := by
  obtain ⟨s, hr, hok, hfp, hmem⟩ := returns_setRun (setOk_init hashFp) vals hab
  refine ⟨s, hr, hok, hfp, fun x => ?_⟩
  have hnil : setValues (setInit hashFp) = [] := setValues_empty hashFp baseSize
  rw [hmem x, hnil]
  simp

/-- With one hash for all values a single array element is occupied. -/
theorem SetOk.occupied_le_one (h : SetOk s) {c : UInt32} (hc : ∀ x, s.hashFp x = c) :
    setOccupied s ≤ 1 := by
  have hall : ∀ i ∈ (List.range s.len).filter (fun i => (s.array i).head.isSome),
      i = c.toNat % s.len := by
    intro i hi
    obtain ⟨hr, hsome⟩ := List.mem_filter.mp hi
    obtain ⟨b, hb⟩ := Option.isSome_iff_exists.mp hsome
    have hwalk : b ∈ (s.array i).walk := by simp [SetSlot.walk, hb]
    obtain ⟨hh, hmod⟩ := h.home i (List.mem_range.mp hr) b hwalk
    rw [← hmod, hh, hc]
  have hnd : ((List.range s.len).filter fun i => (s.array i).head.isSome).Nodup :=
    List.nodup_range.filter _
  rw [setOccupied]
  rcases hl : (List.range s.len).filter fun i => (s.array i).head.isSome with _ | ⟨i, _ | ⟨j, l⟩⟩
  · simp
  · simp
  · rw [hl] at hall hnd
    have hij : i = j := (hall i (by simp)).trans (hall j (by simp)).symm
    exact absurd (hij ▸ List.mem_cons_self) (List.nodup_cons.mp hnd).1

/-- With one hash for all values the table never grows, so no call aborts. -/
theorem setRun_constant (h : SetOk s) {c : UInt32} (hc : ∀ x, s.hashFp x = c) (vals : List Bytes)
    (n : Nat) : setRun n s vals ≠ .error .assert := by
  induction vals generalizing s with
  | nil => exact fun he => by cases he
  | cons val vals ih =>
    cases n with
    | zero => exact fun he => by cases he
    | succ n =>
      have hpos : 2 ^ 10 ≤ s.len := by
        obtain ⟨k, hk, hlen⟩ := h.pow
        rw [hlen]
        exact Nat.pow_le_pow_right (by decide) hk
      have hocc := h.occupied_le_one hc
      rw [setRun, setAdd, h.has, ok_bind]
      by_cases hval : val ∈ setValues s
      · rw [decide_eq_true hval, if_pos rfl, ok_bind]
        exact ih h hc
      · rw [decide_eq_false hval, if_neg Bool.false_ne_true, h.occupied_eq, if_neg (by omega),
          ok_bind, ok_bind]
        refine ih (h.insert hval) fun x => ?_
        rw [h.insert_eq]
        exact hc x

/-- As long as the counters do not wrap, runs of `set_add` refine a set. -/
theorem setRun_refines (hashFp : Bytes → UInt32) (vals : List Bytes)
    (hlen : ∀ n, setRun n (setInit hashFp) vals ≠ .error .assert)
    (hcount : vals.dedup.length < 2 ^ 32 - 1) : SetRefines hashFp vals := by
  obtain ⟨s, hr, hok, -, hmem⟩ := returns_setRun_init hashFp vals hlen
  have hperm := setValues_dedup hok hmem
  have hent : s.entries = (setValues s).length := by
    rw [hok.entries, hperm.length_eq]
    omega
  have hover : s.overflow = s.entries - setOccupied s := by
    have hsum := hok.length_values
    rw [← hperm.length_eq] at hcount
    rw [hok.overflow, hent]
    omega
  refine ⟨s, hr, ⟨fun x => ?_, hent.trans hperm.length_eq, hover,
    ⟨_, returns_setIterate s, hperm⟩,
    ⟨_, setToarray_spec hent (hperm.length_eq ▸ hcount), hperm⟩⟩, fun x hx => ?_⟩
  · rw [hok.has x]
    simp only [hmem x]
  · obtain ⟨s', hr', -, -, hin, -⟩ := returns_setAdd hok hx
    simp only [hmem x] at hr' hin
    exact ⟨s', hr', hin⟩

theorem setRun_refines_two : SetRefines (fun _ => 0) [[97], [98], [97]] :=
  setRun_refines (fun _ => 0) [[97], [98], [97]]
    (setRun_constant (setOk_init _) (fun _ => rfl) _) (by decide)

/-! ## Counters that wrap -/

/-- `2 ^ 32` different values, the `i`th one of `i + 1` zero bytes. -/
def zeroStrings : List Bytes := (List.range (2 ^ 32)).map fun i => List.replicate (i + 1) 0

theorem zeroStrings_nodup : zeroStrings.Nodup := by
  refine List.nodup_range.map fun i j hij => ?_
  have hlen := congrArg List.length hij
  simpa using hlen

/-- With all of them in one chain, `entries` has come back to zero. -/
theorem setRun_wraps : (∀ v ∈ zeroStrings, v ≠ []) ∧
    (∀ n, setRun n (setInit fun _ => 0) zeroStrings ≠ .error .assert) ∧
    ¬ SetRefines (fun _ => 0) zeroStrings := by
  have hab : ∀ n, setRun n (setInit fun _ => 0) zeroStrings ≠ .error .assert :=
    setRun_constant (setOk_init _) (fun _ => rfl) zeroStrings
  refine ⟨fun v hv => ?_, hab, ?_⟩
  · obtain ⟨i, -, rfl⟩ := List.mem_map.mp hv
    simp
  · rintro ⟨s, hr, hholds, -⟩
    obtain ⟨s', hr', hok, -, hmem⟩ := returns_setRun_init (fun _ => 0) zeroStrings hab
    obtain rfl : s = s' := hr.unique hr'
    have hent := hholds.entries
    have hlen : zeroStrings.dedup.length = 2 ^ 32 := by
      rw [zeroStrings_nodup.dedup, zeroStrings, List.length_map, List.length_range]
    rw [hok.entries, (setValues_dedup hok hmem).length_eq, hlen] at hent
    exact absurd hent (by decide)

end Dirlist
