import Dirlist.Set.Refine

/-! `set_cat`, `set_sub`, `set_filter` and `set_filter_out`: one loop, which iterates over a set and adds the values
it wants to another one. The sets it only reads are `const`. The counts are 32 bits wide and signed. -/

namespace Dirlist
open Run

/-- One round of `set_foreach(src, it, x, n)` with `if(wanted) { set_add(out, x, n); ++r; }` for its body. -/
def setEachRound (src : SetT) (wanted : SetT → Bytes → Exec Bool) (n : Nat) :
    SetIterator × SetT × Int → Exec (SetIterator × SetT × Int ⊕ SetT × Int)
  | (it, out, r) =>
    match it.current with
    | none => .ok (.inr (out, r))
    | some (b, _) => do
      if ← wanted out b.value then
        let (_, out) ← setAdd n out b.value
        .ok (.inl ((setIteratorNext src it).1, out, (r + 1).bmod (2 ^ 32)))
      else .ok (.inl ((setIteratorNext src it).1, out, r))

def setEach (n : Nat) (src : SetT) (wanted : SetT → Bytes → Exec Bool) (out : SetT) : Exec (SetT × Int) :=
  loop (setEachRound src wanted) n ((setIteratorInit src).1, out, 0)

def setCat (n : Nat) (set other : SetT) : Exec (SetT × Int) :=
  setEach n other (fun set x => (setHas set x).map not) set

def setSub (n : Nat) (a b c : SetT) : Exec (SetT × Int) := setEach n a (fun _ x => (setHas b x).map not) c

def setFilterMagic (n : Nat) (src out : SetT) (pred : Bytes → Int) (magic : Int) : Exec (SetT × Int) :=
  setEach n src (fun _ x => .ok (magic = pred x)) out

def setFilter (n : Nat) (src out : SetT) (pred : Bytes → Int) : Exec (SetT × Int) := setFilterMagic n src out pred 1

def setFilterOut (n : Nat) (src out : SetT) (pred : Bytes → Int) : Exec (SetT × Int) :=
  setFilterMagic n src out pred 0

variable {src out : SetT} {wanted : SetT → Bytes → Exec Bool} {keep : Bytes → Bool}

/-! ## One round -/

theorem steady_setEachRound (x : SetIterator × SetT × Int) : Steady (fun n => setEachRound src wanted n x) := by
  obtain ⟨it, out, r⟩ := x
  cases hc : it.current with
  | none => simp only [setEachRound, hc, steady_const]
  | some p =>
    simp only [setEachRound, hc]
    refine (steady_const _).bind fun w => ?_
    cases w with
    | true => exact (steady_setAdd out p.1.value).bind fun _ => steady_const _
    | false => exact steady_const _

theorem setEachRound_done {it : SetIterator} (hc : it.current = none) (out : SetT) (r : Int) (n : Nat) :
    setEachRound src wanted n (it, out, r) = .ok (.inr (out, r)) := by
  simp only [setEachRound, hc]

theorem returns_setEachRound {it : SetIterator} {b : Bucket} {next : List Bucket} (hc : it.current = some (b, next))
    (hout : SetOk out) (hw : wanted out b.value = .ok (keep b.value))
    (hnew : keep b.value = true → b.value ∉ setValues out) (r : Int)
    (hab : ∀ n, setEachRound src wanted n (it, out, r.bmod (2 ^ 32)) ≠ .error .assert) :
    ∃ out', Returns (fun n => setEachRound src wanted n (it, out, r.bmod (2 ^ 32))) (.inl
        ((setIteratorNext src it).1, out', (r + ([b.value].filter keep).length).bmod (2 ^ 32))) ∧
      SetOk out' ∧ ∀ x, x ∈ setValues out' ↔ x ∈ setValues out ∨ x ∈ [b.value].filter keep := by
  cases hk : keep b.value with
  | false =>
    refine ⟨out, (returns_ok _).congr fun n => ?_, hout, by simp [hk]⟩
    simp [setEachRound, hc, hw, hk]
  | true =>
    let after (x : Nat × SetT) : SetIterator × SetT × Int ⊕ SetT × Int :=
      .inl ((setIteratorNext src it).1, x.2, (r.bmod (2 ^ 32) + 1).bmod (2 ^ 32))
    have hround : ∀ n, setEachRound src wanted n (it, out, r.bmod (2 ^ 32)) =
        setAdd n out b.value >>= fun x => .ok (after x) := by
      intro n
      simp only [setEachRound, hc, hw, hk, ok_bind, if_true]
      rfl
    have hadd : ∀ n, setAdd n out b.value ≠ .error .assert := by
      intro n he
      refine hab n ?_
      rw [hround, he, error_bind]
    obtain ⟨out', hr, hok, -, -, hperm⟩ := returns_setAdd hout hadd
    have hround' := (hr.bind (g := fun _ x => .ok (after x)) (returns_ok _)).congr hround
    refine ⟨out', ?_, hok, fun x => ?_⟩
    · simpa [after, hk] using hround'
    · rw [(hperm (hnew hk)).mem_iff]
      simp [hk, or_comm]

/-! ## The loop -/

/-- What is wanted of the values `xs` does not hang on other values that `out` takes up. -/
def Decides (wanted : SetT → Bytes → Exec Bool) (out : SetT) (xs : List Bytes) (keep : Bytes → Bool) : Prop :=
  ∀ x ∈ xs, ∀ t, SetOk t → (x ∈ setValues t ↔ x ∈ setValues out) → wanted t x = .ok (keep x)

theorem returns_setEach_loop {xs : List Bytes} {it : SetIterator} (hi : it.current.isSome → it.index < src.len)
    (hxs : valuesAfter src it = xs) (hnd : xs.Nodup) (hout : SetOk out) (hw : Decides wanted out xs keep)
    (hnew : ∀ x ∈ xs, keep x = true → x ∉ setValues out) (r : Int)
    (hab : ∀ n, loop (setEachRound src wanted) n (it, out, r.bmod (2 ^ 32)) ≠ .error .assert) :
    ∃ out', Returns (fun n => loop (setEachRound src wanted) n (it, out, r.bmod (2 ^ 32)))
        (out', (r + (xs.filter keep).length).bmod (2 ^ 32)) ∧
      SetOk out' ∧ ∀ x, x ∈ setValues out' ↔ x ∈ setValues out ∨ x ∈ xs.filter keep := by
  induction xs generalizing it out r with
  | nil =>
    have hc : it.current = none := by
      cases hc : it.current with
      | none => rfl
      | some x => simp [valuesAfter, hc] at hxs
    refine ⟨out, returns_loop_done ((returns_ok _).congr fun n => ?_), hout, by simp⟩
    rw [setEachRound_done hc, List.filter_nil, List.length_nil, Int.natCast_zero, Int.add_zero]
  | cons v xs ih =>
    obtain ⟨⟨b, next⟩, hc⟩ : ∃ p, it.current = some p := by
      cases hc : it.current with
      | none => simp [valuesAfter, hc] at hxs
      | some p => exact ⟨p, rfl⟩
    obtain ⟨hstep, hnext⟩ := setIteratorNext_spec src hc (hi (by rw [hc]; rfl))
    rw [hxs] at hstep
    obtain ⟨rfl, hrest⟩ := List.cons.inj hstep
    obtain ⟨hv, hnd⟩ := List.nodup_cons.mp hnd
    obtain ⟨out₁, hr₁, hok₁, hmem₁⟩ := returns_setEachRound hc hout (hw b.value List.mem_cons_self out hout Iff.rfl)
      (hnew b.value List.mem_cons_self) r (loop_ne_first hab)
    -- the value that was just met is not met again, so the others are in `out` as before
    have hsame : ∀ x ∈ xs, (x ∈ setValues out₁ ↔ x ∈ setValues out) := by
      intro x hx
      have hne : x ∉ [b.value].filter keep := fun hmem =>
        hv (List.mem_singleton.mp (List.mem_filter.mp hmem).1 ▸ hx)
      rw [hmem₁, or_iff_left hne]
    obtain ⟨out₂, hr₂, hok₂, hmem₂⟩ := ih hnext hrest.symm hnd hok₁
      (fun x hx t ht hxt => hw x (List.mem_cons_of_mem _ hx) t ht (hxt.trans (hsame x hx)))
      (fun x hx hk => mt (hsame x hx).mp (hnew x (List.mem_cons_of_mem _ hx) hk)) _
      (loop_ne_rest steady_setEachRound (by decide) hr₁ hab)
    have hsplit : (b.value :: xs).filter keep = [b.value].filter keep ++ xs.filter keep := by
      rw [← List.filter_append, List.singleton_append]
    refine ⟨out₂, ?_, hok₂, fun x => ?_⟩
    · rw [hsplit, List.length_append, Nat.cast_add, ← Int.add_assoc]
      exact returns_loop_next hr₁ hr₂
    · rw [hmem₂, hmem₁, hsplit, List.mem_append, or_assoc]

/-- A loop that does not abort adds the values it wants, and counts them. -/
theorem returns_setEach (hsrc : SetOk src) (hout : SetOk out) (hw : Decides wanted out (setValues src) keep)
    (hnew : ∀ x ∈ setValues src, keep x = true → x ∉ setValues out)
    (hab : ∀ n, setEach n src wanted out ≠ .error .assert) :
    ∃ out', Returns (fun n => setEach n src wanted out)
        (out', (((setValues src).filter keep).length : Int).bmod (2 ^ 32)) ∧
      SetOk out' ∧ ∀ x, x ∈ setValues out' ↔ x ∈ setValues out ∨ x ∈ (setValues src).filter keep := by
  have hloop := returns_setEach_loop (setIteratorInit_index src) (setIteratorInit_spec src) hsrc.nodup_values hout hw
    hnew 0 hab
  rwa [Int.zero_add] at hloop

/-! ## What the sets hold -/

/-- The set holds the values of `vals`, each once. Its size is 32 bits wide. -/
structure SetIs (s : SetT) (vals : List Bytes) : Prop where
  has : ∀ x, setHas s x = .ok (decide (x ∈ vals))
  iterate : ∃ l : List Bytes, Returns (fun n => setIterate n s) l ∧ l.Perm vals.dedup
  size : s.entries = vals.dedup.length % 2 ^ 32

/-- The number of different values of `vals`, where an `int` holds it. -/
def Counts (r : Int) (vals : List Bytes) : Prop := vals.dedup.length < 2 ^ 31 → r = vals.dedup.length

variable {s : SetT} {vals : List Bytes}

theorem SetOk.setIs (h : SetOk s) (hmem : ∀ x, x ∈ setValues s ↔ x ∈ vals) : SetIs s vals := by
  have hperm := setValues_dedup h hmem
  refine ⟨fun x => ?_, ⟨_, returns_setIterate s, hperm⟩, ?_⟩
  · rw [h.has x]
    simp only [hmem x]
  · rw [h.entries, hperm.length_eq]

theorem bmod_small {k : Nat} (hk : k < 2 ^ 31) : (k : Int).bmod (2 ^ 32) = k := by
  rw [Int.bmod_def]
  omega

theorem length_filter_dedup (keep : Bytes → Bool) (xs : List Bytes) :
    (xs.filter keep).dedup.length = (xs.dedup.filter keep).length := by
  refine ((List.perm_ext_iff_of_nodup (List.nodup_dedup _) ((List.nodup_dedup _).filter _)).mpr fun x => ?_).length_eq
  rw [List.mem_dedup, List.mem_filter, List.mem_filter, List.mem_dedup]

theorem length_filter_values (h : SetOk s) (hmem : ∀ x, x ∈ setValues s ↔ x ∈ vals) (keep : Bytes → Bool) :
    ((setValues s).filter keep).length = (vals.filter keep).dedup.length := by
  rw [length_filter_dedup]
  exact ((setValues_dedup h hmem).filter keep).length_eq

theorem setRun_sound {hashFp : Bytes → UInt32} (h : Returns (fun n => setRun n (setInit hashFp) vals) s) :
    SetOk s ∧ ∀ x, x ∈ setValues s ↔ x ∈ vals := by
  obtain ⟨t, ht, hok, -, hmem⟩ := returns_setRun_init hashFp vals ((steady_setRun _ vals).ne_of_returns h (by decide))
  rw [h.unique ht]
  exact ⟨hok, hmem⟩

theorem SetOk.hasnt (h : SetOk s) {x : Bytes} (hx : x ∈ setValues s ↔ x ∈ vals) :
    (setHas s x).map not = .ok (!vals.contains x) := by
  rw [h.has, Except.map, List.contains_eq_mem]
  simp only [hx]

/-! ## The operations -/

section
variable {a b : SetT} {vs ws : List Bytes}

/-- Where nothing that is wanted is there before, its number is counted. -/
theorem setEach_counts (hsrc : SetOk src) (hvs : ∀ x, x ∈ setValues src ↔ x ∈ vs) (hout : SetOk out)
    (hw : Decides wanted out (setValues src) keep) (hnew : ∀ x ∈ setValues src, keep x = true → x ∉ setValues out)
    (hab : ∀ n, setEach n src wanted out ≠ .error .assert) :
    ∃ s r, Returns (fun n => setEach n src wanted out) (s, r) ∧ Counts r (vs.filter keep) ∧
      SetOk s ∧ ∀ x, x ∈ setValues s ↔ x ∈ setValues out ∨ x ∈ vs.filter keep := by
  obtain ⟨s, hr, hok, hmem⟩ := returns_setEach hsrc hout hw hnew hab
  refine ⟨s, _, hr, fun hlt => ?_, hok, fun x => ?_⟩
  · rw [length_filter_values hsrc hvs, bmod_small hlt]
  · rw [hmem, List.mem_filter, hvs, List.mem_filter]

theorem returns_setCat (ha : SetOk a) (hvs : ∀ x, x ∈ setValues a ↔ x ∈ vs) (hb : SetOk b)
    (hws : ∀ x, x ∈ setValues b ↔ x ∈ ws) (hab : ∀ n, setCat n a b ≠ .error .assert) :
    ∃ s r, Returns (fun n => setCat n a b) (s, r) ∧ SetIs s (vs ++ ws) ∧
      Counts r (ws.filter fun x => !vs.contains x) := by
  have hw : Decides (fun t x => (setHas t x).map not) a (setValues b) fun x => !vs.contains x :=
    fun x _ t ht hx => ht.hasnt (hx.trans (hvs x))
  have hnew : ∀ x ∈ setValues b, (!vs.contains x) = true → x ∉ setValues a := by
    intro x _ hx
    simpa [hvs] using hx
  obtain ⟨s, r, hr, hcount, hok, hmem⟩ := setEach_counts hb hws ha hw hnew hab
  refine ⟨s, r, hr, hok.setIs fun x => ?_, hcount⟩
  rw [hmem, hvs, List.mem_append, List.mem_filter]
  by_cases hx : x ∈ vs
  · simp [hx]
  · simp [hx]

/-- The three operations that fill an empty set. -/
theorem returns_setEach_init (hsrc : SetOk src) (hvs : ∀ x, x ∈ setValues src ↔ x ∈ vs) (hashFp : Bytes → UInt32)
    (hw : ∀ t x, wanted t x = .ok (keep x)) (hab : ∀ n, setEach n src wanted (setInit hashFp) ≠ .error .assert) :
    ∃ s r, Returns (fun n => setEach n src wanted (setInit hashFp)) (s, r) ∧ SetIs s (vs.filter keep) ∧
      Counts r (vs.filter keep) := by
  have hnil : setValues (setInit hashFp) = [] := setValues_empty hashFp baseSize
  obtain ⟨s, r, hr, hcount, hok, hmem⟩ := setEach_counts hsrc hvs (setOk_init hashFp) (fun x _ t _ _ => hw t x)
    (fun x _ _ => by simp [hnil]) hab
  refine ⟨s, r, hr, hok.setIs fun x => ?_, hcount⟩
  rw [hmem, hnil, or_iff_right List.not_mem_nil]

theorem returns_setSub (ha : SetOk a) (hvs : ∀ x, x ∈ setValues a ↔ x ∈ vs) (hb : SetOk b)
    (hws : ∀ x, x ∈ setValues b ↔ x ∈ ws) (hashFp : Bytes → UInt32)
    (hab : ∀ n, setSub n a b (setInit hashFp) ≠ .error .assert) :
    ∃ s r, Returns (fun n => setSub n a b (setInit hashFp)) (s, r) ∧
      SetIs s (vs.filter fun x => !ws.contains x) ∧ Counts r (vs.filter fun x => !ws.contains x) :=
  returns_setEach_init ha hvs hashFp (fun _ x => hb.hasnt (hws x)) hab

theorem returns_setFilterMagic (ha : SetOk a) (hvs : ∀ x, x ∈ setValues a ↔ x ∈ vs) (hashFp : Bytes → UInt32)
    (pred : Bytes → Int) (magic : Int) (hab : ∀ n, setFilterMagic n a (setInit hashFp) pred magic ≠ .error .assert) :
    ∃ s r, Returns (fun n => setFilterMagic n a (setInit hashFp) pred magic) (s, r) ∧
      SetIs s (vs.filter fun x => magic = pred x) ∧ Counts r (vs.filter fun x => magic = pred x) :=
  returns_setEach_init ha hvs hashFp (fun _ _ => rfl) hab

end

/-! ## One hash for all values -/

theorem setAdd_constant (h : SetOk s) {c : UInt32} (hc : ∀ x, s.hashFp x = c) (x : Bytes) (n : Nat) :
    setAdd n s x ≠ .error .assert := by
  intro he
  refine setRun_constant h hc [x] n ?_
  rw [setRun, he]
  rfl

theorem setAdd_keeps (h : SetOk s) {c : UInt32} (hc : ∀ x, s.hashFp x = c) {x : Bytes} {n : Nat} {y : Nat × SetT}
    (hy : setAdd n s x = .ok y) : SetOk y.2 ∧ ∀ v, y.2.hashFp v = c := by
  obtain ⟨t, hr, hok, hfp, -⟩ := returns_setAdd h (setAdd_constant h hc x)
  rw [(steady_setAdd s x).eq_of_ok hr hy, hfp]
  exact ⟨hok, hc⟩

theorem setEach_constant (hout : SetOk out) {c : UInt32} (hc : ∀ x, out.hashFp x = c)
    (hw : ∀ t x, SetOk t → wanted t x ≠ .error .assert) (n : Nat) : setEach n src wanted out ≠ .error .assert := by
  refine loop_ne_error (fun x => SetOk x.2.1 ∧ ∀ v, x.2.1.hashFp v = c) (by decide) ?_ ?_ ⟨hout, hc⟩
  · rintro n ⟨it, t, r⟩ ⟨ht, hc⟩
    cases hit : it.current with
    | none => simp [setEachRound_done hit]
    | some p =>
      simp only [setEachRound, hit]
      refine bind_ne_error (hw t _ ht) fun w => ?_
      cases w with
      | true => exact bind_ne_error (setAdd_constant ht hc _ n) fun _ => by simp
      | false => simp
  · rintro n ⟨it, t, r⟩ s' ⟨ht, hc⟩ hs
    cases hit : it.current with
    | none =>
      rw [setEachRound_done hit] at hs
      cases hs
    | some p =>
      simp only [setEachRound, hit] at hs
      obtain ⟨w, -, hs⟩ := bind_eq_ok hs
      cases w with
      | true =>
        obtain ⟨y, hy, hs⟩ := bind_eq_ok hs
        cases hs
        exact setAdd_keeps ht hc hy
      | false =>
        cases hs
        exact ⟨ht, hc⟩

theorem setCat_constant {a : SetT} (ha : SetOk a) {c : UInt32} (hc : ∀ x, a.hashFp x = c) (b : SetT) (n : Nat) :
    setCat n a b ≠ .error .assert :=
  setEach_constant ha hc (fun t x ht => by simp [ht.has, Except.map]) n

/-- Every value is in one of the two filters. -/
theorem length_filter_add {pred : Bytes → Int} (hpred : ∀ x, pred x = 0 ∨ pred x = 1) (xs : List Bytes) :
    (xs.filter fun x => pred x = 1).dedup.length + (xs.filter fun x => pred x = 0).dedup.length =
      xs.dedup.length := by
  have hout : (fun x => decide (pred x = 0)) = fun x => !decide (pred x = 1) := by
    funext x
    rcases hpred x with h | h <;> simp [h]
  rw [length_filter_dedup, length_filter_dedup, hout]
  exact (List.length_eq_length_filter_add _).symm

/-- As long as no table has to grow to `2 ^ 31` buckets, the operations are those on sets. -/
theorem setEach_algebra {hash₁ hash₂ : Bytes → UInt32} {vs ws : List Bytes} {a b : SetT}
    (ha : Returns (fun n => setRun n (setInit hash₁) vs) a) (hb : Returns (fun n => setRun n (setInit hash₂) ws) b) :
    ((∀ n, setCat n a b ≠ .error .assert) → ∃ s r, Returns (fun n => setCat n a b) (s, r) ∧ SetIs s (vs ++ ws) ∧
      Counts r (ws.filter fun x => !vs.contains x)) ∧
    (∀ hash₃, (∀ n, setSub n a b (setInit hash₃) ≠ .error .assert) →
      ∃ s r, Returns (fun n => setSub n a b (setInit hash₃)) (s, r) ∧
        SetIs s (vs.filter fun x => !ws.contains x) ∧ Counts r (vs.filter fun x => !ws.contains x)) ∧
    ∀ hash₃ hash₄ pred, (∀ x, pred x = 0 ∨ pred x = 1) →
      (∀ n, setFilter n a (setInit hash₃) pred ≠ .error .assert) →
      (∀ n, setFilterOut n a (setInit hash₄) pred ≠ .error .assert) →
      ∃ s t m k, Returns (fun n => setFilter n a (setInit hash₃) pred) (s, m) ∧
        Returns (fun n => setFilterOut n a (setInit hash₄) pred) (t, k) ∧
        SetIs s (vs.filter fun x => pred x = 1) ∧ SetIs t (vs.filter fun x => pred x = 0) ∧
        (vs.dedup.length < 2 ^ 31 → m + k = a.entries) := by
  obtain ⟨hoka, hvs⟩ := setRun_sound ha
  obtain ⟨hokb, hws⟩ := setRun_sound hb
  refine ⟨returns_setCat hoka hvs hokb hws, returns_setSub hoka hvs hokb hws, ?_⟩
  intro hash₃ hash₄ pred hpred habin habout
  obtain ⟨s, m, hs, hsis, hm⟩ := returns_setFilterMagic hoka hvs hash₃ pred 1 habin
  obtain ⟨t, k, ht, htis, hk⟩ := returns_setFilterMagic hoka hvs hash₄ pred 0 habout
  simp only [eq_comm (b := pred _)] at hsis hm htis hk
  refine ⟨s, t, m, k, hs, ht, hsis, htis, fun hlt => ?_⟩
  have hsum := length_filter_add hpred vs
  have hsize : a.entries = vs.dedup.length % 2 ^ 32 := (hoka.setIs hvs).size
  rw [hm (by omega), hk (by omega), hsize]
  omega

theorem setEach_algebra_two : ∃ a b, Returns (fun n => setRun n (setInit fun _ => 0) [[97], [98]]) a ∧
    Returns (fun n => setRun n (setInit fun _ => 0) [[98], [99]]) b ∧
    ∃ s r, Returns (fun n => setCat n a b) (s, r) ∧ SetIs s [[97], [98], [98], [99]] ∧ Counts r [[99]] := by
  have hfree := fun vals => setRun_constant (setOk_init fun _ => 0) (fun _ => rfl) vals
  obtain ⟨a, ha, hoka, hfp, -⟩ := returns_setRun_init (fun _ => 0) [[97], [98]] (hfree _)
  obtain ⟨b, hb, -⟩ := returns_setRun_init (fun _ => 0) [[98], [99]] (hfree _)
  exact ⟨a, b, ha, hb, (setEach_algebra ha hb).1 (setCat_constant hoka (fun x => by rw [hfp]) b)⟩

/-! ## A count that wraps -/

/-- The `2 ^ 32` values that are added are counted as none. -/
theorem setCat_wraps : ∃ b, Returns (fun n => setRun n (setInit fun _ => 0) zeroStrings) b ∧
    ∃ s r, Returns (fun n => setCat n (setInit fun _ => 0) b) (s, r) ∧
      r ≠ (zeroStrings.dedup.length : Int) := by
  obtain ⟨b, hb, hokb, -, hws⟩ := returns_setRun_init (fun _ => 0) zeroStrings
    (setRun_constant (setOk_init _) (fun _ => rfl) zeroStrings)
  have hnil : setValues (setInit fun _ => 0) = [] := setValues_empty _ baseSize
  have hw : Decides (fun t x => (setHas t x).map not) (setInit fun _ => 0) (setValues b)
      fun x => !([] : List Bytes).contains x := fun x _ t ht hx => ht.hasnt (hx.trans (by rw [hnil]))
  obtain ⟨s, hr, -⟩ := returns_setEach hokb (setOk_init _) hw (fun x _ _ => by simp [hnil])
    (setCat_constant (setOk_init _) (fun _ => rfl) b)
  have hall : (zeroStrings.filter fun x => !([] : List Bytes).contains x) = zeroStrings := by simp
  have hcount : zeroStrings.dedup.length = 2 ^ 32 := by
    rw [zeroStrings_nodup.dedup, zeroStrings, List.length_map, List.length_range]
  rw [length_filter_values hokb hws, hall, hcount] at hr
  refine ⟨b, hb, s, _, hr, ?_⟩
  rw [hcount]
  decide

end Dirlist
