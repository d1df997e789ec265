import Dirlist.Hmap.Chains
import Dirlist.Xml.Keys

/-! A tuple has an array of `MAX_SIZE_KEY` bytes for its key, and `VALIDATE_DB` looks for an empty key only. So it is
up to the callers, and to the texts that the parsers take their keys from, to keep `hmap_add` inside the array. -/

namespace Dirlist
open Run Ring

/-- `hmap_add` stays inside the key array, and what does not fit is refused with the table as it was. -/
def AddFits (db : HmapDb) (key : Bytes) (arg : HmapArg) : Prop :=
  ∃ r db', Returns (fun n => hmapAdd n db key arg) (r, db') ∧ (maxSizeKey ≤ key.length → db' = db ∧ ∃ e, r = .error e)

variable {bs : Nat} {T : Addr → Chain} {db : HmapDb} {key : Bytes}

/-- No key is stored that does not fit. -/
theorem Chained.short_of_find (h : Chained bs T db) {e : HmapEntry}
    (hfind : (T (bucketIndex bs key)).find? key = some e) : key.length < maxSizeKey := by
  obtain ⟨ts, ord, hr⟩ := h
  have hkey : e.key = key := by simpa using List.find?_some hfind
  rw [← hkey]
  exact (hr.chain _ (hr.index_lt key)).short e (List.mem_of_find?_eq_some hfind)

theorem Chained.addFits_iff (h : Chained bs T db) (hk : key ≠ []) (arg : HmapArg) :
    AddFits db key arg ↔ key.length < maxSizeKey ∨ arg.vals? = none := by
  obtain ⟨ts, ord, hr⟩ := id h
  rcases hr.search hk rfl with ⟨p, e, -, -, hfind, hs⟩ | ⟨-, hs⟩
  · have hshort := h.short_of_find hfind
    refine iff_of_true ⟨_, _, hmapAdd_present hk hs, fun _ => ⟨rfl, _, rfl⟩⟩ (.inl hshort)
  cases hv : arg.vals? with
  | none => exact iff_of_true ⟨_, _, hr.inv.add_invalid hk hv hs, fun _ => ⟨rfl, _, rfl⟩⟩ (.inr rfl)
  | some v =>
    by_cases hlen : key.length < maxSizeKey
    · obtain ⟨db', p, l, hadd, -⟩ := hr.inv.add hk hlen hv hs
      exact iff_of_true ⟨_, _, hadd, fun hlong => absurd hlen (Nat.not_lt.mpr hlong)⟩ (.inl hlen)
    · obtain ⟨root, hroot⟩ :=
        Option.isSome_iff_exists.mp ((hr.inv.bucket _ (hr.inv.index_lt key)).links.isSome List.mem_cons_self)
      have hover := hmapAdd_overlong hk hlen hv hs hroot
      refine iff_of_false ?_ (by simp [hlen])
      rintro ⟨r, db', hadd, -⟩
      exact absurd (Settles.unique hadd hover) (by simp)

/-- `hmap_set` stores under a new key by way of `hmap_add`. -/
theorem Chained.set_iff (h : Chained bs T db) (hk : key ≠ []) (data : Bytes) :
    (∃ x, Returns (fun n => hmapSet n db key data) x) ↔ key.length < maxSizeKey := by
  obtain ⟨x, y, hx, hy, hxy⟩ := h.set key data
  obtain rfl := hy.unique (settles_const _)
  cases hfind : (T (bucketIndex bs key)).find? key with
  | some e =>
    have hspec : ∃ y, chainsSet bs T key data = .ok y := by
      simp only [chainsSet, if_neg hk, hfind, Option.isSome_some, if_true]
      exact ⟨_, rfl⟩
    obtain ⟨y, hspec⟩ := hspec
    rw [hspec] at hxy
    cases hxy
    exact iff_of_true ⟨_, hx⟩ (h.short_of_find hfind)
  | none =>
    by_cases hlen : key.length < maxSizeKey
    · have hspec : ∃ y, chainsSet bs T key data = .ok y := by
        simp only [chainsSet, chainsAdd, if_neg hk, hfind, Option.isSome_none, Bool.false_eq_true, if_false,
          if_pos hlen]
        exact ⟨_, rfl⟩
      obtain ⟨y, hspec⟩ := hspec
      rw [hspec] at hxy
      cases hxy
      exact iff_of_true ⟨_, hx⟩ hlen
    · have hspec : chainsSet bs T key data = .error .bounds := by
        simp only [chainsSet, chainsAdd, if_neg hk, hfind, Option.isSome_none, Bool.false_eq_true, if_false,
          if_neg hlen]
        rfl
      rw [hspec] at hxy
      cases hxy
      refine iff_of_false ?_ hlen
      rintro ⟨z, hz⟩
      exact absurd (Settles.unique hz hx) (by simp)

theorem jsonParse_keys_iff [Unwritten] (sched : Schedule) {lookahead d : Nat} {stream : Bytes} (j : JsonVal)
    (ha : (charbufInit stream lookahead).a ≠ 0) (hd : stream.length < d) :
    (∃ x, Returns (fun m => jsonParse sched d m j (charbufInit stream lookahead)) x) ↔ ShortKeys (jsonKeys stream) := by
  have hends := jsonParse_ends sched j ha hd
  constructor
  · rintro ⟨x, hx⟩
    by_contra hlong
    exact absurd (Settles.unique hx (hends.2 hlong)) (by simp)
  · intro hshort
    obtain ⟨x, hx, -⟩ := hends.1 hshort
    exact ⟨x, hx⟩

/-- Who keeps the keys inside their arrays: on every table a caller with shorter keys, and the texts that have only
such keys. -/
theorem hmapKeys_fit_iff [Unwritten] :
    (∀ (bs : Nat) (ops : List HmapOp) (db : HmapDb), 1 ≤ bs → Returns (fun n => hmapRun n (hmapInit bs) ops) db →
      ∀ key, key ≠ [] → (∀ arg, AddFits db key arg ↔ key.length < maxSizeKey ∨ arg.vals? = none) ∧
        ∀ data, (∃ x, Returns (fun n => hmapSet n db key data) x) ↔ key.length < maxSizeKey) ∧
    (∀ (sched : Schedule) (lookahead d : Nat) (stream : Bytes) (j : JsonVal),
      (charbufInit stream lookahead).a ≠ 0 → stream.length < d →
        ((∃ x, Returns (fun m => jsonParse sched d m j (charbufInit stream lookahead)) x) ↔
          ShortKeys (jsonKeys stream))) ∧
    ∀ (σ : Type) (fn : XmlCallback σ) (sched : Schedule) (r : XmlReader σ) (text : Bytes), KeepsMap fn →
      ((∃ x, Returns (fun m => xmlReadCallback (bufferInput sched) fn m r (bufferWhole text)) x) ↔
        ShortKeys (xmlKeys text)) ∧
      ∀ a, 0 < a → ShortKeys (xmlKeys text) →
        ∃ x, Returns (fun m => xmlReadCallback (bufferInput sched) fn m r (bufferInit a text)) x := by
  refine ⟨fun bs ops db hbs hrun key hk => ?_, fun sched lookahead d stream j ha hd => ?_,
    fun σ fn sched r text hfn => ?_⟩
  · obtain ⟨T, h⟩ := (Chained.init hbs).run hrun
    exact ⟨h.addFits_iff hk, h.set_iff hk⟩
  · exact jsonParse_keys_iff sched j ha hd
  · refine ⟨xmlReadCallback_keys_iff hfn sched r text, fun a ha hshort => ?_⟩
    exact xmlReadCallback_keys hfn sched r (delivers_init ha text) hshort

/-- A key of `MAX_SIZE_KEY` bytes passes the check, and its terminator is written behind the array. -/
theorem hmapAdd_overruns : ¬∀ (bs : Nat) (key : Bytes) (arg : HmapArg), 1 ≤ bs → key ≠ [] →
    AddFits (hmapInit bs) key arg := by
  intro h
  have hlen : (List.replicate maxSizeKey (97 : UInt8)).length = maxSizeKey := List.length_replicate
  have hne : List.replicate maxSizeKey (97 : UInt8) ≠ [] := by
    apply List.ne_nil_of_length_pos
    rw [hlen]
    decide
  have hfits := h 1 _ (.int 0) (Nat.le_refl 1) hne
  rcases ((Chained.init (Nat.le_refl 1)).addFits_iff hne _).mp hfits with hshort | hnone
  · exact absurd hlen (Nat.ne_of_lt hshort)
  · cases hnone

end Dirlist
