import Dirlist.Hmap.Chains

/-! `hmap_truncate`. It walks the list of all tuples and frees those that are linked to a root slot, but it
leaves the counters, the keys of the root slots and the hash links as they are. -/

namespace Dirlist
open Run Ring

/-- One round of `hmap_truncate`. The memory behind `data` is not part of the table. -/
def hmapTruncateRound (_ : Nat) (db : HmapDb) : Exec (HmapDb ⊕ HmapDb) :=
  match db.listTuple with
  | none => .ok (.inr db)
  | some p => do
    let (cells, listTuple) ← hdbListRemove db.cells db.listTuple p
    let cells ← modify cells p fun t =>
      let t := (hmapFreeData t).2
      if t.data = none then t else { t with data := none, key := [] }
    let t ← load cells p
    .ok (.inl { db with
      listTuple
      cells := if t.type = .secondary then Function.update cells p none else cells })

def hmapTruncate (n : Nat) (db : HmapDb) : Exec HmapDb := loop hmapTruncateRound n db

/-- `a` can be reached from `i` along the hash links. -/
def OnChain (cells : Heap Tuple) (i a : Addr) : Prop :=
  Relation.ReflTransGen (fun a b => hashLinks.nextAt cells a = some b) i a

/-- `hmap_truncate` leaves a table like a new one. -/
def TruncateResets (db : HmapDb) : Prop :=
  ∃ db', Returns (fun n => hmapTruncate n db) db' ∧ db'.tupleCount = 0 ∧
    (∀ key, key ≠ [] → Returns (fun n => hmapSearch n db' key) (.tupleNotFound, none)) ∧
    (∀ i < db'.bucketSize, ∀ a, OnChain db'.cells i a → (db'.cells a).isSome) ∧
    ∀ calls, ∃ x, Settles (fun n => hmapAnswers n db' calls) x ∧
      Settles (fun n => hmapAnswers n (hmapInit db.bucketSize) calls) x

variable {bs : Nat} {T : Addr → Chain} {db db' : HmapDb} {ts : Addr → List Addr} {ord : List Addr}

theorem hmapTruncate_count (h : Returns (fun n => hmapTruncate n db) db') : db'.tupleCount = db.tupleCount := by
  obtain ⟨N, hN⟩ := h
  refine loop_inv (fun d => d.tupleCount = db.tupleCount) (fun d => d.tupleCount = db.tupleCount) ?_ ?_ rfl
    (hN N (Nat.le_refl N))
  · intro n s s' hs hround
    rw [hmapTruncateRound] at hround
    split at hround
    · cases hround
    · obtain ⟨x, -, hround⟩ := bind_eq_ok hround
      obtain ⟨cells, -, hround⟩ := bind_eq_ok hround
      obtain ⟨t, -, hround⟩ := bind_eq_ok hround
      cases hround
      exact hs
  · intro n s r hs hround
    rw [hmapTruncateRound] at hround
    split at hround
    · cases hround
      exact hs
    · obtain ⟨x, -, hround⟩ := bind_eq_ok hround
      obtain ⟨cells, -, hround⟩ := bind_eq_ok hround
      obtain ⟨t, -, hround⟩ := bind_eq_ok hround
      cases hround

theorem ListInv.count_eq_zero (hi : ListInv db ts ord) : db.tupleCount = 0 ↔ ∀ a, ¬db.stored a := by
  rw [hi.count, Int.natCast_eq_zero, List.length_eq_zero_iff, List.eq_nil_iff_forall_not_mem]
  exact forall_congr' fun a => not_congr ((hi.live a).trans stored_iff.symm)

/-- Where nothing is stored, nothing is linked to a root slot, and all chains are empty. -/
theorem ChainsInv.empty (hr : ChainsInv bs T db ts ord) (hnone : ∀ a, ¬db.stored a) :
    ∀ i < bs, ts i = [] ∧ ChainAt db.cells i [] ⟨none, []⟩ := by
  intro i hi
  have hc := hr.chain i hi
  have hb := hr.inv.bucket i (hr.size.symm ▸ hi)
  have hdead {a : Addr} {k : Bytes} (ha : keyAt db.cells a = some k) : k = [] := by
    by_contra hk
    exact hnone a (stored_iff.mpr ⟨k, hk, ha⟩)
  have hts : ts i = [] := by
    rw [List.eq_nil_iff_forall_not_mem]
    intro a ha
    obtain ⟨t, ht⟩ := Option.isSome_iff_exists.mp (hb.links.isSome (List.mem_cons_of_mem _ ha))
    have hkey : keyAt db.cells a = some t.key := by simp [keyAt, ht]
    exact hb.full a ha (hkey.trans (congrArg some (hdead hkey)))
  have hroot : (T i).root = none := by
    cases hr : (T i).root with
    | none => rfl
    | some e =>
      have hslot := hc.root
      rw [hr] at hslot
      obtain ⟨hcontent, hk⟩ := contentAt_of_slot hslot
      exact absurd (hdead (by rw [keyAt_eq_contentAt, hcontent]; rfl)) hk
  exact ⟨hts, hroot ▸ hc.root, hc.unused, rfl, by simp [Chain.toList]⟩

theorem Chained.of_empty (h : Chained bs T db) (hnone : ∀ a, ¬db.stored a) :
    Chained bs (fun _ => ⟨none, []⟩) db := by
  obtain ⟨ts, ord, hr⟩ := h
  refine ⟨ts, ord, hr.inv, hr.size, fun i hi => ?_⟩
  obtain ⟨hts, hc⟩ := hr.empty hnone i hi
  exact hts.symm ▸ hc

theorem onChain_alone {cells : Heap Tuple} {i a : Addr} (hb : IsBucket cells i []) (h : OnChain cells i a) : a = i := by
  induction h with
  | refl => rfl
  | tail _ hstep ih =>
    rw [ih] at hstep
    rcases hb with ⟨-, t, ht, hnext, -⟩ | hr
    · simp [Links.nextAt, ht, hashLinks, hnext] at hstep
    · have hself : hashLinks.Linked cells i i := by simpa using hr.chain
      exact Option.some.inj (hstep.symm.trans hself.1)

/-- On a table that stores nothing `hmap_truncate` has nothing to do. -/
theorem hmapTruncate_empty (hi : ListInv db ts ord) (hnone : ∀ a, ¬db.stored a) :
    Returns (fun n => hmapTruncate n db) db := by
  have hfirst : db.listTuple = none := hi.sound.empty.mpr hnone
  exact returns_loop_done (returns_const (by simp only [hfirst]))

/-- `hmap_truncate` leaves a table like a new one just when no key was stored. -/
theorem hmapTruncate_iff (hbs : 1 ≤ bs) {ops : List HmapOp} (hrun : Returns (fun n => hmapRun n (hmapInit bs) ops) db) :
    TruncateResets db ↔ ∀ a, ¬db.stored a := by
  obtain ⟨T, h⟩ := (Chained.init hbs).run hrun
  obtain ⟨ts, ord, hr⟩ := id h
  constructor
  · rintro ⟨db', htrunc, hcount, -⟩
    exact hr.inv.count_eq_zero.mp ((hmapTruncate_count htrunc).symm.trans hcount)
  · intro hnone
    have hempty := h.of_empty hnone
    refine ⟨db, hmapTruncate_empty hr.inv hnone, hr.inv.count_eq_zero.mpr hnone, fun key hk => ?_, fun i hi a ha => ?_,
      fun calls => ?_⟩
    · obtain ⟨ts', ord', hr'⟩ := hempty
      rcases hr'.search hk rfl with ⟨p, e, -, -, he, -⟩ | ⟨-, hs⟩
      · cases he
      · exact hs
    · have hb := (hr.inv.bucket i hi).links
      rw [(hr.empty hnone i (hr.size ▸ hi)).1] at hb
      rw [onChain_alone hb ha]
      exact hb.isSome List.mem_cons_self
    · rw [hr.size]
      exact hempty.same_answers (Chained.init hbs) calls

/-- One key stored and deleted again. -/
theorem hmapTruncate_iff_deleted : ∃ db, Returns (fun n => hmapRun n (hmapInit 1) [.set [97] [98], .delete [97]]) db ∧
    (TruncateResets db ↔ ∀ a, ¬db.stored a) := by
  have hkeys : ∀ op ∈ [HmapOp.set [97] [98], .delete [97]], op.key.length < maxSizeKey := by decide
  obtain ⟨db, ord, ts, hhist, -⟩ := hmapHistory_order (listInv_init (Nat.le_refl 1)) hkeys
  exact ⟨db, hmapRun_of_history hhist, hmapTruncate_iff (Nat.le_refl 1) (hmapRun_of_history hhist)⟩

/-- With one key stored the counter stays at one. -/
theorem hmapTruncate_stale : ¬∀ (bs : Nat) (ops : List HmapOp) (db : HmapDb), 1 ≤ bs →
    Returns (fun n => hmapRun n (hmapInit bs) ops) db → TruncateResets db := by
  intro h
  have hkeys : ∀ op ∈ [HmapOp.set [97] [98]], op.key.length < maxSizeKey := by decide
  obtain ⟨db, ord, ts, hhist, -⟩ := hmapHistory_order (listInv_init (Nat.le_refl 1)) hkeys
  have hrun := hmapRun_of_history hhist
  obtain ⟨db', htrunc, hcount, -⟩ := h 1 _ db (Nat.le_refl 1) hrun
  rw [hmapTruncate_count htrunc, hmapRun_one_count hrun] at hcount
  cases hcount

end Dirlist
