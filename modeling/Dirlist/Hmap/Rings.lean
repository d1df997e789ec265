import Dirlist.Hmap.Chains

/-! Both loops of `hmap_search` stop at `NULL` or where they began. After any operations a root slot either
starts no chain or lies on a ring, so no lookup is caught in a cycle beside it. -/

namespace Dirlist
open Run Ring

/-- Where `k` steps along `hash_next` lead from the tuple at `a`. -/
def hashWalk (cells : Heap Tuple) (a : Addr) (k : Nat) : Option Addr :=
  (fun o => o.bind (hashLinks.nextAt cells))^[k] (some a)

/-- The links lead from the root slot `i` back to it, and so they do from every tuple on the way. -/
def RingThrough (cells : Heap Tuple) (i : Addr) : Prop :=
  (∃ k, 0 < k ∧ hashWalk cells i k = some i) ∧
    ∀ j, ∃ a, hashWalk cells i j = some a ∧ (cells a).isSome ∧ ∃ k, hashWalk cells a k = some i

variable {bs : Nat} {db : HmapDb} {cells : Heap Tuple} {i : Addr} {ts : List Addr}

theorem ringThrough_of_isRing (hr : IsRing hashLinks cells i ts) : RingThrough cells i := by
  constructor
  · exact ⟨_, Nat.succ_pos _, (hr.iterate_eq_iff (Nat.succ_pos _) (Nat.le_refl _)).mpr rfl⟩
  · intro j
    obtain ⟨a, ha, hwalk⟩ := hr.iterate_mem j
    exact ⟨a, hwalk, hr.isSome ha, hr.iterate_reaches ha⟩

/-- A bucket is a root slot without a successor or a ring through it. -/
theorem IsBucket.next_or_ring (hb : IsBucket cells i ts) :
    (cells i).isSome ∧ (hashLinks.nextAt cells i = none ∨ RingThrough cells i) := by
  refine ⟨hb.isSome List.mem_cons_self, ?_⟩
  rcases hb with ⟨-, t, ht, hnext, -⟩ | hr
  · left
    rw [Links.nextAt, ht]
    exact hnext
  · exact .inr (ringThrough_of_isRing hr)

/-- Every lookup comes to an end on every table that operations make of a new one, and this is why. -/
theorem hmapSearch_ends (hbs : 1 ≤ bs) {ops : List HmapOp} (hrun : Returns (fun n => hmapRun n (hmapInit bs) ops) db) :
    (∀ key, ∃ r, Returns (fun n => hmapSearch n db key) r) ∧
      ∀ i < bs, (db.cells i).isSome ∧ (hashLinks.nextAt db.cells i = none ∨ RingThrough db.cells i) := by
  obtain ⟨T, h⟩ := (Chained.init hbs).run hrun
  constructor
  · intro key
    obtain ⟨r, o, hs, -⟩ := h.search key
    exact ⟨(r, o), hs⟩
  · intro i hi
    obtain ⟨ts, ord, hr⟩ := h
    have hb := hr.inv.bucket i (hr.size.symm ▸ hi)
    exact hb.links.next_or_ring

/-- The root slot is deleted and reused while another tuple is on its ring. -/
theorem hmapSearch_ends_reused : ∃ db, Returns (fun n => hmapRun n (hmapInit 1)
      [.set [97] [98], .set [99] [100], .delete [97], .set [101] [102]]) db ∧
    (∀ key, ∃ r, Returns (fun n => hmapSearch n db key) r) ∧
      ∀ i < 1, (db.cells i).isSome ∧ (hashLinks.nextAt db.cells i = none ∨ RingThrough db.cells i) := by
  have hkeys : ∀ op ∈ [HmapOp.set [97] [98], .set [99] [100], .delete [97], .set [101] [102]],
      op.key.length < maxSizeKey := by decide
  obtain ⟨db, ord, ts, hhist, -⟩ := hmapHistory_order (listInv_init (Nat.le_refl 1)) hkeys
  have hrun := hmapRun_of_history hhist
  exact ⟨db, hrun, hmapSearch_ends (Nat.le_refl 1) hrun⟩

end Dirlist
