import Dirlist.Set.Refine

/-! `set_delete`. The pointer that `set_find` returns lies in one of its own variables if
the value is in the array itself, and it is null if there is no such value; neither may be
read. A value in a chain is unlinked, but stays counted. -/

namespace Dirlist
open Run

/-- An empty array element is a bucket without a value, of size and hash zero. -/
def SetSlot.buckets (b : SetSlot) : List Bucket := b.head.getD ⟨[], 0⟩ :: b.next

/-- `set_find` on an initialised set: how many links lie before the one that points to the
bucket. The link before them all is the local variable. -/
def setFind (s : SetT) (val : Bytes) : Option Nat :=
  let hash := s.hashFp val
  (s.array (hash.toNat % s.len)).buckets.findIdx? fun b =>
    val.length = b.value.length ∧ b.hash = hash ∧ b.value = val

def SetSlot.unlink (b : SetSlot) (k : Nat) : SetSlot := { b with next := b.next.eraseIdx k }

def setDelete (s : SetT) (val : Bytes) : Exec (Nat × SetT) :=
  let index := (s.hashFp val).toNat % s.len
  let b := s.array index
  match setFind s val with
  | none => .error .null
  | some 0 => .error .null
  | some (k + 1) =>
    if b.next[k]?.isSome then
      .ok (1, { s with array := Function.update s.array index (b.unlink k) })
    else .ok (0, s)

/-- What deleting `x` is for. -/
structure Deletes (s : SetT) (x : Bytes) (r : Nat) (s' : SetT) : Prop where
  result : r = 1 ↔ setHas s x = .ok true
  gone : setHas s' x = .ok false
  others : ∀ y, y ≠ x → setHas s' y = setHas s y
  entries : r = 1 → s'.entries + 1 = s.entries
  iterate : ∀ l, Returns (fun n => setIterate n s) l →
    ∃ l', Returns (fun n => setIterate n s') l' ∧ l'.Perm (l.erase x)
  absent : setHas s x = .ok false → r = 0 ∧ s' = s

variable {s s' : SetT} {x : Bytes} {r : Nat}

/-- Where a call returns, the bucket before the one it unlinks stays. -/
theorem setDelete_cases (h : setDelete s x = .ok (r, s')) : ∃ k b,
    setFind s x = some (k + 1) ∧ (s.array ((s.hashFp x).toNat % s.len)).next[k]? = some b ∧ r = 1 ∧
    s' = { s with
      array := Function.update s.array ((s.hashFp x).toNat % s.len)
        ((s.array ((s.hashFp x).toNat % s.len)).unlink k) } := by
  simp only [setDelete] at h
  split at h
  · cases h
  · cases h
  · next k hfind =>
    have hk : k < (s.array ((s.hashFp x).toNat % s.len)).next.length := by
      have hlt := (List.findIdx?_eq_some_iff_getElem.mp hfind).1
      simpa [SetSlot.buckets] using hlt
    have hget := List.getElem?_eq_getElem hk
    rw [hget, Option.isSome_some, if_pos rfl] at h
    obtain ⟨rfl, rfl⟩ := Prod.mk.inj (Except.ok.inj h)
    exact ⟨k, _, hfind, hget, rfl, rfl⟩

theorem SetSlot.walk_unlink {b : SetSlot} {e : Bucket} (hb : b.head = some e) {k : Nat}
    (hk : k < b.next.length) :
    (b.walk.map Bucket.value).Perm (b.next[k].value :: (b.unlink k).walk.map Bucket.value) := by
  have hcons := (List.getElem_cons_eraseIdx_perm hk).symm.map Bucket.value
  rw [List.map_cons] at hcons
  simp only [SetSlot.walk, SetSlot.unlink, hb, List.map_cons]
  exact (hcons.cons e.value).trans (.swap _ _ _)

/-- A value behind the array is taken out of its chain, and out of nothing else. -/
theorem SetOk.delete_chained (h : SetOk s) {e : Bucket}
    (hhead : (s.array ((s.hashFp x).toNat % s.len)).head = some e) (hne : e.value ≠ x)
    (hx : x ∈ setValues s) : ∃ s', setDelete s x = .ok (1, s') ∧
      (setValues s').Perm ((setValues s).erase x) ∧ s'.entries = s.entries := by
  obtain ⟨i, hi⟩ : ∃ i, (s.hashFp x).toNat % s.len = i := ⟨_, rfl⟩
  have hlt : i < s.len := hi ▸ Nat.mod_lt _ h.len_pos
  rw [hi] at hhead
  have hwalk : (s.array i).walk = e :: (s.array i).next := by rw [SetSlot.walk, hhead]
  have hbuckets : (s.array i).buckets = e :: (s.array i).next := by
    rw [SetSlot.buckets, hhead]
    rfl
  obtain ⟨b, hb, hbh, hbv⟩ := h.mem_values.mp hx
  rw [hi, hwalk] at hb
  obtain ⟨j, hj⟩ : ∃ j, setFind s x = some j := by
    rw [← Option.isSome_iff_exists, setFind, hi, hbuckets, List.findIdx?_isSome, List.any_eq_true]
    refine ⟨b, hb, ?_⟩
    simp [hbh, hbv]
  have hfound := List.findIdx?_eq_some_iff_getElem.mp hj
  simp only [hi, hbuckets] at hfound
  obtain ⟨hjlt, hval, -⟩ := hfound
  cases j with
  | zero =>
    have hsame : e.value = x := by simp at hval; exact hval.2.2
    exact absurd hsame hne
  | succ k =>
    have hk : k < (s.array i).next.length := by simpa using hjlt
    have hkv : (s.array i).next[k].value = x := by simp at hval; exact hval.2.2
    obtain ⟨before, after, hvals, hupdate⟩ := setValues_around s hlt
    have hall : (setValues s).Perm
        (x :: setValues { s with array := Function.update s.array i ((s.array i).unlink k) }) := by
      have hwalk' := SetSlot.walk_unlink hhead hk
      rw [hkv] at hwalk'
      rw [hvals, hupdate]
      refine ((hwalk'.append_left before).append_right after).trans ?_
      rw [List.append_assoc, List.cons_append, List.append_assoc]
      exact List.perm_middle
    refine ⟨{ s with array := Function.update s.array i ((s.array i).unlink k) }, ?_, ?_, rfl⟩
    · simp only [setDelete, hj, hi]
      rw [List.getElem?_eq_getElem hk, Option.isSome_some, if_pos rfl]
    · have herase := (hall.erase x).symm
      rwa [List.erase_cons_head] at herase

/-- No call does what `set_delete` is for. -/
theorem setDelete_never (s : SetT) (x : Bytes) :
    ¬∃ r s', setDelete s x = .ok (r, s') ∧ Deletes s x r s' := by
  rintro ⟨r, s', hdel, hdeletes⟩
  obtain ⟨k, b, -, -, rfl, rfl⟩ := setDelete_cases hdel
  have hent := hdeletes.entries rfl
  exact Nat.succ_ne_self _ hent

/-- A value that is not there is looked for. -/
theorem setDelete_absent : ¬∀ (hashFp : Bytes → UInt32) (vals : List Bytes) (s : SetT),
    Returns (fun n => setRun n (setInit hashFp) vals) s → ∀ x,
      ∃ r s', setDelete s x = .ok (r, s') ∧ Deletes s x r s' := by
  intro hall
  obtain ⟨r, s', hdel, -⟩ := hall (fun _ => 0) [] _ (returns_ok _) [97]
  cases hdel

end Dirlist
