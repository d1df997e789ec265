import Dirlist.Hmap.Defs

/-! What the two nested loops of `hmap_search` find: on a bucket whose links are sound,
the first tuple with the key, and they come to an end. -/

namespace Dirlist
open Run Ring

theorem hmapCmp_eq_zero {v1 v2 : Bytes} : hmapCmp v1 v2 = 0 ↔ v1 = v2 := by
  unfold hmapCmp
  by_cases h : v1.length = v2.length
  · simp [h, byteDiff_eq_zero h]
  · have hne : v1 ≠ v2 := fun he => h (congrArg List.length he)
    simp [h, hne]

def keyAt (cells : Heap Tuple) (p : Addr) : Option Bytes := (cells p).map Tuple.key

/-- A bucket: a root slot no tuple was ever linked to, or the root of a ring. -/
def IsBucket (cells : Heap Tuple) (root : Addr) (ts : List Addr) : Prop :=
  (ts = [] ∧ ∃ t, cells root = some t ∧ t.hashNext = none ∧ t.hashPrev = none ∧ t.key = []) ∨
    IsRing hashLinks cells root ts

variable {cells : Heap Tuple} {key : Bytes} {root itr : Addr} {ts : List Addr}

theorem IsBucket.isSome (hb : IsBucket cells root ts) {a : Addr} (ha : a ∈ root :: ts) :
    (cells a).isSome := by
  rcases hb with ⟨rfl, t, ht, -⟩ | hr
  · rw [List.mem_singleton.mp ha, ht]
    rfl
  · exact hr.isSome ha

/-! ## The inner loop -/

theorem searchRing_found {p : Addr} (hp : keyAt cells p = some key) (n : Nat) :
    searchRing cells key itr n (some p) = .ok (.inr (some p)) := by
  obtain ⟨t, ht, hk⟩ := Option.map_eq_some_iff.mp hp
  simp [searchRing, load, ht, hmapCmp_eq_zero, hk]

theorem searchRing_other {p : Addr} {t : Tuple} (ht : cells p = some t) (hk : t.key ≠ key)
    (n : Nat) : searchRing cells key itr n (some p) =
      if t.hashNext = some itr then .ok (.inr none) else .ok (.inl t.hashNext) := by
  simp [searchRing, load, ht, hmapCmp_eq_zero, hk]

theorem hashNext_of_linked {a b : Addr} {t : Tuple} (hl : hashLinks.Linked cells a b)
    (ht : cells a = some t) : t.hashNext = some b := by
  simpa [Links.nextAt, ht, hashLinks] using hl.1

theorem returns_searchRing (key : Bytes) {a : Addr} {suf : List Addr}
    (hc : List.IsChain (hashLinks.Linked cells) (a :: suf ++ [itr])) (hn : itr ∉ suf) :
    Returns (fun n => loop (searchRing cells key itr) n (some a))
      ((a :: suf).find? fun p => keyAt cells p = some key) := by
  induction suf generalizing a with
  | nil =>
    have hl : hashLinks.Linked cells a itr := by simpa using hc
    by_cases hk : keyAt cells a = some key
    · simp only [List.find?_cons, hk, decide_true]
      exact returns_loop_done (returns_const (searchRing_found hk 0))
    · obtain ⟨t, ht, -⟩ := load_eq (isSome_of_nextAt hl.1)
      have hkt : t.key ≠ key := fun he => hk (by simp [keyAt, ht, he])
      simp only [List.find?_cons, hk, decide_false, List.find?_nil]
      refine returns_loop_done (returns_const ((searchRing_other ht hkt 0).trans ?_))
      rw [hashNext_of_linked hl ht, if_pos rfl]
  | cons b suf ih =>
    rw [List.cons_append, List.cons_append, List.isChain_cons_cons] at hc
    obtain ⟨hl, hc⟩ := hc
    have hb : itr ≠ b := fun he => hn (he ▸ by simp)
    have hsuf : itr ∉ suf := fun hm => hn (List.mem_cons_of_mem _ hm)
    by_cases hk : keyAt cells a = some key
    · simp only [List.find?_cons, hk, decide_true]
      exact returns_loop_done (returns_const (searchRing_found hk 0))
    · obtain ⟨t, ht, -⟩ := load_eq (isSome_of_nextAt hl.1)
      have hkt : t.key ≠ key := fun he => hk (by simp [keyAt, ht, he])
      have hne : ¬ (some b = some itr) := fun he => hb (Option.some.inj he).symm
      rw [List.find?_cons]
      simp only [hk, decide_false]
      refine returns_loop_next (returns_const ((searchRing_other ht hkt 0).trans ?_)) (ih hc hsuf)
      rw [hashNext_of_linked hl ht, if_neg hne]

/-! ## The outer loop -/

theorem find?_key_eq_none {l l' : List Addr} (hl : ∀ p, p ∈ l' → p ∈ l)
    (h : (l.find? fun p => keyAt cells p = some key) = none) :
    (l'.find? fun p => keyAt cells p = some key) = none := by
  rw [List.find?_eq_none] at h ⊢
  exact fun p hp => h p (hl p hp)

/-- From a node of a ring without the key, one round goes on to the next node. -/
theorem returns_searchFrom_round (root : Addr) {a b : Addr} {ys : List Addr}
    (hr : IsRing hashLinks cells a ys) (hl : hashLinks.Linked cells a b)
    (hno : ((a :: ys).find? fun p => keyAt cells p = some key) = none) :
    Returns (fun n => searchFrom cells key root n (some a))
      (if b = root then .inr none else .inl (some b)) := by
  have hin := returns_searchRing key hr.chain (List.nodup_cons.mp hr.nodup).1
  rw [hno] at hin
  obtain ⟨t, ht, hload⟩ := load_eq (isSome_of_nextAt hl.1)
  refine Returns.bind hin (returns_const ?_)
  simp only [hload, ok_bind, hashNext_of_linked hl ht, Option.some.injEq]
  split <;> rfl

/-- Started at any node of a ring without the key, the outer loop gives up. -/
theorem returns_searchFrom_none {a : Addr} {pre suf : List Addr}
    (hr : IsRing hashLinks cells root ts) (hs : root :: ts = pre ++ a :: suf)
    (hno : ((root :: ts).find? fun p => keyAt cells p = some key) = none) :
    Returns (fun n => loop (searchFrom cells key root) n (some a)) none := by
  induction suf generalizing a pre with
  | nil =>
    have hrot : IsRing hashLinks cells a ([] ++ pre) := hr.from_node hs
    have hround := returns_searchFrom_round root hrot (hr.last_linked hs)
      (find?_key_eq_none (fun p hp => by rw [hs]; simp at hp ⊢; tauto) hno)
    rw [if_pos rfl] at hround
    exact returns_loop_done hround
  | cons b suf ih =>
    have hrot : IsRing hashLinks cells a (b :: suf ++ pre) := hr.from_node hs
    have hl : hashLinks.Linked cells a b := by
      have hc := hrot.chain
      rw [List.cons_append, List.cons_append, List.cons_append, List.isChain_cons_cons] at hc
      exact hc.1
    have hbr : b ≠ root := by
      rintro rfl
      have hnd := hr.nodup
      rw [hs] at hnd
      have hroot : b ∈ pre ++ [a] := by
        cases pre with
        | nil => simp at hs; simp [hs.1]
        | cons r pre => simp at hs; simp [hs.1]
      have hsp : ((pre ++ [a]) ++ b :: suf).Nodup := by simpa using hnd
      exact List.disjoint_of_nodup_append hsp hroot (by simp)
    have hround := returns_searchFrom_round root hrot hl
      (find?_key_eq_none (fun p hp => by rw [hs]; simp at hp ⊢; tauto) hno)
    rw [if_neg hbr] at hround
    have hs' : root :: ts = (pre ++ [a]) ++ b :: suf := by simpa using hs
    exact returns_loop_next hround (ih hs')

theorem returns_searchFrom (key : Bytes) (hb : IsBucket cells root ts) :
    Returns (fun n => loop (searchFrom cells key root) n (some root))
      ((root :: ts).find? fun p => keyAt cells p = some key) := by
  rcases hb with ⟨rfl, t, ht, hnx, -, -⟩ | hr
  · have hload : load cells root = .ok t := by simp only [load, ht]
    by_cases hk : keyAt cells root = some key
    · have hin : Returns (fun n => loop (searchRing cells key root) n (some root)) (some root) :=
        returns_loop_done (returns_const (searchRing_found hk 0))
      simp only [List.find?_cons, hk, decide_true]
      exact returns_loop_done (Returns.bind hin (returns_ok _))
    · have hkt : t.key ≠ key := fun he => hk (by simp [keyAt, ht, he])
      have hend : Returns (fun n => loop (searchRing cells key root) n none) none :=
        returns_loop_done (returns_ok _)
      have hin : Returns (fun n => loop (searchRing cells key root) n (some root)) none := by
        refine returns_loop_next (returns_const ((searchRing_other ht hkt 0).trans ?_)) hend
        rw [hnx, if_neg (by simp)]
      have hstop : Returns (fun n => loop (searchFrom cells key root) n none) none :=
        returns_loop_done (returns_ok _)
      simp only [List.find?_cons, hk, decide_false, List.find?_nil]
      refine returns_loop_next (Returns.bind hin (returns_const ?_)) hstop
      simp only [hload, ok_bind, hnx, reduceCtorEq, if_false]
  · cases hf : (root :: ts).find? fun p => keyAt cells p = some key with
    | none => exact returns_searchFrom_none hr (List.nil_append _).symm hf
    | some p =>
      have hin := returns_searchRing key hr.chain (List.nodup_cons.mp hr.nodup).1
      rw [hf] at hin
      exact returns_loop_done (Returns.bind hin (returns_ok _))

/-- The result codes of a search, by what was found. -/
def searchResult : Option Addr → HmapError × Option Addr
  | some p => (.success, some p)
  | none => (.tupleNotFound, none)

theorem returns_hmapSearch {db : HmapDb} (hk : key ≠ [])
    (hb : IsBucket db.cells (db.indexOf key) ts) :
    Returns (fun n => hmapSearch n db key)
      (searchResult ((db.indexOf key :: ts).find? fun p => keyAt db.cells p = some key)) := by
  have hf := returns_searchFrom key hb
  unfold hmapSearch
  simp only [hk, if_false]
  refine Returns.bind hf (returns_const ?_)
  cases (db.indexOf key :: ts).find? fun p => keyAt db.cells p = some key <;> rfl

end Dirlist
