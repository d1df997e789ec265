import Dirlist.Ihex.Load
import Dirlist.Lib.Image

/-! What `ihex_read_at` returns, against the memory that the data records stand for. -/

namespace Dirlist
open Run Image

/-! ## The memory -/

/-- The base a type 4 record sets, high byte first. -/
def IhexRecord.upper (r : IhexRecord) : Nat := (r.data.getD 0 0).toNat * 256 + (r.data.getD 1 0).toNat

/-- The data records at their addresses. A type 4 record is for those behind it. -/
def segments (base : Nat) : List IhexRecord → List (Nat × Bytes)
  | [] => []
  | r :: rs =>
    if r.type = 0 then (base * 2 ^ 16 + r.offset.toNat, r.data) :: segments base rs
    else if r.type = 4 then segments r.upper rs
    else segments base rs

/-- The records of a file, whatever their checksums. Only data records and the last one have
a use for the offset. -/
inductive Records : List IhexRecord → Prop
  | eof {r : IhexRecord} : r.type = 1 → r.data = [] → Records [r]
  | data {r : IhexRecord} {rs : List IhexRecord} : r.type = 0 → Records rs → Records (r :: rs)
  | base {r : IhexRecord} {rs : List IhexRecord} : r.type = 4 → r.offset = 0 → r.data.length = 2 →
    Records rs → Records (r :: rs)
  | start {r : IhexRecord} {rs : List IhexRecord} : r.type = 5 → r.offset = 0 → r.data.length = 4 →
    Records rs → Records (r :: rs)

structure WellFormed (rs : List IhexRecord) : Prop where
  records : Records rs
  ascending : Ascending (segments 0 rs)
  bounded : ∀ s ∈ segments 0 rs, top s ≤ 2 ^ 32

/-- A piece without bytes of a record that has no data for the memory. -/
def Piece.Own : Piece → Prop
  | .copy r p num => r.type = 0 ∨ (Piece.copy r p num).bytes = []
  | .fill _ => True

def content (pieces : List Piece) : Bytes := pieces.flatMap Piece.bytes

/-- What a read is for. One that starts in a data record goes on to its end, or to the end of
the memory. -/
structure ReadsImage (segs : List (Nat × Bytes)) (addr n : Nat) (pieces : List Piece) : Prop where
  image : content pieces = window 0 segs addr (content pieces).length
  length : (content pieces).length ≤ n
  own : ∀ piece ∈ pieces, piece.Own
  full : (∃ s ∈ segs, Covers s addr) →
    n ≤ (content pieces).length ∨ ∀ s ∈ segs, top s ≤ addr + (content pieces).length

/-! ## The reads that go well -/

/-- Behind a record that ends at `stop`, with `n` bytes still to read: the read is over before
it comes to a record that has bytes of another kind. -/
def clear (o : Off) (stop n : Nat) : List IhexRecord → Prop
  | [] => True
  | next :: rs =>
    let o := { o with lo16 := next.offset }
    let gap := o.off32 - stop
    if next.type = 0 ∨ next.data = [] then
      clear o ((o.off32 + next.data.length) % 2 ^ 32) (n - gap - next.data.length) rs
    else n ≤ gap

/-- The first record whose bytes would lie at the address holds data, does not end where the
addresses do, and the read stays clear of others behind it. -/
def ReadsWell (addr n : Nat) (o : Off) : List IhexRecord → Prop
  | [] => True
  | r :: rs =>
    let o := o.next r
    let stop := o.off32 + r.data.length
    if o.off32 ≤ addr ∧ addr < stop then
      if r.type = 0 then stop < 2 ^ 32 ∧ clear o stop (n - (stop - addr)) rs
      else 2 ^ 32 ≤ stop ∧ ReadsWell addr n o rs
    else ReadsWell addr n o rs

instance decidableClear (o : Off) (stop n : Nat) : ∀ rs, Decidable (clear o stop n rs)
  | [] => isTrue trivial
  | next :: rs =>
    have := fun stop n => decidableClear { o with lo16 := next.offset } stop n rs
    inferInstanceAs (Decidable (if next.type = 0 ∨ next.data = [] then _ else _))

instance decidableReadsWell (addr n : Nat) (o : Off) : ∀ rs, Decidable (ReadsWell addr n o rs)
  | [] => isTrue trivial
  | r :: rs =>
    have := decidableReadsWell addr n (o.next r) rs
    inferInstanceAs (Decidable (if _ ∧ _ then (if r.type = 0 then _ else _) else _))

variable {o : Off} {r : IhexRecord} {rs : List IhexRecord} {addr n p stop : Nat}

/-! ## Addresses -/

theorem Off.off32_lt (o : Off) : o.off32 < 2 ^ 32 := by
  have hhi := o.hi16.toNat_lt
  have hlo := o.lo16.toNat_lt
  rw [Off.off32]
  omega

theorem IhexRecord.base_toNat (r : IhexRecord) : r.base.toNat = r.upper := by
  have hlo := (r.data.getD 1 0).toNat_lt
  have hhi := (r.data.getD 0 0).toNat_lt
  rw [IhexRecord.base, IhexRecord.upper, UInt16.toNat_or, UInt16.toNat_shiftLeft, UInt8.toNat_toUInt16,
    UInt8.toNat_toUInt16, Nat.or_comm]
  rw [show (8 : UInt16).toNat % 16 = 8 from rfl, Nat.shiftLeft_eq, Nat.mod_eq_of_lt (by omega),
    ← Nat.shiftLeft_eq, ← Nat.shiftLeft_add_eq_or_of_lt (by omega), Nat.shiftLeft_eq]

/-- A record is found at the addresses its bytes are for, unless it comes to the end of all. -/
theorem found_iff (o : Off) (r : IhexRecord) (addr : Nat) :
    (addr ≥ o.off32 ∧ addr < (o.off32 + r.data.length) % 2 ^ 32) ↔
      (o.off32 ≤ addr ∧ addr < o.off32 + r.data.length) ∧ o.off32 + r.data.length < 2 ^ 32 := by
  have hoff := o.off32_lt
  have hlen := r.short
  omega

theorem recordAtFrom_cons (h : Records rs) (addr : Nat) (o : Off) (r : IhexRecord) :
    recordAtFrom addr o (r :: rs) =
      if addr ≥ (o.next r).off32 ∧ addr < ((o.next r).off32 + r.data.length) % 2 ^ 32 then
        some (r, rs, o.next r)
      else recordAtFrom addr (o.next r) rs := by
  cases h <;> rfl

theorem segments_cons (o : Off) (r : IhexRecord) (rs : List IhexRecord) :
    segments o.hi16.toNat (r :: rs) =
      (if r.type = 0 then [((o.next r).off32, r.data)] else []) ++ segments (o.next r).hi16.toNat rs := by
  by_cases h0 : r.type = 0
  · simp [segments, Off.next, Off.off32, h0]
  · by_cases h4 : r.type = 4
    · simp [segments, Off.next, h4, r.base_toNat]
    · simp [segments, Off.next, h0, h4]

/-! ## Foreign bytes -/

theorem clear_zero (o : Off) (stop : Nat) (rs : List IhexRecord) : clear o stop 0 rs := by
  induction rs generalizing o stop with
  | nil => trivial
  | cons next rs ih =>
    simp only [clear, Nat.zero_sub]
    split
    · exact ih _ _
    · exact Nat.zero_le _

theorem copy_own (hn : n ≠ 0) :
    (Piece.copy r p (min n (r.data.length - p))).Own ↔ r.type = 0 ∨ r.data.length ≤ p := by
  simp only [Piece.Own, Piece.bytes, List.take_eq_nil_iff, List.drop_eq_nil_iff]
  refine or_congr_right ?_
  omega

theorem fill_own (num : Nat) : (Piece.fill num).Own := trivial

/-- The loop copies nothing foreign just when it stays clear of it. -/
theorem readFrom_own (o : Off) (p n : Nat) (r : IhexRecord) (rs : List IhexRecord) :
    (∀ piece ∈ readFrom o p n r rs, piece.Own) ↔
    n = 0 ∨ (r.type = 0 ∨ r.data.length ≤ p) ∧
      clear o ((o.off32 + r.data.length) % 2 ^ 32) (n - (r.data.length - p)) rs := by
  induction rs generalizing o p n r with
  | nil =>
    by_cases hn : n = 0
    · simp [readFrom, hn]
    · simp [readFrom, hn, clear, copy_own hn]
  | cons next rs ih =>
    by_cases hn : n = 0
    · simp [readFrom, hn]
    · have hleft : n - min n (r.data.length - p) = n - (r.data.length - p) := by omega
      have hgap (k g : Nat) : k - min k g = k - g := by omega
      rw [readFrom, if_neg hn, or_iff_right hn, clear]
      simp only [List.forall_mem_cons, ih, copy_own hn, fill_own, true_and, hleft, hgap, Nat.le_zero_eq,
        List.length_eq_zero_iff, Nat.sub_zero]
      refine and_congr_right fun _ => ?_
      split
      · next hkind =>
        refine ⟨fun h => ?_, fun h => .inr ⟨hkind, h⟩⟩
        rcases h with h | h
        · rw [h, Nat.zero_sub]
          exact clear_zero ..
        · exact h.2
      · next hkind => simp only [hkind, false_and, or_false, Nat.sub_eq_zero_iff_le]

/-! ## The bytes -/

theorem content_readFrom_zero : content (readFrom o p 0 r rs) = [] := by
  cases rs <;> rfl

theorem content_readFrom_cons (o : Off) (p n : Nat) (r next : IhexRecord) (rs : List IhexRecord) :
    content (readFrom o p n r (next :: rs)) =
      (r.data.drop p).take n ++
        (List.replicate (min (n - (r.data.length - p))
          (({ o with lo16 := next.offset } : Off).off32 - (o.off32 + r.data.length) % 2 ^ 32)) 0 ++
        content (readFrom { o with lo16 := next.offset } 0 (n - (r.data.length - p) -
          (({ o with lo16 := next.offset } : Off).off32 - (o.off32 + r.data.length) % 2 ^ 32)) next rs)) := by
  by_cases hn : n = 0
  · subst hn
    simp [content_readFrom_zero]
  · have hleft : n - min n (r.data.length - p) = n - (r.data.length - p) := by omega
    have hgap (k g : Nat) : k - min k g = k - g := by omega
    have htake : (r.data.drop p).take (min n (r.data.length - p)) = (r.data.drop p).take n := by
      rw [← List.length_drop, ← List.take_take, List.take_length]
    simp only [readFrom, if_neg hn, content, List.flatMap_cons, Piece.bytes, hleft, hgap, htake]

/-- A round of the loop: the record's bytes, and what comes behind them if the read does. -/
theorem readFrom_shows_cons {next : IhexRecord} {segs : List (Nat × Bytes)} (hp : p ≤ r.data.length)
    (h : Shows 0 segs (top (o.off32, r.data)) (n - (r.data.length - p))
      (List.replicate (min (n - (r.data.length - p))
          (({ o with lo16 := next.offset } : Off).off32 - (o.off32 + r.data.length) % 2 ^ 32)) 0 ++
        content (readFrom { o with lo16 := next.offset } 0 (n - (r.data.length - p) -
          (({ o with lo16 := next.offset } : Off).off32 - (o.off32 + r.data.length) % 2 ^ 32)) next rs))) :
    Shows 0 ((o.off32, r.data) :: segs) (o.off32 + p) n (content (readFrom o p n r (next :: rs))) := by
  rw [content_readFrom_cons]
  by_cases hn : n ≤ r.data.length - p
  · rw [Nat.sub_eq_zero_of_le hn, Nat.zero_min, Nat.zero_sub, content_readFrom_zero]
    simp only [List.replicate_zero, List.append_nil]
    exact Shows.inside (s := (o.off32, r.data)) (show p + n ≤ r.data.length by omega)
  · rw [List.take_of_length_le (by rw [List.length_drop]; omega)]
    refine Shows.through (s := (o.off32, r.data)) hp (show r.data.length ≤ p + n by omega) ?_
    rw [show p + n - (o.off32, r.data).2.length = n - (r.data.length - p) by dsimp only; omega]
    exact h

/-- Before a foreign record, where the read is over. -/
theorem shows_foreign {next : IhexRecord} {segs : List (Nat × Bytes)}
    (hasc : Ascending ((o.off32, r.data) :: segs)) (htop : ∀ s ∈ (o.off32, r.data) :: segs, top s ≤ 2 ^ 32)
    (hoff : next.offset = 0)
    (hn : n ≤ ({ o with lo16 := next.offset } : Off).off32 - (o.off32 + r.data.length) % 2 ^ 32) :
    Shows 0 segs (top (o.off32, r.data)) n
      (List.replicate (min n
          (({ o with lo16 := next.offset } : Off).off32 - (o.off32 + r.data.length) % 2 ^ 32)) 0 ++
        content (readFrom { o with lo16 := next.offset } 0 (n -
          (({ o with lo16 := next.offset } : Off).off32 - (o.off32 + r.data.length) % 2 ^ 32)) next rs)) := by
  rw [Nat.min_eq_left hn, Nat.sub_eq_zero_of_le hn, content_readFrom_zero, List.append_nil]
  refine Shows.blanks fun s hs => ?_
  have habove : top (o.off32, r.data) ≤ s.1 := (List.pairwise_cons.mp hasc).1 s hs
  have hself := htop _ (List.mem_cons_self ..)
  have hbelow := htop s (List.mem_cons_of_mem _ hs)
  have hbase : ({ o with lo16 := next.offset } : Off).off32 ≤ o.off32 := by
    rw [hoff, Off.off32, Off.off32]
    exact Nat.add_le_add_left (Nat.zero_le _) _
  -- the offset is zero, so that there is a gap only where the end has wrapped round
  simp only [top] at habove hself hbelow ⊢
  omega

/-- The bytes from a data record on. -/
theorem readFrom_shows (hrs : Records rs) (hp : p ≤ r.data.length)
    (hasc : Ascending ((o.off32, r.data) :: segments o.hi16.toNat rs))
    (htop : ∀ s ∈ (o.off32, r.data) :: segments o.hi16.toNat rs, top s ≤ 2 ^ 32)
    (hclear : clear o ((o.off32 + r.data.length) % 2 ^ 32) (n - (r.data.length - p)) rs) :
    Shows 0 ((o.off32, r.data) :: segments o.hi16.toNat rs) (o.off32 + p) n
      (content (readFrom o p n r rs)) := by
  induction hrs generalizing o p n r with
  | @eof next h1 hnil =>
    have hsegs : segments o.hi16.toNat [next] = [] := by simp [segments, h1]
    have hlast (o : Off) (m : Nat) : content (readFrom o 0 m next []) = [] := by
      by_cases hm : m = 0
      · simp [readFrom, content, hm]
      · simp [readFrom, content, hm, hnil, Piece.bytes]
    refine readFrom_shows_cons hp ?_
    rw [hsegs, hlast, List.append_nil]
    refine ⟨?_, ?_, .inr (by simp)⟩
    · rw [List.length_replicate, window_of_blank (by simp)]
    · rw [List.length_replicate]
      exact Nat.min_le_left ..
  | @data next rs h0 hrs ih =>
    have hsegs : segments o.hi16.toNat (next :: rs) =
        (({ o with lo16 := next.offset } : Off).off32, next.data) :: segments o.hi16.toNat rs := by
      simp [segments, h0, Off.off32]
    rw [hsegs] at hasc htop ⊢
    rw [clear, if_pos (.inl h0)] at hclear
    obtain ⟨habove, hasc'⟩ := List.pairwise_cons.mp hasc
    have hnext : top (o.off32, r.data) ≤ ({ o with lo16 := next.offset } : Off).off32 :=
      habove _ (List.mem_cons_self ..)
    have hlt := ({ o with lo16 := next.offset } : Off).off32_lt
    have hmod : (o.off32 + r.data.length) % 2 ^ 32 = top (o.off32, r.data) :=
      Nat.mod_eq_of_lt (Nat.lt_of_le_of_lt hnext hlt)
    refine readFrom_shows_cons hp ?_
    rw [hmod] at hclear ⊢
    have hfirst : ∀ s ∈ (({ o with lo16 := next.offset } : Off).off32, next.data) ::
        segments o.hi16.toNat rs, ({ o with lo16 := next.offset } : Off).off32 ≤ s.1 := by
      refine List.forall_mem_cons.mpr ⟨Nat.le_refl _, fun s hs => ?_⟩
      exact Nat.le_trans (Nat.le_add_right ..) ((List.pairwise_cons.mp hasc').1 s hs)
    by_cases hn : n - (r.data.length - p) ≤
        ({ o with lo16 := next.offset } : Off).off32 - top (o.off32, r.data)
    · rw [Nat.min_eq_left hn, Nat.sub_eq_zero_of_le hn, content_readFrom_zero, List.append_nil]
      refine Shows.blanks fun s hs => .inr ?_
      have := hfirst s hs
      omega
    · have hover : top (o.off32, r.data) +
          (({ o with lo16 := next.offset } : Off).off32 - top (o.off32, r.data)) =
          ({ o with lo16 := next.offset } : Off).off32 := by omega
      rw [Nat.min_eq_right (by omega)]
      refine Shows.gap (fun s hs => ?_) (by omega) ?_
      · rw [hover]
        exact hfirst s hs
      · rw [← Nat.sub_zero next.data.length] at hclear
        have hshows := ih (Nat.zero_le _) hasc' (fun s hs => htop s (List.mem_cons_of_mem _ hs)) hclear
        rw [Nat.add_zero] at hshows
        rw [hover]
        exact hshows
  | @base next rs h4 hoff hlen hrs ih =>
    rw [clear, if_neg (by rintro (h | h) <;> simp_all)] at hclear
    exact readFrom_shows_cons hp (shows_foreign hasc htop hoff hclear)
  | @start next rs h5 hoff hlen hrs ih =>
    rw [clear, if_neg (by rintro (h | h) <;> simp_all)] at hclear
    exact readFrom_shows_cons hp (shows_foreign hasc htop hoff hclear)

/-! ## Finding the record -/

variable {r' : IhexRecord} {rs' : List IhexRecord} {o' : Off}

/-- One step of the search. -/
theorem recordAtFrom_step (hrs : Records rs) (h : recordAtFrom addr o (r :: rs) = some (r', rs', o')) :
    r' = r ∧ rs' = rs ∧ o' = o.next r ∧ (o'.off32 ≤ addr ∧ addr < o'.off32 + r'.data.length) ∧
      o'.off32 + r'.data.length < 2 ^ 32 ∨ recordAtFrom addr (o.next r) rs = some (r', rs', o') := by
  rw [recordAtFrom_cons hrs] at h
  split at h
  · next hfound =>
    obtain ⟨rfl, rfl, rfl⟩ := by simpa using h
    exact .inl ⟨rfl, rfl, rfl, (found_iff _ _ _).mp hfound⟩
  · exact .inr h

theorem Records.tail (h : Records (r :: rs)) (hne : rs ≠ []) : Records rs := by
  cases h with
  | eof => exact absurd rfl hne
  | data _ h => exact h
  | base _ _ _ h => exact h
  | start _ _ _ h => exact h

/-- The record that is found, with its place. -/
theorem recordAtFrom_some (hrs : Records rs) (h : recordAtFrom addr o rs = some (r', rs', o')) :
    Records rs' ∧ (o'.off32 ≤ addr ∧ addr < o'.off32 + r'.data.length) ∧
      o'.off32 + r'.data.length < 2 ^ 32 ∧
      ∃ before, segments o.hi16.toNat rs =
        before ++ ((if r'.type = 0 then [(o'.off32, r'.data)] else []) ++ segments o'.hi16.toNat rs') := by
  induction rs generalizing o with
  | nil => cases h
  | cons r rs ih =>
    by_cases hne : rs = []
    · subst hne
      cases h
    · have htail := hrs.tail hne
      rw [segments_cons]
      rcases recordAtFrom_step htail h with ⟨rfl, rfl, rfl, hcov, hlt⟩ | h
      · exact ⟨htail, hcov, hlt, [], rfl⟩
      · obtain ⟨hrs', hcov, hlt, before, hsegs⟩ := ih htail h
        rw [hsegs]
        exact ⟨hrs', hcov, hlt, _, (List.append_assoc ..).symm⟩

/-- Whether the read goes well shows at the record that is found. -/
def WellAt (segs : List (Nat × Bytes)) (addr n : Nat) : Option (IhexRecord × List IhexRecord × Off) → Prop
  | none => ∀ s ∈ segs, ¬ Covers s addr
  | some (r, rs, o) => r.type = 0 ∧ clear o (o.off32 + r.data.length) (n - (o.off32 + r.data.length - addr)) rs

theorem Records.last (h : Records [r]) : r.type = 1 ∧ r.data = [] := by
  cases h with
  | eof h1 hnil => exact ⟨h1, hnil⟩
  | data _ h => cases h
  | base _ _ _ h => cases h
  | start _ _ _ h => cases h

/-- At the end of the addresses there is no data record behind, and none is found. -/
theorem not_wellAt_end {s : Nat × Bytes} (hrs : Records rs)
    (hasc : Ascending (s :: segments o.hi16.toNat rs)) (hs : Covers s addr) (hend : top s = 2 ^ 32) :
    ¬ WellAt (s :: segments o.hi16.toNat rs) addr n (recordAtFrom addr o rs) := by
  intro hwell
  match hfound : recordAtFrom addr o rs with
  | none =>
    rw [hfound] at hwell
    exact hwell s (List.mem_cons_self ..) hs
  | some (r', rs', o') =>
    rw [hfound] at hwell
    obtain ⟨-, -, -, before, hsegs⟩ := recordAtFrom_some hrs hfound
    have hmem : (o'.off32, r'.data) ∈ segments o.hi16.toNat rs := by
      rw [hsegs, if_pos hwell.1]
      simp
    have habove : top s ≤ o'.off32 := (List.pairwise_cons.mp hasc).1 _ hmem
    have hlt := o'.off32_lt
    omega

theorem readsWell_iff (addr n : Nat) (hrs : Records rs) (hasc : Ascending (segments o.hi16.toNat rs))
    (htop : ∀ s ∈ segments o.hi16.toNat rs, top s ≤ 2 ^ 32) :
    ReadsWell addr n o rs ↔ WellAt (segments o.hi16.toNat rs) addr n (recordAtFrom addr o rs) := by
  induction rs generalizing o with
  | nil => cases hrs
  | cons r rs ih =>
    by_cases hne : rs = []
    · subst hne
      obtain ⟨h1, hnil⟩ := hrs.last
      have hno : ¬ ((o.next r).off32 ≤ addr ∧ addr < (o.next r).off32 + r.data.length) := by
        rw [hnil, List.length_nil]
        omega
      rw [ReadsWell, if_neg hno]
      simp [ReadsWell, recordAtFrom, WellAt, segments, h1]
    · have htail := hrs.tail hne
      have hfound := recordAtFrom_cons htail addr o r
      simp only [found_iff] at hfound
      rw [segments_cons] at hasc htop ⊢
      have ih := ih htail (List.pairwise_append.mp hasc).2.1 fun s hs => htop s (List.mem_append_right _ hs)
      by_cases hcov : (o.next r).off32 ≤ addr ∧ addr < (o.next r).off32 + r.data.length
      · rw [ReadsWell, if_pos hcov]
        by_cases hlt : (o.next r).off32 + r.data.length < 2 ^ 32
        · rw [if_pos ⟨hcov, hlt⟩] at hfound
          rw [hfound, WellAt, and_iff_right hlt]
          by_cases h0 : r.type = 0
          · simp only [h0, if_true, true_and]
          · simp only [h0, if_false, false_and, Nat.not_le.mpr hlt]
        · rw [if_neg fun h => hlt h.2] at hfound
          rw [hfound]
          by_cases h0 : r.type = 0
          · simp only [h0, if_true, hlt, false_and, false_iff, List.singleton_append] at hasc htop ⊢
            refine not_wellAt_end htail hasc hcov (Nat.le_antisymm (htop _ (List.mem_cons_self ..)) ?_)
            exact Nat.not_lt.mp hlt
          · simp only [h0, if_false, List.nil_append, ih, and_iff_right (Nat.not_lt.mp hlt)]
      · rw [if_neg fun h => hcov h.1] at hfound
        rw [ReadsWell, if_neg hcov, ih, hfound]
        cases recordAtFrom addr (o.next r) rs with
        | some found => rfl
        | none =>
          simp only [WellAt, List.forall_mem_append]
          refine (and_iff_right fun s hs => ?_).symm
          split at hs
          · rw [List.mem_singleton] at hs
            subst hs
            exact hcov
          · cases hs

/-! ## Reading -/

theorem ReadsImage.nil (segs : List (Nat × Bytes)) (addr n : Nat) :
    ReadsImage segs addr n [] ↔ n = 0 ∨ ∀ s ∈ segs, ¬ Covers s addr := by
  constructor
  · intro h
    by_cases hcov : ∃ s ∈ segs, Covers s addr
    · rcases h.full hcov with hn | htop
      · exact .inl (Nat.le_zero.mp hn)
      · obtain ⟨s, hs, hc⟩ := hcov
        exact absurd hc.2 (Nat.not_lt.mpr (htop s hs))
    · exact .inr fun s hs hc => hcov ⟨s, hs, hc⟩
  · intro h
    refine ⟨rfl, Nat.zero_le n, by simp, fun ⟨s, hs, hc⟩ => ?_⟩
    rcases h with rfl | h
    · exact .inl (Nat.le_refl 0)
    · exact absurd hc (h s hs)

theorem readFrom_zero : readFrom o p 0 r rs = [] := by
  cases rs <;> rfl

theorem readsImage_iff (h : WellFormed rs) (n : Nat) :
    ReadsImage (segments 0 rs) addr n (ihexReadAt rs addr n) ↔ n = 0 ∨ ReadsWell addr n ⟨0, 0⟩ rs := by
  have hwell := readsWell_iff (o := ⟨0, 0⟩) addr n h.records h.ascending h.bounded
  rw [hwell, ihexReadAt, ihexRecordAt]
  match hfound : recordAtFrom addr ⟨0, 0⟩ rs with
  | none => exact ReadsImage.nil ..
  | some (r, rs', o) =>
    obtain ⟨hrs', hcov, hlt, before, hsegs⟩ := recordAtFrom_some h.records hfound
    have hin : addr - o.off32 < r.data.length := by omega
    have hleft : r.data.length - (addr - o.off32) = o.off32 + r.data.length - addr := by omega
    have hown := readFrom_own o (addr - o.off32) n r rs'
    rw [Nat.mod_eq_of_lt hlt, hleft, or_iff_left (Nat.not_le.mpr hin)] at hown
    refine ⟨fun hreads => hown.mp hreads.own, fun hgood => ?_⟩
    rcases hgood with rfl | ⟨h0, hclear⟩
    · dsimp only
      rw [readFrom_zero]
      exact (ReadsImage.nil ..).mpr (.inl rfl)
    · have hasc := h.ascending
      have htop := h.bounded
      rw [show (0 : Nat) = (⟨0, 0⟩ : Off).hi16.toNat from rfl, hsegs, if_pos h0] at hasc htop ⊢
      obtain ⟨-, hasc', hbefore⟩ := List.pairwise_append.mp hasc
      have hshows := readFrom_shows (p := addr - o.off32) (n := n) hrs' (Nat.le_of_lt hin) hasc'
        (fun s hs => htop s (List.mem_append_right _ hs))
        (by rw [Nat.mod_eq_of_lt hlt, hleft]; exact hclear)
      rw [Nat.add_sub_cancel' hcov.1] at hshows
      have hshows := hshows.behind fun s hs =>
        Nat.le_trans (hbefore s hs _ (List.mem_cons_self ..)) hcov.1
      exact ⟨hshows.image, hshows.length, hown.mpr (.inr ⟨h0, hclear⟩), fun _ => hshows.full⟩

/-- Two bytes at the address 0, and a start address. -/
def startRecords : List IhexRecord :=
  [⟨0, 0, 0x99, [0xAA, 0xBB], by decide⟩, ⟨0, 5, 0xE3, [0x12, 0x34, 0x56, 0x78], by decide⟩,
    ⟨0, 1, 0xFF, [], by decide⟩]

/-- `:02000000AABB99`, `:0400000512345678E3` and `:00000001FF`, one on a line -/
def startText : Bytes :=
  [58, 48, 50, 48, 48, 48, 48, 48, 48, 65, 65, 66, 66, 57, 57] ++ ([10] ++
    ([58, 48, 52, 48, 48, 48, 48, 48, 53, 49, 50, 51, 52, 53, 54, 55, 56, 69, 51] ++ ([10] ++
      ([58, 48, 48, 48, 48, 48, 48, 48, 49, 70, 70] ++ ([10] ++ [])))))

theorem startText_hex : HexText startRecords startText := by
  refine .cons ⟨_, rfl, ?_⟩ (by decide) (by decide) (.cons ⟨_, rfl, ?_⟩ (by decide) (by decide)
    (.cons ⟨_, rfl, ?_⟩ (by decide) (by decide) .nil))
  all_goals
    repeat refine Hex.cons (by decide) (by decide) ?_
    exact Hex.nil

theorem startRecords_wellFormed : WellFormed startRecords where
  records := .data rfl (.start rfl rfl rfl (.eof rfl rfl))
  ascending := List.pairwise_singleton ..
  bounded := by decide

end Dirlist
