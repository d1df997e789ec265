import Dirlist.Ihex.Defs

/-! What a HEX text says, and that `ihex_load_buf` reads it. -/

namespace Dirlist
open Run

/-! ## The format -/

/-- The digits with their values. -/
def hexDigits : List (UInt8 × Nat) :=
  [(48, 0), (49, 1), (50, 2), (51, 3), (52, 4), (53, 5), (54, 6), (55, 7), (56, 8), (57, 9),
    (65, 10), (66, 11), (67, 12), (68, 13), (69, 14), (70, 15),
    (97, 10), (98, 11), (99, 12), (100, 13), (101, 14), (102, 15)]

/-- Bytes as pairs of digits. -/
inductive Hex : Bytes → Bytes → Prop
  | nil : Hex [] []
  | cons {v a b : UInt8} {vs s : Bytes} : (a, v.toNat / 16) ∈ hexDigits → (b, v.toNat % 16) ∈ hexDigits →
    Hex vs s → Hex (v :: vs) (a :: b :: s)

/-- The bytes a record is written with. -/
def IhexRecord.fields (r : IhexRecord) : Bytes :=
  [UInt8.ofNat r.data.length, UInt8.ofNat (r.offset.toNat / 256), UInt8.ofNat (r.offset.toNat % 256), r.type] ++
    r.data ++ [r.checksum]

def IhexRecord.Line (r : IhexRecord) (line : Bytes) : Prop := ∃ s, line = 58 :: s ∧ Hex r.fields s

/-- Lines with line ends between them, and perhaps behind the last one. -/
inductive HexText : List IhexRecord → Bytes → Prop
  | nil : HexText [] []
  | last {r : IhexRecord} {line : Bytes} : r.Line line → HexText [r] line
  | cons {r : IhexRecord} {line ends : Bytes} {rs : List IhexRecord} {s : Bytes} : r.Line line →
    ends ≠ [] → (∀ c ∈ ends, isNewline c = true) → HexText rs s → HexText (r :: rs) (line ++ (ends ++ s))

/-! ## Digits -/

variable {v a b : UInt8} {vs s t : Bytes} {r : IhexRecord} {rs : List IhexRecord}

theorem scanFromhex_digit {p : UInt8 × Nat} (h : p ∈ hexDigits) :
    scanFromhex p.1 = some p.2 ∧ p.2 < 16 ∧ isNewline p.1 = false := by
  have hall : ∀ p ∈ hexDigits, scanFromhex p.1 = some p.2 ∧ p.2 < 16 ∧ isNewline p.1 = false := by decide
  exact hall p h

theorem scanX_digit {width k l c : Nat} (ha : (a, c) ∈ hexDigits) (hw : 4 ≤ width)
    (hl : l < 2 ^ (width - 4)) :
    scanX width (k + 1) l (a :: s) = ((scanX width k (l * 16 + c) s).1 + 1, (scanX width k (l * 16 + c) s).2) := by
  obtain ⟨hval, hlt, -⟩ := scanFromhex_digit ha
  have hshift : l >>> (width - 4) = 0 := by
    rw [Nat.shiftRight_eq_div_pow]
    exact Nat.div_eq_of_lt hl
  have hpow : 2 ^ width = 2 ^ (width - 4) * 16 := by
    rw [show (16 : Nat) = 2 ^ 4 by rfl, ← Nat.pow_add, Nat.sub_add_cancel hw]
  have hmod : (l <<< 4 + c) % 2 ^ width = l * 16 + c := by
    rw [Nat.shiftLeft_eq, hpow]
    exact Nat.mod_eq_of_lt (by omega)
  rw [scanX, if_pos hshift, hval]
  simp only [hmod]

theorem scanXchar_hex (h : Hex (v :: vs) s) : scanXchar (s ++ t) = (2, v.toNat) := by
  cases h with
  | cons ha hb hs =>
    have hlt := v.toNat_lt
    simp only [scanXchar, List.cons_append]
    rw [scanX_digit ha (by decide) (by decide), scanX_digit hb (by decide) (by omega)]
    simp only [scanX]
    congr 1
    omega

theorem scanXshort_hex {w : UInt8} (h : Hex (v :: w :: vs) s) :
    scanXshort (s ++ t) = (4, v.toNat * 256 + w.toNat) := by
  cases h with
  | cons ha hb hs =>
    cases hs with
    | cons hc hd hs =>
      have hv := v.toNat_lt
      have hw := w.toNat_lt
      simp only [scanXshort, List.cons_append]
      rw [scanX_digit ha (by decide) (by decide), scanX_digit hb (by decide) (by omega),
        scanX_digit hc (by decide) (by omega), scanX_digit hd (by decide) (by omega)]
      simp only [scanX]
      congr 1
      omega

theorem Hex.length (h : Hex vs s) : s.length = 2 * vs.length := by
  induction h with
  | nil => rfl
  | cons _ _ _ ih =>
    rw [List.length_cons, List.length_cons, ih, List.length_cons]
    omega

theorem Hex.split {ws : Bytes} (h : Hex (vs ++ ws) s) : ∃ s₁ s₂, s = s₁ ++ s₂ ∧ Hex vs s₁ ∧ Hex ws s₂ := by
  induction vs generalizing s with
  | nil => exact ⟨[], s, rfl, .nil, h⟩
  | cons v vs ih =>
    cases h with
    | cons ha hb hs =>
      obtain ⟨s₁, s₂, rfl, h₁, h₂⟩ := ih hs
      exact ⟨_, s₂, rfl, .cons ha hb h₁, h₂⟩

theorem loadData_hex (h : Hex vs s) (t : Bytes) : loadData vs.length (s ++ t) = some vs := by
  induction vs generalizing s with
  | nil => rfl
  | cons v vs ih =>
    rw [List.length_cons, loadData, scanXchar_hex h]
    cases h with
    | cons ha hb hs => simp [ih hs]

theorem Hex.no_newline (h : Hex vs s) : ∀ c ∈ s, isNewline c = false := by
  induction h with
  | nil => simp
  | cons ha hb _ ih =>
    exact List.forall_mem_cons.mpr ⟨(scanFromhex_digit ha).2.2,
      List.forall_mem_cons.mpr ⟨(scanFromhex_digit hb).2.2, ih⟩⟩

/-! ## Records -/

theorem fillRecord_hex {x : Bytes} (h : loadData r.data.length x = some r.data) :
    fillRecord r.offset.toNat r.type.toNat r.checksum.toNat r.data.length x = some r := by
  rw [fillRecord]
  split
  · next hnone =>
    rw [Nat.mod_eq_of_lt r.short, h] at hnone
    cases hnone
  · next data hsome =>
    rw [Nat.mod_eq_of_lt r.short, h] at hsome
    obtain rfl := Option.some.inj hsome
    simp

theorem drop_hex (h : Hex vs s) (t : Bytes) {k : Nat} (hk : 2 * vs.length = k) : (s ++ t).drop k = t := by
  rw [← hk, ← h.length, List.drop_left]

theorem ihexLoadRecord_line {line : Bytes} (h : r.Line line) (t : Bytes) :
    ihexLoadRecord (line ++ t) = some r := by
  obtain ⟨s, rfl, hs⟩ := h
  have hoff := r.offset.toNat_lt
  have hfields : Hex ([UInt8.ofNat r.data.length] ++ ([UInt8.ofNat (r.offset.toNat / 256),
      UInt8.ofNat (r.offset.toNat % 256)] ++ ([r.type] ++ (r.data ++ [r.checksum])))) s := by
    simpa [IhexRecord.fields] using hs
  obtain ⟨s₁, s, rfl, h₁, hfields⟩ := hfields.split
  obtain ⟨s₂, s, rfl, h₂, hfields⟩ := hfields.split
  obtain ⟨s₃, s, rfl, h₃, hfields⟩ := hfields.split
  obtain ⟨s₄, s₅, rfl, h₄, h₅⟩ := hfields.split
  have hlen : (UInt8.ofNat r.data.length).toNat = r.data.length := UInt8.toNat_ofNat_of_lt' r.short
  have hhi : (UInt8.ofNat (r.offset.toNat / 256)).toNat = r.offset.toNat / 256 :=
    UInt8.toNat_ofNat_of_lt' (Nat.div_lt_of_lt_mul hoff)
  have hlo : (UInt8.ofNat (r.offset.toNat % 256)).toNat = r.offset.toNat % 256 :=
    UInt8.toNat_ofNat_of_lt' (Nat.mod_lt _ (by decide))
  have hoff16 : r.offset.toNat / 256 * 256 + r.offset.toNat % 256 = r.offset.toNat := by omega
  have hx : 58 :: (s₁ ++ (s₂ ++ (s₃ ++ (s₄ ++ s₅)))) ++ t =
      58 :: (s₁ ++ (s₂ ++ (s₃ ++ (s₄ ++ (s₅ ++ t))))) := by simp
  rw [hx, ihexLoadRecord, if_neg (by simp)]
  dsimp only
  rw [List.drop_one, List.tail_cons, scanXchar_hex h₁]
  dsimp only
  rw [if_neg (by simp), drop_hex (k := 2) h₁ _ rfl, scanXshort_hex h₂]
  dsimp only
  rw [if_neg (by simp), drop_hex (k := 4) h₂ _ rfl, scanXchar_hex h₃]
  dsimp only
  rw [if_neg (by simp), drop_hex (k := 2) h₃ _ rfl, hlen, drop_hex h₄ _ (Nat.mul_comm 2 _), scanXchar_hex h₅]
  dsimp only
  rw [if_neg (by simp), hhi, hlo, hoff16]
  exact fillRecord_hex (loadData_hex h₄ _)

/-! ## Texts -/

theorem IhexRecord.Line.no_newline {line : Bytes} (h : r.Line line) : ∀ c ∈ line, isNewline c = false := by
  obtain ⟨s, rfl, hs⟩ := h
  exact List.forall_mem_cons.mpr ⟨by decide, hs.no_newline⟩

theorem IhexRecord.Line.ne_nil {line : Bytes} (h : r.Line line) : line ≠ [] := by
  obtain ⟨s, rfl, -⟩ := h
  exact List.cons_ne_nil _ _

/-- A text goes on with a record. -/
theorem HexText.head (h : HexText rs s) : s.head?.all (fun c => !isNewline c) = true := by
  cases h with
  | nil => rfl
  | last hl =>
    obtain ⟨s, rfl, -⟩ := hl
    rfl
  | cons hl =>
    obtain ⟨s, rfl, -⟩ := hl
    rfl

theorem dropWhile_line {line : Bytes} (h : r.Line line) (t : Bytes) :
    (line ++ t).dropWhile (fun c => !isNewline c) = t.dropWhile (fun c => !isNewline c) := by
  refine List.dropWhile_append_of_pos fun c hc => ?_
  rw [h.no_newline c hc]
  rfl

theorem dropWhile_head {p : UInt8 → Bool} (h : s.head?.all (fun c => !p c) = true) : s.dropWhile p = s := by
  cases s with
  | nil => rfl
  | cons c s => simp_all

theorem loadBufFrom_text {k : Nat} (h : HexText rs s) (hk : s.length ≤ k) : loadBufFrom k s = .ok rs := by
  induction h generalizing k with
  | nil => cases k <;> rfl
  | @last r line hl =>
    have hload := ihexLoadRecord_line hl []
    have hdrop := dropWhile_line hl []
    rw [List.append_nil] at hload hdrop
    obtain ⟨k, rfl⟩ : ∃ k', k = k' + 1 :=
      Nat.exists_eq_add_one_of_ne_zero (by have := List.length_pos_iff.mpr hl.ne_nil; omega)
    simp only [loadBufFrom, if_neg hl.ne_nil, hload, hdrop]
    cases k <;> rfl
  | @cons r line ends rs s hl hne hends hs ih =>
    have hpos := List.length_pos_iff.mpr hl.ne_nil
    rw [List.length_append, List.length_append] at hk
    obtain ⟨k, rfl⟩ : ∃ k', k = k' + 1 := Nat.exists_eq_add_one_of_ne_zero (by omega)
    have hskip : (ends ++ s).dropWhile (fun c => !isNewline c) = ends ++ s := by
      apply dropWhile_head
      cases ends with
      | nil => exact absurd rfl hne
      | cons c ends => simp [hends c (List.mem_cons_self ..)]
    have hnext : (ends ++ s).dropWhile isNewline = s := by
      rw [List.dropWhile_append_of_pos hends, dropWhile_head hs.head]
    simp only [loadBufFrom, if_neg (List.append_ne_nil_of_left_ne_nil hl.ne_nil _),
      ihexLoadRecord_line hl, dropWhile_line hl, hskip, hnext, ih (k := k) (by omega)]
    rfl

theorem ihexLoadBuf_text (h : HexText rs s) : ihexLoadBuf s = .ok rs := loadBufFrom_text h (Nat.le_refl _)

end Dirlist
