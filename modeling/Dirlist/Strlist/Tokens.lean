import Dirlist.Strlist.Grow

/-! The two tokenizers. One is given a length, the other goes on until it finds the zero behind the text,
which a jump over the delimiter may miss. -/

namespace Dirlist
open Run

/-- The loop of `strlist_push_tokens` over what is left in front of the zero. The byte behind a token and
the delimiter is looked at, which is there if it is not behind the zero. -/
def pushTokensFrom (delim : Bytes) : Nat → Strlist → Bytes → Exec Strlist
  | 0, _, _ => .error .fuel
  | k + 1, sl, s =>
    if s = [] then .ok sl
    else
      let n := byteFindb delim s
      let sl := strlistPushb sl (s.take n)
      if n + delim.length ≤ s.length then pushTokensFrom delim k sl (s.drop (n + delim.length))
      else .error .bounds

def strlistPushTokens (sl : Strlist) (s delim : Bytes) : Exec Strlist := pushTokensFrom delim (s.length + 1) sl s

/-- The text is made of tokens with a delimiter behind each, as they are found from the front. -/
inductive Delimited (delim : Bytes) : Bytes → Prop
  | nil : Delimited delim []
  | cons {s : Bytes} : s ≠ [] → byteFindb delim s + delim.length ≤ s.length →
    Delimited delim (s.drop (byteFindb delim s + delim.length)) → Delimited delim s

variable {delim s : Bytes} {sl sl' : Strlist} {k : Nat}

/-- With a delimiter behind every token both loops make the same rounds. -/
theorem pushTokensFrom_eq (hdelim : delim ≠ []) (h : Delimited delim s) {j : Nat} (hk : s.length < k)
    (hj : s.length ≤ j)
    (sl : Strlist) : pushTokensFrom delim k sl s = .ok (frombFrom delim j sl s) := by
  induction h generalizing sl j k with
  | nil =>
    obtain ⟨k, rfl⟩ := Nat.exists_eq_succ_of_ne_zero (Nat.ne_of_gt hk)
    rw [pushTokensFrom, if_pos rfl]
    cases j with
    | zero => rfl
    | succ j => rw [frombFrom, if_pos rfl]
  | @cons s hs hle _ ih =>
    have hpos := List.length_pos_iff.mpr hs
    have hdpos := List.length_pos_iff.mpr hdelim
    obtain ⟨k, rfl⟩ := Nat.exists_eq_succ_of_ne_zero (Nat.ne_of_gt (Nat.zero_lt_of_lt hk))
    obtain ⟨j, rfl⟩ := Nat.exists_eq_succ_of_ne_zero (Nat.ne_of_gt (Nat.lt_of_lt_of_le hpos hj))
    have hshort : (s.drop (byteFindb delim s + delim.length)).length < s.length := by
      rw [List.length_drop]
      omega
    rw [pushTokensFrom, if_neg hs, frombFrom, if_neg hs]
    dsimp only
    rw [if_pos hle, if_neg (Nat.not_lt.mpr hle)]
    exact ih (Nat.lt_of_lt_of_le hshort (Nat.le_of_lt_succ hk)) (Nat.le_of_lt_succ (Nat.lt_of_lt_of_le hshort hj)) _

/-- A run that finds the zero has found a delimiter behind every token. -/
theorem delimited_of_ok (h : pushTokensFrom delim k sl s = .ok sl') : Delimited delim s := by
  induction k generalizing sl s with
  | zero => cases h
  | succ k ih =>
    rw [pushTokensFrom] at h
    by_cases hs : s = []
    · rw [hs]
      exact .nil
    · rw [if_neg hs] at h
      dsimp only at h
      by_cases hle : byteFindb delim s + delim.length ≤ s.length
      · rw [if_pos hle] at h
        exact .cons hs hle (ih h)
      · rw [if_neg hle] at h
        cases h

/-- The tokenizers agree where the zero is found, and that is where the text ends behind a delimiter. -/
theorem strlistPushTokens_iff (sl : Strlist) (s : Bytes) (hdelim : delim ≠ []) :
    strlistPushTokens sl s delim = .ok (strlistFromb sl s delim) ↔ Delimited delim s :=
  ⟨delimited_of_ok, fun h => pushTokensFrom_eq hdelim h (Nat.lt_succ_self _) (Nat.le_refl _) sl⟩

/-- `a,b,` -/
theorem strlistPushTokens_iff_ab : strlistPushTokens (strlistInit 0) [97, 44, 98, 44] [44] =
    .ok (strlistFromb (strlistInit 0) [97, 44, 98, 44] [44]) := by
  refine (strlistPushTokens_iff (strlistInit 0) [97, 44, 98, 44] (by decide)).mpr ?_
  exact .cons (by decide) (by decide) (.cons (by decide) (by decide) .nil)

/-- In `a` no delimiter is found, and the byte behind the zero is looked at. -/
theorem strlistPushTokens_past : ¬∀ (sl : Strlist) (s delim : Bytes), delim ≠ [] → 0 ∉ s → 0 ∉ delim →
    strlistPushTokens sl s delim = .ok (strlistFromb sl s delim) := by
  intro hall
  have heq := hall (strlistInit 0) [97] [44] (by decide) (by decide) (by decide)
  have hpast : strlistPushTokens (strlistInit 0) [97] [44] = .error .bounds := rfl
  cases hpast.symm.trans heq

end Dirlist
