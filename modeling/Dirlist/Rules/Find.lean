import Dirlist.Rules.Defs

/-! `rule_find` looks for a rule by name or by base name. `path_basename` cuts separators off the
end of what it is given, also off the keys of the rules, and that changes no base name. -/

namespace Dirlist

/-! ## Base names -/

/-- `str_rchrs`: where the last of the needles is, else the length. -/
def strRchrs (needles : Bytes) : Bytes → Nat
  | [] => 0
  | c :: s =>
    let n := strRchrs needles s
    if n < s.length ∨ c ∉ needles then n + 1 else 0

/-- The loop of `path_basename`, with the string it leaves. -/
def basenameFrom : Nat → Bytes → Bytes × Bytes
  | 0, x => (x, x)
  | k + 1, x =>
    let n := strRchrs [47, 92] x
    if n = x.length then (x, x)
    else if n + 1 = x.length then
      if n = 0 then (x, x) else basenameFrom k (x.take n)
    else (x, x.drop (n + 1))

/-- `path_basename`. A round takes a byte off, so there are no more rounds than bytes. -/
def pathBasename (x : Bytes) : Bytes × Bytes := basenameFrom x.length x

def baseName (x : Bytes) : Bytes := (pathBasename x).2

theorem strRchrs_le (needles x : Bytes) : strRchrs needles x ≤ x.length := by
  induction x with
  | nil => exact le_rfl
  | cons c x ih =>
    simp only [strRchrs]
    split
    · exact Nat.succ_le_succ ih
    · exact Nat.zero_le _

theorem basenameFrom_fuel {k k' : Nat} {x : Bytes} (hk : x.length ≤ k) (hk' : x.length ≤ k') :
    basenameFrom k x = basenameFrom k' x := by
  induction k generalizing k' x with
  | zero =>
    obtain rfl := List.length_eq_zero_iff.mp (Nat.le_zero.mp hk)
    cases k' <;> rfl
  | succ k ih =>
    cases k' with
    | zero =>
      obtain rfl := List.length_eq_zero_iff.mp (Nat.le_zero.mp hk')
      rfl
    | succ k' =>
      simp only [basenameFrom]
      by_cases hn : strRchrs [47, 92] x + 1 = x.length
      · have hlen : (x.take (strRchrs [47, 92] x)).length = strRchrs [47, 92] x := by
          rw [List.length_take]
          omega
        have hround : basenameFrom k (x.take (strRchrs [47, 92] x)) =
            basenameFrom k' (x.take (strRchrs [47, 92] x)) := ih (by omega) (by omega)
        rw [hround]
      · simp only [if_neg hn]

/-- What is left of a string has the same base name. -/
theorem baseName_cut (x : Bytes) : baseName (pathBasename x).1 = baseName x := by
  suffices hcut : ∀ k, x.length ≤ k → baseName (basenameFrom k x).1 = (basenameFrom k x).2 from
    hcut x.length le_rfl
  intro k hk
  induction k generalizing x with
  | zero =>
    obtain rfl := List.length_eq_zero_iff.mp (Nat.le_zero.mp hk)
    rfl
  | succ k ih =>
    have hself : baseName x = (basenameFrom (k + 1) x).2 := by
      rw [baseName, pathBasename, basenameFrom_fuel le_rfl hk]
    rw [basenameFrom] at hself ⊢
    have hle := strRchrs_le [47, 92] x
    by_cases hfull : strRchrs [47, 92] x = x.length
    · simp only [if_pos hfull] at hself ⊢
      exact hself
    · by_cases hlast : strRchrs [47, 92] x + 1 = x.length
      · by_cases hzero : strRchrs [47, 92] x = 0
        · simp only [if_neg hfull, if_pos hlast, if_pos hzero] at hself ⊢
          exact hself
        · simp only [if_neg hfull, if_pos hlast, if_neg hzero]
          exact ih _ (by rw [List.length_take]; omega)
      · simp only [if_neg hfull, if_neg hlast] at hself ⊢
        exact hself

/-! ## Rules -/

variable {α : Type}

/-- `rule_find`, with the keys it leaves. -/
def ruleFind : List (Bytes × α) → Bytes → Option α × List (Bytes × α)
  | [], _ => (none, [])
  | (name, t) :: rules, needle =>
    if name = needle then (some t, (name, t) :: rules)
    else if (pathBasename name).2 = (pathBasename needle).2 then (some t, ((pathBasename name).1, t) :: rules)
    else
      let r := ruleFind rules (pathBasename needle).1
      (r.1, ((pathBasename name).1, t) :: r.2)

/-- `rule_find_b`, which makes a string of the `n` bytes at `x`. -/
def ruleFindB (rules : List (Bytes × α)) (x : Bytes) : Option α × List (Bytes × α) :=
  ruleFind rules (x.takeWhile (· ≠ 0))

/-- The rules by their base names. -/
def bases (rules : List (Bytes × α)) : List (Bytes × α) := rules.map fun r => (baseName r.1, r.2)

/-- The first rule with the base name of `x`. -/
def ruleOf (based : List (Bytes × α)) (x : Bytes) : Option α :=
  (based.find? fun r => r.1 = baseName (x.takeWhile (· ≠ 0))).map Prod.snd

theorem ruleFind_spec (rules : List (Bytes × α)) (needle : Bytes) :
    (ruleFind rules needle).1 = ((bases rules).find? fun r => r.1 = baseName needle).map Prod.snd ∧
      bases (ruleFind rules needle).2 = bases rules := by
  induction rules generalizing needle with
  | nil => exact ⟨rfl, rfl⟩
  | cons r rules ih =>
    obtain ⟨name, t⟩ := r
    rw [ruleFind]
    by_cases hname : name = needle
    · subst hname
      rw [if_pos rfl]
      simp [bases]
    · rw [if_neg hname]
      by_cases hbase : baseName name = baseName needle
      · have hbase' : (pathBasename name).2 = (pathBasename needle).2 := hbase
        rw [if_pos hbase']
        simp [bases, hbase, baseName_cut]
      · have hbase' : ¬(pathBasename name).2 = (pathBasename needle).2 := hbase
        obtain ⟨hfound, hkept⟩ := ih (pathBasename needle).1
        rw [if_neg hbase']
        rw [baseName_cut] at hfound
        have hkept' : ((ruleFind rules (pathBasename needle).1).2.map fun r => (baseName r.1, r.2)) =
            rules.map fun r => (baseName r.1, r.2) := hkept
        refine ⟨?_, ?_⟩
        · simp [hfound, bases, hbase]
        · simp [bases, hkept', baseName_cut]

theorem ruleFindB_fst (rules : List (Bytes × α)) (x : Bytes) : (ruleFindB rules x).1 = ruleOf (bases rules) x :=
  (ruleFind_spec rules _).1

theorem bases_ruleFindB (rules : List (Bytes × α)) (x : Bytes) : bases (ruleFindB rules x).2 = bases rules :=
  (ruleFind_spec rules _).2

theorem ruleOf_mem {based : List (Bytes × α)} {x : Bytes} {t : α} (h : ruleOf based x = some t) :
    ∃ r ∈ based, r.2 = t := by
  obtain ⟨r, hr, ht⟩ := Option.map_eq_some_iff.mp h
  exact ⟨r, List.mem_of_find?_eq_some hr, ht⟩

end Dirlist
