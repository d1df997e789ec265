import Dirlist.Lib.Run

/-! Two runs side by side. Coupled runs come to an end together, in related values or in the same
fault, and a rule for each way to build a run keeps them coupled. -/

namespace Run

variable {α α' β β' σ τ ρ ρ' : Type}

/-- Large enough amounts of fuel all lead to `x`. -/
def Settles (f : Nat → Exec α) (x : Exec α) : Prop := ∃ N, ∀ n, N ≤ n → f n = x

/-- Related values, or one fault other than the lack of fuel. -/
inductive Alike (R : α → α' → Prop) : Exec α → Exec α' → Prop
  | ok {a : α} {a' : α'} : R a a' → Alike R (.ok a) (.ok a')
  | error {e : Fault} : e ≠ .fuel → Alike R (.error e) (.error e)

theorem Alike.eq {x y : Exec α} (h : Alike Eq x y) : x = y ∧ x ≠ .error .fuel := by
  cases h with
  | ok heq => exact ⟨by rw [heq], by simp⟩
  | error he => exact ⟨rfl, fun heq => he (Except.error.inj heq)⟩

def Coupled (R : α → α' → Prop) (f : Nat → Exec α) (f' : Nat → Exec α') : Prop :=
  ∃ x x', Settles f x ∧ Settles f' x' ∧ Alike R x x'

theorem settles_const (x : Exec α) : Settles (fun _ => x) x := ⟨0, fun _ _ => rfl⟩

theorem Settles.bind {f : Nat → Exec α} {g : Nat → α → Exec β} {a : α} {y : Exec β} (hf : Settles f (.ok a))
    (hg : Settles (fun n => g n a) y) : Settles (fun n => f n >>= g n) y := by
  obtain ⟨M, hM⟩ := hf
  obtain ⟨N, hN⟩ := hg
  refine ⟨max M N, fun n hn => ?_⟩
  have hMn : M ≤ n := le_trans (le_max_left M N) hn
  have hNn : N ≤ n := le_trans (le_max_right M N) hn
  simp only [hM n hMn, ok_bind, hN n hNn]

theorem Settles.bind_error {f : Nat → Exec α} {g : Nat → α → Exec β} {e : Fault}
    (hf : Settles f (.error e)) : Settles (fun n => f n >>= g n) (.error e) := by
  obtain ⟨N, hN⟩ := hf
  exact ⟨N, fun n hn => by simp only [hN n hn, error_bind]⟩

theorem Settles.succ {f g : Nat → Exec α} {x : Exec α} (h : Settles f x) (hg : ∀ n, g (n + 1) = f n) : Settles g x := by
  obtain ⟨N, hN⟩ := h
  refine ⟨N + 1, fun n hn => ?_⟩
  obtain ⟨k, rfl⟩ : ∃ k, n = k + 1 := ⟨n - 1, by omega⟩
  exact (hg k).trans (hN k (by omega))

theorem Settles.unique {f : Nat → Exec α} {x y : Exec α} (hx : Settles f x) (hy : Settles f y) : x = y := by
  obtain ⟨M, hM⟩ := hx
  obtain ⟨N, hN⟩ := hy
  exact (hM (max M N) (le_max_left M N)).symm.trans (hN (max M N) (le_max_right M N))

theorem settles_loop_next {body : Nat → σ → Exec (σ ⊕ ρ)} {s s' : σ} {x : Exec ρ}
    (hb : ∀ n, body n s = .ok (.inl s')) (h : Settles (fun n => loop body n s') x) :
    Settles (fun n => loop body n s) x := h.succ fun n => by rw [loop, hb, ok_bind]

theorem settles_loop_done {body : Nat → σ → Exec (σ ⊕ ρ)} {s : σ} {r : ρ} (hb : ∀ n, body n s = .ok (.inr r)) :
    Settles (fun n => loop body n s) (.ok r) := (settles_const (.ok r)).succ fun n => by rw [loop, hb, ok_bind]

theorem settles_loop_error {body : Nat → σ → Exec (σ ⊕ ρ)} {s : σ} {e : Fault} (hb : ∀ n, body n s = .error e) :
    Settles (fun n => loop body n s) (.error e) := (settles_const (.error e)).succ fun n => by rw [loop, hb, error_bind]

theorem loop_succ (body : Nat → σ → Exec (σ ⊕ ρ)) (n : Nat) (s : σ) :
    loop body (n + 1) s = body n s >>= Sum.elim (loop body n) .ok := by
  rw [loop]
  congr 1
  funext x
  cases x <;> rfl

/-- What rounds without fuel come to after the one that gave `y`. -/
inductive ComesTo (g : σ → Exec (σ ⊕ ρ)) : Exec (σ ⊕ ρ) → Exec ρ → Prop
  | next {s : σ} {x : Exec ρ} : ComesTo g (g s) x → ComesTo g (.ok (.inl s)) x
  | done {r : ρ} : ComesTo g (.ok (.inr r)) (.ok r)
  | error {e : Fault} : e ≠ .fuel → ComesTo g (.error e) (.error e)

theorem ComesTo.ne_fuel {g : σ → Exec (σ ⊕ ρ)} {y : Exec (σ ⊕ ρ)} {x : Exec ρ} (h : ComesTo g y x) :
    x ≠ .error .fuel := by
  induction h with
  | next _ ih => exact ih
  | done => simp
  | error he => exact fun heq => he (Except.error.inj heq)

/-- A loop whose rounds come to those of `g` does what `g` does round by round. -/
theorem ComesTo.settles_from {body : Nat → σ → Exec (σ ⊕ ρ)} {g : σ → Exec (σ ⊕ ρ)}
    (hb : ∀ s, Settles (fun n => body n s) (g s)) {y : Exec (σ ⊕ ρ)} {x : Exec ρ} (h : ComesTo g y x) :
    Settles (fun n => y >>= Sum.elim (loop body n) .ok) x := by
  induction h with
  | @next s x _ ih =>
    obtain ⟨M, hM⟩ := hb s
    obtain ⟨N, hN⟩ := ih
    have hround : Settles (fun n => body n s >>= Sum.elim (loop body n) .ok) x := by
      refine ⟨max M N, fun n hn => ?_⟩
      have hMn : body n s = g s := hM n (le_trans (le_max_left M N) hn)
      dsimp only
      rw [hMn]
      exact hN n (le_trans (le_max_right M N) hn)
    exact hround.succ fun n => loop_succ body n s
  | done => exact settles_const _
  | error => exact settles_const _

theorem ComesTo.settles {body : Nat → σ → Exec (σ ⊕ ρ)} {g : σ → Exec (σ ⊕ ρ)}
    (hb : ∀ s, Settles (fun n => body n s) (g s)) {s : σ} {x : Exec ρ} (h : ComesTo g (g s) x) :
    Settles (fun n => loop body n s) x := h.next.settles_from hb

/-! ## Runs that end in a value or in one fault -/

/-- If `p` holds the run returns a value with `Q`, and else it ends in the fault `e`. -/
def Ends (e : Fault) (p : Prop) (Q : α → Prop) (f : Nat → Exec α) : Prop :=
  (p → ∃ a, Returns f a ∧ Q a) ∧ (¬p → Settles f (.error e))

section
variable {e : Fault} {p q : Prop} {P : α → Prop} {Q : β → Prop} {f : Nat → Exec α} {g : Nat → α → Exec β}

theorem ends_returns {a : α} (hf : Returns f a) (ha : P a) (hp : p) : Ends e p P f :=
  ⟨fun _ => ⟨a, hf, ha⟩, fun h => absurd hp h⟩

theorem ends_error (hf : Settles f (.error e)) (hp : ¬p) : Ends e p P f := ⟨fun h => absurd h hp, fun _ => hf⟩

theorem Ends.congr {P' : α → Prop} (h : Ends e p P f) (hpq : p ↔ q) (hP : ∀ a, P a → P' a) : Ends e q P' f := by
  refine ⟨fun hq => ?_, fun hq => h.2 (mt hpq.mp hq)⟩
  obtain ⟨a, hf, ha⟩ := h.1 (hpq.mpr hq)
  exact ⟨a, hf, hP a ha⟩

/-- What returns for sure is a prefix of the run. -/
theorem ends_bind {a : α} (hf : Returns f a) (hg : Ends e p Q fun n => g n a) : Ends e p Q fun n => f n >>= g n := by
  refine ⟨fun hp => ?_, fun hp => Settles.bind hf (hg.2 hp)⟩
  obtain ⟨b, hb, hQ⟩ := hg.1 hp
  exact ⟨b, hf.bind hb, hQ⟩

theorem Ends.bind (hf : Ends e p P f) (hg : ∀ a, P a → Ends e q Q fun n => g n a) :
    Ends e (p ∧ q) Q fun n => f n >>= g n := by
  by_cases hp : p
  · obtain ⟨a, ha, hP⟩ := hf.1 hp
    exact (ends_bind ha (hg a hP)).congr (and_iff_right hp).symm fun _ h => h
  · exact ends_error (hf.2 hp).bind_error fun h => hp h.1

/-- What is left of the run returns for sure. -/
theorem Ends.returns (hf : Ends e p P f) (hg : ∀ a, P a → ∃ b, Returns (fun n => g n a) b ∧ Q b) :
    Ends e p Q fun n => f n >>= g n := by
  refine ⟨fun hp => ?_, fun hp => (hf.2 hp).bind_error⟩
  obtain ⟨a, ha, hP⟩ := hf.1 hp
  obtain ⟨b, hb, hQ⟩ := hg a hP
  exact ⟨b, ha.bind hb, hQ⟩

theorem Ends.gives (h : Ends e p P f) {Q' : α → Prop} (hP : ∀ n, Gives (f n) Q') :
    Ends e p (fun a => P a ∧ Q' a) f := by
  refine ⟨fun hp => ?_, h.2⟩
  obtain ⟨a, ha, hPa⟩ := h.1 hp
  exact ⟨a, ha, hPa, ha.gives hP⟩

theorem Ends.loop {body : Nat → σ → Exec (σ ⊕ ρ)} {s : σ} {Q : ρ → Prop}
    (h : Ends e p Q fun n => body n s >>= Sum.elim (loop body n) .ok) : Ends e p Q fun n => loop body n s := by
  refine ⟨fun hp => ?_, fun hp => (h.2 hp).succ fun n => loop_succ body n s⟩
  obtain ⟨r, hr, hQ⟩ := h.1 hp
  exact ⟨r, hr.succ fun n => loop_succ body n s, hQ⟩
end

/-! ## Rules -/

variable {R : α → α' → Prop} {S : β → β' → Prop}

theorem coupled_ok {a : α} {a' : α'} (h : R a a') : Coupled R (fun _ => .ok a) (fun _ => .ok a') :=
  ⟨.ok a, .ok a', settles_const _, settles_const _, .ok h⟩

/-- The same computation on both sides. -/
theorem coupled_same {x : Exec α} (hx : x ≠ .error .fuel) : Coupled Eq (fun _ => x) (fun _ => x) := by
  refine ⟨x, x, settles_const x, settles_const x, ?_⟩
  cases x with
  | ok a => exact .ok rfl
  | error e => exact .error fun he => hx (by rw [he])

theorem coupled_returns {f : Nat → Exec α} {f' : Nat → Exec α'} {a : α} {a' : α'} (hf : Returns f a)
    (hf' : Returns f' a') (h : R a a') : Coupled R f f' := ⟨.ok a, .ok a', hf, hf', .ok h⟩

theorem Coupled.bind {f : Nat → Exec α} {f' : Nat → Exec α'} {g : Nat → α → Exec β} {g' : Nat → α' → Exec β'}
    (hf : Coupled R f f') (hg : ∀ a a', R a a' → Coupled S (fun n => g n a) (fun n => g' n a')) :
    Coupled S (fun n => f n >>= g n) (fun n => f' n >>= g' n) := by
  obtain ⟨x, x', hx, hx', hR⟩ := hf
  cases hR with
  | ok h =>
    obtain ⟨y, y', hy, hy', hS⟩ := hg _ _ h
    exact ⟨y, y', hx.bind hy, hx'.bind hy', hS⟩
  | @error e he => exact ⟨.error e, .error e, hx.bind_error, hx'.bind_error, .error he⟩

/-- What the first run does for sure before they go on together. -/
theorem Coupled.behind {f : Nat → Exec α} {g : Nat → α → Exec β} {f' : Nat → Exec β'} {a : α} (hf : Returns f a)
    (h : Coupled S (fun n => g n a) f') : Coupled S (fun n => f n >>= g n) f' := by
  obtain ⟨y, y', hy, hy', hS⟩ := h
  exact ⟨y, y', Settles.bind hf hy, hy', hS⟩

theorem Coupled.mono {R' : α → α' → Prop} {f : Nat → Exec α} {f' : Nat → Exec α'} (h : Coupled R f f')
    (hR : ∀ a a', R a a' → R' a a') : Coupled R' f f' := by
  obtain ⟨x, x', hx, hx', hR'⟩ := h
  refine ⟨x, x', hx, hx', ?_⟩
  cases hR' with
  | ok h => exact .ok (hR _ _ h)
  | error he => exact .error he

/-- What two rounds of a loop have in common: both go on or both leave. -/
inductive Rounds (I : σ → τ → Prop) (Q : ρ → ρ' → Prop) : σ ⊕ ρ → τ ⊕ ρ' → Prop
  | next {s : σ} {t : τ} : I s t → Rounds I Q (.inl s) (.inl t)
  | done {r : ρ} {r' : ρ'} : Q r r' → Rounds I Q (.inr r) (.inr r')

/-- Loops whose rounds are coupled, where the second one comes to an end by a measure. -/
theorem Coupled.loop {body : Nat → σ → Exec (σ ⊕ ρ)} {body' : Nat → τ → Exec (τ ⊕ ρ')} (I : σ → τ → Prop)
    (Q : ρ → ρ' → Prop) (μ : τ → Nat)
    (hstep : ∀ s t, I s t → Coupled (Rounds (fun s' t' => Returns (fun n => body n s) (.inl s') →
      I s' t' ∧ μ t' < μ t) Q) (fun n => body n s) (fun n => body' n t)) {s : σ} {t : τ} (h : I s t) :
    Coupled Q (fun n => loop body n s) (fun n => loop body' n t) := by
  induction hm : μ t using Nat.strongRecOn generalizing s t with
  | _ m ih =>
    obtain ⟨x, x', hx, hx', hR⟩ := hstep s t h
    have hrun (n : Nat) := loop_succ body n s
    have hrun' (n : Nat) := loop_succ body' n t
    cases hR with
    | @error e he => exact ⟨.error e, .error e, hx.bind_error.succ hrun, hx'.bind_error.succ hrun', .error he⟩
    | ok hR =>
      cases hR with
      | done hQ => exact ⟨_, _, (hx.bind (settles_const _)).succ hrun, (hx'.bind (settles_const _)).succ hrun', .ok hQ⟩
      | next hI =>
        obtain ⟨hI, hlt⟩ := hI hx
        obtain ⟨y, y', hy, hy', hQ⟩ := ih _ (hm ▸ hlt) hI rfl
        exact ⟨y, y', (hx.bind hy).succ hrun, (hx'.bind hy').succ hrun', hQ⟩

/-! ## The states of a loop -/

/-- A round goes on from `s` to `t`. -/
def GoesTo (body : Nat → σ → Exec (σ ⊕ ρ)) (s t : σ) : Prop := Returns (fun n => body n s) (.inl t)

variable {body : Nat → σ → Exec (σ ⊕ ρ)} {s t u : σ}

theorem GoesTo.returns_iff (hst : GoesTo body s t) (r : ρ) :
    Returns (fun n => loop body n s) r ↔ Returns (fun n => loop body n t) r := by
  constructor
  · rintro ⟨N, hN⟩
    obtain ⟨M, hM⟩ := hst
    refine ⟨max M N, fun n hn => ?_⟩
    have hround : body n s = .ok (.inl t) := hM n (le_trans (le_max_left M N) hn)
    have hnext : loop body (n + 1) s = loop body n t := by rw [loop, hround, ok_bind]
    exact hnext.symm.trans (hN (n + 1) (Nat.le_succ_of_le (le_trans (le_max_right M N) hn)))
  · exact returns_loop_next hst

theorem GoesTo.reached (hst : GoesTo body s t) (h : Relation.ReflTransGen (GoesTo body) s u) :
    u = s ∨ Relation.ReflTransGen (GoesTo body) t u := by
  rcases h.cases_head with rfl | ⟨v, hv, h⟩
  · exact .inl rfl
  · cases hst.unique hv
    exact .inr h

theorem reached_of_done {r : ρ} (hr : Returns (fun n => body n s) (.inr r))
    (h : Relation.ReflTransGen (GoesTo body) s u) : u = s := by
  rcases h.cases_head with rfl | ⟨v, hv, -⟩
  · rfl
  · cases hr.unique hv

end Run
