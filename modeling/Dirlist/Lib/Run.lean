import Mathlib

/-! Imperative code as fuelled functions. A run ends in a value or in a fault, and
running out of fuel is itself a fault, so a loop of the source is a plain recursion on
fuel. `Returns` is the statement that the code really comes back with a value: every
large enough amount of fuel gives it. -/

namespace Run

/-- Why a run has no value: out of fuel, a null or dangling pointer, an access outside
its object, or a failed assertion. -/
inductive Fault
  | fuel
  | null
  | bounds
  | assert
deriving DecidableEq, Repr

abbrev Exec (α : Type) := Except Fault α

variable {α β σ ρ : Type}

/-- A `for(;;)` loop: `body` either goes round again from a new state or leaves. The
fuel handed to the body is what is left after this round. -/
def loop (body : Nat → σ → Exec (σ ⊕ ρ)) : Nat → σ → Exec ρ
  | 0, _ => .error .fuel
  | n + 1, s => body n s >>= fun
    | .inl s' => loop body n s'
    | .inr r => .ok r

def Returns (f : Nat → Exec α) (r : α) : Prop := ∃ N, ∀ n, N ≤ n → f n = .ok r

/-- More fuel never changes an outcome other than running out of it. -/
def Steady (f : Nat → Exec α) : Prop := ∀ m n, m ≤ n → f m ≠ .error .fuel → f n = f m

theorem bind_eq_ok {x : Exec α} {f : α → Exec β} {b : β} (h : x >>= f = .ok b) :
    ∃ a, x = .ok a ∧ f a = .ok b := by
  cases x with
  | error e => cases h
  | ok a => exact ⟨a, rfl, h⟩

@[simp] theorem ok_bind (a : α) (f : α → Exec β) : (Except.ok a : Exec α) >>= f = f a := rfl

@[simp] theorem error_bind (e : Fault) (f : α → Exec β) :
    (Except.error e : Exec α) >>= f = .error e := rfl

theorem bind_ne_error {x : Exec α} {f : α → Exec β} {e : Fault} (hx : x ≠ .error e) (hf : ∀ a, f a ≠ .error e) :
    x >>= f ≠ .error e := by
  cases x with
  | error e' => exact fun h => hx (congrArg Except.error (Except.error.inj h))
  | ok a => exact hf a

theorem bind_ne_fuel {x : Exec α} {f : α → Exec β} (hx : x ≠ .error .fuel) (hf : ∀ a, f a ≠ .error .fuel) :
    x >>= f ≠ .error .fuel := bind_ne_error hx hf

/-! ## Returning -/

theorem returns_ok (r : α) : Returns (fun _ => .ok r) r := ⟨0, fun _ _ => rfl⟩

theorem returns_const {x : Exec α} {r : α} (h : x = .ok r) : Returns (fun _ => x) r :=
  ⟨0, fun _ _ => h⟩

theorem Returns.unique {f : Nat → Exec α} {r s : α} (hr : Returns f r) (hs : Returns f s) :
    r = s := by
  obtain ⟨M, hM⟩ := hr
  obtain ⟨N, hN⟩ := hs
  have h := (hM (max M N) (le_max_left M N)).symm.trans (hN (max M N) (le_max_right M N))
  exact Except.ok.inj h

theorem Returns.congr {f g : Nat → Exec α} {r : α} (h : Returns f r) (hfg : ∀ n, g n = f n) :
    Returns g r := by
  obtain ⟨N, hN⟩ := h
  exact ⟨N, fun n hn => (hfg n).trans (hN n hn)⟩

theorem Returns.bind {f : Nat → Exec α} {g : Nat → α → Exec β} {a : α} {b : β}
    (hf : Returns f a) (hg : Returns (fun n => g n a) b) :
    Returns (fun n => f n >>= g n) b := by
  obtain ⟨M, hM⟩ := hf
  obtain ⟨N, hN⟩ := hg
  refine ⟨max M N, fun n hn => ?_⟩
  have hMn : M ≤ n := le_trans (le_max_left M N) hn
  have hNn : N ≤ n := le_trans (le_max_right M N) hn
  simp only [hM n hMn, ok_bind, hN n hNn]

/-- A call made with one unit of fuel less returns the same value. -/
theorem Returns.succ {f : Nat → Exec α} {g : Nat → Exec α} {r : α} (h : Returns f r)
    (hg : ∀ n, g (n + 1) = f n) : Returns g r := by
  obtain ⟨N, hN⟩ := h
  refine ⟨N + 1, fun n hn => ?_⟩
  obtain ⟨k, rfl⟩ : ∃ k, n = k + 1 := ⟨n - 1, by omega⟩
  exact (hg k).trans (hN k (by omega))

theorem returns_foldlM_cons {body : Nat → σ → α → Exec σ} {x : α} {xs : List α} {s s' r : σ}
    (hx : Returns (fun n => body n s x) s') (hxs : Returns (fun n => xs.foldlM (body n) s') r) :
    Returns (fun n => (x :: xs).foldlM (body n) s) r := by
  simp only [List.foldlM_cons]
  exact hx.bind hxs

/-- A fold that comes back took every step, from a state that keeps the invariant. -/
theorem foldlM_inv {f : σ → α → Exec σ} (I : σ → Prop) (hstep : ∀ s x s', I s → f s x = .ok s' → I s')
    {xs : List α} {s r : σ} (hs : I s) (h : xs.foldlM f s = .ok r) :
    I r ∧ ∀ x ∈ xs, ∃ s', I s' ∧ ∃ r', f s' x = .ok r' := by
  induction xs generalizing s with
  | nil =>
    cases h
    exact ⟨hs, by simp⟩
  | cons x xs ih =>
    rw [List.foldlM_cons] at h
    obtain ⟨s', hx, h⟩ := bind_eq_ok h
    obtain ⟨hr, hall⟩ := ih (hstep s x s' hs hx) h
    exact ⟨hr, List.forall_mem_cons.mpr ⟨⟨s, hs, s', hx⟩, hall⟩⟩

/-! ## Loops -/

theorem returns_loop_next {body : Nat → σ → Exec (σ ⊕ ρ)} {s s' : σ} {r : ρ}
    (hb : Returns (fun n => body n s) (.inl s')) (hl : Returns (fun n => loop body n s') r) :
    Returns (fun n => loop body n s) r :=
  Returns.succ (Returns.bind (g := fun n x => match x with
    | .inl s' => loop body n s'
    | .inr r => .ok r) hb hl) (fun _ => rfl)

theorem returns_loop_done {body : Nat → σ → Exec (σ ⊕ ρ)} {s : σ} {r : ρ}
    (hb : Returns (fun n => body n s) (.inr r)) : Returns (fun n => loop body n s) r :=
  Returns.succ (Returns.bind (g := fun n x => match x with
    | .inl s' => loop body n s'
    | .inr r => .ok r) hb (returns_ok r)) (fun _ => rfl)

/-- A round that goes on leaves the outcome to the next one. -/
theorem returns_loop_iff {body : Nat → σ → Exec (σ ⊕ ρ)} {s s' : σ} (hb : ∀ n, body n s = .ok (.inl s'))
    (r : ρ) : Returns (fun n => loop body n s) r ↔ Returns (fun n => loop body n s') r := by
  have hnext (n : Nat) : loop body (n + 1) s = loop body n s' := by rw [loop, hb, ok_bind]
  constructor
  · rintro ⟨N, hN⟩
    exact ⟨N, fun n hn => (hnext n).symm.trans (hN (n + 1) (Nat.le_succ_of_le hn))⟩
  · exact fun h => h.succ hnext

theorem not_returns_loop {body : Nat → σ → Exec (σ ⊕ ρ)} {s : σ} {e : Fault}
    (hb : ∀ n, body n s = .error e) (r : ρ) : ¬Returns (fun n => loop body n s) r := by
  rintro ⟨N, hN⟩
  have hfault : loop body (N + 1) s = .error e := by rw [loop, hb, error_bind]
  have hok := hN (N + 1) (Nat.le_succ N)
  dsimp only at hok
  rw [hfault] at hok
  cases hok

/-- The states a loop comes to, the first one included. -/
inductive Reached (body : Nat → σ → Exec (σ ⊕ ρ)) (s : σ) : σ → Prop
  | start : Reached body s s
  | next {t u : σ} : Reached body s t → (∀ n, body n t = .ok (.inl u)) → Reached body s u

theorem Reached.cases_next {body : Nat → σ → Exec (σ ⊕ ρ)} {s s' t : σ}
    (hb : ∀ n, body n s = .ok (.inl s')) (h : Reached body s t) : t = s ∨ Reached body s' t := by
  induction h with
  | start => exact .inl rfl
  | next _ hu ih =>
    rcases ih with rfl | ih
    · have heq := (hb 0).symm.trans (hu 0)
      cases heq
      exact .inr .start
    · exact .inr (ih.next hu)

theorem Reached.eq_start {body : Nat → σ → Exec (σ ⊕ ρ)} {s t : σ}
    (hb : ∀ s', body 0 s ≠ .ok (.inl s')) (h : Reached body s t) : t = s := by
  induction h with
  | start => rfl
  | next _ hu ih =>
    subst ih
    exact absurd (hu 0) (hb _)

/-- Partial correctness of a loop from an invariant. -/
theorem loop_inv {body : Nat → σ → Exec (σ ⊕ ρ)} (I : σ → Prop) (Q : ρ → Prop)
    (hnext : ∀ n s s', I s → body n s = .ok (.inl s') → I s')
    (hdone : ∀ n s r, I s → body n s = .ok (.inr r) → Q r) {n : Nat} {s : σ} {r : ρ} (hs : I s)
    (h : loop body n s = .ok r) : Q r := by
  induction n generalizing s with
  | zero => cases h
  | succ n ih =>
    obtain ⟨x, hx, h⟩ := bind_eq_ok h
    cases x with
    | inl s' => exact ih (hnext n s s' hs hx) h
    | inr r' =>
      cases h
      exact hdone n s r hs hx

/-! ## What is known of a value, if there is one -/

def Gives (x : Exec α) (P : α → Prop) : Prop := ∀ a, x = .ok a → P a

section
variable {P : α → Prop} {Q : β → Prop} {x : Exec α}

theorem gives_ok {a : α} (h : P a) : Gives (.ok a) P := by
  intro b hb
  rwa [← Except.ok.inj hb]

theorem gives_error {e : Fault} : Gives (.error e) P := nofun

theorem Gives.mono {P' : α → Prop} (h : Gives x P) (hP : ∀ a, P a → P' a) : Gives x P' := fun a ha => hP a (h a ha)

theorem Gives.bind {f : α → Exec β} (hx : Gives x P) (hf : ∀ a, P a → Gives (f a) Q) : Gives (x >>= f) Q := by
  intro b hb
  obtain ⟨a, ha, hb⟩ := bind_eq_ok hb
  exact hf a (hx a ha) b hb

theorem Returns.gives {f : Nat → Exec α} {a : α} (h : Returns f a) (hP : ∀ n, Gives (f n) P) : P a := by
  obtain ⟨N, hN⟩ := h
  exact hP N a (hN N (Nat.le_refl N))

theorem Gives.loop {body : Nat → σ → Exec (σ ⊕ ρ)} {I : σ → Prop} {R : ρ → Prop}
    (hb : ∀ n s, I s → Gives (body n s) (Sum.elim I R)) {n : Nat} {s : σ} (hs : I s) : Gives (loop body n s) R :=
  fun _ hr => loop_inv I R (fun n s s' hI h => hb n s hI (.inl s') h) (fun n s r hI h => hb n s hI (.inr r) h) hs hr
end

/-! ## Fuel does not change outcomes -/

theorem steady_const (x : Exec α) : Steady (fun _ => x) := fun _ _ _ _ => rfl

theorem Steady.bind {f : Nat → Exec α} {g : Nat → α → Exec β} (hf : Steady f)
    (hg : ∀ a, Steady (fun n => g n a)) : Steady (fun n => f n >>= g n) := by
  intro m n hmn hne
  cases hfm : f m with
  | error e =>
    have he : e ≠ .fuel := by
      rintro rfl
      simp only [hfm, error_bind, ne_eq, not_true_eq_false] at hne
    have hfn : f n = .error e := (hf m n hmn (by simpa [hfm] using he)).trans hfm
    simp only [hfm, hfn, error_bind]
  | ok a =>
    have hfn : f n = .ok a := (hf m n hmn (by simp [hfm])).trans hfm
    simp only [hfm, hfn, ok_bind] at hne ⊢
    exact hg a m n hmn hne

theorem steady_loop {body : Nat → σ → Exec (σ ⊕ ρ)} (hb : ∀ s, Steady (fun n => body n s))
    (s : σ) : Steady (fun n => loop body n s) := by
  intro m
  induction m generalizing s with
  | zero => exact fun n _ hne => absurd rfl hne
  | succ m ih =>
    intro n hmn hne
    obtain ⟨k, rfl⟩ : ∃ k, n = k + 1 := ⟨n - 1, by omega⟩
    have hmk : m ≤ k := by omega
    cases hbm : body m s with
    | error e =>
      have he : e ≠ .fuel := by
        rintro rfl
        simp only [loop, hbm, error_bind, ne_eq, not_true_eq_false] at hne
      have hbk : body k s = .error e := (hb s m k hmk (by simpa [hbm] using he)).trans hbm
      simp only [loop, hbm, hbk, error_bind]
    | ok x =>
      have hbk : body k s = .ok x := (hb s m k hmk (by simp [hbm])).trans hbm
      cases x with
      | inl s' =>
        simp only [loop, hbm, hbk, ok_bind] at hne ⊢
        exact ih s' k hmk hne
      | inr r => simp only [loop, hbm, hbk, ok_bind]

theorem Steady.returns {f : Nat → Exec α} (hf : Steady f) {n : Nat} {r : α} (h : f n = .ok r) :
    Returns f r :=
  ⟨n, fun m hm => (hf n m hm (by simp [h])).trans h⟩

theorem Steady.eq_of_returns {f : Nat → Exec α} (hf : Steady f) {r : α} (h : Returns f r) {n : Nat}
    (hn : f n ≠ .error .fuel) : f n = .ok r := by
  obtain ⟨N, hN⟩ := h
  exact (hf n (max n N) (le_max_left n N) hn).symm.trans (hN _ (le_max_right n N))

theorem Steady.eq_of_ok {f : Nat → Exec α} (hf : Steady f) {r s : α} (h : Returns f r) {n : Nat}
    (hn : f n = .ok s) : s = r := by
  have heq := hf.eq_of_returns h (n := n) (by simp [hn])
  exact Except.ok.inj (hn.symm.trans heq)

theorem Steady.ne_of_returns {f : Nat → Exec α} (hf : Steady f) {r : α} (h : Returns f r) {e : Fault}
    (he : e ≠ .fuel) (n : Nat) : f n ≠ .error e := by
  intro hn
  have heq := hf.eq_of_returns h (n := n) (by simpa [hn] using he)
  cases hn.symm.trans heq

/-- A fault that no run shows does not come after its first part either. -/
theorem Steady.ne_of_bind {f : Nat → Exec α} {g : Nat → α → Exec β} {a : α} (hg : Steady (fun n => g n a))
    (hf : Returns f a) {e : Fault} (he : e ≠ .fuel) (h : ∀ n, f n >>= g n ≠ .error e) (n : Nat) :
    g n a ≠ .error e := by
  intro hn
  obtain ⟨N, hN⟩ := hf
  have hmax : g (max n N) a = g n a := hg n (max n N) (le_max_left n N) (by simpa [hn] using he)
  refine h (max n N) ?_
  rw [hN _ (le_max_right n N), ok_bind, hmax, hn]

theorem loop_ne_first {body : Nat → σ → Exec (σ ⊕ ρ)} {s : σ} {e : Fault} (h : ∀ n, loop body n s ≠ .error e)
    (n : Nat) :
    body n s ≠ .error e := by
  intro hn
  refine h (n + 1) ?_
  rw [loop, hn, error_bind]

theorem loop_ne_rest {body : Nat → σ → Exec (σ ⊕ ρ)} (hb : ∀ s, Steady (fun n => body n s)) {s s' : σ} {e : Fault}
    (he : e ≠ .fuel) (hs : Returns (fun n => body n s) (.inl s')) (h : ∀ n, loop body n s ≠ .error e) :
    ∀ n, loop body n s' ≠ .error e :=
  Steady.ne_of_bind (g := fun n x => match x with
    | .inl s' => loop body n s'
    | .inr r => .ok r) (steady_loop hb s') hs he fun n => h (n + 1)

/-- What no round does, the loop does not do. -/
theorem loop_ne_error {body : Nat → σ → Exec (σ ⊕ ρ)} (I : σ → Prop) {e : Fault} (he : e ≠ .fuel)
    (hne : ∀ n s, I s → body n s ≠ .error e) (hnext : ∀ n s s', I s → body n s = .ok (.inl s') → I s') {n : Nat}
    {s : σ} (hs : I s) : loop body n s ≠ .error e := by
  induction n generalizing s with
  | zero => exact fun h => he (Except.error.inj h).symm
  | succ n ih =>
    rw [loop]
    cases hb : body n s with
    | error e' =>
      rw [error_bind]
      exact fun h => hne n s hs (hb.trans (congrArg Except.error (Except.error.inj h)))
    | ok x =>
      cases x with
      | inl s' => exact ih (hnext n s s' hs hb)
      | inr r => nofun

end Run
