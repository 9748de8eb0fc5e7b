import Mathlib.Tactic

/-! Runs of a nondeterministic system and the invariants that hold along
them, independent of what the system is. -/

namespace LinuxServer.Framework

variable {σ : Type}

/-- A system: where it may start and what one step may do. -/
structure System (σ : Type) where
  init : σ → Prop
  step : σ → σ → Prop

/-- The states some run from an initial state passes through. -/
inductive System.Reachable (M : System σ) : σ → Prop where
  | init {s : σ} : M.init s → M.Reachable s
  | step {s t : σ} : M.Reachable s → M.step s t → M.Reachable t

/-- **The invariant rule.** A property of the initial states that no step out
of a reachable state breaks holds in every reachable state. -/
theorem System.invariant {M : System σ} {I : σ → Prop}
    (hinit : ∀ s, M.init s → I s)
    (hstep : ∀ s t, M.Reachable s → I s → M.step s t → I t) {s : σ}
    (h : M.Reachable s) : I s := by
  induction h with
  | init h0 => exact hinit _ h0
  | step hr hst ih => exact hstep _ _ hr ih hst

/-- The system from the state `s` on. -/
def System.later (M : System σ) (s : σ) : System σ where
  init := (· = s)
  step := M.step

/-- What holds in `s` and every step keeps holds from `s` on. -/
theorem System.later_invariant {M : System σ} {I : σ → Prop} {s t : σ} (h0 : I s)
    (hstep : ∀ t u, I t → M.step t u → I u) (h : (M.later s).Reachable t) : I t := by
  refine System.invariant (M := M.later s) ?_ (fun u u' _ hu hst => hstep u u' hu hst) h
  rintro u rfl
  exact h0

/-- The states a run passes through, with the number of steps to them. -/
inductive System.Run (M : System σ) : ℕ → σ → Prop where
  | init {s : σ} : M.init s → M.Run 0 s
  | step {n : ℕ} {s t : σ} : M.Run n s → M.step s t → M.Run (n + 1) t

theorem System.Run.reachable {M : System σ} {n : ℕ} {s : σ} (h : M.Run n s) :
    M.Reachable s := by
  induction h with
  | init h0 => exact .init h0
  | step _ hst ih => exact ih.step hst

/-- **The measure rule.** Where every step decreases a measure, the measure of
the initial states bounds the length of every run. -/
theorem System.Run.bounded {M : System σ} {μ : σ → ℕ} {b : ℕ}
    (hinit : ∀ s, M.init s → μ s ≤ b)
    (hstep : ∀ s t, M.Reachable s → M.step s t → μ t < μ s) {n : ℕ} {s : σ}
    (h : M.Run n s) : n + μ s ≤ b := by
  induction h with
  | init h0 =>
      rw [Nat.zero_add]
      exact hinit _ h0
  | step hr hst ih =>
      have := hstep _ _ hr.reachable hst
      omega

/-- Runs from `s` on in which a process moves among others: how many steps it has
made itself, and how many were made by the others. -/
inductive Among (own other : σ → σ → Prop) (s : σ) : ℕ → ℕ → σ → Prop where
  | start : Among own other s 0 0 s
  | mine {n k : ℕ} {t u : σ} : Among own other s n k t → own t u →
      Among own other s (n + 1) k u
  | theirs {n k : ℕ} {t u : σ} : Among own other s n k t → other t u →
      Among own other s n (k + 1) u

/-- **The measure rule among others.** Where the own steps decrease a measure and
each step of the others adds at most `c` to it, the number of own steps is bounded
by the measure at the start and what the others have added. -/
theorem Among.bounded {own other : σ → σ → Prop} {I : σ → Prop} {μ : σ → ℕ} {c : ℕ}
    {s t : σ} {n k : ℕ} (h0 : I s)
    (hown : ∀ t u, I t → own t u → I u ∧ μ u < μ t)
    (hother : ∀ t u, I t → other t u → I u ∧ μ u ≤ μ t + c)
    (h : Among own other s n k t) : I t ∧ n + μ t ≤ μ s + c * k := by
  induction h with
  | start => exact ⟨h0, by omega⟩
  | mine _ hst ih =>
      obtain ⟨hi, hle⟩ := ih
      obtain ⟨hi', hlt⟩ := hown _ _ hi hst
      exact ⟨hi', by omega⟩
  | theirs _ hst ih =>
      obtain ⟨hi, hle⟩ := ih
      obtain ⟨hi', hle'⟩ := hother _ _ hi hst
      refine ⟨hi', ?_⟩
      rw [Nat.mul_succ]
      omega

end LinuxServer.Framework
