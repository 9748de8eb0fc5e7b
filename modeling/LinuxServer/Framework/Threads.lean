import Mathlib.Algebra.BigOperators.Group.Finset.Basic
import Mathlib.Algebra.BigOperators.Group.Finset.Piecewise
import Mathlib.Data.Fintype.Basic
import Mathlib.Tactic

/-! Threads that take turns: each has a local state and one of them moves at a
time. Sums over the threads follow the thread that moved, and the owner of a
mutex is the one thread in its critical section. -/

namespace LinuxServer.Framework

variable {τ L : Type} [DecidableEq τ]

/-- A sum over the threads changes by what the thread that moved contributes. -/
theorem sum_update [Fintype τ] (w : τ → L → ℕ) (f : τ → L) (t : τ) (x : L) :
    ∑ u, w u (Function.update f t x u) + w t (f t) = ∑ u, w u (f u) + w t x := by
  have hrest : ∑ u ∈ Finset.univ.erase t, w u (Function.update f t x u) =
      ∑ u ∈ Finset.univ.erase t, w u (f u) := by
    apply Finset.sum_congr rfl
    intro u hu
    rw [Function.update_of_ne (Finset.ne_of_mem_erase hu)]
  rw [← Finset.sum_erase_add _ _ (Finset.mem_univ t), hrest, Function.update_self,
    ← Finset.sum_erase_add _ (fun u => w u (f u)) (Finset.mem_univ t)]
  omega

omit [DecidableEq τ] in
theorem le_sum [Fintype τ] (w : τ → L → ℕ) (f : τ → L) (t : τ) :
    w t (f t) ≤ ∑ u, w u (f u) :=
  Finset.single_le_sum (f := fun u => w u (f u)) (fun _ _ => Nat.zero_le _)
    (Finset.mem_univ t)

omit [DecidableEq τ] in
/-- Where every thread is below its bound and one of them by `k`, the sums are
`k` apart. -/
theorem sum_add_le_sum [Fintype τ] {w w' : τ → ℕ} {t : τ} {k : ℕ}
    (hle : ∀ u, w u ≤ w' u) (hk : w t + k ≤ w' t) : ∑ u, w u + k ≤ ∑ u, w' u := by
  classical
  rw [← Finset.sum_erase_add _ w (Finset.mem_univ t),
    ← Finset.sum_erase_add _ w' (Finset.mem_univ t)]
  have hrest : ∑ u ∈ Finset.univ.erase t, w u ≤ ∑ u ∈ Finset.univ.erase t, w' u :=
    Finset.sum_le_sum fun u _ => hle u
  omega

/-- The owner of the mutex is the thread in the critical section `crit`. -/
def Exclusive (crit : L → Prop) (f : τ → L) (owner : Option τ) : Prop :=
  ∀ t, crit (f t) ↔ owner = some t

section Mutex

variable {crit : L → Prop} {f : τ → L} {t : τ} {x : L}

theorem Exclusive.lock (h : Exclusive crit f none) (hx : crit x) :
    Exclusive crit (Function.update f t x) (some t) := by
  intro u
  by_cases hu : u = t
  · subst hu
    simp [hx]
  · rw [Function.update_of_ne hu, h u]
    simp [Ne.symm hu]

theorem Exclusive.unlock (h : Exclusive crit f (some t)) (hx : ¬ crit x) :
    Exclusive crit (Function.update f t x) none := by
  intro u
  by_cases hu : u = t
  · subst hu
    simp [hx]
  · rw [Function.update_of_ne hu, h u]
    simp [Ne.symm hu]

theorem Exclusive.move {owner : Option τ} (h : Exclusive crit f owner)
    (hx : crit x ↔ crit (f t)) : Exclusive crit (Function.update f t x) owner := by
  intro u
  by_cases hu : u = t
  · subst hu
    rw [Function.update_self, hx, h u]
  · rw [Function.update_of_ne hu, h u]

end Mutex

end LinuxServer.Framework
