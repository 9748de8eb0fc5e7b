import Mathlib.Tactic

/-! Counted loops over a failing state, independent of any program.

The body returns `none` when it does something the language gives no meaning
to, so `some` from a loop says that every iteration was defined. -/

namespace LinuxServer.Framework

variable {σ : Type}

/-- `n` iterations of `body`, the first one with the counter at `i`. -/
def iterateFrom (body : Int → σ → Option σ) : ℕ → Int → σ → Option σ
  | 0, _, s => some s
  | n + 1, i, s => (body i s).bind (iterateFrom body n (i + 1))

/-- `for (int i = lo; i < hi; i++) body`, for a body that assigns neither the
counter nor the bound. -/
def forLoop (body : Int → σ → Option σ) (lo hi : Int) (s : σ) : Option σ :=
  iterateFrom body (hi - lo).toNat lo s

/-- A loop whose bound is already reached does nothing. -/
theorem forLoop_of_le {body : Int → σ → Option σ} {lo hi : Int} {s : σ}
    (h : hi ≤ lo) : forLoop body lo hi s = some s := by
  have hn : (hi - lo).toNat = 0 := by omega
  rw [forLoop, hn]
  rfl

/-- A loop that runs does its first iteration and goes on from the next
counter. -/
theorem forLoop_of_lt {body : Int → σ → Option σ} {lo hi : Int} {s : σ}
    (h : lo < hi) :
    forLoop body lo hi s = (body lo s).bind (forLoop body (lo + 1) hi) := by
  have hn : (hi - lo).toNat = (hi - (lo + 1)).toNat + 1 := by omega
  rw [forLoop, hn]
  rfl

/-- **The invariant rule.** If the body takes `I i` to `I (i + 1)` at every
counter of the range, then the loop finishes and leaves `I hi`. -/
theorem forLoop_inv {body : Int → σ → Option σ} {I : Int → σ → Prop}
    {lo hi : Int} {s : σ} (hle : lo ≤ hi) (h0 : I lo s)
    (hstep : ∀ i t, lo ≤ i → i < hi → I i t →
      ∃ t', body i t = some t' ∧ I (i + 1) t') :
    ∃ t, forLoop body lo hi s = some t ∧ I hi t := by
  -- induction on the number of iterations left, the counter moving up
  suffices go : ∀ (n : ℕ) (i : Int) (t : σ), (hi - i).toNat = n → lo ≤ i →
      i ≤ hi → I i t → ∃ t', forLoop body i hi t = some t' ∧ I hi t' by
    exact go _ lo s rfl (Int.le_refl _) hle h0
  intro n
  induction n with
  | zero =>
      intro i t hn _ hi' ht
      have heq : i = hi := by omega
      subst heq
      exact ⟨t, forLoop_of_le (Int.le_refl _), ht⟩
  | succ n ih =>
      intro i t hn hlo _ ht
      have hlt : i < hi := by omega
      obtain ⟨t₁, hb, ht₁⟩ := hstep i t hlo hlt ht
      obtain ⟨t₂, hl, ht₂⟩ := ih (i + 1) t₁ (by omega) (by omega) (by omega) ht₁
      refine ⟨t₂, ?_, ht₂⟩
      rw [forLoop_of_lt hlt, hb]
      exact hl

end LinuxServer.Framework
