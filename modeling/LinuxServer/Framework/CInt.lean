import Mathlib.Tactic

/-! Results stored in an `int` of 32 bits, independent of any program. -/

namespace LinuxServer.Framework

/-- A result stored in an `int`. -/
def int (z : Int) : Int := z.bmod (2 ^ 32)

theorem int_add_int (a b : Int) : int (int a + int b) = int (a + b) := by
  simp [int]

theorem int_int_add (a b : Int) : int (int a + b) = int (a + b) := by
  simp [int]

/-- What wraps around comes out smaller. -/
theorem int_le (n : ℕ) : int n ≤ n := by
  rw [int, Int.bmod]
  split <;> omega

theorem int_eq_self_iff (n : ℕ) : int n = n ↔ n ≤ 2 ^ 31 - 1 := by
  rw [int, Int.bmod]
  split <;> omega

/-- A number that was counted too small is not made right by wrapping. -/
theorem int_eq_iff {m n : ℕ} (h : m ≤ n) : int m = n ↔ m = n ∧ n ≤ 2 ^ 31 - 1 := by
  constructor
  · intro heq
    have hle := int_le m
    obtain rfl : m = n := by omega
    exact ⟨rfl, (int_eq_self_iff m).mp heq⟩
  · rintro ⟨rfl, hm⟩
    exact (int_eq_self_iff m).mpr hm

end LinuxServer.Framework
