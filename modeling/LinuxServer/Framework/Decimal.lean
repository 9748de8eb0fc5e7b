import Mathlib.Data.Nat.Digits.Lemmas
import LinuxServer.Framework.TerminatedText

/-! Numbers as `printf` writes them, independent of any program: how many characters
they take, and that a terminator is not among them. -/

namespace LinuxServer.Framework

/-- A character constant. -/
def letter (c : Char) : Byte := c.toNat.toUInt8

/-- `%d` and `%ld`. -/
def decimal (i : Int) : List Byte :=
  (if i < 0 then [letter '-'] else []) ++
    if i = 0 then [letter '0']
    else (Nat.digits 10 i.natAbs).reverse.map fun d => (48 + d).toUInt8

theorem decimal_length_pos (i : Int) : 1 ≤ (decimal i).length := by
  unfold decimal
  rw [List.length_append]
  split
  · exact Nat.le_add_right 1 _
  · split
    · exact le_refl 1
    · rename_i hne
      have hdigits : Nat.digits 10 i.natAbs ≠ [] :=
        Nat.digits_ne_nil_iff_ne_zero.mpr (Int.natAbs_ne_zero.mpr hne)
      rw [List.length_map, List.length_reverse]
      exact le_trans (List.length_pos_of_ne_nil hdigits) (Nat.le_add_left _ _)

theorem decimal_length_le {i : Int} {k : ℕ} (hk : 0 < k) (h : i.natAbs < 10 ^ k) :
    (decimal i).length ≤ k + 1 := by
  have hdigits : (Nat.digits 10 i.natAbs).length ≤ k :=
    (Nat.digits_length_le_iff (by decide) _).mpr h
  have hsign : (if i < 0 then [letter '-'] else []).length ≤ 1 := by
    split <;> simp
  have hrest : (if i = 0 then [letter '0']
      else (Nat.digits 10 i.natAbs).reverse.map fun d => (48 + d).toUInt8).length ≤ k := by
    split
    · exact hk
    · rwa [List.length_map, List.length_reverse]
  unfold decimal
  rw [List.length_append]
  omega

/-- The digits are between `0` and `9`. -/
theorem decimal_no_nul (i : Int) : NUL ∉ decimal i := by
  unfold decimal
  rw [List.mem_append, not_or]
  constructor
  · split <;> decide
  · split
    · decide
    · intro h
      obtain ⟨d, hd, heq⟩ := List.mem_map.mp h
      have hlt : d < 10 := Nat.digits_lt_base (by decide) (List.mem_reverse.mp hd)
      have hne : ∀ d < 10, (48 + d).toUInt8 ≠ NUL := by decide
      exact hne d hlt heq

end LinuxServer.Framework
