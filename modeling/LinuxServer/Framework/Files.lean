import Mathlib.Tactic

/-! The contents of a file under writes at an offset and changes of its length,
independent of any program.

A program that writes at the offset it was left at covers the old contents from
the front: `writeAt_covered` says what such a write does, so a run of them is
known from the bytes written alone. -/

namespace LinuxServer.Framework

variable {α : Type}

/-- `data` written at `off`. A gap before it is filled with `z`; nothing is
changed by a write of no bytes. -/
def writeAt (z : α) (file : List α) (off : ℕ) (data : List α) : List α :=
  if data.isEmpty then file
  else file.take off ++ List.replicate (off - file.length) z ++ data ++
    file.drop (off + data.length)

/-- The file cut off, or filled up with `z`, to `len` cells. -/
def resize (z : α) (file : List α) (len : ℕ) : List α :=
  file.take len ++ List.replicate (len - file.length) z

/-- A file whose beginning was written over by `data`. -/
def covered (old data : List α) : List α := data ++ old.drop data.length

theorem covered_nil (old : List α) : covered old [] = old := rfl

theorem length_covered (old data : List α) :
    (covered old data).length = max old.length data.length := by
  rw [covered, List.length_append, List.length_drop]
  omega

/-- **Writing on from where the last write ended.** -/
theorem writeAt_covered (z : α) (old written data : List α) :
    writeAt z (covered old written) written.length data = covered old (written ++ data) := by
  cases data with
  | nil => rw [List.append_nil]; rfl
  | cons x data =>
      have hgap : written.length - (covered old written).length = 0 := by
        rw [length_covered]
        omega
      have htake : (covered old written).take written.length = written := List.take_left ..
      have hdrop : (covered old written).drop (written.length + (x :: data).length) =
          old.drop (written ++ x :: data).length := by
        rw [← List.drop_drop, covered, List.drop_left, List.drop_drop, List.length_append]
      rw [writeAt, if_neg (by simp), hgap, htake, hdrop, List.replicate_zero, List.append_nil]
      rfl

/-- Nothing of the old contents shows iff they were not longer. -/
theorem covered_eq_iff (old data : List α) :
    covered old data = data ↔ old.length ≤ data.length := by
  rw [covered, List.append_right_eq_self, List.drop_eq_nil_iff]

end LinuxServer.Framework
