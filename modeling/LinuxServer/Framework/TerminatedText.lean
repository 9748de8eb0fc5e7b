import Mathlib.Data.List.TakeWhile
import Mathlib.Tactic

/-! Text kept in fixed-size buffers and delimited by a terminator, independent
of any program.

A buffer is only ever changed by writing over its beginning. Whether the
cells behind the written part show through depends on whether a terminator
was written too: `overwrite_terminated` is the safe case,
`upTo_overwrite_eq_some_iff` says exactly when the other one is harmless. -/

namespace LinuxServer.Framework

variable {α : Type} {n : ℕ}

/-- A buffer of `n` cells. -/
structure Buf (α : Type) (n : ℕ) where
  cells : List α
  size : cells.length = n

/-- `n` cells, all holding `z`. -/
def Buf.fill (z : α) (n : ℕ) : Buf α n := ⟨List.replicate n z, by simp⟩

/-- The first cells replaced by `src`, the others kept. -/
def Buf.overwrite (b : Buf α n) (src : List α) (h : src.length ≤ n) : Buf α n :=
  ⟨src ++ b.cells.drop src.length, by
    rw [List.length_append, List.length_drop, b.size]
    omega⟩

theorem Buf.overwrite_cells (b : Buf α n) (src : List α) (h : src.length ≤ n) :
    (b.overwrite src h).cells = src ++ b.cells.drop src.length := rfl

theorem Buf.fill_getElem? {z : α} {i : ℕ} (hi : i < n) :
    (Buf.fill z n).cells[i]? = some z := by
  simp [Buf.fill, hi]

/-- Below the end of `src` the buffer holds `src`. -/
theorem Buf.overwrite_getElem?_lt {b : Buf α n} {src : List α}
    {h : src.length ≤ n} {i : ℕ} (hi : i < src.length) :
    (b.overwrite src h).cells[i]? = src[i]? :=
  List.getElem?_append_left hi

/-- From the end of `src` on the buffer holds what it held before. -/
theorem Buf.overwrite_getElem?_ge {b : Buf α n} {src : List α}
    {h : src.length ≤ n} {i : ℕ} (hi : src.length ≤ i) :
    (b.overwrite src h).cells[i]? = b.cells[i]? := by
  rw [b.overwrite_cells, List.getElem?_append_right hi, List.getElem?_drop]
  congr 1
  omega

variable [DecidableEq α]

/-- The text before the first terminator `z`; `none` when the search for `z`
runs off the end. -/
def upTo (z : α) : List α → Option (List α)
  | [] => none
  | x :: xs => if x = z then some [] else (upTo z xs).map (x :: ·)

theorem upTo_cons_self (z : α) (xs : List α) : upTo z (z :: xs) = some [] := by
  rw [upTo, if_pos rfl]

theorem upTo_append {z : α} : ∀ {text : List α}, z ∉ text → ∀ xs : List α,
    upTo z (text ++ xs) = (upTo z xs).map (text ++ ·)
  | [], _, xs => by simp
  | x :: text, hz, xs => by
      rw [List.mem_cons, not_or] at hz
      rw [List.cons_append, upTo, if_neg (Ne.symm hz.1), upTo_append hz.2 xs,
        Option.map_map]
      rfl

/-- Only a terminator right at the front delimits the empty text. -/
theorem upTo_eq_nil_iff {z : α} : ∀ {xs : List α},
    upTo z xs = some [] ↔ xs[0]? = some z
  | [] => by simp [upTo]
  | x :: xs => by
      by_cases hx : x = z
      · simp [upTo, hx]
      · simp [upTo, hx]

theorem upTo_eq_none_iff {z : α} : ∀ {xs : List α}, upTo z xs = none ↔ z ∉ xs
  | [] => by simp [upTo]
  | x :: xs => by
      by_cases hx : x = z
      · simp [upTo, hx]
      · rw [upTo, if_neg hx, Option.map_eq_none_iff, upTo_eq_none_iff,
          List.mem_cons, not_or]
        exact ⟨fun h => ⟨Ne.symm hx, h⟩, fun h => h.2⟩

/-- The delimited text holds no terminator itself. -/
theorem not_mem_of_upTo {z : α} : ∀ {xs text : List α},
    upTo z xs = some text → z ∉ text
  | x :: xs, text, h => by
      by_cases hx : x = z
      · rw [upTo, if_pos hx] at h
        rw [← Option.some.inj h]
        exact List.not_mem_nil
      · rw [upTo, if_neg hx] at h
        obtain ⟨rest, hrest, rfl⟩ := Option.map_eq_some_iff.mp h
        rw [List.mem_cons, not_or]
        exact ⟨Ne.symm hx, not_mem_of_upTo hrest⟩

/-- The delimited text is shorter than what was searched. -/
theorem length_upTo_lt {z : α} : ∀ {xs text : List α},
    upTo z xs = some text → text.length < xs.length
  | x :: xs, text, h => by
      by_cases hx : x = z
      · rw [upTo, if_pos hx] at h
        rw [← Option.some.inj h]
        exact Nat.succ_pos _
      · rw [upTo, if_neg hx] at h
        obtain ⟨rest, hrest, rfl⟩ := Option.map_eq_some_iff.mp h
        exact Nat.succ_lt_succ (length_upTo_lt hrest)

/-- What was searched is the delimited text, the terminator and a rest. -/
theorem upTo_eq_some {z : α} : ∀ {xs text : List α}, upTo z xs = some text →
    ∃ rest, xs = text ++ z :: rest
  | x :: xs, text, h => by
      by_cases hx : x = z
      · rw [upTo, if_pos hx] at h
        cases h
        exact ⟨xs, by rw [hx, List.nil_append]⟩
      · rw [upTo, if_neg hx] at h
        obtain ⟨text', htext', rfl⟩ := Option.map_eq_some_iff.mp h
        obtain ⟨rest, rfl⟩ := upTo_eq_some htext'
        exact ⟨rest, rfl⟩

theorem takeWhile_ne_self {z : α} {xs : List α} (h : z ∉ xs) : xs.takeWhile (· ≠ z) = xs := by
  rw [List.takeWhile_eq_self_iff]
  intro x hx
  exact decide_eq_true fun heq => h (heq ▸ hx)

theorem upTo_of_mem {z : α} : ∀ {xs : List α}, z ∈ xs →
    upTo z xs = some (xs.takeWhile (· ≠ z))
  | x :: xs, h => by
      by_cases hx : x = z
      · rw [upTo, if_pos hx, List.takeWhile_cons_of_neg (by simp [hx])]
      · have hmem := (List.mem_cons.mp h).resolve_left (Ne.symm hx)
        rw [upTo, if_neg hx, upTo_of_mem hmem, List.takeWhile_cons_of_pos (by simp [hx])]
        rfl

/-- **A write without a terminator** reads back exactly iff the old contents
happen to hold a terminator right behind it. -/
theorem upTo_overwrite_eq_some_iff {z : α} {b : Buf α n} {src : List α}
    {h : src.length ≤ n} (hz : z ∉ src) :
    upTo z (b.overwrite src h).cells = some src ↔
      b.cells[src.length]? = some z := by
  rw [b.overwrite_cells, upTo_append hz]
  have hdrop : (b.cells.drop src.length)[0]? = b.cells[src.length]? := by
    rw [List.getElem?_drop, Nat.add_zero]
  rw [← hdrop, ← upTo_eq_nil_iff, Option.map_eq_some_iff]
  constructor
  · rintro ⟨rest, hrest, happ⟩
    rw [hrest, List.append_right_eq_self.mp happ]
  · intro hnil
    exact ⟨[], hnil, List.append_nil src⟩

/-- A write without a terminator that fills the buffer leaves no text in it. -/
theorem length_lt_of_upTo_overwrite {z : α} {b : Buf α n} {src text : List α}
    {h : src.length ≤ n} (hz : z ∉ src)
    (htext : upTo z (b.overwrite src h).cells = some text) : src.length < n := by
  refine lt_of_le_of_ne h fun hlen => ?_
  have hdrop : b.cells.drop src.length = [] := by
    rw [List.drop_eq_nil_iff, b.size, hlen]
  have hnone : upTo z (b.overwrite src h).cells = none := by
    rw [upTo_eq_none_iff, b.overwrite_cells, hdrop, List.append_nil]
    exact hz
  rw [hnone] at htext
  cases htext

/-- **A write over terminators** reads back up to its first terminator, unless it
fills the buffer and has none. -/
theorem upTo_overwrite_fill {z : α} {src : List α} (h : src.length ≤ n) :
    upTo z ((Buf.fill z n).overwrite src h).cells =
      if z ∉ src ∧ src.length = n then none else some (src.takeWhile (· ≠ z)) := by
  have hdrop : (Buf.fill z n).cells.drop src.length = List.replicate (n - src.length) z :=
    List.drop_replicate
  rw [Buf.overwrite_cells, hdrop]
  by_cases hz : z ∈ src
  · obtain ⟨rest, hrest⟩ := upTo_eq_some (upTo_of_mem hz)
    have hnot : z ∉ src.takeWhile (· ≠ z) := not_mem_of_upTo (upTo_of_mem hz)
    rw [if_neg fun hfull => hfull.1 hz]
    nth_rewrite 1 [hrest]
    rw [List.append_assoc, List.cons_append, upTo_append hnot, upTo_cons_self, Option.map_some,
      List.append_nil]
  · rw [upTo_append hz, takeWhile_ne_self hz]
    by_cases hlen : src.length = n
    · rw [if_pos ⟨hz, hlen⟩, hlen, Nat.sub_self]
      rfl
    · obtain ⟨k, hk⟩ := Nat.exists_eq_succ_of_ne_zero (show n - src.length ≠ 0 by omega)
      rw [if_neg fun hfull => hlen hfull.2, hk, List.replicate_succ, upTo_cons_self,
        Option.map_some, List.append_nil]

/-- **A terminated write** reads back exactly, whatever the buffer held. -/
theorem overwrite_terminated {z : α} {b : Buf α n} {src : List α}
    {h : (src ++ [z]).length ≤ n} (hz : z ∉ src) :
    upTo z (b.overwrite (src ++ [z]) h).cells = some src := by
  rw [b.overwrite_cells, List.append_assoc, upTo_append hz,
    List.singleton_append, upTo_cons_self, Option.map_some, List.append_nil]

/-! ## C strings -/

/-- A `char`. -/
abbrev Byte : Type := UInt8

/-- The terminator of C strings. -/
def NUL : Byte := 0

/-- The value of a `char *` argument: the bytes before its terminator. -/
structure CString where
  bytes : List Byte
  noNul : NUL ∉ bytes
deriving DecidableEq

/-- The string at the start of a buffer, if it is terminated there. -/
def Buf.cstring (b : Buf Byte n) : Option CString :=
  match h : upTo NUL b.cells with
  | some text => some ⟨text, not_mem_of_upTo h⟩
  | none => none

theorem Buf.cstring_eq_some {b : Buf Byte n} {s : CString}
    (h : upTo NUL b.cells = some s.bytes) : b.cstring = some s := by
  unfold Buf.cstring
  split
  · rename_i text htext
    rw [htext] at h
    cases s
    exact congrArg some (by simpa using h)
  · rename_i hnone
    rw [hnone] at h
    exact absurd h (by simp)

/-- The bytes of a string literal, without its terminator (ASCII only). -/
def literal (s : String) : List Byte := s.toList.map fun c => c.toNat.toUInt8

end LinuxServer.Framework
