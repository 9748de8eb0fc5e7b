import Mathlib.Logic.Function.Basic
import Mathlib.Data.List.Basic
import Mathlib.Data.List.Nodup
import Mathlib.Tactic

/-! Singly linked lists in a heap: cells with a value and a next pointer, and
the predicate that a pointer starts a list of given cells that ends in `NULL`.
The predicate fixes the whole list, so a list that ends has no cycle. -/

namespace LinuxServer.Framework

variable {α : Type}

/-- `none` is `NULL`. -/
abbrev Ptr : Type := Option ℕ

structure Cell (α : Type) where
  val : α
  next : Ptr
deriving DecidableEq

/-- What is allocated. An address that is not can neither be read nor freed. -/
abbrev Heap (α : Type) : Type := ℕ → Option (Cell α)

def Heap.put (h : Heap α) (a : ℕ) (c : Cell α) : Heap α := Function.update h a (some c)

def Heap.free (h : Heap α) (a : ℕ) : Heap α := Function.update h a none

@[simp] theorem Heap.put_same (h : Heap α) (a : ℕ) (c : Cell α) :
    h.put a c a = some c := Function.update_self a _ h

@[simp] theorem Heap.free_same (h : Heap α) (a : ℕ) : h.free a a = none :=
  Function.update_self a _ h

theorem Heap.put_other (h : Heap α) {a b : ℕ} (c : Cell α) (hne : b ≠ a) :
    h.put a c b = h b := Function.update_of_ne hne _ h

theorem Heap.free_other (h : Heap α) {a b : ℕ} (hne : b ≠ a) : h.free a b = h b :=
  Function.update_of_ne hne _ h

/-- From `p` one reaches the cells `xs` (address and value), then `NULL`. -/
def Chain (h : Heap α) : Ptr → List (ℕ × α) → Prop
  | p, [] => p = none
  | p, (a, v) :: xs => p = some a ∧ ∃ next, h a = some ⟨v, next⟩ ∧ Chain h next xs

def addrs (xs : List (ℕ × α)) : List ℕ := xs.map Prod.fst

def vals (xs : List (ℕ × α)) : List α := xs.map Prod.snd

@[simp] theorem length_addrs (xs : List (ℕ × α)) : (addrs xs).length = xs.length :=
  List.length_map _

@[simp] theorem length_vals (xs : List (ℕ × α)) : (vals xs).length = xs.length :=
  List.length_map _

theorem Chain.allocated {h : Heap α} {xs : List (ℕ × α)} : ∀ {p : Ptr} {a : ℕ},
    Chain h p xs → a ∈ addrs xs → h a ≠ none := by
  induction xs with
  | nil =>
      intro p a _ ha
      exact absurd ha List.not_mem_nil
  | cons x xs ih =>
      rintro p a ⟨-, next, hx, hxs⟩ ha
      rcases List.mem_cons.mp ha with rfl | ha
      · rw [hx]
        simp
      · exact ih hxs ha

/-- A pointer starts at most one list. -/
theorem Chain.unique {h : Heap α} {xs : List (ℕ × α)} : ∀ {p : Ptr}
    {ys : List (ℕ × α)}, Chain h p xs → Chain h p ys → xs = ys := by
  induction xs with
  | nil =>
      intro p ys hx hy
      cases ys with
      | nil => rfl
      | cons y ys =>
          rw [show p = none from hx] at hy
          exact absurd hy.1 (by simp)
  | cons x xs ih =>
      rintro p ys ⟨hp, next, hx, hxs⟩ hy
      cases ys with
      | nil =>
          rw [show p = none from hy] at hp
          exact absurd hp (by simp)
      | cons y ys =>
          obtain ⟨hp', next', hx', hys⟩ := hy
          have ha : x.1 = y.1 := Option.some.inj (hp.symm.trans hp')
          rw [← ha, hx] at hx'
          obtain ⟨hv, hn⟩ := Cell.mk.inj (Option.some.inj hx')
          rw [← hn] at hys
          rw [ih hxs hys, Prod.ext ha hv]

/-- Every cell of a list starts a list itself, the rest of it. -/
theorem Chain.suffix {h : Heap α} {xs : List (ℕ × α)} : ∀ {p : Ptr} {a : ℕ},
    Chain h p xs → a ∈ addrs xs →
    ∃ ys, Chain h (some a) ys ∧ ys.length ≤ xs.length := by
  induction xs with
  | nil =>
      intro p a _ ha
      exact absurd ha List.not_mem_nil
  | cons x xs ih =>
      rintro p a ⟨hp, next, hx, hxs⟩ ha
      rcases List.mem_cons.mp ha with rfl | ha
      · exact ⟨x :: xs, ⟨rfl, next, hx, hxs⟩, le_refl _⟩
      · obtain ⟨ys, hys, hlen⟩ := ih hxs ha
        exact ⟨ys, hys, Nat.le_succ_of_le hlen⟩

/-- A list that ends has no cycle. -/
theorem Chain.not_mem_tail {h : Heap α} {p : Ptr} {a : ℕ} {v : α}
    {xs : List (ℕ × α)} (hc : Chain h p ((a, v) :: xs)) : a ∉ addrs xs := by
  obtain ⟨-, next, hx, hxs⟩ := hc
  intro ha
  obtain ⟨ys, hys, hlen⟩ := hxs.suffix ha
  have heq : (a, v) :: xs = ys := Chain.unique ⟨rfl, next, hx, hxs⟩ hys
  rw [← heq, List.length_cons] at hlen
  omega

theorem Chain.nodup {h : Heap α} {xs : List (ℕ × α)} : ∀ {p : Ptr},
    Chain h p xs → (addrs xs).Nodup := by
  induction xs with
  | nil => exact fun _ => List.nodup_nil
  | cons x xs ih =>
      intro p hc
      have hnot : x.1 ∉ addrs xs := Chain.not_mem_tail hc
      obtain ⟨-, next, -, hxs⟩ := hc
      exact List.nodup_cons.mpr ⟨hnot, ih hxs⟩

/-- What happens to other cells does not matter to a list. -/
theorem Chain.congr {h h' : Heap α} {xs : List (ℕ × α)} : ∀ {p : Ptr},
    Chain h p xs → (∀ a ∈ addrs xs, h' a = h a) → Chain h' p xs := by
  induction xs with
  | nil => exact fun hc _ => hc
  | cons x xs ih =>
      rintro p ⟨hp, next, hx, hxs⟩ hsame
      refine ⟨hp, next, ?_, ih hxs fun a ha => hsame a (List.mem_cons_of_mem _ ha)⟩
      rw [hsame x.1 List.mem_cons_self, hx]

theorem Chain.put {h : Heap α} {p : Ptr} {a : ℕ} {xs : List (ℕ × α)}
    (hc : Chain h p xs) (ha : a ∉ addrs xs) (c : Cell α) : Chain (h.put a c) p xs := by
  apply hc.congr
  intro b hb
  exact h.put_other c (fun heq => ha (heq ▸ hb))

theorem Chain.free {h : Heap α} {p : Ptr} {a : ℕ} {xs : List (ℕ × α)}
    (hc : Chain h p xs) (ha : a ∉ addrs xs) : Chain (h.free a) p xs := by
  apply hc.congr
  intro b hb
  exact h.free_other (fun heq => ha (heq ▸ hb))

/-- The allocated cells are exactly those of the list, and `extra`. -/
def Owns (h : Heap α) (xs : List (ℕ × α)) (extra : List ℕ) : Prop :=
  ∀ a, h a ≠ none ↔ a ∈ addrs xs ∨ a ∈ extra

/-- There is always an address left. -/
theorem Owns.fresh {h : Heap α} {xs : List (ℕ × α)} {extra : List ℕ}
    (ho : Owns h xs extra) : ∃ a, h a = none := by
  obtain ⟨a, ha⟩ := Infinite.exists_notMem_finset (addrs xs ++ extra).toFinset
  refine ⟨a, ?_⟩
  by_contra hne
  apply ha
  rw [List.mem_toFinset, List.mem_append]
  exact (ho a).mp hne

theorem Owns.alloc {h : Heap α} {xs : List (ℕ × α)} (ho : Owns h xs []) (a : ℕ)
    (c : Cell α) : Owns (h.put a c) xs [a] := by
  intro b
  by_cases hb : b = a
  · simp [hb]
  · rw [h.put_other c hb, ho b]
    simp [hb]

theorem Owns.put {h : Heap α} {xs : List (ℕ × α)} {extra : List ℕ} {a : ℕ}
    (ho : Owns h xs extra) (ha : h a ≠ none) (c : Cell α) :
    Owns (h.put a c) xs extra := by
  intro b
  by_cases hb : b = a
  · subst hb
    rw [← ho b]
    simp [ha]
  · rw [h.put_other c hb, ho b]

theorem Owns.free {h : Heap α} {xs : List (ℕ × α)} {a : ℕ} (ho : Owns h xs [a])
    (ha : a ∉ addrs xs) : Owns (h.free a) xs [] := by
  intro b
  by_cases hb : b = a
  · simp [hb, ha]
  · rw [h.free_other hb, ho b]
    simp [hb]

end LinuxServer.Framework
