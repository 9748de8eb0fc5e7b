import LinuxServer.Framework.ForLoop

/-!
# An `int` array in memory

What `bubbleSort` and `selectSort` see: the caller's array behind a bare
pointer. An access outside the array has no meaning in C++, so `load` and
`store` are partial; every access is recorded, since `len` (and not the
array's real length, which the callee never learns) is the range the two
functions are entitled to.
-/

namespace LinuxServer.Sort

/-- The array and the indices accessed so far, latest first. -/
structure Mem where
  cells : List Int
  trace : List Int
deriving DecidableEq

/-- The caller's array, not accessed yet. -/
def Mem.ofArray (array : List Int) : Mem := ⟨array, []⟩

/-- `array[k]` as a value. -/
def Mem.load (m : Mem) (k : Int) : Option (Int × Mem) :=
  if 0 ≤ k then
    m.cells[k.toNat]?.map fun v => (v, { m with trace := k :: m.trace })
  else none

/-- `array[k] = v`. -/
def Mem.store (m : Mem) (k v : Int) : Option Mem :=
  if 0 ≤ k ∧ k.toNat < m.cells.length then
    some ⟨m.cells.set k.toNat v, k :: m.trace⟩
  else none

/-- The statement in the middle of both sorts:
`if (array[j] > array[k]) { int temp = array[j]; array[j] = array[k];
array[k] = temp; }`. -/
def compareSwap (j k : Int) (m : Mem) : Option Mem := do
  let (x, m) ← m.load j
  let (y, m) ← m.load k
  if x > y then
    let (temp, m) ← m.load j
    let (z, m) ← m.load k
    let m ← m.store j z
    m.store k temp
  else
    return m

/-- The element at index `k` (junk `0` outside the array). -/
def Mem.at (m : Mem) (k : Int) : Int := m.cells.getD k.toNat 0

theorem load_eq {m : Mem} {k : Int} (h0 : 0 ≤ k) (hk : k < m.cells.length) :
    m.load k = some (m.at k, ⟨m.cells, k :: m.trace⟩) := by
  have hlt : k.toNat < m.cells.length := by omega
  simp [Mem.load, Mem.at, h0, List.getElem?_eq_getElem hlt]

theorem store_eq {m : Mem} {k : Int} (h0 : 0 ≤ k) (hk : k < m.cells.length)
    (v : Int) : m.store k v = some ⟨m.cells.set k.toNat v, k :: m.trace⟩ := by
  have hlt : k.toNat < m.cells.length := by omega
  simp [Mem.store, h0, hlt]

/-! ## Exchanging two elements -/

/-- `l` with the elements at `a` and `b` exchanged, in the two stores the
code makes. -/
def exchange (l : List Int) (a b : ℕ) : List Int :=
  (l.set a (l.getD b 0)).set b (l.getD a 0)

@[simp] theorem exchange_length (l : List Int) (a b : ℕ) :
    (exchange l a b).length = l.length := by
  simp [exchange]

theorem exchange_getD {l : List Int} {a b : ℕ} (hab : a < b) (hb : b < l.length)
    (p : ℕ) : (exchange l a b).getD p 0 =
      if p = a then l.getD b 0 else if p = b then l.getD a 0 else l.getD p 0 := by
  have ha : a < l.length := hab.trans hb
  simp only [exchange, List.getD_eq_getElem?_getD, List.getElem?_set, List.length_set]
  by_cases hpb : p = b
  · subst hpb
    rw [if_pos rfl, if_pos hb, if_neg hab.ne', if_pos rfl]
    rfl
  · rw [if_neg (Ne.symm hpb), if_neg hpb]
    by_cases hpa : p = a
    · subst hpa
      rw [if_pos rfl, if_pos ha, if_pos rfl]
      rfl
    · rw [if_neg (Ne.symm hpa), if_neg hpa]

/-- An exchange permutes the list: the two stores trade one occurrence of each
value for the other. -/
theorem exchange_perm {l : List Int} {a b : ℕ} (hab : a < b) (hb : b < l.length) :
    (exchange l a b).Perm l := by
  have ha : a < l.length := by omega
  have hb' : b < (l.set a l[b]).length := by simpa using hb
  have hbs : (l.set a l[b])[b] = l[b] := by
    rw [List.getElem_set_ne (by omega)]
  have hxa : l.getD a 0 = l[a] := by simp [List.getElem?_eq_getElem ha]
  have hxb : l.getD b 0 = l[b] := by simp [List.getElem?_eq_getElem hb]
  rw [List.perm_iff_count]
  intro v
  rw [exchange, hxa, hxb, List.count_set hb', List.count_set ha, hbs]
  -- the truncated subtractions never truncate: `l` really holds both values
  have hca : (if l[a] == v then 1 else 0) ≤ l.count v := by
    split
    · rename_i h
      exact List.count_pos_iff.mpr (beq_iff_eq.mp h ▸ List.getElem_mem ha)
    · exact Nat.zero_le _
  omega

/-- An exchange below `n` stays below `n`. -/
theorem exchange_take {l : List Int} {a b n : ℕ} (ha : a < n) (hb : b < n) :
    (exchange l a b).take n = exchange (l.take n) a b := by
  simp only [exchange, List.take_set, List.getD_eq_getElem?_getD,
    List.getElem?_take, ha, hb, if_true]

theorem exchange_drop {l : List Int} {a b n : ℕ} (ha : a < n) (hb : b < n) :
    (exchange l a b).drop n = l.drop n := by
  simp only [exchange]
  rw [List.drop_set_of_lt hb, List.drop_set_of_lt ha]

/-! ## What the shared statement does -/

/-- `m'` is `m` after the smaller of the elements at `j` and `k` has been put
at `j` and the larger one at `k`. -/
structure Ordered (j k : Int) (m m' : Mem) : Prop where
  lower : m'.at j = min (m.at j) (m.at k)
  upper : m'.at k = max (m.at j) (m.at k)
  other : ∀ p, 0 ≤ p → p ≠ j → p ≠ k → m'.at p = m.at p

/-- What a sort of the first `len` elements may have done to `m₀` at any time:
permuted those elements, left the rest alone and accessed no other index. -/
structure Within (len : Int) (m₀ m : Mem) : Prop where
  perm : (m.cells.take len.toNat).Perm (m₀.cells.take len.toNat)
  rest : m.cells.drop len.toNat = m₀.cells.drop len.toNat
  size : m.cells.length = m₀.cells.length
  touched : ∀ k ∈ m.trace, 0 ≤ k ∧ k < len

theorem Within.refl {len : Int} (array : List Int) :
    Within len (Mem.ofArray array) (Mem.ofArray array) where
  perm := List.Perm.refl _
  rest := rfl
  size := rfl
  touched := by simp [Mem.ofArray]

/-- Both branches of `compareSwap`, with the accesses each one makes. -/
theorem compareSwap_eq {m : Mem} {j k : Int} (hj : 0 ≤ j) (hjk : j < k)
    (hk : k < m.cells.length) :
    compareSwap j k m = some (if m.at j > m.at k
      then ⟨exchange m.cells j.toNat k.toNat,
        k :: j :: k :: j :: k :: j :: m.trace⟩
      else ⟨m.cells, k :: j :: m.trace⟩) := by
  have hj' : j < m.cells.length := by omega
  have hk0 : 0 ≤ k := by omega
  simp only [compareSwap, load_eq hj hj', Option.bind_eq_bind, Option.bind_some]
  rw [load_eq hk0 (by exact hk)]
  simp only [Option.bind_some]
  by_cases h : m.at j > m.at k
  · rw [if_pos h, if_pos (by exact h)]
    rw [load_eq hj (by exact hj'), Option.bind_some]
    rw [load_eq hk0 (by exact hk), Option.bind_some]
    rw [store_eq hj (by exact hj'), Option.bind_some]
    rw [store_eq hk0 (by simpa using hk)]
    rfl
  · rw [if_neg h, if_neg (by exact h)]
    rfl

/-- **The shared statement, once for both sorts**: it puts two elements of the
range in order and keeps everything a sort has to keep. -/
theorem compareSwap_spec {m₀ m : Mem} {len j k : Int}
    (hlen : len ≤ m₀.cells.length) (hm : Within len m₀ m)
    (hj : 0 ≤ j) (hjk : j < k) (hk : k < len) :
    ∃ m', compareSwap j k m = some m' ∧ Within len m₀ m' ∧ Ordered j k m m' := by
  have hkl : k < m.cells.length := by rw [hm.size]; omega
  have htouched : ∀ i, i = j ∨ i = k → 0 ≤ i ∧ i < len := by
    rintro i (rfl | rfl) <;> omega
  refine ⟨_, compareSwap_eq hj hjk hkl, ?_⟩
  by_cases h : m.at j > m.at k
  · rw [if_pos h]
    have hab : j.toNat < k.toNat := by omega
    have hb : k.toNat < m.cells.length := by omega
    have hget := exchange_getD hab hb
    refine ⟨⟨?_, ?_, ?_, ?_⟩, ⟨?_, ?_, ?_⟩⟩
    · show ((exchange m.cells j.toNat k.toNat).take len.toNat).Perm _
      rw [exchange_take (by omega) (by omega)]
      refine (exchange_perm hab ?_).trans hm.perm
      rw [List.length_take]
      omega
    · show (exchange m.cells j.toNat k.toNat).drop len.toNat = _
      rw [exchange_drop (by omega) (by omega)]
      exact hm.rest
    · simpa using hm.size
    · intro i hi
      simp only [List.mem_cons] at hi
      rcases hi with h | h | h | h | h | h | hi
      · exact htouched i (.inr h)
      · exact htouched i (.inl h)
      · exact htouched i (.inr h)
      · exact htouched i (.inl h)
      · exact htouched i (.inr h)
      · exact htouched i (.inl h)
      · exact hm.touched i hi
    · rw [min_eq_right (le_of_lt h)]
      exact (hget _).trans (if_pos rfl)
    · rw [max_eq_left (le_of_lt h)]
      exact (hget _).trans ((if_neg (by omega)).trans (if_pos rfl))
    · intro p hp hpj hpk
      exact (hget _).trans ((if_neg (by omega)).trans (if_neg (by omega)))
  · rw [if_neg h]
    refine ⟨⟨hm.perm, hm.rest, hm.size, ?_⟩, ⟨?_, ?_, fun _ _ _ _ => rfl⟩⟩
    · intro i hi
      simp only [List.mem_cons] at hi
      rcases hi with h | h | hi
      · exact htouched i (.inr h)
      · exact htouched i (.inl h)
      · exact hm.touched i hi
    · exact (min_eq_left (not_lt.mp h)).symm
    · exact (max_eq_right (not_lt.mp h)).symm

end LinuxServer.Sort
