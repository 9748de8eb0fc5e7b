import LinuxServer.Sort.IntArray

/-!
# `bubbleSort` and `selectSort`

The two functions of `sort.h`. Both are the nest of counted loops around
`compareSwap`; they differ in which pairs they compare and in what the outer
loop has established:

- `bubbleSort` grows a sorted suffix. After `i` rounds the last `i` elements
  of the range are in their final places (`BubbleInv`).
- `selectSort` grows a sorted prefix, swapping inside the scan. After `j`
  rounds the first `j` elements are in their final places (`SelectInv`).

A sorted permutation is unique, so the two end in the same array.
-/

namespace LinuxServer.Sort

open LinuxServer.Framework

def bubbleSort (array : Mem) (len : Int) : Option Mem :=
  forLoop (fun i array =>
    forLoop (fun j array => compareSwap j (j + 1) array)
      0 (len - 1 - i) array)
    0 (len - 1) array

def selectSort (array : Mem) (len : Int) : Option Mem :=
  forLoop (fun j array =>
    forLoop (fun i array => compareSwap j i array)
      (j + 1) len array)
    0 (len - 1) array

/-- The first `len` elements are in ascending order. -/
def Ascending (len : Int) (m : Mem) : Prop :=
  ∀ p q, 0 ≤ p → p < q → q < len → m.at p ≤ m.at q

theorem Ascending.pairwise {len : Int} {m : Mem} (h : Ascending len m) :
    (m.cells.take len.toNat).Pairwise (· ≤ ·) := by
  rw [List.pairwise_iff_getElem]
  intro p q hp hq hpq
  have hq' : q < len.toNat ∧ q < m.cells.length := by
    simpa [List.length_take] using hq
  have hle := h p q (by omega) (by omega) (by omega)
  simpa [Mem.at, List.getElem?_eq_getElem (show p < m.cells.length by omega),
    List.getElem?_eq_getElem hq'.2] using hle

/-! ## `bubbleSort`: the sorted suffix -/

/-- After `i` rounds: whatever lies in the last `i` places of the range is no
smaller than anything before it. -/
structure BubbleInv (len : Int) (m₀ : Mem) (i : Int) (m : Mem) : Prop where
  within : Within len m₀ m
  suffix : ∀ p q, 0 ≤ p → p < q → q < len → len - i ≤ q → m.at p ≤ m.at q

/-- Inside round `i`, at `j`: the largest element seen so far is at `j`. -/
structure BubbleScan (len : Int) (m₀ : Mem) (i j : Int) (m : Mem) : Prop where
  inv : BubbleInv len m₀ i m
  largest : ∀ p, 0 ≤ p → p < j → m.at p ≤ m.at j

theorem bubbleScan_step {len : Int} {m₀ m : Mem} {i j : Int}
    (hlen : len ≤ m₀.cells.length) (hi : 0 ≤ i) (hj : 0 ≤ j)
    (hji : j < len - 1 - i) (h : BubbleScan len m₀ i j m) :
    ∃ m', compareSwap j (j + 1) m = some m' ∧ BubbleScan len m₀ i (j + 1) m' := by
  obtain ⟨m', hrun, hwithin, hord⟩ :=
    compareSwap_spec hlen h.inv.within hj (show j < j + 1 by omega) (by omega)
  refine ⟨m', hrun, ⟨⟨hwithin, ?_⟩, ?_⟩⟩
  · intro p q hp hpq hq hsuf
    -- `q` is past the pair, so only the left-hand side may have moved
    have hq' : m'.at q = m.at q := hord.other q (by omega) (by omega) (by omega)
    have hjq := h.inv.suffix j q hj (by omega) hq hsuf
    have hjq' := h.inv.suffix (j + 1) q (by omega) (by omega) hq hsuf
    rw [hq']
    by_cases hpj : p = j
    · rw [hpj, hord.lower]
      exact min_le_of_left_le hjq
    · by_cases hpj' : p = j + 1
      · rw [hpj', hord.upper]
        exact max_le hjq hjq'
      · rw [hord.other p hp hpj hpj']
        exact h.inv.suffix p q hp hpq hq hsuf
  · intro p hp hpj
    rw [hord.upper]
    by_cases hpj' : p = j
    · rw [hpj', hord.lower]
      exact le_trans (min_le_left _ _) (le_max_left _ _)
    · rw [hord.other p hp hpj' (by omega)]
      exact le_max_of_le_left (h.largest p hp (by omega))

theorem bubbleRound {len : Int} {m₀ m : Mem} {i : Int}
    (hlen : len ≤ m₀.cells.length) (hi : 0 ≤ i) (hil : i < len - 1)
    (h : BubbleInv len m₀ i m) :
    ∃ m', forLoop (fun j array => compareSwap j (j + 1) array)
        0 (len - 1 - i) m = some m' ∧ BubbleInv len m₀ (i + 1) m' := by
  obtain ⟨m', hrun, hscan⟩ := forLoop_inv (I := BubbleScan len m₀ i)
    (show (0 : Int) ≤ len - 1 - i by omega)
    ⟨h, fun p hp hp0 => absurd hp0 (by omega)⟩
    (fun j t hj hji ht => bubbleScan_step hlen hi hj hji ht)
  refine ⟨m', hrun, ⟨hscan.inv.within, ?_⟩⟩
  intro p q hp hpq hq hsuf
  -- the new last place of the prefix is where the scan carried its maximum
  by_cases hlast : q = len - 1 - i
  · rw [hlast]
    exact hscan.largest p hp (by omega)
  · exact hscan.inv.suffix p q hp hpq hq (by omega)

theorem bubbleSort_spec {m₀ : Mem} {len : Int} (h0 : 0 ≤ len)
    (hlen : len ≤ m₀.cells.length) (hm₀ : Within len m₀ m₀) :
    ∃ m, bubbleSort m₀ len = some m ∧ Within len m₀ m ∧ Ascending len m := by
  by_cases hpos : 0 ≤ len - 1
  · obtain ⟨m, hrun, hinv⟩ := forLoop_inv (I := BubbleInv len m₀) hpos
      ⟨hm₀, fun p q _ _ hq hsuf => absurd hsuf (by omega)⟩
      (fun i t hi hil ht => bubbleRound hlen hi hil ht)
    refine ⟨m, hrun, hinv.within, ?_⟩
    intro p q hp hpq hq
    exact hinv.suffix p q hp hpq hq (by omega)
  · -- `len = 0`: the bound `len - 1` is negative and no loop is entered
    refine ⟨m₀, forLoop_of_le (by omega), hm₀, ?_⟩
    intro p q hp hpq hq
    omega

/-! ## `selectSort`: the sorted prefix -/

/-- After `j` rounds: whatever lies in the first `j` places is no larger than
anything after it in the range. -/
structure SelectInv (len : Int) (m₀ : Mem) (j : Int) (m : Mem) : Prop where
  within : Within len m₀ m
  chosen : ∀ p q, 0 ≤ p → p < q → q < len → p < j → m.at p ≤ m.at q

/-- Inside round `j`, at `i`: the smallest element seen so far is at `j`. -/
structure SelectScan (len : Int) (m₀ : Mem) (j i : Int) (m : Mem) : Prop where
  inv : SelectInv len m₀ j m
  smallest : ∀ q, j < q → q < i → m.at j ≤ m.at q

theorem selectScan_step {len : Int} {m₀ m : Mem} {j i : Int}
    (hlen : len ≤ m₀.cells.length) (hj : 0 ≤ j) (hji : j + 1 ≤ i) (hi : i < len)
    (h : SelectScan len m₀ j i m) :
    ∃ m', compareSwap j i m = some m' ∧ SelectScan len m₀ j (i + 1) m' := by
  obtain ⟨m', hrun, hwithin, hord⟩ :=
    compareSwap_spec hlen h.inv.within hj (show j < i by omega) hi
  refine ⟨m', hrun, ⟨⟨hwithin, ?_⟩, ?_⟩⟩
  · intro p q hp hpq hq hpj
    -- `p` is before the pair, so only the right-hand side may have moved
    have hp' : m'.at p = m.at p := hord.other p hp (by omega) (by omega)
    have hpj' := h.inv.chosen p j hp hpj (by omega) hpj
    have hpi := h.inv.chosen p i hp (by omega) hi hpj
    rw [hp']
    by_cases hqj : q = j
    · rw [hqj, hord.lower]
      exact le_min hpj' hpi
    · by_cases hqi : q = i
      · rw [hqi, hord.upper]
        exact le_max_of_le_left hpj'
      · rw [hord.other q (by omega) hqj hqi]
        exact h.inv.chosen p q hp hpq hq hpj
  · intro q hjq hqi
    rw [hord.lower]
    by_cases hqi' : q = i
    · rw [hqi', hord.upper]
      exact le_trans (min_le_left _ _) (le_max_left _ _)
    · rw [hord.other q (by omega) (by omega) hqi']
      exact min_le_of_left_le (h.smallest q hjq (by omega))

theorem selectRound {len : Int} {m₀ m : Mem} {j : Int}
    (hlen : len ≤ m₀.cells.length) (hj : 0 ≤ j) (hjl : j < len - 1)
    (h : SelectInv len m₀ j m) :
    ∃ m', forLoop (fun i array => compareSwap j i array) (j + 1) len m = some m' ∧
      SelectInv len m₀ (j + 1) m' := by
  obtain ⟨m', hrun, hscan⟩ := forLoop_inv (I := SelectScan len m₀ j)
    (show j + 1 ≤ len by omega)
    ⟨h, fun q hjq hq => absurd hq (by omega)⟩
    (fun i t hji hi ht => selectScan_step hlen hj hji hi ht)
  refine ⟨m', hrun, ⟨hscan.inv.within, ?_⟩⟩
  intro p q hp hpq hq hpj
  by_cases hlast : p = j
  · rw [hlast]
    exact hscan.smallest q (by omega) hq
  · exact hscan.inv.chosen p q hp hpq hq (by omega)

theorem selectSort_spec {m₀ : Mem} {len : Int} (h0 : 0 ≤ len)
    (hlen : len ≤ m₀.cells.length) (hm₀ : Within len m₀ m₀) :
    ∃ m, selectSort m₀ len = some m ∧ Within len m₀ m ∧ Ascending len m := by
  by_cases hpos : 0 ≤ len - 1
  · obtain ⟨m, hrun, hinv⟩ := forLoop_inv (I := SelectInv len m₀) hpos
      ⟨hm₀, fun p q hp _ _ hp0 => absurd hp0 (by omega)⟩
      (fun j t hj hjl ht => selectRound hlen hj hjl ht)
    refine ⟨m, hrun, hinv.within, ?_⟩
    intro p q hp hpq hq
    exact hinv.chosen p q hp hpq hq (by omega)
  · refine ⟨m₀, forLoop_of_le (by omega), hm₀, ?_⟩
    intro p q hp hpq hq
    omega

/-! ## The two sorts end in the same array -/

/-- Two ascending rearrangements of one range of one array are equal. -/
theorem cells_unique {len : Int} {m₀ m m' : Mem}
    (h : Within len m₀ m) (ha : Ascending len m)
    (h' : Within len m₀ m') (ha' : Ascending len m') : m.cells = m'.cells := by
  have htake : m.cells.take len.toNat = m'.cells.take len.toNat :=
    (h.perm.trans h'.perm.symm).eq_of_pairwise
      (fun _ _ _ _ => Int.le_antisymm) ha.pairwise ha'.pairwise
  rw [← List.take_append_drop len.toNat m.cells, htake, h.rest, ← h'.rest,
    List.take_append_drop]

/-- **Both sorts, one result.** On every array and every `len` within it the
two functions finish with no access outside `[0, len)`, leave the same array,
and that array holds the ascending permutation of the first `len` elements
followed by the untouched rest. -/
theorem bubbleSort_selectSort_agree (array : List Int) (len : Int)
    (h0 : 0 ≤ len) (hlen : len ≤ array.length) :
    ∃ b s, bubbleSort (Mem.ofArray array) len = some b ∧
      selectSort (Mem.ofArray array) len = some s ∧
      b.cells = s.cells ∧
      (b.cells.take len.toNat).Pairwise (· ≤ ·) ∧
      (b.cells.take len.toNat).Perm (array.take len.toNat) ∧
      b.cells.drop len.toNat = array.drop len.toNat ∧
      (∀ k ∈ b.trace, 0 ≤ k ∧ k < len) ∧
      (∀ k ∈ s.trace, 0 ≤ k ∧ k < len) := by
  have hlen' : len ≤ (Mem.ofArray array).cells.length := hlen
  obtain ⟨b, hb, hbw, hba⟩ := bubbleSort_spec h0 hlen' (Within.refl array)
  obtain ⟨s, hs, hsw, hsa⟩ := selectSort_spec h0 hlen' (Within.refl array)
  exact ⟨b, s, hb, hs, cells_unique hbw hba hsw hsa, hba.pairwise, hbw.perm,
    hbw.rest, hbw.touched, hsw.touched⟩

theorem bubbleSort_selectSort_agree_four :
    ∃ b s, bubbleSort (Mem.ofArray [3, 1, 3, 2, 0]) 4 = some b ∧
      selectSort (Mem.ofArray [3, 1, 3, 2, 0]) 4 = some s ∧
      b.cells = s.cells ∧ b.cells = [1, 2, 3, 3, 0] := by
  obtain ⟨b, s, hb, hs, heq, -⟩ :=
    bubbleSort_selectSort_agree [3, 1, 3, 2, 0] 4 (by decide) (by decide)
  refine ⟨b, s, hb, hs, heq, ?_⟩
  have hb' : (bubbleSort (Mem.ofArray [3, 1, 3, 2, 0]) 4).map Mem.cells =
      some [1, 2, 3, 3, 0] := by decide
  rw [hb] at hb'
  exact Option.some.inj hb'

/-- `main`: the two arrays it sorts, as they are printed. -/
def main : Option (List Int × List Int) := do
  let array := [12, 27, 55, 22, 67]
  let array ← bubbleSort (Mem.ofArray array) array.length
  let array1 := [25, 47, 36, 80, 11]
  let array1 ← selectSort (Mem.ofArray array1) array1.length
  return (array.cells, array1.cells)

example : main = some ([12, 22, 27, 55, 67], [11, 25, 36, 47, 80]) := by decide

end LinuxServer.Sort
