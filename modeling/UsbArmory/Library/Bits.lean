import Mathlib.Data.Finset.Card
import Mathlib.Tactic.Common

/-!
# Words as sets of bits

Masks of one bit, what setting and clearing them does to every bit, and the
iteration over the bits of a word by repeated removal of the lowest one.
-/

set_option autoImplicit false

namespace UsbArmory.Library.Bits

variable {n : ℕ}

def mask (n i : ℕ) : BitVec n := 1#n <<< i

theorem getLsbD_mask (i j : ℕ) : (mask n i).getLsbD j = decide (i = j ∧ j < n) := by
  simp only [mask, BitVec.getLsbD_shiftLeft, BitVec.getLsbD_one]
  by_cases hj : j < n
  · by_cases hij : i = j
    · subst j
      simp [hj]
      omega
    · simp [hij]
      omega
  · simp [hj]

theorem getLsbD_set {i : ℕ} (hi : i < n) (w : BitVec n) (j : ℕ) :
    (w ||| mask n i).getLsbD j = (w.getLsbD j || decide (i = j)) := by
  rw [BitVec.getLsbD_or, getLsbD_mask]
  congr 2
  apply propext
  constructor
  · intro h
    exact h.1
  · intro h
    exact ⟨h, h ▸ hi⟩

theorem getLsbD_clear (w : BitVec n) (i j : ℕ) :
    (w &&& ~~~mask n i).getLsbD j = (w.getLsbD j && decide (i ≠ j)) := by
  rw [BitVec.getLsbD_and, BitVec.getLsbD_not, getLsbD_mask]
  by_cases hj : j < n
  · simp [hj]
  · simp [BitVec.getLsbD_of_ge w j (Nat.le_of_not_lt hj)]

theorem ne_zero_iff (w : BitVec n) : w ≠ 0 ↔ ∃ i, w.getLsbD i = true := by
  constructor
  · intro h
    by_contra hne
    apply h
    apply BitVec.eq_of_getLsbD_eq
    intro i _
    have hi : ¬w.getLsbD i = true := fun ht => hne ⟨i, ht⟩
    simpa using hi
  · rintro ⟨i, hi⟩ rfl
    simp at hi

theorem and_mask_ne_zero (w : BitVec n) (i : ℕ) : w &&& mask n i ≠ 0 ↔ w.getLsbD i = true := by
  rw [ne_zero_iff]
  constructor
  · rintro ⟨j, hj⟩
    rw [BitVec.getLsbD_and, getLsbD_mask] at hj
    simp only [Bool.and_eq_true, decide_eq_true_eq] at hj
    rw [hj.2.1]
    exact hj.1
  · intro hi
    have hn : i < n := BitVec.lt_of_getLsbD hi
    exact ⟨i, by simp [getLsbD_mask, hi, hn]⟩

theorem getLsbD_of_and_mask {w : BitVec n} {i : ℕ} (h : ¬w &&& mask n i ≠ 0) :
    w.getLsbD i = false := by
  rw [← Bool.not_eq_true, ← and_mask_ne_zero]
  exact h

/-- The number of zeros below the lowest one bit, `n` for the zero word. -/
def trailingZeros (w : BitVec n) : ℕ := ((List.range n).find? w.getLsbD).getD n

/-- The step of the iterator: the lowest bit, and the word without it. -/
def nextOne (w : BitVec n) : Option (ℕ × BitVec n) :=
  if w = 0 then none
  else some (trailingZeros w, w &&& ~~~mask n (trailingZeros w))

def collect : ℕ → BitVec n → List ℕ
  | 0, _ => []
  | fuel+1, w =>
    match nextOne w with
    | none => []
    | some (i, rest) => i::collect fuel rest

/-- The indices of the one bits, lowest first. -/
def oneIndices (w : BitVec n) : List ℕ := collect n w

def ones (w : BitVec n) : Finset ℕ := (Finset.range n).filter fun i => w.getLsbD i = true

theorem mem_ones (w : BitVec n) (i : ℕ) : i ∈ ones w ↔ w.getLsbD i = true := by
  simp only [ones, Finset.mem_filter, Finset.mem_range]
  constructor
  · intro h
    exact h.2
  · intro h
    exact ⟨BitVec.lt_of_getLsbD h, h⟩

theorem getLsbD_trailingZeros (w : BitVec n) (h : w ≠ 0) : w.getLsbD (trailingZeros w) = true := by
  obtain ⟨i, hi⟩ := (ne_zero_iff w).mp h
  cases hf : (List.range n).find? w.getLsbD with
  | none =>
    have hnone := List.find?_eq_none.mp hf i (List.mem_range.mpr (BitVec.lt_of_getLsbD hi))
    exact absurd hi hnone
  | some j =>
    rw [trailingZeros, hf]
    exact List.find?_some hf

theorem ones_clear (w : BitVec n) (i : ℕ) : ones (w &&& ~~~mask n i) = (ones w).erase i := by
  ext j
  rw [mem_ones, Finset.mem_erase, mem_ones, getLsbD_clear, Bool.and_eq_true, decide_eq_true_eq]
  constructor
  · intro h
    exact ⟨fun he => h.2 he.symm, h.1⟩
  · intro h
    exact ⟨h.2, fun he => h.1 he.symm⟩

theorem collect_spec (fuel : ℕ) (w : BitVec n) (h : (ones w).card ≤ fuel) :
    (collect fuel w).Nodup ∧ ∀ i, i ∈ collect fuel w ↔ w.getLsbD i = true := by
  induction fuel generalizing w with
  | zero =>
    have hempty := Finset.card_eq_zero.mp (Nat.le_zero.mp h)
    refine ⟨List.nodup_nil, fun i => ?_⟩
    rw [← mem_ones, hempty]
    simp [collect]
  | succ fuel ih =>
    by_cases hw : w = 0
    · have hnext : nextOne w = none := if_pos hw
      simp only [collect, hnext]
      refine ⟨List.nodup_nil, fun i => ?_⟩
      simp [hw]
    · have hbit := getLsbD_trailingZeros w hw
      have hnext : nextOne w = some (trailingZeros w, w &&& ~~~mask n (trailingZeros w)) :=
        if_neg hw
      have hcard : (ones (w &&& ~~~mask n (trailingZeros w))).card ≤ fuel := by
        rw [ones_clear, Finset.card_erase_of_mem ((mem_ones w _).mpr hbit)]
        omega
      obtain ⟨hnodup, hmem⟩ := ih _ hcard
      simp only [collect, hnext, List.nodup_cons, List.mem_cons]
      constructor
      · refine ⟨?_, hnodup⟩
        rw [hmem, getLsbD_clear]
        simp
      · intro i
        rw [hmem, getLsbD_clear]
        by_cases hi : i = trailingZeros w
        · subst i
          simp [hbit]
        · have hne : trailingZeros w ≠ i := fun he => hi he.symm
          simp [hi, hne]

theorem card_ones_le (w : BitVec n) : (ones w).card ≤ n := by
  have h := Finset.card_filter_le (Finset.range n) fun i => w.getLsbD i = true
  rwa [Finset.card_range] at h

theorem mem_oneIndices (w : BitVec n) (i : ℕ) : i ∈ oneIndices w ↔ w.getLsbD i = true :=
  (collect_spec n w (card_ones_le w)).2 i

theorem nodup_oneIndices (w : BitVec n) : (oneIndices w).Nodup :=
  (collect_spec n w (card_ones_le w)).1

end UsbArmory.Library.Bits
