import Mathlib.Data.List.GetD
import Mathlib.Tactic.Common

/-!
# Circular memory

A stream of cells laid out in a memory of `cap` cells, position `p` at index
`p % cap`. Cursors are unbounded. What a writer does to the memory is said
once, relative to its cursor, and contiguous block copies are shown to do it.
-/

set_option autoImplicit false

namespace UsbArmory.Library.Ring

variable {α : Type*} {cap : ℕ} {mem mem' : ℕ → α}

/-- The `len` cells from position `r` on. -/
def window (mem : ℕ → α) (cap r len : ℕ) : List α :=
  (List.range len).map fun i => mem ((r+i) % cap)

/-- A contiguous copy to index `dst`. -/
def blit (mem : ℕ → α) (dst : ℕ) (xs : List α) : ℕ → α :=
  fun j => if dst ≤ j then xs.getD (j-dst) (mem j) else mem j

/-- The cells from position `w` on hold `xs`; the others are kept. -/
def Writes (cap w : ℕ) (mem mem' : ℕ → α) (xs : List α) : Prop :=
  ∀ k < cap, mem' ((w+k) % cap) = xs.getD k (mem ((w+k) % cap))

theorem window_length (mem : ℕ → α) (cap r len : ℕ) : (window mem cap r len).length = len := by
  simp [window]

theorem window_add (mem : ℕ → α) (cap r a b : ℕ) :
    window mem cap r (a+b) = window mem cap r a ++ window mem cap (r+a) b := by
  simp [window, List.range_add, Nat.add_assoc]

theorem window_take (mem : ℕ → α) (cap r : ℕ) {k n : ℕ} (h : k ≤ n) :
    (window mem cap r n).take k = window mem cap r k := by
  rw [← Nat.add_sub_cancel' h, window_add, List.take_left' (window_length mem cap r k)]

theorem add_mod_of_lt {w k : ℕ} (h : w % cap + k < cap) : (w+k) % cap = w % cap + k := by
  rw [← Nat.mod_add_mod, Nat.mod_eq_of_lt h]

theorem add_mod_of_le {w k : ℕ} (h : cap ≤ w % cap + k) (hk : k < cap) :
    (w+k) % cap = w % cap + k - cap := by
  have hw := Nat.mod_lt w (Nat.zero_lt_of_lt hk)
  rw [← Nat.mod_add_mod, Nat.mod_eq_sub_mod h, Nat.mod_eq_of_lt]
  omega

theorem window_slice (mem : ℕ → α) {r n : ℕ} (h : r % cap + n ≤ cap) :
    window mem cap r n = (List.range n).map fun i => mem (r % cap + i) := by
  apply List.map_congr_left
  intro i hi
  have hin := List.mem_range.mp hi
  rw [add_mod_of_lt (by omega)]

theorem writes_straight (mem : ℕ → α) (w : ℕ) (xs : List α) (h : w % cap + xs.length ≤ cap) :
    Writes cap w mem (blit mem (w % cap) xs) xs := by
  intro k hk
  by_cases hlt : w % cap + k < cap
  · rw [add_mod_of_lt hlt, blit, if_pos (by omega), Nat.add_sub_cancel_left]
  · have hw := Nat.mod_lt w (Nat.zero_lt_of_lt hk)
    rw [add_mod_of_le (by omega) hk, blit, if_neg (by omega), List.getD_eq_default]
    omega

theorem writes_split (mem : ℕ → α) (w : ℕ) (xs : List α) (hw : w % cap < cap)
    (hn : xs.length ≤ cap) :
    Writes cap w mem
      (blit (blit mem (w % cap) (xs.take (cap - w % cap))) 0 (xs.drop (cap - w % cap))) xs := by
  intro k hk
  by_cases hlt : w % cap + k < cap
  · rw [add_mod_of_lt hlt, blit, if_pos (Nat.zero_le _), List.getD_eq_default, blit,
      if_pos (by omega), Nat.add_sub_cancel_left]
    · simp only [List.getD_eq_getElem?_getD]
      rw [List.getElem?_take_of_lt (by omega)]
    · rw [List.length_drop]
      omega
  · rw [add_mod_of_le (by omega) hk, blit, if_pos (Nat.zero_le _), blit, if_neg (by omega)]
    simp only [List.getD_eq_getElem?_getD, List.getElem?_drop]
    congr 2
    omega

theorem Writes.old {w : ℕ} {xs : List α} (h : Writes cap w mem mem' xs) {r : ℕ}
    (hc : w + xs.length ≤ r + cap) : window mem' cap r (w-r) = window mem cap r (w-r) := by
  apply List.map_congr_left
  intro i hi
  have hin := List.mem_range.mp hi
  have hk := h (r+i+cap-w) (by omega)
  have hpos : w + (r+i+cap-w) = r+i+cap := by omega
  rw [hpos, Nat.add_mod_right, List.getD_eq_default xs _ (by omega)] at hk
  exact hk

theorem Writes.new {w : ℕ} {xs : List α} (h : Writes cap w mem mem' xs)
    (hc : xs.length ≤ cap) : window mem' cap w xs.length = xs := by
  apply List.ext_getElem
  · rw [window_length]
  · intro i hi hix
    rw [window_length] at hi
    have hk := h i (by omega)
    rw [List.getD_eq_getElem xs _ hi] at hk
    simpa [window] using hk

theorem Writes.append {r w : ℕ} {xs : List α} (h : Writes cap w mem mem' xs) (hr : r ≤ w)
    (hc : w + xs.length ≤ r + cap) :
    window mem' cap r (w + xs.length - r) = window mem cap r (w-r) ++ xs := by
  have hlen : w + xs.length - r = (w-r) + xs.length := by omega
  rw [hlen, window_add, h.old hc, Nat.add_sub_cancel' hr, h.new (by omega)]

end UsbArmory.Library.Ring
