import UsbArmory.Library.Word

/-!
# A memory of 32-bit addresses under patches

A patch puts a list at consecutive addresses, which may wrap around. What is
patched piece by piece is patched as a whole.
-/

set_option autoImplicit false

namespace UsbArmory.Library.Patches

variable {α : Type}

def patch (m : UInt32 → α) (a : UInt32) (bs : List α) : UInt32 → α :=
  fun x => (bs[(x-a).toNat]?).getD (m x)

def region (m : UInt32 → α) (a : UInt32) (n : ℕ) : List α :=
  (List.range n).map fun i => m (a+UInt32.ofNat i)

variable {m : UInt32 → α} {a x : UInt32} {bs cs : List α}

@[simp] theorem patch_nil (m : UInt32 → α) (a : UInt32) : patch m a [] = m := rfl

theorem patch_inside {i : ℕ} (hi : i < bs.length) (hsize : bs.length ≤ 2^32) :
    patch m a bs (a+UInt32.ofNat i) = bs[i] := by
  have hdistance : (a+UInt32.ofNat i-a).toNat = i := by
    rw [UInt32.add_comm, UInt32.add_sub_cancel, UInt32.toNat_ofNat']
    exact Nat.mod_eq_of_lt (Nat.lt_of_lt_of_le hi hsize)
  rw [patch, hdistance, List.getElem?_eq_getElem hi, Option.getD_some]

theorem patch_append (hsize : bs.length+cs.length ≤ 2^32) :
    patch (patch m a bs) (a+UInt32.ofNat bs.length) cs = patch m a (bs ++ cs) := by
  funext x
  have hlt := (x-a).toNat_lt
  have hsum := (x-a).toNat_sub (UInt32.ofNat bs.length)
  rw [UInt32.toNat_ofNat'] at hsum
  have hdistance : x-(a+UInt32.ofNat bs.length) = x-a-UInt32.ofNat bs.length := by grind
  unfold patch
  rw [hdistance]
  by_cases hin : (x-a).toNat < bs.length
  · rw [List.getElem?_append_left hin, List.getElem?_eq_getElem hin]
    rw [List.getElem?_eq_none (by omega), Option.getD_none]
  · rw [List.getElem?_append_right (by omega), List.getElem?_eq_none (l := bs) (by omega),
      Option.getD_none]
    by_cases hall : cs = []
    · subst hall
      simp
    have hpos := List.length_pos_iff.mpr hall
    congr 2
    omega

theorem region_patch (hsize : bs.length ≤ 2^32) : region (patch m a bs) a bs.length = bs := by
  apply List.ext_getElem
  · rw [region, List.length_map, List.length_range]
  · intro i hi hbs
    simp only [region, List.getElem_map, List.getElem_range]
    exact patch_inside hbs hsize

end UsbArmory.Library.Patches
