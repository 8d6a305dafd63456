import Mathlib.Data.Nat.Bitwise
import Mathlib.Tactic.Common

/-!
# Card Specific Data

A field is cut out of one response word. `C_SIZE` lies across two of them, and
its upper two bits are lost.
-/

set_option autoImplicit false

namespace UsbArmory.Storage.Card

structure Csd where
  readBlockSizeLog2 : BitVec 8
  size : BitVec 16
  sizeMult : BitVec 8
  specVers : BitVec 8
  writeBlockSizeLog2 : BitVec 8

/-- `RSP0[0] is CSD[8]` -/
def extract (rsps : Fin 4 → BitVec 32) (offset : ℕ) (mask : BitVec 32)
    (h : (offset-8)/32 < 4 := by decide) : BitVec 32 :=
  rsps ⟨(offset-8)/32, h⟩ >>> ((offset-8)%32) &&& mask

def Csd.from (rsps : Fin 4 → BitVec 32) : Csd where
  specVers := (extract rsps 122 0b1111).setWidth 8
  writeBlockSizeLog2 := (extract rsps 22 0b1111).setWidth 8
  readBlockSizeLog2 := (extract rsps 80 0b1111).setWidth 8
  size := (extract rsps 62 ((1#32 <<< 12)-1)).setWidth 16
  sizeMult := (extract rsps 47 0b111).setWidth 8

/-- The register; its last byte is not in the response. -/
def register (rsps : Fin 4 → BitVec 32) : BitVec 128 :=
  (rsps 3 ++ rsps 2 ++ rsps 1 ++ rsps 0) <<< 8

/-- The bits of a field, from the lowest one on. -/
def field (csd : BitVec 128) (lo n : ℕ) : BitVec n := csd.extractLsb' lo n

variable {rsps : Fin 4 → BitVec 32}

theorem register_bit (rsps : Fin 4 → BitVec 32) (k : ℕ) (hk : k < 120) (h : k/32 < 4) :
    (register rsps).getLsbD (8+k) = (rsps ⟨k/32, h⟩).getLsbD (k%32) := by
  have hlt : 8+k < 128 := by omega
  have hge : ¬8+k < 8 := by omega
  have hword : ∀ j (hj : j < 4), k/32 = j → k = 32*j+k%32 ∧ (⟨k/32, h⟩ : Fin 4) = ⟨j, hj⟩ := by
    rintro j hj rfl
    exact ⟨(Nat.div_add_mod k 32).symm, rfl⟩
  rw [register, BitVec.getLsbD_shiftLeft]
  simp only [BitVec.getLsbD_append, hlt, hge, Nat.add_sub_cancel_left, decide_true, decide_false,
    Bool.not_false, Bool.true_and]
  rcases (by omega : k/32 = 0 ∨ k/32 = 1 ∨ k/32 = 2 ∨ k/32 = 3) with hd | hd | hd | hd
  all_goals
    obtain ⟨hsum, heq⟩ := hword _ (by decide) hd
    rw [heq]
  · rw [if_pos (by omega)]
    congr 1
    omega
  · rw [if_neg (by omega), if_pos (by omega)]
    congr 1
    omega
  · rw [if_neg (by omega), if_neg (by omega), if_pos (by omega)]
    congr 1
    omega
  · rw [if_neg (by omega), if_neg (by omega), if_neg (by omega)]
    congr 1
    omega

theorem extract_bit (offset n : ℕ) {mask : BitVec 32} (hmask : mask = BitVec.ofNat 32 (2^n-1))
    (hlo : 8 ≤ offset) (hhi : offset+n ≤ 128) (h : (offset-8)/32 < 4) {i : ℕ} (hi : i < n)
    (hin : (offset-8)%32+i < 32) :
    (extract rsps offset mask h).getLsbD i = (register rsps).getLsbD (offset+i) := by
  have hsame : (offset-8+i)/32 = (offset-8)/32 := by omega
  have hrest : (offset-8+i)%32 = (offset-8)%32+i := by omega
  have hbit := register_bit rsps (offset-8+i) (by omega) (by omega)
  have hfin : (⟨(offset-8+i)/32, by omega⟩ : Fin 4) = ⟨(offset-8)/32, h⟩ := Fin.ext hsame
  rw [hfin, hrest] at hbit
  have hsum : offset+i = 8+(offset-8+i) := by omega
  have hsmall : i < 32 := by omega
  rw [hsum, hbit, extract, hmask, BitVec.getLsbD_and, BitVec.getLsbD_ushiftRight,
    BitVec.getLsbD_ofNat, Nat.testBit_two_pow_sub_one]
  simp [hi, hsmall]

theorem extract_clear (offset n : ℕ) {mask : BitVec 32} (hmask : mask = BitVec.ofNat 32 (2^n-1))
    (h : (offset-8)/32 < 4) {i : ℕ} (hout : n ≤ i ∨ 32 ≤ (offset-8)%32+i) :
    (extract rsps offset mask h).getLsbD i = false := by
  rw [extract, hmask, BitVec.getLsbD_and, BitVec.getLsbD_ushiftRight, BitVec.getLsbD_ofNat,
    Nat.testBit_two_pow_sub_one]
  rcases hout with hn | hword
  · simp [Nat.not_lt.mpr hn]
  · rw [BitVec.getLsbD_of_ge _ _ hword, Bool.false_and]

theorem extract_field (offset n : ℕ) {mask : BitVec 32} (hmask : mask = BitVec.ofNat 32 (2^n-1))
    (hlo : 8 ≤ offset) (hhi : offset+n ≤ 128) (h : (offset-8)/32 < 4)
    (hin : (offset-8)%32+n ≤ 32) {w : ℕ} :
    (extract rsps offset mask h).setWidth w = (field (register rsps) offset n).setWidth w := by
  apply BitVec.eq_of_getLsbD_eq
  intro i hi
  rw [BitVec.getLsbD_setWidth, BitVec.getLsbD_setWidth, field, BitVec.getLsbD_extractLsb']
  by_cases hn : i < n
  · rw [extract_bit offset n hmask hlo hhi h hn (by omega)]
    simp [hn]
  · rw [extract_clear offset n hmask h (.inl (Nat.not_lt.mp hn))]
    simp [hn]

structure Extracted (rsps : Fin 4 → BitVec 32) : Prop where
  specVers : (Csd.from rsps).specVers = (field (register rsps) 122 4).setWidth 8
  readBlockSizeLog2 : (Csd.from rsps).readBlockSizeLog2 = (field (register rsps) 80 4).setWidth 8
  size : (Csd.from rsps).size = (field (register rsps) 62 12).setWidth 16
  sizeMult : (Csd.from rsps).sizeMult = (field (register rsps) 47 3).setWidth 8
  writeBlockSizeLog2 : (Csd.from rsps).writeBlockSizeLog2 =
    (field (register rsps) 22 4).setWidth 8

theorem size_mask : (1#32 <<< 12)-1 = BitVec.ofNat 32 (2^12-1) := rfl

theorem size_bit (i : ℕ) (hi : i < 12) : (Csd.from rsps).size.getLsbD i =
    (decide (i < 10) && (field (register rsps) 62 12).getLsbD i) := by
  show ((extract rsps 62 ((1#32 <<< 12)-1)).setWidth 16).getLsbD i = _
  rw [BitVec.getLsbD_setWidth, field, BitVec.getLsbD_extractLsb']
  have hsmall : i < 16 := by omega
  by_cases hten : i < 10
  · rw [extract_bit 62 12 size_mask (by decide) (by decide) (by decide) hi (by omega)]
    simp [hi, hten, hsmall]
  · rw [extract_clear 62 12 size_mask _ (.inr (by omega))]
    simp [hten]

/-- The fields are right exactly if the two bits of `C_SIZE` in the third word are clear. -/
theorem extracted_iff (rsps : Fin 4 → BitVec 32) : Extracted rsps ↔
    (rsps 2).getLsbD 0 = false ∧ (rsps 2).getLsbD 1 = false := by
  have hbits : ∀ i, i < 2 → (field (register rsps) 62 12).getLsbD (10+i) =
      (rsps 2).getLsbD i := by
    intro i hi
    have hbit := register_bit rsps (64+i) (by omega) (by omega)
    have hfin : (⟨(64+i)/32, by omega⟩ : Fin 4) = 2 := Fin.ext (by show (64+i)/32 = 2; omega)
    have hrest : (64+i)%32 = i := by omega
    rw [hfin, hrest] at hbit
    have hsum : 62+(10+i) = 8+(64+i) := by omega
    have htwelve : 10+i < 12 := by omega
    rw [field, BitVec.getLsbD_extractLsb', hsum, hbit]
    simp [htwelve]
  constructor
  · intro h
    have hlost : ∀ i, i < 2 → (rsps 2).getLsbD i = false := by
      intro i hi
      have hsize := congrArg (fun w : BitVec 16 => w.getLsbD (10+i)) h.size
      rw [size_bit (10+i) (by omega), BitVec.getLsbD_setWidth, hbits i hi] at hsize
      have hten : ¬10+i < 10 := by omega
      have hsmall : 10+i < 16 := by omega
      simpa [hten, hsmall] using hsize.symm
    exact ⟨hlost 0 (by decide), hlost 1 (by decide)⟩
  · rintro ⟨h0, h1⟩
    refine ⟨?_, ?_, ?_, ?_, ?_⟩
    · exact extract_field 122 4 rfl (by decide) (by decide) _ (by decide)
    · exact extract_field 80 4 rfl (by decide) (by decide) _ (by decide)
    · apply BitVec.eq_of_getLsbD_eq
      intro i hi
      rw [BitVec.getLsbD_setWidth]
      by_cases htwelve : i < 12
      · rw [size_bit i htwelve]
        by_cases hten : i < 10
        · simp [hten, hi]
        · have hlost : (field (register rsps) 62 12).getLsbD i = false := by
            rcases (by omega : i = 10+0 ∨ i = 10+1) with rfl | rfl
            · rw [hbits 0 (by decide)]
              exact h0
            · rw [hbits 1 (by decide)]
              exact h1
          rw [hlost]
          simp
      · have hge : 12 ≤ i := Nat.not_lt.mp htwelve
        rw [BitVec.getLsbD_of_ge (field (register rsps) 62 12) i hge]
        show ((extract rsps 62 ((1#32 <<< 12)-1)).setWidth 16).getLsbD i = _
        rw [BitVec.getLsbD_setWidth, extract_clear 62 12 size_mask _ (.inl hge)]
    · exact extract_field 47 3 rfl (by decide) (by decide) _ (by decide)
    · exact extract_field 22 4 rfl (by decide) (by decide) _ (by decide)

/-- All bits of `C_SIZE` are set, and the size is 1023. -/
theorem extracted_not : ¬Extracted (fun _ => BitVec.allOnes 32) ∧
    (Csd.from fun _ => BitVec.allOnes 32).size = 1023 ∧
    field (register fun _ => BitVec.allOnes 32) 62 12 = 4095 := by
  refine ⟨fun h => ?_, by decide, by decide⟩
  exact absurd ((extracted_iff _).mp h).1 (by decide)

end UsbArmory.Storage.Card
