import Mathlib.Algebra.Ring.Nat
import Mathlib.Tactic.Common

/-!
# Fixed-width words

Arithmetic whose overflow either stops the program or wraps, depending on
how it was built, and the byte forms of words.
-/

set_option autoImplicit false

namespace UsbArmory.Library.Word

/-- What an overflowing addition does. -/
inductive Overflow where
  | panics
  | wraps
  deriving DecidableEq, Repr

def Overflow.add32 : Overflow → UInt32 → UInt32 → Option UInt32
  | .panics, a, b => if a.toNat+b.toNat < 2^32 then some (a+b) else none
  | .wraps, a, b => some (a+b)

theorem add32_exact (o : Overflow) (a b : UInt32) (h : a.toNat+b.toNat < 2^32) :
    ∃ c, o.add32 a b = some c ∧ c.toNat = a.toNat+b.toNat := by
  refine ⟨a+b, ?_, ?_⟩
  · cases o with
    | panics => exact if_pos h
    | wraps => rfl
  · rw [UInt32.toNat_add]
    exact Nat.mod_eq_of_lt h

theorem add32_overflow {a b : UInt32} (h : 2^32 ≤ a.toNat+b.toNat) :
    Overflow.panics.add32 a b = none := if_neg (Nat.not_lt.mpr h)

theorem and_one_cases (x : UInt32) : x &&& 1 = 0 ∨ x &&& 1 = 1 := by
  have hmod : (x &&& 1).toNat = x.toNat%2 := by
    rw [UInt32.toNat_and]
    exact Nat.and_one_is_mod x.toNat
  rcases Nat.mod_two_eq_zero_or_one x.toNat with h | h
  · exact .inl (UInt32.toNat.inj (hmod.trans h))
  · exact .inr (UInt32.toNat.inj (hmod.trans h))

theorem toNat_min (a b : UInt32) : (min a b).toNat = min a.toNat b.toNat := by
  show (if a ≤ b then a else b).toNat = _
  split
  next hle => exact (min_eq_left (UInt32.le_iff_toNat_le.mp hle)).symm
  next hle =>
    have hlt := UInt32.lt_iff_toNat_lt.mp (UInt32.not_le.mp hle)
    exact (min_eq_right (Nat.le_of_lt hlt)).symm

theorem toNat_max (a b : UInt32) : (max a b).toNat = max a.toNat b.toNat := by
  show (if a ≤ b then b else a).toNat = _
  split
  next hle => exact (max_eq_right (UInt32.le_iff_toNat_le.mp hle)).symm
  next hle =>
    have hlt := UInt32.lt_iff_toNat_lt.mp (UInt32.not_le.mp hle)
    exact (max_eq_left (Nat.le_of_lt hlt)).symm

def Overflow.add16 : Overflow → UInt16 → UInt16 → Option UInt16
  | .panics, a, b => if a.toNat+b.toNat < 2^16 then some (a+b) else none
  | .wraps, a, b => some (a+b)

def Overflow.sub16 : Overflow → UInt16 → UInt16 → Option UInt16
  | .panics, a, b => if b ≤ a then some (a-b) else none
  | .wraps, a, b => some (a-b)

def Overflow.sub32 : Overflow → UInt32 → UInt32 → Option UInt32
  | .panics, a, b => if b ≤ a then some (a-b) else none
  | .wraps, a, b => some (a-b)

def Overflow.mul16 : Overflow → UInt16 → UInt16 → Option UInt16
  | .panics, a, b => if a.toNat*b.toNat < 2^16 then some (a*b) else none
  | .wraps, a, b => some (a*b)

theorem sub32_exact (o : Overflow) {a b : UInt32} (h : b ≤ a) : o.sub32 a b = some (a-b) := by
  cases o with
  | panics => exact if_pos h
  | wraps => rfl

theorem sub16_self (o : Overflow) (a : UInt16) : o.sub16 a a = some 0 := by
  cases o <;> simp [Overflow.sub16]

theorem add16_panics {a b c : UInt16} (h : Overflow.panics.add16 a b = some c) :
    c.toNat = a.toNat+b.toNat := by
  simp only [Overflow.add16] at h
  split at h
  next hlt =>
    cases h
    rw [UInt16.toNat_add]
    exact Nat.mod_eq_of_lt hlt
  next => cases h

theorem mul16_panics {a b c : UInt16} (h : Overflow.panics.mul16 a b = some c) :
    c.toNat = a.toNat*b.toNat := by
  simp only [Overflow.mul16] at h
  split at h
  next hlt =>
    cases h
    rw [UInt16.toNat_mul]
    exact Nat.mod_eq_of_lt hlt
  next => cases h

theorem add32_panics {a b c : UInt32} (h : Overflow.panics.add32 a b = some c) :
    c.toNat = a.toNat+b.toNat := by
  simp only [Overflow.add32] at h
  split at h
  next hlt =>
    cases h
    rw [UInt32.toNat_add]
    exact Nat.mod_eq_of_lt hlt
  next => cases h

theorem add32_value {o : Overflow} {a b c : UInt32} (h : o.add32 a b = some c) : c = a+b := by
  cases o with
  | panics =>
    simp only [Overflow.add32] at h
    split at h
    · exact (Option.some.inj h).symm
    · cases h
  | wraps => exact (Option.some.inj h).symm

def toLe32 (x : UInt32) : List UInt8 :=
  [x.toUInt8, (x >>> 8).toUInt8, (x >>> 16).toUInt8, (x >>> 24).toUInt8]

def ofLe32 (b0 b1 b2 b3 : UInt8) : UInt32 :=
  UInt32.ofNat (b0.toNat+b1.toNat*2^8+b2.toNat*2^16+b3.toNat*2^24)

@[simp] theorem toLe32_length (x : UInt32) : (toLe32 x).length = 4 := rfl

@[simp] theorem ofLe32_toLe32 (x : UInt32) :
    ofLe32 x.toUInt8 (x >>> 8).toUInt8 (x >>> 16).toUInt8 (x >>> 24).toUInt8 = x := by
  have hx : x.toNat < 2^32 := x.toNat_lt
  apply UInt32.toNat.inj
  simp only [ofLe32, UInt32.toNat_ofNat', UInt32.toNat_toUInt8, UInt32.toNat_shiftRight,
    UInt32.reduceToNat, Nat.shiftRight_eq_div_pow, Nat.reduceMod, Nat.reducePow]
  omega

def toBe16 (x : UInt16) : List UInt8 := [(x >>> 8).toUInt8, x.toUInt8]

def ofBe16 (b0 b1 : UInt8) : UInt16 := UInt16.ofNat (b0.toNat*2^8+b1.toNat)

def toBe32 (x : UInt32) : List UInt8 :=
  [(x >>> 24).toUInt8, (x >>> 16).toUInt8, (x >>> 8).toUInt8, x.toUInt8]

def ofBe32 (b0 b1 b2 b3 : UInt8) : UInt32 := ofLe32 b3 b2 b1 b0

@[simp] theorem toBe16_length (x : UInt16) : (toBe16 x).length = 2 := rfl

@[simp] theorem toBe32_length (x : UInt32) : (toBe32 x).length = 4 := rfl

@[simp] theorem ofBe16_toBe16 (x : UInt16) : ofBe16 (x >>> 8).toUInt8 x.toUInt8 = x := by
  have hx : x.toNat < 2^16 := x.toNat_lt
  apply UInt16.toNat.inj
  simp only [ofBe16, UInt16.toNat_ofNat', UInt16.toNat_toUInt8, UInt16.toNat_shiftRight,
    UInt16.reduceToNat, Nat.shiftRight_eq_div_pow, Nat.reduceMod, Nat.reducePow]
  omega

theorem toLe32_ofLe32 (b0 b1 b2 b3 : UInt8) : toLe32 (ofLe32 b0 b1 b2 b3) = [b0, b1, b2, b3] := by
  have h0 : b0.toNat < 2^8 := b0.toNat_lt
  have h1 : b1.toNat < 2^8 := b1.toNat_lt
  have h2 : b2.toNat < 2^8 := b2.toNat_lt
  have h3 : b3.toNat < 2^8 := b3.toNat_lt
  simp only [toLe32, ofLe32, List.cons.injEq, ← UInt8.toNat_inj, UInt32.toNat_toUInt8,
    UInt32.toNat_ofNat', UInt32.toNat_shiftRight, UInt32.reduceToNat, Nat.shiftRight_eq_div_pow,
    Nat.reduceMod, Nat.reducePow, and_true]
  omega

theorem toBe32_ofBe32 (b0 b1 b2 b3 : UInt8) : toBe32 (ofBe32 b0 b1 b2 b3) = [b0, b1, b2, b3] := by
  have h := toLe32_ofLe32 b3 b2 b1 b0
  simp only [toLe32, List.cons.injEq] at h
  simp only [toBe32, ofBe32, h]

theorem toBe16_ofBe16 (b0 b1 : UInt8) : toBe16 (ofBe16 b0 b1) = [b0, b1] := by
  have h0 : b0.toNat < 2^8 := b0.toNat_lt
  have h1 : b1.toNat < 2^8 := b1.toNat_lt
  simp only [toBe16, ofBe16, List.cons.injEq, ← UInt8.toNat_inj, UInt16.toNat_toUInt8,
    UInt16.toNat_ofNat', UInt16.toNat_shiftRight, UInt16.reduceToNat, Nat.shiftRight_eq_div_pow,
    Nat.reduceMod, Nat.reducePow, and_true]
  omega

@[simp] theorem ofBe32_toBe32 (x : UInt32) :
    ofBe32 (x >>> 24).toUInt8 (x >>> 16).toUInt8 (x >>> 8).toUInt8 x.toUInt8 = x :=
  ofLe32_toLe32 x

end UsbArmory.Library.Word
