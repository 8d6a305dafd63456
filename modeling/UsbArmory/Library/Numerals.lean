import Mathlib.Algebra.Ring.Nat
import UsbArmory.Library.Strings

/-!
# Numerals

Numbers as text in a radix, and back.
-/

set_option autoImplicit false

namespace UsbArmory.Library.Numerals
open UsbArmory.Library.Strings

/-- `char::to_digit` for a radix up to 16. -/
def toDigit (radix : ℕ) (c : Char) : Option ℕ :=
  let n := c.toNat
  let d := if 48 ≤ n ∧ n ≤ 57 then n-48 else if 97 ≤ n ∧ n ≤ 102 then n-87
    else if 65 ≤ n ∧ n ≤ 70 then n-55 else radix
  if d < radix then some d else none

/-- The digits, each checked against the bound as it is added. -/
def digits (radix bound : ℕ) : Text → ℕ → Option ℕ
  | [], n => some n
  | c::cs, n => match toDigit radix c with
    | some d => if n*radix+d < bound then digits radix bound cs (n*radix+d) else none
    | none => none

/-- `from_str_radix` of an unsigned type: a `+` may stand in front. -/
def fromStrRadix (radix bound : ℕ) : Text → Option ℕ
  | [] => none
  | ['+'] => none
  | '+'::cs => digits radix bound cs 0
  | cs => digits radix bound cs 0

def decimal (n : ℕ) : Text := Nat.toDigits 10 n

theorem forall_below {P : ℕ → Prop} [DecidablePred P] {n : ℕ} (h : (List.range n).all (P ·) = true)
    (k : ℕ) (hk : k < n) : P k := by
  have hall := List.all_eq_true.mp h k (List.mem_range.mpr hk)
  exact of_decide_eq_true hall

theorem parse_decimal {n : ℕ} (h : n < 256) : fromStrRadix 10 256 (decimal n) = some n := by
  refine forall_below (n := 256) (P := fun n => fromStrRadix 10 256 (decimal n) = some n) ?_ n h
  decide +kernel

theorem decimal_plain {n : ℕ} (h : n < 256) : '_' ∉ decimal n := by
  refine forall_below (n := 256) (P := fun n => '_' ∉ decimal n) ?_ n h
  decide +kernel

theorem digits_lt {radix bound n m : ℕ} {s : Text} (hn : n < bound)
    (h : digits radix bound s n = some m) : m < bound := by
  induction s generalizing n with
  | nil =>
    cases h
    exact hn
  | cons c s ih =>
    unfold digits at h
    split at h
    · split at h
      next hlt => exact ih hlt h
      next => cases h
    · cases h

theorem digits_mono {radix bound bound' n m : ℕ} {s : Text} (hle : bound ≤ bound')
    (h : digits radix bound s n = some m) : digits radix bound' s n = some m := by
  induction s generalizing n with
  | nil => exact h
  | cons c s ih =>
    unfold digits at h ⊢
    split at h
    · split at h
      next hlt =>
        rw [if_pos (Nat.lt_of_lt_of_le hlt hle)]
        exact ih h
      next => cases h
    · cases h

theorem parse_mono {radix bound bound' m : ℕ} {s : Text} (hle : bound ≤ bound')
    (h : fromStrRadix radix bound s = some m) : fromStrRadix radix bound' s = some m := by
  unfold fromStrRadix at h ⊢
  split at h
  · cases h
  · cases h
  · exact digits_mono hle h
  · exact digits_mono hle h

theorem parse_lt {radix bound m : ℕ} {s : Text} (hbound : 0 < bound)
    (h : fromStrRadix radix bound s = some m) : m < bound := by
  unfold fromStrRadix at h
  split at h
  · cases h
  · cases h
  · exact digits_lt hbound h
  · exact digits_lt hbound h

/-- Digits of the radix, at least one, with or without a plus sign. -/
def Numeral (radix : ℕ) (s : Text) : Prop :=
  ∃ ds, (s = ds ∨ s = '+'::ds) ∧ ds ≠ [] ∧ ∀ c ∈ ds, (toDigit radix c).isSome = true

theorem digits_all {radix bound n m : ℕ} {s : Text} (h : digits radix bound s n = some m) :
    ∀ c ∈ s, (toDigit radix c).isSome = true := by
  induction s generalizing n with
  | nil => nofun
  | cons c s ih =>
    unfold digits at h
    split at h
    next d hd =>
      split at h
      next =>
        rintro x (_ | ⟨_, hx⟩)
        · rw [hd]
          rfl
        · exact ih h x hx
      next => cases h
    next => cases h

theorem parse_numeral {radix bound m : ℕ} {s : Text} (h : fromStrRadix radix bound s = some m) :
    Numeral radix s := by
  unfold fromStrRadix at h
  split at h
  next => cases h
  next => cases h
  next cs hone =>
    have hne : cs ≠ [] := fun hnil => hone (by rw [hnil])
    exact ⟨cs, .inr rfl, hne, digits_all h⟩
  next hempty _ _ =>
    exact ⟨s, .inl rfl, hempty, digits_all h⟩

def upperDigit (n : ℕ) : Char := Char.ofNat (if n < 10 then 48+n else 55+n)

/-- The number in a fixed number of hexadecimal digits. -/
def hex : ℕ → ℕ → Text
  | 0, _ => []
  | w+1, n => hex w (n/16) ++ [upperDigit (n%16)]

theorem toDigit_upper {n : ℕ} (h : n < 16) : toDigit 16 (upperDigit n) = some n := by
  refine forall_below (n := 16) (P := fun n => toDigit 16 (upperDigit n) = some n) ?_ n h
  decide

theorem mem_hex {w n : ℕ} {c : Char} (h : c ∈ hex w n) : ∃ d < 16, c = upperDigit d := by
  induction w generalizing n with
  | zero => cases h
  | succ w ih =>
    rcases List.mem_append.mp h with h | h
    · exact ih h
    · exact ⟨n%16, Nat.mod_lt _ (by decide), List.mem_singleton.mp h⟩

theorem notMem_hex {c : Char} (hc : toDigit 16 c = none) (w n : ℕ) : c ∉ hex w n := by
  intro h
  obtain ⟨d, hd, rfl⟩ := mem_hex h
  rw [toDigit_upper hd] at hc
  cases hc

theorem digits_append (radix bound : ℕ) (s t : Text) (n : ℕ) :
    digits radix bound (s ++ t) n = (digits radix bound s n).bind (digits radix bound t) := by
  induction s generalizing n with
  | nil => rfl
  | cons c s ih =>
    rw [List.cons_append, digits, digits]
    split
    · split
      · exact ih _
      · rfl
    · rfl

theorem digits_hex {bound w n m : ℕ} (hn : n < 16^w) (hm : m*16^w+n < bound) :
    digits 16 bound (hex w n) m = some (m*16^w+n) := by
  induction w generalizing n with
  | zero =>
    have hzero : n = 0 := by simpa using hn
    subst hzero
    simp [hex, digits]
  | succ w ih =>
    have hpow : 16^(w+1) = 16^w*16 := Nat.pow_succ 16 w
    have hdiv : n/16 < 16^w := by omega
    have hsplit : 16*(n/16)+n%16 = n := Nat.div_add_mod n 16
    have hmul : m*16^(w+1) = m*16^w*16 := by rw [hpow, Nat.mul_assoc]
    have hlt : n%16 < 16 := Nat.mod_lt _ (by decide)
    rw [hex, digits_append, ih hdiv (by omega)]
    show digits 16 bound [upperDigit (n%16)] (m*16^w+n/16) = _
    rw [digits, toDigit_upper hlt]
    have hvalue : (m*16^w+n/16)*16+n%16 = m*16^(w+1)+n := by omega
    show (if (m*16^w+n/16)*16+n%16 < bound then _ else none) = _
    rw [hvalue, if_pos hm]
    rfl

theorem parse_plain {radix bound : ℕ} {s : Text} (hne : s ≠ []) (hplus : '+' ∉ s) :
    fromStrRadix radix bound s = digits radix bound s 0 := by
  unfold fromStrRadix
  split
  · exact absurd rfl hne
  · exact absurd List.mem_cons_self hplus
  · exact absurd List.mem_cons_self hplus
  · rfl

theorem parse_hex {w n : ℕ} (hw : 0 < w) (hn : n < 16^w) (hbound : n < 65536) :
    fromStrRadix 16 65536 (hex w n) = some n := by
  have hne : hex w n ≠ [] := by
    obtain ⟨k, rfl⟩ : ∃ k, w = k+1 := ⟨w-1, by omega⟩
    simp [hex]
  have hsmall : 0*16^w+n < 65536 := by omega
  have hdigits := digits_hex hn hsmall
  rw [parse_plain hne (notMem_hex (by decide) w n), hdigits, Nat.zero_mul, Nat.zero_add]

end UsbArmory.Library.Numerals
