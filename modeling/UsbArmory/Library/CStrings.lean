import Mathlib.Algebra.Ring.Nat
import Mathlib.Data.List.Basic
import Mathlib.Tactic.Common

/-!
# C strings

Bytes in an address space of 32 bits of which a part can be accessed, and the
strings that end with a zero.
-/

set_option autoImplicit false

namespace UsbArmory.Library.CStrings

/-- The bytes that can be accessed, all of them below `2^32`. -/
structure Memory where
  bytes : ℕ → Option UInt8
  bounded : ∀ a b, bytes a = some b → a < 2^32

def Memory.block (base : ℕ) (bs : List UInt8) (h : base+bs.length ≤ 2^32) : Memory where
  bytes a := if base ≤ a then bs[a-base]? else none
  bounded := by
    intro a b hb
    split at hb
    next hle =>
      obtain ⟨hlt, -⟩ := List.getElem?_eq_some_iff.mp hb
      omega
    next => cases hb

def Holds (m : Memory) (a : ℕ) (bs : List UInt8) : Prop :=
  ∀ i, i < bs.length → m.bytes (a+i) = bs[i]?

def Room (m : Memory) (a n : ℕ) : Prop := ∀ i, i < n → (m.bytes (a+i)).isSome = true

/-- Two ranges of bytes that do not overlap. -/
def Apart (a j b k : ℕ) : Prop := a+j ≤ b ∨ b+k ≤ a

def Same (m m' : Memory) (a n : ℕ) : Prop := ∀ b, b < a ∨ a+n ≤ b → m'.bytes b = m.bytes b

def CString (m : Memory) (a : ℕ) (s : List UInt8) : Prop := 0 ∉ s ∧ Holds m a (s ++ [0])

variable {m m' : Memory} {a n k : ℕ} {s t : List UInt8}

theorem room_le (h : Room m a n) (hle : k ≤ n) : Room m a k :=
  fun i hi => h i (Nat.lt_of_lt_of_le hi hle)

theorem room_of_holds (h : Holds m a s) : Room m a s.length := by
  intro i hi
  rw [h i hi, List.getElem?_eq_getElem hi]
  rfl

theorem string_byte (h : CString m a s) {i : ℕ} (hi : i < s.length) :
    ∃ c, c ≠ 0 ∧ s[i]? = some c ∧ m.bytes (a+i) = some c := by
  obtain ⟨hzero, hholds⟩ := h
  have hbyte := hholds i (by rw [List.length_append]; exact Nat.lt_add_right _ hi)
  rw [List.getElem?_append_left hi, List.getElem?_eq_getElem hi] at hbyte
  refine ⟨s[i], ?_, List.getElem?_eq_getElem hi, hbyte⟩
  intro hc
  exact hzero (hc ▸ List.getElem_mem hi)

theorem string_end (h : CString m a s) : m.bytes (a+s.length) = some 0 := by
  have hbyte := h.2 s.length (by rw [List.length_append]; exact Nat.lt_succ_self _)
  rw [List.getElem?_append_right (Nat.le_refl _), Nat.sub_self] at hbyte
  exact hbyte

theorem string_fits (h : CString m a s) : a+s.length < 2^32 := m.bounded _ _ (string_end h)

theorem string_room (h : CString m a s) : Room m a (s.length+1) := by
  have hroom := room_of_holds h.2
  rw [List.length_append] at hroom
  exact hroom

theorem string_of_bytes (hzero : 0 ∉ s) (hs : ∀ i, i < s.length → m.bytes (a+i) = s[i]?)
    (hend : m.bytes (a+s.length) = some 0) : CString m a s := by
  refine ⟨hzero, fun i hi => ?_⟩
  rw [List.length_append] at hi
  rcases Nat.lt_succ_iff_lt_or_eq.mp hi with hlt | rfl
  · rw [List.getElem?_append_left hlt]
    exact hs i hlt
  · rw [List.getElem?_append_right (Nat.le_refl _), Nat.sub_self]
    exact hend

theorem string_unique (hs : CString m a s) (ht : CString m a t) : s = t := by
  have hlen : ∀ {s t : List UInt8}, CString m a s → CString m a t → s.length ≤ t.length := by
    intro s t hs ht
    by_contra hlt
    obtain ⟨c, hc, -, hbyte⟩ := string_byte hs (Nat.lt_of_not_le hlt)
    exact hc (Option.some.inj (hbyte.symm.trans (string_end ht)))
  have heq : s.length = t.length := Nat.le_antisymm (hlen hs ht) (hlen ht hs)
  refine List.ext_getElem? fun i => ?_
  by_cases hi : i < s.length
  · obtain ⟨c, -, hc, hbyte⟩ := string_byte hs hi
    obtain ⟨d, -, hd, hbyte'⟩ := string_byte ht (heq ▸ hi)
    rw [hc, hd, ← hbyte, ← hbyte']
  · rw [List.getElem?_eq_none (Nat.le_of_not_lt hi),
      List.getElem?_eq_none (heq ▸ Nat.le_of_not_lt hi)]

end UsbArmory.Library.CStrings
