import Mathlib.Logic.Function.Basic
import Mathlib.Tactic.Common

/-!
# Status flags that stay set until they are cleared

A status register keeps a flag set from the first event that raises it to the
write that clears it. Beside each flag stand the parties that raised it since,
which the register itself does not tell.
-/

set_option autoImplicit false

namespace UsbArmory.Library.Latch

abbrev Latches (F O : Type*) := F → List O

variable {F O : Type*}

def isSet (l : Latches F O) (f : F) : Bool := !(l f).isEmpty

def clear (l : Latches F O) (mask : F → Bool) : Latches F O := fun f => if mask f then [] else l f

/-- Nobody but `o` raised the flag. -/
def Owned (l : Latches F O) (o : O) (f : F) : Prop := ∀ p ∈ l f, p = o

def Absent (l : Latches F O) (o : O) : Prop := ∀ f, o ∉ l f

/-- The flags that are set because of `o` lie in the mask. -/
def Within (l : Latches F O) (o : O) (mask : F → Bool) : Prop := ∀ f, o ∈ l f → mask f = true

variable {l : Latches F O} {o p : O} {f g : F} {mask : F → Bool}

theorem isSet_eq_false : isSet l f = false ↔ l f = [] := by
  rw [isSet, Bool.not_eq_false', List.isEmpty_iff]

theorem isSet_iff : isSet l f = true ↔ l f ≠ [] := by
  rw [Ne, ← isSet_eq_false, Bool.not_eq_false]

theorem owned_nil (h : l f = []) : Owned l o f := by
  intro p hp
  rw [h] at hp
  cases hp

theorem owned_mem (h : Owned l o f) (hset : isSet l f = true) : o ∈ l f := by
  obtain ⟨p, hp⟩ := List.exists_mem_of_ne_nil _ (isSet_iff.mp hset)
  rw [← h p hp]
  exact hp

theorem owned_absent (h : Owned l o f) (habs : o ∉ l f) : l f = [] := by
  rw [← isSet_eq_false, ← Bool.not_eq_true]
  exact fun hset => habs (owned_mem h hset)

theorem clear_masked (l : Latches F O) (h : mask f = true) : clear l mask f = [] := if_pos h

theorem clear_subset (l : Latches F O) (mask : F → Bool) (h : p ∈ clear l mask f) : p ∈ l f := by
  rw [clear] at h
  split at h
  · cases h
  · exact h

theorem clear_nil (mask : F → Bool) (h : l f = []) : clear l mask f = [] := by
  rw [clear, h, ite_self]

theorem owned_clear (mask : F → Bool) (h : Owned l o f) : Owned (clear l mask) o f :=
  fun p hp => h p (clear_subset l mask hp)

theorem absent_clear (h : Within l o mask) : Absent (clear l mask) o := by
  intro f hin
  have hmask : mask f = true := h f (clear_subset l mask hin)
  rw [clear_masked l hmask] at hin
  cases hin

section Raise

variable [DecidableEq F]

def raise (l : Latches F O) (f : F) (o : O) : Latches F O := Function.update l f (o::l f)

theorem mem_raise (h : p ∈ raise l f o g) : p ∈ l g ∨ (g = f ∧ p = o) := by
  by_cases hg : g = f
  · subst hg
    rw [raise, Function.update_self] at h
    exact (List.mem_cons.mp h).symm.imp_right fun hp => ⟨rfl, hp⟩
  · rw [raise, Function.update_of_ne hg] at h
    exact .inl h

theorem raise_of_ne (h : g ≠ f) : raise l f o g = l g := Function.update_of_ne h _ _

theorem owned_raise (h : Owned l o g) : Owned (raise l f o) o g :=
  fun p hp => (mem_raise hp).elim (h p) And.right

end Raise

end UsbArmory.Library.Latch
