import Mathlib.Order.Monotone.Basic
import UsbArmory.Library.Binary

/-!
# Samples of a changing value

A program that looks at the world at the moments of a schedule, one after
another.
-/

set_option autoImplicit false

namespace UsbArmory.Library.Sampling
open UsbArmory.Library.Binary

variable {α β ε Moment : Type} [Preorder Moment]

/-- The moments of the samples. Nothing is said about the time between two of them. -/
structure Schedule (Moment : Type) [Preorder Moment] where
  moment : ℕ → Moment
  monotone : Monotone moment

/-- The state is the number of moments that are used up. -/
abbrev Sampler (ε α : Type) := StateT ℕ (Except (Stop ε)) α

def sample (schedule : Schedule Moment) (f : Moment → α) : Sampler ε α :=
  fun k => .ok (f (schedule.moment k), k+1)

theorem run_step {p : Sampler ε α} {f : α → Sampler ε β} {k l : ℕ} {a : α}
    (h : p.run k = .ok (a, l)) : (p >>= f).run k = (f a).run l := by
  rw [StateT.run_bind, h]
  rfl

theorem run_sample_bind (schedule : Schedule Moment) (f : Moment → α) (g : α → Sampler ε β)
    (k : ℕ) : (sample schedule f >>= g).run k = (g (f (schedule.moment k))).run (k+1) := rfl

theorem run_lift (x : Except (Stop ε) α) (k : ℕ) :
    (liftM x : Sampler ε α).run k = x.map (·, k) := by
  cases x <;> rfl

theorem steady [PartialOrder α] {f : Moment → α} {a b c : Moment} (hf : Monotone f)
    (hab : a ≤ b) (hbc : b ≤ c) (h : f a = f c) : f b = f a :=
  le_antisymm ((hf hbc).trans_eq h.symm) (hf hab)
end UsbArmory.Library.Sampling
