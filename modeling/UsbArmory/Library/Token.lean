import Mathlib.Data.Finset.Card
import Mathlib.Tactic.Common

/-!
# Tokens that are always in exactly one place

A finite supply of tokens travels between places, one token at a time. The
placement invariant survives every such move, and a duplicate-free list of
tokens that misses one of them has room for it.
-/

set_option autoImplicit false

namespace UsbArmory.Library.Token

variable {K P : Type*}

/-- Tokens of the supply `D` are in exactly one place, others nowhere. -/
structure Placed (D : K → Prop) (At : K → P → Prop) : Prop where
  unique : ∀ k, D k → ∃! p, At k p
  supply : ∀ k p, At k p → D k

variable {D : K → Prop} {At At' : K → P → Prop}

theorem Placed.eq (h : Placed D At) {k : K} {p q : P} (hp : At k p) (hq : At k q) : p = q :=
  (h.unique k (h.supply k p hp)).unique hp hq

theorem Placed.congr (h : Placed D At) (he : ∀ k p, At' k p ↔ At k p) : Placed D At' := by
  have hAt : At' = At := by
    funext k p
    exact propext (he k p)
  rwa [hAt]

theorem Placed.move (h : Placed D At) {k : K} {p q : P} (hp : At k p)
    (he : ∀ j r, At' j r ↔ j = k ∧ r = q ∨ ¬(j = k ∧ r = p) ∧ At j r) : Placed D At' := by
  have hk : ∀ r, At' k r ↔ r = q := by
    intro r
    rw [he]
    constructor
    · rintro (⟨-, hr⟩ | ⟨hne, ha⟩)
      · exact hr
      · exact absurd ⟨rfl, h.eq ha hp⟩ hne
    · intro hr
      exact Or.inl ⟨rfl, hr⟩
  have hother : ∀ j, j ≠ k → ∀ r, At' j r ↔ At j r := by
    intro j hj r
    simp [he, hj]
  constructor
  · intro j hj
    by_cases hjk : j = k
    · subst j
      exact ⟨q, (hk q).mpr rfl, fun r hr => (hk r).mp hr⟩
    · simpa only [hother j hjk] using h.unique j hj
  · intro j r hr
    by_cases hjk : j = k
    · subst j
      exact h.supply k p hp
    · exact h.supply j r ((hother j hjk r).mp hr)

theorem length_lt_card {s : Finset K} {l : List K} (hl : l.Nodup)
    (hs : ∀ j ∈ l, j ∈ s) {k : K} (hk : k ∈ s) (hkl : k ∉ l) : l.length < s.card := by
  classical
  rw [← List.toFinset_card_of_nodup hl]
  apply Finset.card_lt_card
  refine ⟨fun j hj => hs j (List.mem_toFinset.mp hj), fun hsub => ?_⟩
  exact hkl (List.mem_toFinset.mp (hsub hk))

end UsbArmory.Library.Token
