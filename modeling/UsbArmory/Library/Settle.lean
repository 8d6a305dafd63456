import UsbArmory.Library.Binary

/-!
# Results that settle

A result settles if it is a value or an error. Where the rest of a
computation is a panic, one condition on its inputs says which of them it is,
and the conditions of two computations in a row combine.
-/

set_option autoImplicit false

namespace UsbArmory.Library.Settle
open UsbArmory.Library.Binary

variable {α β ε δ τ : Type} {P P' : Prop} {Q Q' : α → Prop} {R : α → Prop} {S : β → Prop}
variable {x : Except (Stop ε) α}

inductive Settled (Q : α → Prop) : Except (Stop ε) α → Prop where
  | ok {a : α} (h : Q a) : Settled Q (.ok a)
  | error (e : ε) : Settled Q (.error (.error e))

/-- Settled where `P` holds, and a panic elsewhere. -/
inductive Ends (P : Prop) (Q : α → Prop) : Except (Stop ε) α → Prop where
  | ok {a : α} (hp : P) (h : Q a) : Ends P Q (.ok a)
  | error (e : ε) (hp : P) : Ends P Q (.error (.error e))
  | panic (message : String) (hp : ¬P) : Ends P Q (.error (.panic message))

theorem Ends.settled_iff (h : Ends P Q x) : Settled Q x ↔ P := by
  cases h with
  | ok hp hq => exact ⟨fun _ => hp, fun _ => .ok hq⟩
  | error e hp => exact ⟨fun _ => hp, fun _ => .error e⟩
  | panic message hp => exact ⟨nofun, fun h => absurd h hp⟩

theorem Ends.congr (h : Ends P Q x) (hp : P ↔ P') (hq : ∀ a, x = .ok a → Q a → Q' a) :
    Ends P' Q' x := by
  cases h with
  | ok hp' hq' => exact .ok (hp.mp hp') (hq _ rfl hq')
  | error e hp' => exact .error e (hp.mp hp')
  | panic message hp' => exact .panic message fun h => hp' (hp.mpr h)

theorem Ends.bind {f : α → Except (Stop ε) β} (h : Ends P Q x)
    (hf : ∀ a, x = .ok a → Q a → Ends (R a) S (f a)) :
    Ends (P ∧ ∀ a, x = .ok a → R a) S (x >>= f) := by
  cases h with
  | ok hp hq =>
    refine (hf _ rfl hq).congr ⟨fun hr => ⟨hp, ?_⟩, fun h => h.2 _ rfl⟩ fun _ _ => id
    rintro _ ⟨⟩
    exact hr
  | error e hp => exact .error e ⟨hp, nofun⟩
  | panic message hp => exact .panic message fun h => hp h.1

def Tame (p : Reader τ α) : Prop := ∀ input, Ends True (fun _ => True) (p.run input)

theorem tame_pure (a : α) : Tame (pure a : Reader τ α) := fun _ => .ok trivial trivial

theorem tame_bind {p : Reader τ α} {f : α → Reader τ β} (hp : Tame p) (hf : ∀ a, Tame (f a)) :
    Tame (p >>= f) := by
  intro input
  rw [StateT.run_bind]
  have hbind := (hp input).bind fun r _ _ => hf r.1 r.2
  exact hbind.congr ⟨fun _ => trivial, fun _ => ⟨trivial, fun _ _ => trivial⟩⟩ fun _ _ => id

theorem tame_tagBytes (bs : ByteString) : Tame (tagBytes bs) := by
  intro input
  show Ends _ _ (if bs.isPrefixOf input then _ else _)
  split
  · exact .ok trivial trivial
  · exact .error () trivial

theorem tame_alt {p q : Parser α} (hp : Tame p) (hq : Tame q) : Tame (alt p q) := by
  intro input
  show Ends _ _ (alt p q input)
  unfold alt
  have h := hp input
  generalize p.run input = r at h
  cases h with
  | ok hp h => exact .ok trivial trivial
  | error e hp => exact hq input
  | panic message hp => exact absurd trivial hp

theorem tame_leU32 : Tame leU32 := by
  intro input
  match input with
  | [] | [_] | [_, _] | [_, _, _] => exact .error () trivial
  | b0::b1::b2::b3::rest => exact .ok trivial trivial

end UsbArmory.Library.Settle
