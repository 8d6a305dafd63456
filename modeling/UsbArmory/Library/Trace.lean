import UsbArmory.Library.Binary

/-!
# Computations that leave a trace

A computation performs operations, one after another, and keeps what it has
performed where it fails. A condition on the operations and the result holds
of a sequence if it holds where the first part stops and is carried on by the
second.
-/

set_option autoImplicit false

namespace UsbArmory.Library.Trace
open UsbArmory.Library.Binary

variable {op ε α β : Type}

/-- The state is what has been performed before. -/
abbrev Traced (op ε α : Type) := ExceptT (Stop ε) (StateM (List op)) α

def perform (x : Traced op ε α) (before : List op) : Except (Stop ε) α × List op :=
  StateT.run (ExceptT.run x) before

/-- One operation, with the answer that the surroundings give at this point. -/
def operation (f : List op → op × Except (Stop ε) α) : Traced op ε α :=
  ExceptT.mk fun before => ((f before).2, before ++ [(f before).1])

/-- Every run performs some operations that end as the condition says. -/
def Does (x : Traced op ε α) (Q : List op → Except (Stop ε) α → Prop) : Prop :=
  ∀ before, ∃ ops, (perform x before).2 = before ++ ops ∧ Q ops (perform x before).1

variable {x : Traced op ε α} {f : α → Traced op ε β}
variable {Q Q' : List op → Except (Stop ε) α → Prop} {R : List op → Except (Stop ε) β → Prop}

theorem perform_bind (x : Traced op ε α) (f : α → Traced op ε β) (before : List op) :
    perform (x >>= f) before = match perform x before with
      | (.ok a, after) => perform (f a) after
      | (.error stop, after) => (.error stop, after) := by
  rcases hx : perform x before with ⟨r, after⟩
  have hrun : (ExceptT.run x).run before = (r, after) := hx
  show StateT.run (ExceptT.run (x >>= f)) before = _
  rw [ExceptT.run_bind, StateT.run_bind, hrun]
  cases r <;> rfl

theorem perform_bind_ok {before after : List op} {a : α} (h : perform x before = (.ok a, after)) :
    perform (x >>= f) before = perform (f a) after := by
  rw [perform_bind, h]

theorem perform_bind_error {before after : List op} {stop : Stop ε}
    (h : perform x before = (.error stop, after)) :
    perform (x >>= f) before = (.error stop, after) := by
  rw [perform_bind, h]

theorem perform_map {g : α → β} (x : Traced op ε α) (before : List op) :
    perform (g <$> x) before = ((perform x before).1.map g, (perform x before).2) := by
  rw [map_eq_pure_bind, perform_bind]
  rcases perform x before with ⟨stop | a, after⟩ <;> rfl

theorem Does.imp (h : Does x Q) (hq : ∀ ops r, Q ops r → Q' ops r) : Does x Q' := by
  intro before
  obtain ⟨ops, hops, hr⟩ := h before
  exact ⟨ops, hops, hq _ _ hr⟩

theorem does_pure {a : α} (h : Q [] (.ok a)) : Does (pure a : Traced op ε α) Q :=
  fun before => ⟨[], (List.append_nil before).symm, h⟩

theorem does_throw {stop : Stop ε} (h : Q [] (.error stop)) :
    Does (throw stop : Traced op ε α) Q :=
  fun before => ⟨[], (List.append_nil before).symm, h⟩

theorem does_operation {g : List op → op × Except (Stop ε) α}
    (h : ∀ before, Q [(g before).1] (g before).2) : Does (operation g) Q :=
  fun before => ⟨_, rfl, h before⟩

theorem does_bind (hx : Does x Q) (hstop : ∀ ops stop, Q ops (.error stop) → R ops (.error stop))
    (hf : ∀ a ops, Q ops (.ok a) → Does (f a) fun rest r => R (ops ++ rest) r) :
    Does (x >>= f) R := by
  intro before
  obtain ⟨ops, hops, hq⟩ := hx before
  rw [perform_bind]
  rcases hx' : perform x before with ⟨stop | a, after⟩
  · rw [hx'] at hops hq
    exact ⟨ops, hops, hstop ops stop hq⟩
  · rw [hx'] at hops hq
    obtain rfl : after = before ++ ops := hops
    obtain ⟨rest, hrest, hr⟩ := hf a ops hq (before ++ ops)
    exact ⟨ops ++ rest, hrest.trans (List.append_assoc _ _ _), hr⟩

theorem does_ensure {p : Prop} [Decidable p] {message : String} {g : Unit → Traced op ε β}
    (hp : p) (h : Does (g ()) R) : Does ((ensure p message : Traced op ε Unit) >>= g) R := by
  have hpure : (ensure p message : Traced op ε Unit) = pure () := if_pos hp
  rw [hpure, pure_bind]
  exact h

/-- The run behind these operations returns neither a value nor an error. -/
def Crashes (x : Traced op ε α) (before : List op) : Prop :=
  ∃ stop, (perform x before).1 = .error stop ∧ ∀ e, stop ≠ .error e

/-- A sequence crashes in its first part, or in the second behind what the first has performed. -/
theorem crashes_bind (x : Traced op ε α) (f : α → Traced op ε β) (before : List op) :
    Crashes (x >>= f) before ↔ Crashes x before ∨
      ∃ a after, perform x before = (.ok a, after) ∧ Crashes (f a) after := by
  rw [Crashes, perform_bind, Crashes]
  rcases perform x before with ⟨stop | a, after⟩
  · refine ⟨?_, ?_⟩
    · rintro ⟨other, hstop, hcrash⟩
      exact .inl ⟨other, congrArg Except.error (Except.error.inj hstop), hcrash⟩
    · rintro (⟨other, hstop, hcrash⟩ | ⟨b, later, heq, -⟩)
      · exact ⟨other, congrArg Except.error (Except.error.inj hstop), hcrash⟩
      · cases heq
  · refine ⟨fun hcrash => .inr ⟨a, after, rfl, hcrash⟩, ?_⟩
    rintro (⟨stop, hstop, -⟩ | ⟨b, later, heq, hcrash⟩)
    · cases hstop
    · cases heq
      exact hcrash

@[simp] theorem not_crashes_pure (a : α) (before : List op) :
    ¬Crashes (pure a : Traced op ε α) before := by
  rintro ⟨stop, hpure, -⟩
  cases hpure

theorem not_crashes_error {before : List op} {e : ε}
    (h : (perform x before).1 = .error (.error e)) : ¬Crashes x before := by
  rintro ⟨stop, hstop, hcrash⟩
  rw [h] at hstop
  exact hcrash e (Except.error.inj hstop).symm

@[simp] theorem not_crashes_throw (e : ε) (before : List op) :
    ¬Crashes (throw (.error e) : Traced op ε α) before := not_crashes_error rfl

theorem crashes_panic {before : List op} {message : String}
    (h : (perform x before).1 = .error (.panic message)) : Crashes x before := by
  refine ⟨_, h, ?_⟩
  intro e heq
  cases heq

theorem crashes_bind_ok {before after : List op} {a : α}
    (h : perform x before = (.ok a, after)) :
    Crashes (x >>= f) before ↔ Crashes (f a) after := by
  rw [Crashes, perform_bind_ok h, Crashes]

theorem not_crashes_bind_error {before : List op} {e : ε}
    (h : (perform x before).1 = .error (.error e)) : ¬Crashes (x >>= f) before := by
  apply not_crashes_error
  rw [perform_bind]
  rcases hx : perform x before with ⟨r, after⟩
  rw [hx] at h
  rw [show r = .error (.error e) from h]

theorem crashes_ensure_bind {p : Prop} [Decidable p] (message : String)
    (g : Unit → Traced op ε β) (before : List op) :
    Crashes ((ensure p message : Traced op ε Unit) >>= g) before ↔ (p → Crashes (g ()) before) := by
  by_cases hp : p
  · have hpure : (ensure p message : Traced op ε Unit) = pure () := if_pos hp
    rw [hpure, pure_bind]
    exact ⟨fun h _ => h, fun h => h hp⟩
  · have hthrow : (ensure p message : Traced op ε Unit) = throw (.panic message) := if_neg hp
    rw [hthrow, crashes_bind]
    exact ⟨fun _ h => absurd h hp, fun _ => .inl (crashes_panic rfl)⟩

end UsbArmory.Library.Trace
