import Mathlib.Data.Set.Basic
import UsbArmory.Library.Trace

/-!
# Registers on a bus

Programs that read and write registers, over any device: what it answers may
depend on every access before. A register that nothing writes to keeps what was
stored there last.
-/

set_option autoImplicit false

namespace UsbArmory.Library.Registers
open UsbArmory.Library.Binary UsbArmory.Library.Trace

variable {ρ ν ε α β : Type}

inductive Access (ρ ν : Type) where
  | read (register : ρ) (value : ν)
  | write (register : ρ) (value : ν)
  deriving DecidableEq, Repr

abbrev Bus (ρ ν ε α : Type) := Traced (Access ρ ν) ε α

abbrev Device (ρ ν : Type) := List (Access ρ ν) → ρ → ν

def load (d : Device ρ ν) (r : ρ) : Bus ρ ν ε ν :=
  operation fun before => (.read r (d before r), .ok (d before r))

def store (r : ρ) (v : ν) : Bus ρ ν ε Unit := operation fun _ => (.write r v, .ok ())

def poll (d : Device ρ ν) (r : ρ) (done : ν → Bool) : ℕ → Bus ρ ν ε Unit
  | 0 => throw .endless
  | fuel+1 => do
    let v ← load d r
    if done v then pure () else poll d r done fuel

section Stored
variable [DecidableEq ρ]

/-- What was written to the register last, or what it held before. -/
def stored (r : ρ) (v : ν) : List (Access ρ ν) → ν
  | [] => v
  | .read _ _::acts => stored r v acts
  | .write r' v'::acts => stored r (if r' = r then v' else v) acts

theorem stored_append (r : ρ) (v : ν) (acts rest : List (Access ρ ν)) :
    stored r v (acts ++ rest) = stored r (stored r v acts) rest := by
  induction acts generalizing v with
  | nil => rfl
  | cons act acts ih =>
    cases act with
    | read r' v' => exact ih v
    | write r' v' => exact ih _

end Stored

def Spares (R : Set ρ) (acts : List (Access ρ ν)) : Prop := ∀ r ∈ R, ∀ v, Access.write r v ∉ acts

/-- However it ends, nothing has been written to these registers. -/
def Sparing (R : Set ρ) (x : Bus ρ ν ε α) : Prop := Does x fun acts _ => Spares R acts

variable {R : Set ρ} {r : ρ} {x : Bus ρ ν ε α} {f : α → Bus ρ ν ε β} {acts rest : List (Access ρ ν)}

theorem spares_append (h : Spares R acts) (hrest : Spares R rest) : Spares R (acts ++ rest) := by
  intro r hr v hmem
  rcases List.mem_append.mp hmem with hmem | hmem
  · exact h r hr v hmem
  · exact hrest r hr v hmem

theorem spares_prefix {acts : List (Access ρ ν)} (h : Spares R (acts ++ rest)) : Spares R acts :=
  fun r hr v hmem => h r hr v (List.mem_append_left _ hmem)

theorem stored_spares [DecidableEq ρ] (h : Spares R acts) (hr : r ∈ R) (v : ν) :
    stored r v acts = v := by
  induction acts with
  | nil => rfl
  | cons act acts ih =>
    have hacts : Spares R acts := fun r hr v hmem => h r hr v (List.mem_cons_of_mem _ hmem)
    cases act with
    | read r' v' => exact ih hacts
    | write r' v' =>
      have hne : r' ≠ r := by
        rintro rfl
        exact h r' hr v' List.mem_cons_self
      show stored r (if r' = r then v' else v) acts = v
      rw [if_neg hne]
      exact ih hacts

theorem sparing_pure (a : α) : Sparing R (pure a : Bus ρ ν ε α) := does_pure nofun

theorem sparing_throw (stop : Stop ε) : Sparing R (throw stop : Bus ρ ν ε α) := does_throw nofun

theorem sparing_load (d : Device ρ ν) (r : ρ) : Sparing R (load d r : Bus ρ ν ε ν) := by
  refine does_operation fun before r' _ v hmem => ?_
  cases List.mem_singleton.mp hmem

theorem sparing_store (h : r ∉ R) (v : ν) : Sparing R (store r v : Bus ρ ν ε Unit) := by
  refine does_operation fun before r' hr' v' hmem => ?_
  cases List.mem_singleton.mp hmem
  exact h hr'

theorem sparing_bind (hx : Sparing R x) (hf : ∀ a, Sparing R (f a)) : Sparing R (x >>= f) :=
  does_bind hx (fun _ _ h => h) fun a _ h => (hf a).imp fun _ _ hrest => spares_append h hrest

theorem sparing_poll (d : Device ρ ν) (r : ρ) (done : ν → Bool) (fuel : ℕ) :
    Sparing R (poll d r done fuel : Bus ρ ν ε Unit) := by
  induction fuel with
  | zero => exact sparing_throw _
  | succ fuel ih =>
    refine sparing_bind (sparing_load d r) fun v => ?_
    split
    · exact sparing_pure ()
    · exact ih

theorem sparing_forM {as : List β} {g : β → Bus ρ ν ε Unit} (h : ∀ a, Sparing R (g a)) :
    Sparing R (as.forM g) := by
  induction as with
  | nil => exact sparing_pure ()
  | cons a as ih => exact sparing_bind (h a) fun _ => ih

section Leaves
variable [DecidableEq ρ]

def Leaves (r : ρ) (v : ν) (x : Bus ρ ν ε α) : Prop :=
  Does x fun acts result => ∀ a, result = .ok a → ∀ first, stored r first acts = v

theorem leaves_store (r : ρ) (v : ν) : Leaves r v (store r v : Bus ρ ν ε Unit) :=
  does_operation fun _ _ _ _ => if_pos rfl

theorem leaves_after {v : ν} (hx : Sparing ∅ x) (hf : ∀ a, Leaves r v (f a)) :
    Leaves r v (x >>= f) := by
  refine does_bind hx (fun _ _ _ _ h => nomatch h) fun a acts _ => (hf a).imp ?_
  intro rest result hrest b hb first
  rw [stored_append]
  exact hrest b hb _

theorem leaves_before {v : ν} (hx : Leaves r v x) (hf : ∀ a, Sparing {r} (f a)) :
    Leaves r v (x >>= f) := by
  refine does_bind hx (fun _ _ _ _ h => nomatch h) fun a acts hacts => (hf a).imp ?_
  intro rest result hrest b hb first
  rw [stored_append, hacts a rfl first]
  exact stored_spares hrest rfl v

end Leaves

theorem stored_of_leaves [DecidableEq ρ] {v first : ν} {before : List (Access ρ ν)} {a : α}
    (h : Leaves r v x) (hrun : (perform x before).1 = .ok a) :
    stored r first (perform x before).2 = v := by
  obtain ⟨acts, hacts, hleaves⟩ := h before
  rw [hacts, stored_append]
  exact hleaves a hrun _

theorem spares_on_the_way {before : List (Access ρ ν)} (h : Sparing R x) (hacts : before <+: acts)
    (hend : acts <+: (perform x before).2) : ∃ rest, acts = before ++ rest ∧ Spares R rest := by
  obtain ⟨all, hall, hspares⟩ := h before
  obtain ⟨rest, rfl⟩ := hacts
  obtain ⟨more, hmore⟩ := hend
  rw [hall, List.append_assoc] at hmore
  rw [← List.append_cancel_left hmore] at hspares
  exact ⟨rest, rfl, spares_prefix hspares⟩

end UsbArmory.Library.Registers
