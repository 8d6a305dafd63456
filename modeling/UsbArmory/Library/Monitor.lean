import UsbArmory.Library.Trace

/-!
# Monitors

A monitor looks at the operations of a computation one after another and never
changes them. Conditions on its state before and behind a computation combine
as preconditions and postconditions do; one more condition says what it has seen
where the computation stops. A computation of one vocabulary also runs within
another one, on surroundings that depend on all that has been done before.
-/

set_option autoImplicit false

namespace UsbArmory.Library.Monitor
open UsbArmory.Library.Binary UsbArmory.Library.Trace

variable {op op' ε ε' σ α β : Type}

/-- From `P`: `Q` where the computation returns, and `E` where it stops. -/
def Meets (track : σ → op → σ) (P : σ → Prop) (x : Traced op ε α) (Q : α → σ → Prop)
    (E : σ → Prop) : Prop :=
  ∀ st, P st → Does x fun ops result =>
    (∀ a, result = .ok a → Q a (ops.foldl track st)) ∧
    (∀ stop, result = .error stop → E (ops.foldl track st))

variable {track : σ → op → σ} {P E : σ → Prop} {Q : α → σ → Prop}
  {R : β → σ → Prop} {x : Traced op ε α} {f : α → Traced op ε β}

theorem meets_pure {a : α} (h : ∀ st, P st → Q a st) :
    Meets track P (pure a : Traced op ε α) Q E := by
  intro st hst
  refine does_pure ⟨?_, nofun⟩
  rintro b ⟨⟩
  exact h st hst

theorem meets_throw {stop : Stop ε} (h : ∀ st, P st → E st) :
    Meets track P (throw stop : Traced op ε α) Q E :=
  fun st hst => does_throw ⟨nofun, fun _ _ => h st hst⟩

theorem meets_operation {g : List op → op × Except (Stop ε) α}
    (hok : ∀ before a, (g before).2 = .ok a → ∀ st, P st → Q a (track st (g before).1))
    (herror : ∀ before stop, (g before).2 = .error stop → ∀ st, P st → E (track st (g before).1)) :
    Meets track P (operation g) Q E :=
  fun st hst => does_operation fun before =>
    ⟨fun a ha => hok before a ha st hst, fun stop hstop => herror before stop hstop st hst⟩

theorem meets_bind (hx : Meets track P x Q E) (hf : ∀ a, Meets track (Q a) (f a) R E) :
    Meets track P (x >>= f) R E := by
  intro st hst
  refine does_bind (hx st hst) (fun ops stop h => ⟨nofun, ?_⟩) fun a ops h => ?_
  · intro _ _
    exact h.2 stop rfl
  · refine (hf a _ (h.1 a rfl)).imp fun rest result hrest => ?_
    rw [List.foldl_append]
    exact hrest

theorem meets_fact {p : Prop} (h : p → Meets track P x Q E) :
    Meets track (fun st => p ∧ P st) x Q E :=
  fun st hst => h hst.1 st hst.2

theorem meets_ensure {p : Prop} [Decidable p] {message : String} {S : Unit → σ → Prop}
    (hok : ∀ st, P st → p → S () st) (herror : ∀ st, P st → E st) :
    Meets track P (ensure p message : Traced op ε Unit) S E := by
  by_cases hp : p
  · rw [show (ensure p message : Traced op ε Unit) = pure () from if_pos hp]
    exact meets_pure fun st hst => hok st hst hp
  · rw [show (ensure p message : Traced op ε Unit) = throw (.panic message) from if_neg hp]
    exact meets_throw herror

/-- The run of a computation of other operations, on surroundings that depend on the run so far. -/
def within (f : op → op') (x : List op' → Traced op ε α) : Traced op' ε α :=
  ExceptT.mk fun before =>
    ((perform (x before) []).1, before ++ (perform (x before) []).2.map f)

theorem meets_within {track : σ → op' → σ} {f : op → op'} {x : List op' → Traced op ε α}
    (h : ∀ before, Meets (fun st o => track st (f o)) P (x before) Q E) :
    Meets track P (within f x) Q E := by
  intro st hst before
  obtain ⟨ops, hops, hresult⟩ := h before st hst []
  refine ⟨ops.map f, ?_, ?_⟩
  · show before ++ (perform (x before) []).2.map f = _
    rw [hops, List.nil_append]
  · show _ ∧ _
    rw [List.foldl_map]
    exact hresult

def mapStop (g : Stop ε → Stop ε') (x : Traced op ε α) : Traced op ε' α :=
  ExceptT.mk fun before => ((perform x before).1.mapError g, (perform x before).2)

theorem meets_mapStop {g : Stop ε → Stop ε'} (h : Meets track P x Q E) :
    Meets track P (mapStop g x) Q E := by
  intro st hst before
  obtain ⟨ops, hops, hok, herror⟩ := h st hst before
  refine ⟨ops, hops, fun a ha => hok a ?_, fun stop hstop => ?_⟩
  · have hmapped : (perform x before).1.mapError g = .ok a := ha
    cases hx : (perform x before).1 with
    | ok b =>
      rw [hx] at hmapped
      cases hmapped
      rfl
    | error stop =>
      rw [hx] at hmapped
      cases hmapped
  · have hmapped : (perform x before).1.mapError g = .error stop := hstop
    cases hx : (perform x before).1 with
    | ok b =>
      rw [hx] at hmapped
      cases hmapped
    | error other => exact herror other hx

end UsbArmory.Library.Monitor
