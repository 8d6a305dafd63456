import UsbArmory.Usb.Rest
import UsbArmory.Usb.ResetSteps

/-!
# Calls that leave an IN endpoint at rest

Every call does but a write to that endpoint. The calls that leave it with its
descriptor next, where it is primed, are all of them.
-/

set_option autoImplicit false

namespace UsbArmory.Usb.RestCalls
open UsbArmory.Library.Bits UsbArmory.Usb.Descriptors
open UsbArmory.Usb.Controller UsbArmory.Usb.Bus UsbArmory.Usb.Endpoint UsbArmory.Usb.Effects
open UsbArmory.Usb.EndWrite UsbArmory.Usb.Write UsbArmory.Usb.Poll UsbArmory.Usb.Read
open UsbArmory.Usb.Configure UsbArmory.Usb.Invariant UsbArmory.Usb.Runs UsbArmory.Usb.ResetSteps
open UsbArmory.Usb.Rest

variable {s t : Usbd} {ep x : EndpointAddress}

theorem read_rest (hv : ep.isValid = true) (hne : ep ≠ x) (h : AtRest s ep) {buf : Lent}
    {hw : During} {r : Except UsbError (List UInt8)} (hgap : Unrenewed ep s (.read x buf hw))
    (hr : Bus.read s x buf hw = .ok (t, r)) : AtRest t ep :=
  h.congr ((still_rest hv h).read hv hne hgap rfl hr)

theorem startWrite_rest (hv : ep.isValid = true) (hne : ep ≠ x) (h : AtRest s ep)
    {bytes : List UInt8} {gap : List HwEvent} {r : Except UsbError ℕ}
    (hgap : Unrenewed ep s (.startWrite x bytes gap))
    (hc : Bus.startWrite s x bytes gap = .ok (t, r)) : AtRest t ep :=
  h.congr ((still_rest hv h).startWrite hv hne hgap rfl hc)

theorem allocated_valid {P : EndpointAddress → ℕ → View → Prop} (hG : Good P s) :
    ∀ x ∈ allocatedEps s, x.isValid = true := fun x hx =>
  hG.valid x ((isEpBeingUsed_iff s x).mpr ((mem_allocatedEps s x).mp hx))

theorem setDeviceAddress_rest {P : EndpointAddress → ℕ → View → Prop} (hG : Good P s)
    (hv : ep.isValid = true) (hin : ep.isOut = false) (h : AtRest s ep) {addr : BitVec 8}
    {gaps : EndpointAddress → List HwEvent}
    (hgap : Unrenewed ep s (.setDeviceAddress addr gaps)) :
    AtRest (Bus.setDeviceAddress s addr gaps) ep :=
  h.congr ((still_rest hv h).setDeviceAddress hv hin addr (allocated_valid hG) hgap rfl)

theorem fresh_poll (hG : Good Staged s) (hv : ep.isValid = true)
    (h : Fresh (view s ep)) {h₁ h₂ : List HwEvent} {r : PollResult}
    (hc : Bus.poll s h₁ h₂ = .ok (t, r)) : Fresh (view t ep) := by
  rcases poll_eq s h₁ h₂ with heq | heq <;> rw [heq] at hc
  · cases hc
    exact h
  · have hb := (still_fresh hv).atComplete h₁ h₂ h
    have hinner : (atComplete s h₁ h₂).inner = s.inner := (atComplete_frame s h₁ h₂).inner
    have heff := atComplete_effect hG.single h₁ h₂
    have hnoted : (atComplete s h₁ h₂).inner.epInComplete = none := by
      rw [hinner]
      exact hG.noted
    have hp := polled heff.single hnoted hc
    cases hdone : (atComplete s h₁ h₂).endptcomplete.getLsbD (endptBit ep) with
    | false =>
      rw [hp.view ep hv (Or.inr hdone)]
      exact hb
    | true =>
      have hgood := good_effect kept_staged hG heff hnoted
      intro hprime
      have hset : (view (atComplete s h₁ h₂) ep).prime = true := by
        unfold view at hprime ⊢
        rw [hp.registers.1] at hprime
        exact hprime
      exact absurd (complete_current hgood hv hdone) (hb hset)

theorem fresh_allocEp (h : Fresh (view s ep)) {dir : UsbDirection} {addr : Option EndpointAddress}
    {ty : EndpointType} {n : ℕ} {r : Except UsbError EndpointAddress}
    (hc : allocEp s dir addr ty n = .ok (t, r)) : Fresh (view t ep) := by
  rcases allocEp_ok hc with ⟨rfl, -⟩ | ⟨x, hx, -⟩
  · exact h
  · by_cases hep : ep = x
    · subst hep
      obtain ⟨d, rest, -, -, hview⟩ := allocated_view hx
      rw [hview]
      exact h
    · rw [allocated_other hx ep hep]
      exact h

theorem fresh_reset (hv : ep.isValid = true) (h : Fresh (view s ep)) {wait : List (List HwEvent)}
    (hr : Bus.reset s wait = .ok t) : Fresh (view t ep) := by
  obtain ⟨u, hu, rfl⟩ := reset_ok hr
  have hc : Fresh (view (cleared s) ep) := by
    rw [cleared_view]
    exact h
  have hwait := (still_fresh hv).waitFor hc hu
  rw [flushed_view]
  exact hwait

theorem fresh_call {l : Layout} {c : Call} {r : Response} (hG : Good Staged s) (ha : Allowed l c)
    (hv : ep.isValid = true) (hin : ep.isOut = false) (h : Fresh (view s ep))
    (hgap : Unrenewed ep s c) (hc : call s c = .ok (t, r)) : Fresh (view t ep) := by
  have hstill := still_fresh hv
  cases c with
  | allocEp dir addr ty n =>
    obtain ⟨p, hp, heq⟩ := map_ok hc
    cases heq
    exact fresh_allocEp h hp
  | enable =>
    cases hc
    exact h
  | setDeviceAddress addr gaps =>
    cases hc
    exact hstill.setDeviceAddress hv hin addr (allocated_valid hG) hgap h
  | reset wait =>
    obtain ⟨p, hp, heq⟩ := map_ok hc
    cases heq
    exact fresh_reset hv h hp
  | poll h₁ h₂ =>
    obtain ⟨p, hp, heq⟩ := map_ok hc
    cases heq
    exact fresh_poll hG hv h hp
  | read x buf hw =>
    obtain ⟨p, hp, heq⟩ := map_ok hc
    cases heq
    have hne : ep ≠ x := by
      rintro rfl
      cases hin.symm.trans ha.1
    exact hstill.read hv hne hgap h hp
  | startWrite x bytes gap =>
    obtain ⟨p, hp, heq⟩ := map_ok hc
    cases heq
    by_cases hep : ep = x
    · subst x
      exact fresh_startWrite hv hgap h hp
    · exact hstill.startWrite hv hep hgap h hp

end UsbArmory.Usb.RestCalls
