import UsbArmory.Usb.ResetSteps

/-!
# The packet sizes of the endpoints

Every queue head has a packet size that `Caps::new` accepts, so a token for a
packet can always be made.
-/

set_option autoImplicit false

namespace UsbArmory.Usb.PacketSize
open UsbArmory.Library.Run UsbArmory.Usb.Descriptors UsbArmory.Usb.Controller UsbArmory.Usb.Bus
open UsbArmory.Usb.Endpoint UsbArmory.Usb.Effects UsbArmory.Usb.Write UsbArmory.Usb.Poll
open UsbArmory.Usb.Read UsbArmory.Usb.ReadFrame UsbArmory.Usb.Configure UsbArmory.Usb.Invariant
open UsbArmory.Usb.Runs UsbArmory.Usb.ResetSteps

variable {s t : Usbd} {ep : EndpointAddress} {l : Layout}

/-- The packet sizes are those that `Caps::new` accepts. -/
def Narrow (s : Usbd) : Prop := ∀ q, (s.dqhs q).getMaxPacketSize ≤ 0x400

theorem narrow_congr (h : Narrow s) (hc : ∀ q, (t.dqhs q).caps = (s.dqhs q).caps) : Narrow t := by
  intro q
  have hq := h q
  unfold DQH.getMaxPacketSize at hq ⊢
  rw [hc]
  exact hq

theorem narrow_frame (h : Narrow s) (hf : Frame s t) : Narrow t :=
  narrow_congr h fun q => (hf.dqh q).1

theorem narrow_allocated (h : Narrow s) (ha : Allocated s ep t) : Narrow t := by
  obtain ⟨-, -, d, rest, caps, b64s, b512s, addr, dtd, -, ⟨n, hcaps⟩, -, heq⟩ := ha
  intro q
  by_cases hq : q = epaddr2dqhidx ep
  · have hsize : (t.dqhs q).getMaxPacketSize = n := by
      rw [heq, hq]
      unfold DQH.getMaxPacketSize
      simp only [Function.update_self]
      exact getMaxPacketSize_capsNew n true caps hcaps
    rw [hsize]
    unfold capsNew at hcaps
    split at hcaps
    next hn => exact hn
    next => cases hcaps
  · rw [heq]
    simp only [Function.update_of_ne hq]
    exact h q

theorem narrow_poll (hs : Sane s) (h : Narrow s) {h₁ h₂ : List HwEvent} {r : PollResult}
    (hc : Bus.poll s h₁ h₂ = .ok (t, r)) : Narrow t := by
  have hat : Narrow (atComplete s h₁ h₂) := narrow_frame h (atComplete_frame s h₁ h₂)
  rcases poll_eq s h₁ h₂ with heq | heq <;> rw [heq] at hc
  · cases hc
    exact h
  · have hinner : (atComplete s h₁ h₂).inner = s.inner := (atComplete_frame s h₁ h₂).inner
    have hp := polled (atComplete_effect hs.single h₁ h₂).single (by rw [hinner]; exact hs.noted) hc
    exact narrow_congr hat fun q => (hp.dqh q).1

theorem narrow_startWrite (h : Narrow s) {bytes : List UInt8} {gap : List HwEvent}
    {r : Except UsbError ℕ} (hc : Bus.startWrite s ep bytes gap = .ok (t, r)) : Narrow t := by
  rcases startWrite_ok hc with ⟨rfl, -⟩ | ⟨⟨-, -, -, d, addr, token, b64s, b512s, -, -, -, rfl⟩, -⟩
  · exact h
  · refine narrow_frame (narrow_congr h fun q => ?_) (prime_frame _ ep gap)
    by_cases hq : q = epaddr2dqhidx ep
    · subst q
      simp [written]
    · simp [written, hq]

theorem narrow_reset (h : Narrow s) {wait : List (List HwEvent)} (hr : Bus.reset s wait = .ok t) :
    Narrow t := by
  obtain ⟨u, hu, rfl⟩ := reset_ok hr
  have hu' : Narrow u := narrow_frame (s := cleared s) h (waitFor_frame _ wait hu)
  exact hu'

theorem narrow_call (hs : Sane s) (h : Narrow s) {c : Call} {r : Response}
    (hc : call s c = .ok (t, r)) : Narrow t := by
  cases c with
  | allocEp dir addr ty n =>
    obtain ⟨p, hp, heq⟩ := map_ok hc
    cases heq
    rcases allocEp_ok hp with ⟨ht, -⟩ | ⟨ep, hep, -⟩
    · rw [ht]
      exact h
    · exact narrow_allocated h hep
  | enable =>
    cases hc
    exact h
  | setDeviceAddress addr gaps =>
    cases hc
    exact narrow_frame h (setDeviceAddress_frame s addr)
  | reset wait =>
    obtain ⟨v, hv, heq⟩ := map_ok hc
    cases heq
    exact narrow_reset h hv
  | poll h₁ h₂ =>
    obtain ⟨p, hp, heq⟩ := map_ok hc
    cases heq
    exact narrow_poll hs h hp
  | read ep buf hw =>
    obtain ⟨p, hp, heq⟩ := map_ok hc
    cases heq
    exact narrow_congr h (read_frame hs.single hp).caps
  | startWrite ep bytes gap =>
    obtain ⟨p, hp, heq⟩ := map_ok hc
    cases heq
    exact narrow_startWrite h hp

theorem narrow_start (l : Layout) : Narrow l.start := by
  intro q
  show DQH.new.getMaxPacketSize ≤ 0x400
  decide

theorem narrow_run {es : List Event} {y : Session}
    (hr : exec (step l) es (start l) = some y) : Sane y.usbd ∧ Narrow y.usbd := by
  have h0 : Sane (start l).usbd ∧ Narrow (start l).usbd := ⟨steady_start _ l, narrow_start l⟩
  refine exec_invariant (I := fun x => Sane x.usbd ∧ Narrow x.usbd) (fun x e y hx hy => ?_) es h0 hr
  refine ⟨sane_step hx.1 hy, ?_⟩
  cases e with
  | hw e => exact narrow_frame hx.2 (hwStep_frame e (step_hw hy).1)
  | call c =>
    obtain ⟨-, r, hc, -⟩ := step_call hy
    exact narrow_call hx.1 hx.2 hc

end UsbArmory.Usb.PacketSize
