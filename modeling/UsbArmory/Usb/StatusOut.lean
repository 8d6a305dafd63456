import UsbArmory.Usb.ReadFrame
import UsbArmory.Usb.RestCalls

/-!
# Control requests beside the run of the driver

The monitor follows the SETUP packets that the stack reads from endpoint 0, the
packets it writes and what `poll` reports. The plan says how many packets the
stack answers each GET_DESCRIPTOR with.
-/

set_option autoImplicit false

namespace UsbArmory.Usb.StatusOut
open UsbArmory.Library.Bits UsbArmory.Library.Run UsbArmory.Usb.Descriptors
open UsbArmory.Usb.Controller UsbArmory.Usb.Bus UsbArmory.Usb.Endpoint UsbArmory.Usb.Effects
open UsbArmory.Usb.Poll UsbArmory.Usb.Read UsbArmory.Usb.Configure UsbArmory.Usb.Invariant
open UsbArmory.Usb.Runs
open UsbArmory.Usb.Rest UsbArmory.Usb.RestCalls

def controlIn : EndpointAddress := ⟨0, .in⟩

structure Request where
  describes : Bool
  packets : ℕ
  written : ℕ
  sent : ℕ
  reports : ℕ

/-- A completion counts for the packet that is in flight. -/
def Request.polled (q : Request) (epOut epInComplete : BitVec 16) : Request :=
  { q with
    sent := q.sent + if epInComplete.getLsbD 0 = true ∧ q.sent < q.written then 1 else 0
    reports := q.reports + if epOut.getLsbD 0 then 1 else 0 }

structure Monitor where
  count : ℕ
  current : Option Request

def takesSetup (s : Usbd) (ep : EndpointAddress) : Bool := ep.index = 0 && cached s 0

def observe (plan : ℕ → ℕ) (s : Usbd) (m : Monitor) : Call → Response → Monitor
  | .read ep _ _, .read (.ok bytes) =>
    if takesSetup s ep then
      ⟨m.count+1, some ⟨isGetDescriptor bytes, plan m.count, 0, 0, 0⟩⟩
    else m
  | .startWrite ep _ _, .written (.ok _) =>
    if ep = controlIn then
      { m with current := m.current.map fun q => { q with written := q.written+1 } }
    else m
  | .poll _ _, .polled (.data epOut epInComplete _) =>
    { m with current := m.current.map fun q => q.polled epOut epInComplete }
  | .reset _, _ => { m with current := none }
  | _, _ => m

structure Watched where
  usbd : Usbd
  monitor : Monitor

def watch (l : Layout) (plan : ℕ → ℕ) (w : Watched) : Event → Option Watched
  | .hw e => (hwStep w.usbd e).map fun t => ⟨t, w.monitor⟩
  | .call c =>
    if Allowed l c then
      match call w.usbd c with
      | .error _ => none
      | .ok (t, r) => some ⟨t, observe plan w.usbd w.monitor c r⟩
    else none

def begun (l : Layout) : Watched := ⟨l.start, ⟨0, none⟩⟩

/-- The host issues its requests on endpoint 0, and the stack answers a
GET_DESCRIPTOR one packet after the other. -/
def Answers (w : Watched) : Event → Prop
  | .call (.read ep _ _) => ep.index = 0 ∨ cached w.usbd ep.index = false
  | .call (.startWrite ep _ _) => ep = controlIn → ∀ q ∈ w.monitor.current, q.describes = true →
      q.written < q.packets ∧ q.sent = q.written
  | _ => True

def reportsReset (s : Usbd) : Prop :=
  (writeUsbsts s (mask 32 usbstsSre)).usbsts &&& mask 32 usbstsUri ≠ 0

def FindsIn (s : Usbd) (h₁ h₂ : List HwEvent) : Prop :=
  (atComplete s h₁ h₂).endptcomplete >>> 16 ≠ 0

def setupPacket (s : Usbd) (ep : EndpointAddress) (hw : During) : List UInt8 :=
  (tripwire (hardware (writeEndptsetupstat (takeSetup s ep).1 ((mask 16 ep.index).setWidth 32))
    hw.before) (epaddr2dqhidx ep) hw.rounds).2

/-- The driver is through with a request when the next one is read, a poll
before the last packet finds an IN completion, and no write of ENDPTPRIME sets
the bit of endpoint 0 again that the controller has just cleared. -/
def InStep (w : Watched) : Event → Prop
  | .call (.read ep buf hw) => Unrenewed controlIn w.usbd (.read ep buf hw) ∧
      (takesSetup w.usbd ep = true → w.usbd.inner.statusOut = 0 ∧
        if isGetDescriptor (setupPacket w.usbd ep hw) then AtRest w.usbd controlIn
        else w.usbd.inner.preStatusOut = 0)
  | .call (.poll h₁ h₂) => w.usbd.inner.statusOut ≠ 0 → ∀ q ∈ w.monitor.current,
      q.sent < q.packets → reportsReset w.usbd ∨ FindsIn w.usbd h₁ h₂
  | .call (.reset _) => w.usbd.inner.statusOut = 0 ∧ w.usbd.inner.preStatusOut = 0
  | .call c => Unrenewed controlIn w.usbd c
  | _ => True

/-- A STATUS OUT is reported only for a GET_DESCRIPTOR, once, after its last
packet has been reported, and by the first poll that finds no IN completion. -/
def Reported (w : Watched) : Event → Prop
  | .call (.poll h₁ h₂) => ∀ t r, Bus.poll w.usbd h₁ h₂ = .ok (t, r) →
      (∀ epOut epInComplete epSetup, r = .data epOut epInComplete epSetup →
        epOut.getLsbD 0 = true → ∃ q ∈ w.monitor.current,
          q.describes = true ∧ q.sent = q.packets ∧ q.reports = 0) ∧
      ∀ q ∈ w.monitor.current, q.describes = true → q.sent = q.packets → q.reports = 0 →
        r ≠ .reset → ¬FindsIn w.usbd h₁ h₂ → ∃ epOut epInComplete epSetup,
          r = .data epOut epInComplete epSetup ∧ epOut.getLsbD 0 = true
  | _ => True

variable {l : Layout} {plan : ℕ → ℕ} {w w' : Watched}

theorem findsIn_iff (s : Usbd) (h₁ h₂ : List HwEvent) : FindsIn s h₁ h₂ ↔
    ∃ i, (atComplete s h₁ h₂).endptcomplete.getLsbD (16 + i) = true := by
  unfold FindsIn
  rw [ne_zero_iff]
  simp only [BitVec.getLsbD_ushiftRight]

instance (s : Usbd) (ep : EndpointAddress) : Decidable (AtRest s ep) :=
  decidable_of_iff ((view s ep).prime = false ∧ (view s ep).stat = false ∧
    (view s ep).complete = false) ⟨fun h => ⟨h.1, h.2.1, h.2.2⟩,
      fun h => ⟨h.prime, h.stat, h.complete⟩⟩

instance (s : Usbd) : Decidable (reportsReset s) := inferInstanceAs (Decidable (_ ≠ _))

instance (s : Usbd) (h₁ h₂ : List HwEvent) : Decidable (FindsIn s h₁ h₂) :=
  inferInstanceAs (Decidable (_ ≠ _))

instance (w : Watched) : (e : Event) → Decidable (Answers w e)
  | .call (.read ep _ _) =>
    inferInstanceAs (Decidable (ep.index = 0 ∨ cached w.usbd ep.index = false))
  | .call (.startWrite ep _ _) =>
    inferInstanceAs (Decidable (ep = controlIn → ∀ q ∈ w.monitor.current, q.describes = true →
      q.written < q.packets ∧ q.sent = q.written))
  | .hw _ | .call (.allocEp _ _ _ _) | .call .enable | .call (.setDeviceAddress _ _)
  | .call (.reset _) | .call (.poll _ _) => isTrue trivial

instance (s : Usbd) (ep : EndpointAddress) (gap : List HwEvent) : Decidable (Unfetched s ep gap) :=
  inferInstanceAs (Decidable (_ → _ ∉ _))

instance (s : Usbd) (ep : EndpointAddress) : Decidable (TakesData s ep) :=
  inferInstanceAs (Decidable (_ ∧ _))

instance (ep : EndpointAddress) (s : Usbd) : (c : Call) → Decidable (Unrenewed ep s c)
  | .startWrite x bytes gap =>
    inferInstanceAs (Decidable (bytes.length ≤ (s.dqhs (epaddr2dqhidx x)).getMaxPacketSize →
      (s.dqhs (epaddr2dqhidx x)).getCurrentDtd = none → Unfetched s ep gap))
  | .read x _ hw => inferInstanceAs (Decidable (TakesData s x → Unfetched s ep hw.priming))
  | .setDeviceAddress _ gaps =>
    inferInstanceAs (Decidable (∀ x ∈ allocatedEps s, dataOut x = true →
      Unfetched s ep (gaps x)))
  | .allocEp _ _ _ _ | .enable | .reset _ | .poll _ _ => isTrue trivial

instance (w : Watched) : (e : Event) → Decidable (InStep w e)
  | .call (.read ep buf hw) =>
    inferInstanceAs (Decidable (Unrenewed controlIn w.usbd (.read ep buf hw) ∧
      (takesSetup w.usbd ep = true → w.usbd.inner.statusOut = 0 ∧
        if isGetDescriptor (setupPacket w.usbd ep hw) then AtRest w.usbd controlIn
        else w.usbd.inner.preStatusOut = 0)))
  | .call (.poll h₁ h₂) =>
    inferInstanceAs (Decidable (w.usbd.inner.statusOut ≠ 0 → ∀ q ∈ w.monitor.current,
      q.sent < q.packets → reportsReset w.usbd ∨ FindsIn w.usbd h₁ h₂))
  | .call (.reset _) =>
    inferInstanceAs (Decidable (w.usbd.inner.statusOut = 0 ∧ w.usbd.inner.preStatusOut = 0))
  | .call (.setDeviceAddress addr gaps) =>
    inferInstanceAs (Decidable (Unrenewed controlIn w.usbd (.setDeviceAddress addr gaps)))
  | .call (.startWrite ep bytes gap) =>
    inferInstanceAs (Decidable (Unrenewed controlIn w.usbd (.startWrite ep bytes gap)))
  | .hw _ | .call (.allocEp _ _ _ _) | .call .enable => isTrue trivial

theorem watch_hw {e : HwEvent} (h : watch l plan w (.hw e) = some w') :
    hwStep w.usbd e = some w'.usbd ∧ w'.monitor = w.monitor := by
  obtain ⟨t, ht, rfl⟩ := Option.map_eq_some_iff.mp h
  exact ⟨ht, rfl⟩

theorem watch_call {c : Call} (h : watch l plan w (.call c) = some w') :
    Allowed l c ∧ ∃ r, call w.usbd c = .ok (w'.usbd, r) ∧
      w'.monitor = observe plan w.usbd w.monitor c r := by
  unfold watch at h
  simp only at h
  split at h
  next ha =>
    split at h
    next => cases h
    next t r hcall =>
      cases h
      exact ⟨ha, r, hcall, rfl⟩
  next => cases h

theorem watch_step {e : Event} (h : watch l plan w e = some w') (log : List (Call × Response)) :
    ∃ log', step l ⟨w.usbd, log⟩ e = some ⟨w'.usbd, log'⟩ := by
  cases e with
  | hw e =>
    obtain ⟨hstep, -⟩ := watch_hw h
    exact ⟨log, by simp only [step, hstep, Option.map_some]⟩
  | call c =>
    obtain ⟨ha, r, hc, -⟩ := watch_call h
    exact ⟨log ++ [(c, r)], by simp only [step, if_pos ha, hc]⟩

end UsbArmory.Usb.StatusOut
