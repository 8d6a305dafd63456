import UsbArmory.Usb.Invariant

/-!
# No event is lost

IN completions are counted from the controller through `end_write` to the
results of `poll`. OUT completions and SETUPs stay latched, and are reported,
until the read that consumes them.
-/

set_option autoImplicit false

namespace UsbArmory.Usb.Events
open UsbArmory.Library.Bits UsbArmory.Library.Run UsbArmory.Usb.Descriptors
open UsbArmory.Usb.Controller UsbArmory.Usb.Bus UsbArmory.Usb.Endpoint UsbArmory.Usb.Effects
open UsbArmory.Usb.EndWrite UsbArmory.Usb.Poll UsbArmory.Usb.Write UsbArmory.Usb.Read
open UsbArmory.Usb.ReadFrame UsbArmory.Usb.Configure UsbArmory.Usb.Runs UsbArmory.Usb.Invariant

variable {l : Layout} {s t : Usbd} {x y : Session}

def reportsIn (i : ℕ) : Response → Bool
  | .polled (.data _ epInComplete _) => epInComplete.getLsbD i
  | _ => false

/-- How often an IN completion of this index has been reported. -/
def reports (i : ℕ) (log : List (Call × Response)) : ℕ := log.countP fun e => reportsIn i e.2

/-- Every IN transfer that the controller has completed is latched or has been
dealt with by one `end_write`, and each of these has been reported once. -/
def Counted (x : Session) : Prop := ∀ ep, ep.isValid = true → ep.isOut = false →
  (x.usbd.transfers (epaddr2dqhidx ep)).length =
    x.usbd.ended (epaddr2dqhidx ep) + (x.usbd.endptcomplete.getLsbD (endptBit ep)).toNat ∧
  x.usbd.ended (epaddr2dqhidx ep) = reports ep.index x.log

theorem phase_count {again : Bool} {d : ℕ} {v : View} (h : Phase again d v) :
    v.transfers = v.ended + v.complete.toNat := by
  cases h <;> rfl

theorem ready_count (h : Ready s) {ep : EndpointAddress} (hv : ep.isValid = true) :
    (view s ep).transfers = (view s ep).ended + (view s ep).complete.toNat := by
  cases hu : isEpBeingUsed s ep with
  | false =>
    rw [h.free ep hv hu]
    rfl
  | true =>
    obtain ⟨d, -, -, hp⟩ := h.held ep hu
    exact phase_count hp

theorem reported_in {b t : Usbd} {seen : BitVec 16} {r : PollResult} (h : Reported b seen t r)
    (i : ℕ) : reportsIn i (.polled r) = b.endptcomplete.getLsbD (16 + i) := by
  cases h with
  | none hseen hcomplete hb ht =>
    rw [hcomplete]
    simp [reportsIn]
  | statusOut hb ht hin =>
    rw [hin]
    simp [reportsIn]
  | data epOut epIn hsome hin hout hstatus ht => exact hin i

theorem poll_count (h : Ready s) {h₁ h₂ : List HwEvent} {r : PollResult}
    (hc : Bus.poll s h₁ h₂ = .ok (t, r)) (i : ℕ) :
    t.ended (epaddr2dqhidx ⟨i, .in⟩) =
      s.ended (epaddr2dqhidx ⟨i, .in⟩) + (reportsIn i (.polled r)).toNat := by
  rcases poll_eq s h₁ h₂ with heq | heq <;> rw [heq] at hc
  · cases hc
    rfl
  · have hf := atComplete_frame s h₁ h₂
    have hp := polled (atComplete_effect h.single h₁ h₂).single (by rw [hf.inner]; exact h.noted) hc
    rw [hp.ended, hf.ended, reported_in hp.result]

theorem call_count {c : Call} {r : Response} (h : Ready s) (ha : Allowed l c)
    (hr : c.isReset = false) (hc : call s c = .ok (t, r)) (i : ℕ) :
    t.ended (epaddr2dqhidx ⟨i, .in⟩) =
      s.ended (epaddr2dqhidx ⟨i, .in⟩) + (reportsIn i r).toNat := by
  cases c with
  | allocEp dir addr ty n =>
    obtain ⟨p, hp, heq⟩ := map_ok hc
    cases heq
    rcases allocEp_ok hp with ⟨ht, -⟩ | ⟨ep, hep, -⟩
    · rw [ht]
      rfl
    · obtain ⟨-, -, _, _, _, _, _, _, _, -, -, -, heq⟩ := hep
      rw [heq]
      rfl
  | enable =>
    cases hc
    rfl
  | setDeviceAddress addr gaps =>
    cases hc
    exact congrFun (setDeviceAddress_frame s addr).ended _
  | reset wait => cases hr
  | poll h₁ h₂ =>
    obtain ⟨p, hp, heq⟩ := map_ok hc
    cases heq
    exact poll_count h hp i
  | read ep buf hw =>
    obtain ⟨p, hp, heq⟩ := map_ok hc
    cases heq
    apply (read_frame h.single hp).ended
    intro hq
    have hep := epaddr2dqhidx_inj hq
    rw [← hep] at ha
    cases ha.1
  | startWrite ep bytes gap =>
    obtain ⟨p, hp, heq⟩ := map_ok hc
    cases heq
    exact congrFun (startWrite_keeps hp).1 _

theorem reports_append (i : ℕ) (log : List (Call × Response)) (c : Call) (r : Response) :
    reports i (log ++ [(c, r)]) = reports i log + (reportsIn i r).toNat := by
  unfold reports
  rw [List.countP_append, List.countP_singleton]
  cases reportsIn i r <;> rfl

theorem ended_step {e : Event} (h : Ready x.usbd) (hr : e.isReset = false)
    (hs : step l x e = some y) (i : ℕ)
    (hx : x.usbd.ended (epaddr2dqhidx ⟨i, .in⟩) = reports i x.log) :
    y.usbd.ended (epaddr2dqhidx ⟨i, .in⟩) = reports i y.log := by
  cases e with
  | hw e =>
    obtain ⟨hstep, hlog⟩ := step_hw hs
    rw [hlog, (hwStep_frame e hstep).ended]
    exact hx
  | call c =>
    obtain ⟨ha, r, hc, hlog⟩ := step_call hs
    rw [hlog, reports_append, ← hx]
    exact call_count h ha hr hc i

/-- A read of this endpoint that does not take a SETUP. -/
def Acknowledges (ep : EndpointAddress) (x : Session) : Event → Prop
  | .call (.read ep' _ _) => ep' = ep ∧ cached x.usbd ep.index = false
  | _ => False

def Consumes (index : ℕ) (x : Session) : Event → Prop
  | .call (.read ep _ _) => ep.index = index ∧ cached x.usbd index = true
  | _ => False

theorem poll_latched (h : Ready s) {h₁ h₂ : List HwEvent} {r : PollResult}
    (hc : Bus.poll s h₁ h₂ = .ok (t, r)) :
    (∀ j < 16, s.endptcomplete.getLsbD j = true → t.endptcomplete.getLsbD j = true) ∧
    ∀ j, s.endptsetupstat.getLsbD j = true → t.endptsetupstat.getLsbD j = true := by
  rcases poll_eq s h₁ h₂ with heq | heq <;> rw [heq] at hc
  · cases hc
    exact ⟨fun _ _ hj => hj, fun _ hj => hj⟩
  · have hf := atComplete_frame s h₁ h₂
    have hp := polled (atComplete_effect h.single h₁ h₂).single (by rw [hf.inner]; exact h.noted) hc
    constructor
    · intro j hlt hj
      rw [hp.complete, hf.complete j hj, decide_eq_true hlt]
      rfl
    · intro j hj
      rw [hp.setup]
      exact hf.setup j hj

/-- The bits that a call may clear: an OUT completion that it acknowledges, a
SETUP that it consumes, and the IN completions. -/
theorem call_latched {c : Call} {r : Response} (h : Ready s) (hr : c.isReset = false)
    (hc : call s c = .ok (t, r)) :
    (∀ j < 16, s.endptcomplete.getLsbD j = true → t.endptcomplete.getLsbD j = true ∨
      ∃ ep buf hw, c = .read ep buf hw ∧ endptBit ep = j ∧ cached s ep.index = false) ∧
    ∀ j, s.endptsetupstat.getLsbD j = true → t.endptsetupstat.getLsbD j = true ∨
      ∃ ep buf hw, c = .read ep buf hw ∧ ep.index = j ∧ cached s ep.index = true := by
  have hkeep
      (hcomplete : ∀ j < 16, s.endptcomplete.getLsbD j = true → t.endptcomplete.getLsbD j = true)
      (hsetup : ∀ j, s.endptsetupstat.getLsbD j = true → t.endptsetupstat.getLsbD j = true) :
      (∀ j < 16, s.endptcomplete.getLsbD j = true → t.endptcomplete.getLsbD j = true ∨
        ∃ ep buf hw, c = .read ep buf hw ∧ endptBit ep = j ∧ cached s ep.index = false) ∧
      ∀ j, s.endptsetupstat.getLsbD j = true → t.endptsetupstat.getLsbD j = true ∨
        ∃ ep buf hw, c = .read ep buf hw ∧ ep.index = j ∧ cached s ep.index = true :=
    ⟨fun j hlt hj => Or.inl (hcomplete j hlt hj), fun j hj => Or.inl (hsetup j hj)⟩
  cases c with
  | allocEp dir addr ty n =>
    obtain ⟨p, hp, heq⟩ := map_ok hc
    cases heq
    rcases allocEp_ok hp with ⟨ht, -⟩ | ⟨ep, hep, -⟩
    · exact hkeep (fun j _ hj => by rw [ht]; exact hj) fun j hj => by rw [ht]; exact hj
    · obtain ⟨-, -, _, _, _, _, _, _, _, -, -, -, heq⟩ := hep
      exact hkeep (fun j _ hj => by rw [heq]; exact hj) fun j hj => by rw [heq]; exact hj
  | enable =>
    cases hc
    exact hkeep (fun _ _ hj => hj) fun _ hj => hj
  | setDeviceAddress addr gaps =>
    cases hc
    have hf : Frame s (Bus.setDeviceAddress s addr gaps) := setDeviceAddress_frame s addr
    exact hkeep (fun j _ => hf.complete j) hf.setup
  | reset wait => cases hr
  | poll h₁ h₂ =>
    obtain ⟨p, hp, heq⟩ := map_ok hc
    cases heq
    obtain ⟨hcomplete, hsetup⟩ := poll_latched h hp
    exact hkeep hcomplete hsetup
  | read ep buf hw =>
    obtain ⟨p, hp, heq⟩ := map_ok hc
    cases heq
    have hread := read_frame h.single hp
    constructor
    · intro j _ hj
      exact (hread.complete j hj).symm.imp id fun hep => ⟨ep, buf, hw, rfl, hep⟩
    · intro j hj
      exact (hread.setup j hj).symm.imp id fun hep => ⟨ep, buf, hw, rfl, hep⟩
  | startWrite ep bytes gap =>
    obtain ⟨p, hp, heq⟩ := map_ok hc
    cases heq
    obtain ⟨-, hsetup, hcomplete⟩ := startWrite_keeps hp
    exact hkeep (fun j _ => hcomplete j) hsetup

theorem out_step {e : Event} (h : Ready x.usbd) (hr : e.isReset = false)
    (hs : step l x e = some y) {ep : EndpointAddress} (hv : ep.isValid = true)
    (hout : ep.isOut = true) (hno : ¬Acknowledges ep x e)
    (hbit : x.usbd.endptcomplete.getLsbD (endptBit ep) = true) :
    y.usbd.endptcomplete.getLsbD (endptBit ep) = true := by
  cases e with
  | hw e => exact (hwStep_frame e (step_hw hs).1).complete _ hbit
  | call c =>
    obtain ⟨ha, r, hc, -⟩ := step_call hs
    have hlt : endptBit ep < 16 := by
      have hi := index_lt hv
      simp only [endptBit, hout, if_true]
      omega
    rcases (call_latched h hr hc).1 _ hlt hbit with hy | ⟨ep', buf, hw, rfl, hep, hcached⟩
    · exact hy
    · have heq : ep' = ep := by
        obtain ⟨i, dir⟩ := ep
        obtain ⟨i', dir'⟩ := ep'
        have hout' : (⟨i', dir'⟩ : EndpointAddress).isOut = true := ha.1
        simp only [endptBit, hout, hout', if_true] at hep
        simp only [EndpointAddress.isOut, decide_eq_true_eq] at hout hout'
        rw [hout, hout', hep]
      subst heq
      exact absurd ⟨rfl, hcached⟩ hno

theorem setup_step {e : Event} (h : Ready x.usbd) (hr : e.isReset = false)
    (hs : step l x e = some y) {j : ℕ} (hno : ¬Consumes j x e)
    (hbit : x.usbd.endptsetupstat.getLsbD j = true) :
    y.usbd.endptsetupstat.getLsbD j = true := by
  cases e with
  | hw e => exact (hwStep_frame e (step_hw hs).1).setup _ hbit
  | call c =>
    obtain ⟨-, r, hc, -⟩ := step_call hs
    rcases (call_latched h hr hc).2 j hbit with hy | ⟨ep, buf, hw, rfl, rfl, hcached⟩
    · exact hy
    · exact absurd ⟨rfl, hcached⟩ hno

end UsbArmory.Usb.Events
