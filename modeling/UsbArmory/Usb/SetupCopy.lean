import UsbArmory.Usb.SetupPackets

/-!
# The copy of the setup bytes

A SETUP packet for an endpoint in use is stored in its queue head and makes a
read repeat the copy. So the read takes the last packet that came before the
copy which counts.
-/

set_option autoImplicit false

namespace UsbArmory.Usb.SetupCopy
open UsbArmory.Library.Bits UsbArmory.Usb.Descriptors UsbArmory.Usb.Controller UsbArmory.Usb.Bus
open UsbArmory.Usb.Endpoint UsbArmory.Usb.Effects UsbArmory.Usb.Read UsbArmory.Usb.SetupPackets

def arriving (used : BitVec 8) : HwEvent → Option (ℕ × List UInt8)
  | .setup index bytes =>
    if used.getLsbD (epaddr2dqhidx ⟨index, .out⟩) = true ∧ bytes.length = 8 then some (index, bytes)
    else none
  | _ => none

def nextPacket (used : BitVec 8) (index : ℕ) (setup : List UInt8) (e : HwEvent) : List UInt8 :=
  (arriving used e).elim setup fun p => if p.1 = index then p.2 else setup

def repeated (used : BitVec 8) : List (List HwEvent) → List HwEvent
  | [] => []
  | es::rounds =>
    if es.any fun e => (arriving used e).isSome then es ++ repeated used rounds else []

def latest (s : Usbd) (ep : EndpointAddress) (hw : During) : List UInt8 :=
  (hw.before ++ repeated s.inner.usedDqhs hw.rounds).foldl
    (nextPacket s.inner.usedDqhs ep.index) (s.dqhs (epaddr2dqhidx ep)).setup

variable {s t : Usbd} {index : ℕ}

/-- The setup bytes, the tripwire and the endpoint control after some events,
of which `packet` is left and `trips` says whether one has come. -/
structure Copied (s : Usbd) (index : ℕ) (packet : List UInt8) (trips : Bool) (t : Usbd) :
    Prop where
  inner : t.inner = s.inner
  setup : (t.dqhs (epaddr2dqhidx ⟨index, .out⟩)).setup = packet
  tripped : t.usbcmd.getLsbD sutw = (s.usbcmd.getLsbD sutw && !trips)
  enabled : t.endptctrl1 = s.endptctrl1

theorem copied_quiet (hi : t.inner = s.inner)
    (hs : (t.dqhs (epaddr2dqhidx ⟨index, .out⟩)).setup =
      (s.dqhs (epaddr2dqhidx ⟨index, .out⟩)).setup)
    (hc : t.usbcmd = s.usbcmd) (he : t.endptctrl1 = s.endptctrl1) :
    Copied s index (s.dqhs (epaddr2dqhidx ⟨index, .out⟩)).setup false t :=
  ⟨hi, hs, by rw [hc, Bool.not_false, Bool.and_true], he⟩

theorem hwStep_copied (s : Usbd) (index : ℕ) (e : HwEvent) : Copied s index
    (nextPacket s.inner.usedDqhs index (s.dqhs (epaddr2dqhidx ⟨index, .out⟩)).setup e)
    (arriving s.inner.usedDqhs e).isSome ((hwStep s e).getD s) := by
  cases e with
  | fetch ep =>
    simp only [hwStep]
    split
    · refine copied_quiet ?_ (fetch_setup s ep _) ?_ ?_
      all_goals
        simp only [Option.getD_some, fetch]
        split <;> rfl
    · exact copied_quiet rfl rfl rfl rfl
  | load ep =>
    simp only [hwStep]
    split
    · exact copied_quiet rfl rfl rfl rfl
    · exact copied_quiet rfl rfl rfl rfl
  | sent ep status =>
    simp only [hwStep]
    split
    · cases s.fifo (epaddr2dqhidx ep) with
      | none => exact copied_quiet rfl rfl rfl rfl
      | some bytes => exact copied_quiet rfl (retire_setup s ep status 0 bytes _) rfl rfl
    · exact copied_quiet rfl rfl rfl rfl
  | received ep status bytes =>
    simp only [hwStep]
    split
    · exact copied_quiet rfl (retire_setup s ep status _ bytes _) rfl rfl
    · exact copied_quiet rfl rfl rfl rfl
  | setup i bytes =>
    simp only [hwStep, nextPacket, arriving]
    split
    next hg =>
      refine ⟨rfl, ?_, ?_, rfl⟩
      · by_cases hi : i = index
        · subst hi
          simp [Usbd.setDqh]
        · have hq : epaddr2dqhidx ⟨index, .out⟩ ≠ epaddr2dqhidx ⟨i, .out⟩ := by
            intro hq
            exact hi (congrArg EndpointAddress.index (epaddr2dqhidx_inj hq)).symm
          simp [Usbd.setDqh, hq, hi]
      · rw [Option.getD_some, getLsbD_clear]
        simp
    next => exact copied_quiet rfl rfl rfl rfl
  | status bits => exact copied_quiet rfl rfl rfl rfl

theorem hardware_copied (es : List HwEvent) (s : Usbd) (index : ℕ) : Copied s index
    (es.foldl (nextPacket s.inner.usedDqhs index) (s.dqhs (epaddr2dqhidx ⟨index, .out⟩)).setup)
    (es.any fun e => (arriving s.inner.usedDqhs e).isSome) (hardware s es) := by
  induction es generalizing s with
  | nil => exact copied_quiet rfl rfl rfl rfl
  | cons e es ih =>
    have hhere := hwStep_copied s index e
    have hrest := ih ((hwStep s e).getD s)
    rw [hhere.inner, hhere.setup] at hrest
    refine ⟨hrest.inner.trans hhere.inner, hrest.setup, hrest.tripped.trans ?_,
      hrest.enabled.trans hhere.enabled⟩
    rw [hhere.tripped, List.any_cons, Bool.not_or, Bool.and_assoc]

theorem tripwire_copied (rounds : List (List HwEvent)) (s : Usbd) (index : ℕ) :
    (tripwire s (epaddr2dqhidx ⟨index, .out⟩) rounds).2 =
        (repeated s.inner.usedDqhs rounds).foldl (nextPacket s.inner.usedDqhs index)
          (s.dqhs (epaddr2dqhidx ⟨index, .out⟩)).setup ∧
      (tripwire s (epaddr2dqhidx ⟨index, .out⟩) rounds).1.inner = s.inner ∧
      (tripwire s (epaddr2dqhidx ⟨index, .out⟩) rounds).1.endptctrl1 = s.endptctrl1 := by
  induction rounds generalizing s with
  | nil => exact ⟨rfl, rfl, rfl⟩
  | cons es rounds ih =>
    have hhere := hardware_copied es (arm s) index
    have harmed : (arm s).usbcmd.getLsbD sutw = true := by
      rw [arm, getLsbD_set (by decide)]
      simp
    have hcmd := hhere.tripped
    rw [harmed, Bool.true_and] at hcmd
    have hbit := and_mask_ne_zero (hardware (arm s) es).usbcmd sutw
    have hused : (arm s).inner.usedDqhs = s.inner.usedDqhs := rfl
    rw [hused] at hcmd
    unfold tripwire repeated
    simp only
    cases hany : es.any fun e => (arriving s.inner.usedDqhs e).isSome with
    | true =>
      rw [hany] at hcmd
      rw [if_neg (mt hbit.mp (by rw [hcmd]; decide)), if_pos rfl, List.foldl_append]
      obtain ⟨hpacket, hinner, hctrl⟩ := ih (hardware (arm s) es)
      rw [hhere.inner, hhere.setup] at hpacket
      exact ⟨hpacket, hinner.trans hhere.inner, hctrl.trans hhere.enabled⟩
    | false =>
      rw [hany] at hcmd
      rw [if_pos (hbit.mpr hcmd), if_neg Bool.false_ne_true]
      exact ⟨rfl, hhere.inner, hhere.enabled⟩

theorem latest_taken (s : Usbd) (index : ℕ) (hw : During) :
    (tripwire (acknowledged s ⟨index, .out⟩ hw) (epaddr2dqhidx ⟨index, .out⟩) hw.rounds).2 =
        latest s ⟨index, .out⟩ hw ∧
      (tripwire (acknowledged s ⟨index, .out⟩ hw) (epaddr2dqhidx ⟨index, .out⟩)
        hw.rounds).1.inner.usedDqhs = s.inner.usedDqhs ∧
      (tripwire (acknowledged s ⟨index, .out⟩ hw) (epaddr2dqhidx ⟨index, .out⟩)
        hw.rounds).1.endptctrl1 = s.endptctrl1 := by
  have htake := takeSetup_eq s ⟨index, .out⟩
  have hused : (takeSetup s ⟨index, .out⟩).1.inner.usedDqhs = s.inner.usedDqhs := by rw [htake]
  have hdqhs : (takeSetup s ⟨index, .out⟩).1.dqhs = s.dqhs := by rw [htake]
  have hctrl : (takeSetup s ⟨index, .out⟩).1.endptctrl1 = s.endptctrl1 := by rw [htake]
  have hbefore := hardware_copied hw.before
    (writeEndptsetupstat (takeSetup s ⟨index, .out⟩).1 ((mask 16 index).setWidth 32)) index
  obtain ⟨hpacket, hinner, hsame⟩ := tripwire_copied hw.rounds
    (acknowledged s ⟨index, .out⟩ hw) index
  have hack : (acknowledged s ⟨index, .out⟩ hw).inner.usedDqhs = s.inner.usedDqhs :=
    (congrArg Inner.usedDqhs hbefore.inner).trans hused
  have hsetup : ((acknowledged s ⟨index, .out⟩ hw).dqhs (epaddr2dqhidx ⟨index, .out⟩)).setup =
      hw.before.foldl (nextPacket s.inner.usedDqhs index)
        (s.dqhs (epaddr2dqhidx ⟨index, .out⟩)).setup := by
    rw [← hused, ← hdqhs]
    exact hbefore.setup
  refine ⟨?_, (congrArg Inner.usedDqhs hinner).trans hack, ?_⟩
  · rw [hpacket, hack, hsetup, latest, List.foldl_append]
  · exact hsame.trans (hbefore.enabled.trans hctrl)

end UsbArmory.Usb.SetupCopy
