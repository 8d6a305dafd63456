import UsbArmory.Usb.Read

/-!
# What a read leaves alone

A read changes the cached SETUPs and the request for a STATUS OUT; of the
bits that are latched it clears at most the one that it consumes.
-/

set_option autoImplicit false

namespace UsbArmory.Usb.ReadFrame
open UsbArmory.Library.Bits UsbArmory.Usb.Descriptors UsbArmory.Usb.Controller UsbArmory.Usb.Bus
open UsbArmory.Usb.Endpoint UsbArmory.Usb.Effects UsbArmory.Usb.Read

variable {s t : Usbd} {ep : EndpointAddress} {buf : Lent} {hw : During} {bytes : List UInt8}

/-- The driver's own fields and the latched bits after a read. -/
structure Reads (s : Usbd) (ep : EndpointAddress) (t : Usbd)
    (r : Except UsbError (List UInt8)) : Prop where
  inner : t.inner = { s.inner with
    setupstat := (takeSetup s ep).1.inner.setupstat
    preStatusOut := t.inner.preStatusOut }
  pre : (∃ bytes, cached s ep.index = true ∧ r = .ok bytes ∧
      t.inner.preStatusOut = if isGetDescriptor bytes then 1 else s.inner.preStatusOut) ∨
    ((∀ bytes, r = .ok bytes → cached s ep.index = false) ∧
      t.inner.preStatusOut = s.inner.preStatusOut)
  setup : ∀ j, s.endptsetupstat.getLsbD j = true →
    ep.index = j ∧ cached s ep.index = true ∨ t.endptsetupstat.getLsbD j = true
  complete : ∀ j, s.endptcomplete.getLsbD j = true →
    endptBit ep = j ∧ cached s ep.index = false ∨ t.endptcomplete.getLsbD j = true
  ended : ∀ q, q ≠ epaddr2dqhidx ep → t.ended q = s.ended q
  caps : ∀ q, (t.dqhs q).caps = (s.dqhs q).caps

theorem released_complete (s : Usbd) (ep : EndpointAddress) (d j : ℕ) :
    (released s ep d).endptcomplete.getLsbD j =
      (s.endptcomplete.getLsbD j && decide (endptBit ep ≠ j)) := by
  show (s.endptcomplete &&& ~~~epaddr2endptmask ep).getLsbD j = _
  rw [epaddr2endptmask_eq, getLsbD_clear]

theorem released_caps (s : Usbd) (ep : EndpointAddress) (d q : ℕ) :
    ((released s ep d).dqhs q).caps = (s.dqhs q).caps := by
  by_cases hq : q = epaddr2dqhidx ep
  · subst q
    simp [released, releaseDtd, clearInterrupt, writeEndptcomplete, writeUsbsts, Usbd.setDqh,
      DQH.clearCurrentDtd, DQH.setNextDtd]
  · simp [released, releaseDtd, clearInterrupt, writeEndptcomplete, writeUsbsts, Usbd.setDqh, hq]

theorem released_ended (s : Usbd) (ep : EndpointAddress) (d q : ℕ) (hq : q ≠ epaddr2dqhidx ep) :
    (released s ep d).ended q = s.ended q := by
  simp [released, releaseDtd, clearInterrupt, writeEndptcomplete, writeUsbsts, Usbd.setDqh, hq]

theorem readControl_frame (h : readControl s ep (epaddr2dqhidx ep) buf hw = .ok (t, bytes)) :
    t.inner = s.inner ∧
    (∀ j, s.endptsetupstat.getLsbD j = true → t.endptsetupstat.getLsbD j = true) ∧
    (∀ j, s.endptcomplete.getLsbD j = true →
      endptBit ep = j ∨ t.endptcomplete.getLsbD j = true) ∧
    (∀ q, q ≠ epaddr2dqhidx ep → t.ended q = s.ended q) ∧
    ∀ q, (t.dqhs q).caps = (s.dqhs q).caps := by
  obtain ⟨-, d, token, u, -, -, hwait, rfl⟩ := readControl_ok h
  have hf := (prime_frame (controlReady s ep d token buf.addr) ep hw.priming).trans
    (waitFor_frame _ hw.rounds hwait)
  have hcaps : ∀ q, ((controlReady s ep d token buf.addr).dqhs q).caps = (s.dqhs q).caps := by
    intro q
    by_cases hq : q = epaddr2dqhidx ep
    · subst q
      simp [controlReady, Usbd.setDqh, Usbd.setDtd]
    · simp [controlReady, Usbd.setDqh, Usbd.setDtd, hq]
  refine ⟨hf.inner, hf.setup, fun j hj => ?_, fun q hq => ?_, fun q => ?_⟩
  · by_cases hep : endptBit ep = j
    · exact Or.inl hep
    · rw [released_complete, decide_eq_true hep, Bool.and_true]
      exact Or.inr (hf.complete j hj)
  · rw [released_ended u ep d q hq, hf.ended]
    rfl
  · rw [released_caps, (hf.dqh q).1, hcaps]

theorem readData_frame {gap : List HwEvent} {r : Except UsbError (List UInt8)}
    (h : readData s ep (epaddr2dqhidx ep) buf gap = .ok (t, r)) :
    t.inner = s.inner ∧
    (∀ j, s.endptsetupstat.getLsbD j = true → t.endptsetupstat.getLsbD j = true) ∧
    (∀ j, s.endptcomplete.getLsbD j = true →
      endptBit ep = j ∨ t.endptcomplete.getLsbD j = true) ∧
    (∀ q, q ≠ epaddr2dqhidx ep → t.ended q = s.ended q) ∧
    ∀ q, (t.dqhs q).caps = (s.dqhs q).caps := by
  rcases readData_ok h with ⟨-, rfl, -⟩ | ⟨-, d, addr, token, _, -, -, -, rfl, -⟩
  · exact ⟨rfl, fun _ hj => hj, fun _ hj => Or.inr hj, fun _ _ => rfl, fun _ => rfl⟩
  · have hf := prime_frame
      (released (s.setDtd d ({ s.dtd d with token := token }.setPages addr)) ep d) ep gap
    refine ⟨hf.inner, hf.setup, fun j hj => ?_, fun q hq => ?_, fun q => ?_⟩
    · by_cases hep : endptBit ep = j
      · exact Or.inl hep
      · refine Or.inr (hf.complete j ?_)
        rw [released_complete, decide_eq_true hep, Bool.and_true]
        exact hj
    · exact (congrFun hf.ended q).trans (released_ended _ ep d q hq)
    · exact (hf.dqh q).1.trans (released_caps _ ep d q)

theorem read_frame (hs : Single s) {r : Except UsbError (List UInt8)}
    (h : read s ep buf hw = .ok (t, r)) : Reads s ep t r := by
  have htake := takeSetup_eq s ep
  have hsame := takeSetup_effect hs ep
  have hset : (takeSetup s ep).1.endptsetupstat = s.endptsetupstat := by rw [htake]
  have hcomplete : (takeSetup s ep).1.endptcomplete = s.endptcomplete := by rw [htake]
  have hended : (takeSetup s ep).1.ended = s.ended := by rw [htake]
  have hdqhs : (takeSetup s ep).1.dqhs = s.dqhs := by rw [htake]
  have hpre : (takeSetup s ep).1.inner.preStatusOut = s.inner.preStatusOut := by rw [htake]
  have hinner : (takeSetup s ep).1.inner =
      { s.inner with setupstat := (takeSetup s ep).1.inner.setupstat } := by rw [htake]
  rcases read_ok h with ⟨rfl, -, rfl⟩ | ⟨hv, ⟨hc, bytes, hr, rfl⟩ | ⟨hc, h0, bytes, hr, rfl⟩ |
    ⟨hc, h0, hr⟩⟩
  · refine ⟨?_, Or.inr ⟨by simp, hpre⟩, ?_, ?_, ?_, ?_⟩
    · rw [hpre]
      exact hinner
    · intro j hj
      rw [hset]
      exact Or.inr hj
    · intro j hj
      rw [hcomplete]
      exact Or.inr hj
    · intro q _
      rw [hended]
    · intro q
      rw [hdqhs]
  · have hread := readSetup_spec hsame.single hr
    refine ⟨?_, Or.inl ⟨bytes, hc, rfl, ?_⟩, ?_, ?_, ?_, ?_⟩
    · rw [hread.inner, hinner]
    · rw [hread.inner, hpre]
    · intro j hj
      by_cases hep : ep.index = j
      · exact Or.inl ⟨hep, hc⟩
      · exact Or.inr (hread.setup j hep (by rw [hset]; exact hj))
    · intro j hj
      exact Or.inr (hread.complete j (by rw [hcomplete]; exact hj))
    · intro q _
      rw [hread.ended, hended]
    · intro q
      rw [(hread.dqh q).1, hdqhs]
  · obtain ⟨hi, hset', hcomp', hend', hcaps⟩ := readControl_frame hr
    refine ⟨?_, Or.inr ⟨fun _ _ => hc, ?_⟩, ?_, ?_, ?_, ?_⟩
    · rw [hi, hinner]
    · rw [hi, hpre]
    · intro j hj
      exact Or.inr (hset' j (by rw [hset]; exact hj))
    · intro j hj
      exact (hcomp' j (by rw [hcomplete]; exact hj)).imp (fun hep => ⟨hep, hc⟩) id
    · intro q hq
      rw [hend' q hq, hended]
    · intro q
      rw [hcaps, hdqhs]
  · obtain ⟨hi, hset', hcomp', hend', hcaps⟩ := readData_frame hr
    refine ⟨?_, Or.inr ⟨fun _ _ => hc, ?_⟩, ?_, ?_, ?_, ?_⟩
    · rw [hi, hinner]
    · rw [hi, hpre]
    · intro j hj
      exact Or.inr (hset' j (by rw [hset]; exact hj))
    · intro j hj
      exact (hcomp' j (by rw [hcomplete]; exact hj)).imp (fun hep => ⟨hep, hc⟩) id
    · intro q hq
      rw [hend' q hq, hended]
    · intro q
      rw [hcaps, hdqhs]

end UsbArmory.Usb.ReadFrame
