import UsbArmory.Usb.Rest
import UsbArmory.Usb.Transfer

/-!
# The calls and the memory

Every call that is not a write leaves the transfers of the IN endpoints alone,
whatever the controller does during it.
-/

set_option autoImplicit false

namespace UsbArmory.Usb.Delivery
open UsbArmory.Library.Bits UsbArmory.Usb.Descriptors UsbArmory.Usb.Controller UsbArmory.Usb.Bus
open UsbArmory.Usb.Endpoint UsbArmory.Usb.Effects UsbArmory.Usb.EndWrite UsbArmory.Usb.Poll
open UsbArmory.Usb.Write UsbArmory.Usb.Read UsbArmory.Usb.ReadFrame UsbArmory.Usb.Configure
open UsbArmory.Usb.Invariant UsbArmory.Usb.Rest UsbArmory.Usb.Memory UsbArmory.Usb.Transfer

variable {l : Layout} {s t u : Usbd} {ep : EndpointAddress}

structure Tidy (l : Layout) (s : Usbd) : Prop where
  ready : Phased s
  once : Once s
  owned : Owned l s

structure Onward (l : Layout) (s t : Usbd) : Prop where
  tidy : Tidy l t
  carries : ∀ ep acc, ep.isValid = true → ep.isOut = false → Carries s ep acc → Carries t ep acc

theorem Onward.refl (h : Tidy l s) : Onward l s s := ⟨h, fun _ _ _ _ hc => hc⟩

theorem Onward.trans (h : Onward l s t) (h' : Onward l t u) : Onward l s u :=
  ⟨h'.tidy, fun ep acc hv hin hc => h'.carries ep acc hv hin (h.carries ep acc hv hin hc)⟩

theorem same_effect (h : Same s t) (hs : Single s) (hd : t.inner.dtds = s.inner.dtds) :
    Effect false s t := by
  refine .same h.view (fun a => ?_) h.used hd
  rw [h.memory.1]
  exact hs a

theorem onward_same (h : Tidy l s) (hs : Same s t) (hd : t.inner.dtds = s.inner.dtds)
    (hn : t.inner.epInComplete = none) : Onward l s t := by
  refine ⟨⟨?_, once_view h.once fun ep _ _ => hs.view ep, hs.owned h.owned⟩,
    fun ep acc _ _ hc => hs.carries hc⟩
  exact good_effect kept_phase h.ready (same_effect hs h.ready.single hd) hn

theorem onward_hwStep (h : Tidy l s) (e : HwEvent) (hs : hwStep s e = some t) : Onward l s t := by
  refine ⟨⟨good_hwStep kept_phase h.ready e hs, once_hwStep h.once h.ready.single e hs, ?_,
    fun ep hv hout => ?_⟩,
    fun ep acc hv hin hc => hwStep_carries h.ready h.once h.owned hv hin e hs hc⟩
  · exact (Keeps.of_frame (hwStep_frame e hs)).inside h.owned.inside
  · exact hwStep_outPages h.ready hv e hs (h.owned.outside ep hv hout)

theorem onward_hardware (h : Tidy l s) (es : List HwEvent) : Onward l s (hardware s es) := by
  apply hardware_invariant (I := fun t => Onward l s t) ?_ es s (Onward.refl h)
  intro t e u ht hu
  exact ht.trans (onward_hwStep ht.tidy e hu)

theorem onward_waitFor (h : Tidy l s) (cond : Usbd → Bool) (hw : List (List HwEvent))
    (hc : waitFor cond s hw = .ok t) : Onward l s t := by
  induction hw generalizing s with
  | nil =>
    simp only [waitFor] at hc
    split at hc
    next =>
      cases hc
      exact Onward.refl h
    next => cases hc
  | cons e es ih =>
    simp only [waitFor] at hc
    split at hc
    next =>
      cases hc
      exact Onward.refl h
    next =>
      have he := onward_hardware h e
      exact he.trans (ih he.tidy hc)

theorem onward_arm (h : Tidy l s) : Onward l s (arm s) :=
  onward_same h same_registers rfl h.ready.noted

theorem onward_tripwire (h : Tidy l s) (q : ℕ) (rounds : List (List HwEvent)) :
    Onward l s (tripwire s q rounds).1 := by
  induction rounds generalizing s with
  | nil => exact onward_arm h
  | cons e rounds ih =>
    have harm := onward_arm h
    have hhw := harm.trans (onward_hardware harm.tidy e)
    unfold tripwire
    simp only
    split
    next => exact hhw
    next => exact hhw.trans (ih hhw.tidy)

theorem onward_takeSetup (h : Tidy l s) (ep : EndpointAddress) :
    Onward l s (takeSetup s ep).1 := by
  rw [takeSetup_eq]
  exact onward_same h same_registers rfl h.ready.noted

theorem onward_readSetup (h : Tidy l s) {q : ℕ} {buf : Lent} {hw : During} {bytes : List UInt8}
    (hc : readSetup s ep q buf hw = .ok (t, bytes)) : Onward l s t := by
  unfold readSetup at hc
  obtain ⟨_, -, hc⟩ := bind_ok hc
  have hwrite : Onward l s (writeEndptsetupstat s ((mask 16 ep.index).setWidth 32)) :=
    onward_same h same_registers rfl h.ready.noted
  have hbefore := hwrite.trans (onward_hardware hwrite.tidy hw.before)
  have htrip := hbefore.trans (onward_tripwire hbefore.tidy q hw.rounds)
  generalize tripwire (hardware (writeEndptsetupstat s ((mask 16 ep.index).setWidth 32)) hw.before)
    q hw.rounds = p at hc htrip
  obtain ⟨v, hv, hc⟩ := bind_ok hc
  cases hc
  rw [request_eq hv]
  have hlast := onward_same (t := { clearInterrupt (disarm p.1) with
      inner := { p.1.inner with
        preStatusOut := if isGetDescriptor p.2 then 1 else p.1.inner.preStatusOut }
      endptctrl1 := t.endptctrl1 }) htrip.tidy
    same_registers rfl htrip.tidy.ready.noted
  exact htrip.trans hlast

theorem slot_used (h : Phased s) (hv : ep.isValid = true) {d : ℕ} (hd : d % 32 = 0)
    (hs : Slot d (view s ep)) : isEpBeingUsed s ep = true := by
  by_contra hu
  rw [h.free ep hv ((Bool.not_eq_true _).mp hu)] at hs
  have hne := ne_noNextDtd hd
  rcases hs with ⟨-, hn⟩ | ⟨hc, -⟩
  · exact hne hn.symm
  · exact hne hc.symm

theorem in_ne_out {ep' : EndpointAddress} (hin : ep'.isOut = false) (hout : ep.isOut = true) :
    ep' ≠ ep := by
  rintro rfl
  cases hin.symm.trans hout

/-- None of the IN endpoints that are primed is fetched in the gap. -/
def InsUnfetched (s : Usbd) (gap : List HwEvent) : Prop :=
  ∀ ep, ep.isValid = true → ep.isOut = false → Unfetched s ep gap

theorem page_hardware (s : Usbd) (gap : List HwEvent) (d : ℕ) :
    ((hardware s gap).dtd d).page0 = (s.dtd d).page0 := by
  refine hardware_invariant (I := fun t => (t.dtd d).page0 = (s.dtd d).page0)
    (fun t e u ht hu => ?_) gap s rfl
  refine Eq.trans ?_ ht
  cases hwStep_happens hu with
  | fetch ep hv hprime =>
    unfold fetch
    simp only
    split <;> rfl
  | load | setup | status => rfl
  | sent | received =>
    simp only [retire, Usbd.fillBuffer, Usbd.setDqh, Usbd.setDtd, Function.update_apply]
    split
    next hd => rw [hd]
    next => rfl

/-- Bits of ENDPTPRIME are set, of OUT endpoints whose page is not an IN buffer and of IN endpoints
that have them set. -/
theorem onward_endptprime (h : Tidy l s) (bits : BitVec 32)
    (hready : Phased (writeEndptprime s bits))
    (hin : ∀ ep, ep.isValid = true → ep.isOut = false → bits.getLsbD (endptBit ep) = true →
      (view s ep).prime = true)
    (hpage : ∀ ep, ep.isValid = true → ep.isOut = true → bits.getLsbD (endptBit ep) = true →
      ∀ d, d % 32 = 0 → Slot d (view s ep) → Foreign s (s.dtd d).page0) :
    Onward l s (writeEndptprime s bits) := by
  have hk : Keeps s (writeEndptprime s bits) := ⟨⟨rfl, rfl⟩, fun _ _ => rfl⟩
  have hviews : ∀ ep, ep.isValid = true → ep.isOut = false →
      view (writeEndptprime s bits) ep = view s ep := by
    intro ep hv hi
    rw [writeEndptprime_view]
    cases hbit : bits.getLsbD (endptBit ep) with
    | false => rw [Bool.or_false]
    | true => rw [Bool.or_true, ← hin ep hv hi hbit]
  refine ⟨⟨hready, once_view h.once hviews, hk.inside h.owned.inside, fun ep hv hout => ?_⟩,
    fun ep acc hv hi hc => carries_congr hc (hviews ep hv hi) ⟨rfl, rfl, rfl⟩ rfl rfl
      (fun _ => rfl) fun _ _ => rfl⟩
  have ho := h.owned.outside ep hv hout
  have hview := writeEndptprime_view s bits ep
  cases hbit : bits.getLsbD (endptBit ep) with
  | false =>
    rw [hbit, Bool.or_false] at hview
    exact outPages_congr hk ho hview rfl rfl rfl fun _ _ _ => rfl
  | true =>
    refine ⟨ho.buffer, fun hst => ?_, fun _ _ d hd hs => ?_⟩
    · rw [hview] at hst
      exact ho.loaded hst
    · rw [hview] at hs
      exact hk.foreign (hpage ep hv hout hbit d hd hs)

theorem later_slot (h : Tidy l s) (gap : List HwEvent) (hv : ep.isValid = true) {d : ℕ}
    (hd : d % 32 = 0) (hs : Slot d (view (hardware s gap) ep)) :
    isEpBeingUsed s ep = true ∧ Slot d (view s ep) := by
  have heff : Effect false s (hardware s gap) := hardware_effect h.ready.single gap
  have hu := slot_used (onward_hardware h gap).tidy.ready hv hd hs
  rw [isEpBeingUsed_congr heff.used] at hu
  exact ⟨hu, h.ready.slot_back kept_phase heff hd hu hs⟩

theorem later_foreign (s : Usbd) (gap : List HwEvent) {d : ℕ} (h : Foreign s (s.dtd d).page0) :
    Foreign (hardware s gap) ((hardware s gap).dtd d).page0 := by
  rw [page_hardware]
  exact (Keeps.of_frame (hardware_frame gap s)).foreign h

theorem onward_prime (h : Tidy l s) (hv : ep.isValid = true) (hout : ep.isOut = true)
    {gap : List HwEvent} (hgap : InsUnfetched s gap) (hready : Phased (prime s ep gap))
    (hpage : ∀ d, d % 32 = 0 → Slot d (view s ep) → Foreign s (s.dtd d).page0) :
    Onward l s (prime s ep gap) := by
  have hwait := onward_hardware h gap
  refine hwait.trans (onward_endptprime hwait.tidy _ hready (fun x hvx hin hbit => ?_)
    fun x hvx hout' hbit d hd hs => ?_)
  · rcases (primeBits_iff s hv hvx).mp hbit with hp | rfl
    · rw [prime_hardware hvx gap (hgap x hvx hin hp)]
      exact hp
    · cases hin.symm.trans hout
  · obtain ⟨hu, hs⟩ := later_slot h gap hvx hd hs
    apply later_foreign s gap
    rcases (primeBits_iff s hv hvx).mp hbit with hp | rfl
    · exact (h.owned.outside x hvx hout').next (Or.inl hp) hu d hd hs
    · exact hpage d hd hs

theorem onward_released (h : Tidy l s) (hv : ep.isValid = true) (hout : ep.isOut = true)
    (hdone : (view s ep).complete = true) {d : ℕ} (hd : d % 32 = 0) (hs : Slot d (view s ep)) :
    Onward l s (released s ep d) := by
  have heff : Effect false s (released s ep d) := release_effect h.ready.single ep hv hdone hd hs
  have hdqh : ∀ q, ((released s ep d).dqhs q).token = (s.dqhs q).token ∧
      ((released s ep d).dqhs q).page0 = (s.dqhs q).page0 ∧
      ((released s ep d).dqhs q).addr = (s.dqhs q).addr := by
    intro q
    by_cases hq : q = epaddr2dqhidx ep
    · subst q
      simp [released, releaseDtd, clearInterrupt, writeEndptcomplete, writeUsbsts, Usbd.setDqh,
        DQH.clearCurrentDtd, DQH.setNextDtd]
    · simp [released, releaseDtd, clearInterrupt, writeEndptcomplete, writeUsbsts, Usbd.setDqh, hq]
  have hk : Keeps s (released s ep d) := ⟨⟨rfl, rfl⟩, fun ep _ => (hdqh _).2.2⟩
  have hviews : ∀ ep', ep'.isValid = true → ep'.isOut = false →
      view (released s ep d) ep' = view s ep' := fun ep' hv' hin =>
    released_other s ep d hv ep' hv' (in_ne_out hin hout)
  refine ⟨⟨good_effect kept_phase h.ready heff h.ready.noted, once_view h.once hviews,
    hk.inside h.owned.inside, fun ep' hv' hout' => ?_⟩, fun ep' acc hv' hin hc =>
    carries_congr hc (hviews ep' hv' hin) (hdqh _) rfl rfl (fun _ => rfl) fun _ _ => rfl⟩
  have ho := h.owned.outside ep' hv' hout'
  by_cases he : ep' = ep
  · subst ep'
    have hself := released_view s ep d
    refine ⟨fun a ha => ?_, fun hst => ?_, fun hp _ d' hd' hs' => ?_⟩
    · have hold : bufferOf s ep = some a := (hdqh _).2.2.symm.trans ha
      exact hk.foreign (ho.buffer a hold)
    · rw [hself] at hst
      rw [(hdqh _).2.1]
      exact hk.foreign (ho.loaded hst)
    · rw [hself] at hp hs'
      have heq : d' = d := slot_unique hd' hd hs' (Or.inl ⟨rfl, rfl⟩)
      rw [heq]
      exact hk.foreign (ho.next hp (slot_used h.ready hv hd hs) d hd hs)
  · exact outPages_congr hk ho (released_other s ep d hv ep' hv' he) rfl (hdqh _).2.2
      (hdqh _).2.1 fun _ _ _ => rfl

theorem onward_setDtd (h : Tidy l s) (hv : ep.isValid = true) (hout : ep.isOut = true) {d : ℕ}
    (hd : d % 32 = 0) (hs : Slot d (view s ep)) (token : Token) {a : ℕ} (ha : Foreign s a) :
    Onward l s (s.setDtd d ({ s.dtd d with token := token }.setPages a)) := by
  have hk : Keeps s (s.setDtd d ({ s.dtd d with token := token }.setPages a)) :=
    ⟨⟨rfl, rfl⟩, fun _ _ => rfl⟩
  have hsingle := setDtd_single h.ready.single d ({ s.dtd d with token := token }.setPages a)
    (h.ready.single d)
  have heff : Effect false s (s.setDtd d ({ s.dtd d with token := token }.setPages a)) :=
    .same (fun _ => rfl) hsingle rfl rfl
  have hused := slot_used h.ready hv hd hs
  have hother : ∀ ep', ep'.isValid = true → ep' ≠ ep → ∀ d', d' % 32 = 0 → Slot d' (view s ep') →
      d' ≠ d := by
    intro ep' hv' hne d' hd' hs' heq
    subst d'
    exact hne (h.ready.own ep' ep d hd (slot_used h.ready hv' hd hs') hused hs' hs)
  refine ⟨⟨good_effect kept_phase h.ready heff h.ready.noted, once_view h.once fun _ _ _ => rfl,
    hk.inside h.owned.inside, fun ep' hv' hout' => ?_⟩, fun ep' acc hv' hin hc => ?_⟩
  · have ho := h.owned.outside ep' hv' hout'
    by_cases he : ep' = ep
    · subst ep'
      refine ⟨ho.buffer, ho.loaded, fun _ _ d' hd' hs' => ?_⟩
      have heq : d' = d := slot_unique hd' hd hs' hs
      subst d'
      simpa [Usbd.setDtd, DTD.setPages] using hk.foreign ha
    · apply outPages_congr hk ho rfl rfl rfl rfl
      intro d' hd' hs'
      have hne := hother ep' hv' he d' hd' hs'
      simp [Usbd.setDtd, hne]
  · have he := in_ne_out hin hout
    refine carries_congr (t := s.setDtd d ({ s.dtd d with token := token }.setPages a)) hc rfl
      ⟨rfl, rfl, rfl⟩ rfl rfl (fun hp => ?_) fun _ _ => rfl
    obtain ⟨hd', hs'⟩ := phased_primed h.ready h.once hv' hin hp
    have hne := hother ep' hv' he _ hd' hs'
    simp [Usbd.setDtd, hne]

theorem onward_setAddr (h : Tidy l s) (hout : ep.isOut = true) {a : ℕ} (ha : Foreign s a) :
    Onward l s (s.setDqh (epaddr2dqhidx ep) { s.dqhs (epaddr2dqhidx ep) with addr := some a }) := by
  have hview : ∀ ep', view (s.setDqh (epaddr2dqhidx ep)
      { s.dqhs (epaddr2dqhidx ep) with addr := some a }) ep' = view s ep' := by
    intro ep'
    by_cases hq : epaddr2dqhidx ep' = epaddr2dqhidx ep
    · simp [view, Usbd.setDqh, hq]
    · simp [view, Usbd.setDqh, hq]
  have heff : Effect false s (s.setDqh (epaddr2dqhidx ep)
      { s.dqhs (epaddr2dqhidx ep) with addr := some a }) := .same hview h.ready.single rfl rfl
  have hk : Keeps s (s.setDqh (epaddr2dqhidx ep)
      { s.dqhs (epaddr2dqhidx ep) with addr := some a }) := by
    refine ⟨⟨rfl, rfl⟩, fun ep' hin => ?_⟩
    simp [bufferOf, Usbd.setDqh, dqhidx_ne (in_ne_out hin hout)]
  refine ⟨⟨good_effect kept_phase h.ready heff h.ready.noted,
    once_view h.once fun ep' _ _ => hview ep', hk.inside h.owned.inside,
    fun ep' hv' hout' => ?_⟩, fun ep' acc hv' hin hc => ?_⟩
  · have ho := h.owned.outside ep' hv' hout'
    by_cases he : ep' = ep
    · subst ep'
      refine ⟨fun b hb => ?_, fun hst => ?_, fun hp hu d hd hs => ?_⟩
      · have heq : a = b := by simpa [bufferOf, Usbd.setDqh] using hb
        rw [← heq]
        exact hk.foreign ha
      · rw [hview] at hst
        simpa [Usbd.setDqh] using hk.foreign (ho.loaded hst)
      · rw [hview] at hp hs
        exact hk.foreign (ho.next hp hu d hd hs)
    · have hq := dqhidx_ne he
      apply outPages_congr hk ho (hview ep') rfl
      · simp [bufferOf, Usbd.setDqh, hq]
      · simp [Usbd.setDqh, hq]
      · intro _ _ _
        rfl
  · have hq := dqhidx_ne (in_ne_out hin hout)
    apply carries_congr hc (hview ep')
    · simp [Usbd.setDqh, hq]
    · rfl
    · rfl
    · intro _
      rfl
    · intro _ _
      rfl

theorem onward_controlReady (h : Tidy l s) (hv : ep.isValid = true) (hout : ep.isOut = true)
    {d : ℕ} (hd : d % 32 = 0) (hs : Slot d (view s ep)) (token : Token) {a : ℕ}
    (ha : Foreign s a) : Onward l s (controlReady s ep d token a) := by
  have hset := onward_setDtd h hv hout hd hs token ha
  have hk : Keeps s (s.setDtd d ({ s.dtd d with token := token }.setPages a)) :=
    ⟨⟨rfl, rfl⟩, fun _ _ => rfl⟩
  exact hset.trans (onward_setAddr hset.tidy hout (hk.foreign ha))

theorem onward_readControl (h : Tidy l s) (hs : Stable s) (hep : ep = controlOut)
    {buf : Lent} {hw : During} {bytes : List UInt8} (ha : Foreign s buf.addr)
    (hgap : InsUnfetched s hw.priming)
    (hc : readControl s ep (epaddr2dqhidx ep) buf hw = .ok (t, bytes)) : Onward l s t := by
  have hv : ep.isValid = true := by
    rw [hep]
    rfl
  have hout : ep.isOut = true := by
    rw [hep]
    rfl
  obtain ⟨d₀, hd₀, hs₀⟩ := readControl_slot hs hv hc
  obtain ⟨hnone, d, token, u, hd, -, hwait, rfl⟩ := readControl_ok hc
  obtain ⟨hnext, hne⟩ := getNextDtd_some hd
  have hcur := getCurrentDtd_none hnone
  have heq : d₀ = d := (slot_next hd₀ hs₀ hcur).2.symm.trans hnext
  subst d₀
  have hready := onward_controlReady h hv hout hd₀ hs₀ token ha
  have hne' : (view s ep).next ≠ noNextDtd := by
    rw [view_next, hnext]
    exact hne
  have heff := controlPrimed_effect (d := d) hs hep token buf.addr hw.priming hcur hne'
  have hviews := controlReady_view s ep d token buf.addr
  have hgap' : InsUnfetched (controlReady s ep d token buf.addr) hw.priming := by
    intro x hvx hin hp
    rw [hviews] at hp
    exact hgap x hvx hin hp
  have hnoted : (controlPrimed s ep d token buf.addr hw.priming).inner.epInComplete = none := by
    rw [controlPrimed, (prime_frame _ ep hw.priming).inner]
    exact h.ready.noted
  have hprime := onward_prime hready.tidy hv hout hgap'
    (good_effect kept_phase h.ready heff hnoted) (by
      intro d' hd' hs'
      rw [hviews] at hs'
      have heq : d' = d := slot_unique hd' hd₀ hs' hs₀
      subst d'
      have hbuf := (hready.tidy.owned.outside ep hv hout).buffer buf.addr
        (by simp [controlReady, bufferOf, Usbd.setDqh, Usbd.setDtd])
      simpa [controlReady, Usbd.setDqh, Usbd.setDtd, DTD.setPages] using hbuf)
  have hall := hready.trans hprime
  have hwaited := hall.trans (onward_waitFor hall.tidy _ hw.rounds hwait)
  obtain ⟨hrounds, hdone⟩ := waitFor_effect heff.single _ hw.rounds hwait
  have hdone' := (mask_ne_zero_iff u.endptcomplete ep).mp (of_decide_eq_true hdone)
  have hslot := slot_moves hd₀ hs₀ ((heff.trans hrounds).moves ep hv)
  exact hwaited.trans (onward_released hwaited.tidy hv hout hdone' hd₀ hslot)

theorem onward_reprime (h : Tidy l s) (hs : Stable s) (hv : ep.isValid = true)
    (hdata : dataOut ep = true) (hu : isEpBeingUsed s ep = true) {gap : List HwEvent}
    (hgap : InsUnfetched s gap) : Onward l s (prime s ep gap) := by
  obtain ⟨hout, h0⟩ := Bool.and_eq_true_iff.mp hdata
  have heff : Effect false s (prime s ep gap) :=
    prime_effect hs hv (dataOut_ne hdata) (h.ready.slot kept_phase hu) gap
  have hnoted : (prime s ep gap).inner.epInComplete = none := by
    rw [(prime_frame s ep gap).inner]
    exact h.ready.noted
  apply onward_prime h hv hout hgap (good_effect kept_phase h.ready heff hnoted)
  intro d' hd' hs'
  exact (h.owned.outside ep hv hout).next (Or.inr (of_decide_eq_true h0)) hu d' hd' hs'

theorem onward_readData (h : Tidy l s) (hs : Stable s) (hv : ep.isValid = true)
    (hdata : dataOut ep = true) {buf : Lent} {gap : List HwEvent}
    {r : Except UsbError (List UInt8)}
    (hgap : (view s ep).complete = true → InsUnfetched s gap)
    (hc : readData s ep (epaddr2dqhidx ep) buf gap = .ok (t, r)) : Onward l s t := by
  have hout := (Bool.and_eq_true_iff.mp hdata).1
  rcases readData_ok hc with ⟨-, rfl, -⟩ | ⟨hbit, d, addr, token, _, hd, haddr, -, rfl, -⟩
  · exact Onward.refl h
  · obtain ⟨hcur, hal⟩ := getCurrentDtd_some hd
    have hslot : Slot d (view s ep) := by
      rcases h.ready.blank_or_slot kept_phase hv with hblank | ⟨d', hal', hs'⟩
      · have hno : (view s ep).complete = false := by rw [hblank]; rfl
        exact absurd (hbit.symm.trans hno) (by simp)
      · rcases hs' with ⟨hc', -⟩ | ⟨hc', hn'⟩
        · have hone : d = noNextDtd := hcur.symm.trans hc'
          exact absurd hone (ne_noNextDtd hal)
        · exact Or.inr ⟨hcur, hn'⟩
    have hforeign := (h.owned.outside ep hv hout).buffer addr haddr
    have hset := onward_setDtd h hv hout hal hslot token hforeign
    have hrel := onward_released hset.tidy hv hout hbit hal hslot
    have hu : isEpBeingUsed s ep = true := slot_used h.ready hv hal hslot
    have hsame : Effect false s (s.setDtd d ({ s.dtd d with token := token }.setPages addr)) :=
      .same (fun _ => rfl) (setDtd_single hs.single d _ (hs.single d)) rfl rfl
    have hafter : Effect false _ (released _ ep d) :=
      release_effect hsame.single ep hv hbit hal hslot
    refine (hset.trans hrel).trans (onward_reprime hrel.tidy (hs.effect (hsame.trans hafter)) hv
      hdata hu fun x hvx hin hp => hgap hbit x hvx hin ?_)
    rw [released_other _ ep d hv x hvx (in_ne_out hin hout)] at hp
    exact hp

theorem onward_read (h : Tidy l s) (hs : Stable s) (hout : ep.isOut = true) {buf : Lent}
    {hw : During} (hbuf : buf.addr ∉ l.b64s ++ l.b512s)
    (hgap : TakesData s ep → InsUnfetched s hw.priming) {r : Except UsbError (List UInt8)}
    (hc : Bus.read s ep buf hw = .ok (t, r)) : Onward l s t := by
  have htake := onward_takeSetup h ep
  have hs' := hs.effect (takeSetup_effect hs.single ep)
  have hviews := takeSetup_view s ep
  -- the caller's memory is not one of the static buffers
  have hforeign : Foreign (takeSetup s ep).1 buf.addr := by
    have hin := htake.tidy.owned.inside
    refine ⟨fun hmem => hbuf (hin.static _ hmem), fun ep' hin' ha => ?_⟩
    exact hbuf (hin.taken ep' _ hin' ha).1
  have hwaits : TakesData s ep → InsUnfetched (takeSetup s ep).1 hw.priming := by
    intro hcons x hvx hin hp
    rw [hviews] at hp
    exact hgap hcons x hvx hin hp
  rcases read_ok hc with ⟨rfl, -, -⟩ |
    ⟨hv, ⟨-, bytes, hr, -⟩ | ⟨hno, h0, bytes, hr, -⟩ | ⟨hno, h0, hr⟩⟩
  · exact htake
  · exact htake.trans (onward_readSetup htake.tidy hr)
  · have hcons : TakesData s ep := ⟨hno, fun hne => absurd h0 hne⟩
    exact htake.trans (onward_readControl htake.tidy hs' (out_zero hout h0) hforeign
      (hwaits hcons) hr)
  · have hdata : dataOut ep = true := Bool.and_eq_true_iff.mpr ⟨hout, decide_eq_true h0⟩
    refine htake.trans (onward_readData htake.tidy hs' hv hdata (fun hbit => hwaits ⟨hno, ?_⟩) hr)
    rw [hviews] at hbit
    exact fun _ => hbit

theorem onward_enableEps {gaps : EndpointAddress → List HwEvent} (eps : List EndpointAddress)
    (h : Tidy l s) (hs : Stable s) (heps : ∀ ep ∈ eps, isEpBeingUsed s ep = true)
    (hgaps : ∀ ep ∈ eps, dataOut ep = true → InsUnfetched s (gaps ep)) :
    Onward l s (eps.foldl (enableEp gaps) s) := by
  have hctrl : ∀ {u : Usbd}, Tidy l u → ∀ bits, Onward l u (setEndptctrl1 u bits) := by
    intro u hu bits
    exact onward_same hu same_registers rfl hu.ready.noted
  induction eps generalizing s with
  | nil => exact Onward.refl h
  | cons ep eps ih =>
    have hu := heps ep List.mem_cons_self
    have hv := h.ready.valid ep hu
    have hfirst : Onward l s (enableEp gaps s ep) := by
      obtain ⟨bits, ⟨hdata, heq⟩ | ⟨-, heq⟩⟩ := enableEp_cases gaps s ep <;> rw [heq]
      · have hprime := onward_reprime h hs hv hdata hu (hgaps ep List.mem_cons_self hdata)
        exact hprime.trans (hctrl hprime.tidy bits)
      · exact hctrl h bits
    have heff : Effect false s (enableEp gaps s ep) :=
      enableEp_effect hs hv (h.ready.slot kept_phase hu)
    refine hfirst.trans (ih hfirst.tidy (hs.effect heff) (fun ep' hep' => ?_) fun ep' hep' hd => ?_)
    · rw [isEpBeingUsed_congr heff.used]
      exact heps ep' (List.mem_cons_of_mem _ hep')
    · intro x hvx hin hp
      exact hgaps ep' (List.mem_cons_of_mem _ hep') hd x hvx hin (enableEp_primed hv hvx hin hp)

end UsbArmory.Usb.Delivery
