import UsbArmory.Usb.OutCalls

/-!
# Reads keep the OUT endpoints armed

A read of OUT data from endpoint 0 arms it with the slice of the caller, and
that is over when the read returns; a read from another endpoint arms it again
with its static buffer.
-/

set_option autoImplicit false

namespace UsbArmory.Usb.OutReads
open UsbArmory.Library.Bits UsbArmory.Library.Run UsbArmory.Usb.Descriptors
open UsbArmory.Usb.Controller UsbArmory.Usb.Bus UsbArmory.Usb.Endpoint UsbArmory.Usb.Effects
open UsbArmory.Usb.EndWrite UsbArmory.Usb.Write UsbArmory.Usb.Poll UsbArmory.Usb.Read
open UsbArmory.Usb.Configure UsbArmory.Usb.Invariant UsbArmory.Usb.Runs UsbArmory.Usb.Memory
open UsbArmory.Usb.Transfer UsbArmory.Usb.ResetSteps
open UsbArmory.Usb.Books UsbArmory.Usb.Bookkeeping UsbArmory.Usb.BookedCalls
open UsbArmory.Usb.Arrivals UsbArmory.Usb.OutBuffers UsbArmory.Usb.OutCalls

variable {l : Layout} {s t : Usbd} {ep x : EndpointAddress} {buf : Lent} {hw : During}

theorem moored_takeSetup (h : Moored l buf s) (ep : EndpointAddress) :
    Moored l buf (takeSetup s ep).1 := by
  rw [takeSetup_eq]
  exact moored_same h same_registers (fun _ => rfl) rfl h.good.noted

theorem moored_readSetup (h : Moored l buf s) {q : ℕ} {lent : Lent} {bytes : List UInt8}
    (hc : readSetup s ep q lent hw = .ok (t, bytes)) : Moored l buf t := by
  unfold readSetup at hc
  obtain ⟨_, -, hc⟩ := bind_ok hc
  have hwrite : Moored l buf (writeEndptsetupstat s ((mask 16 ep.index).setWidth 32)) :=
    moored_same h same_registers (fun _ => rfl) rfl h.good.noted
  have htrip := moored_tripwire (moored_hardware hwrite hw.before) q hw.rounds
  generalize tripwire (hardware (writeEndptsetupstat s ((mask 16 ep.index).setWidth 32)) hw.before)
    q hw.rounds = p at hc htrip
  obtain ⟨v, hv, hc⟩ := bind_ok hc
  cases hc
  rw [request_eq hv]
  exact moored_same htrip same_registers (fun _ => rfl) rfl htrip.good.noted

theorem leaves_turn {a : ℕ} {e : HwEvent} (h : Turn s ep a t e) (hst : (view s ep).stat = false) :
    Leaves s ep a t := by
  cases h with
  | still _ _ _ _ _ hl => exact hl
  | skipped _ _ _ hl => exact hl
  | fetched _ _ _ _ hl => exact hl
  | received status bytes hstat => exact absurd (hst.symm.trans hstat) (by decide)

theorem queued_hardware (h : Moored l buf s) (hfresh : buf.addr ∉ l.b64s ++ l.b512s)
    (hrest : AtRest s controlOut) (hal : (view s controlOut).next % 32 = 0) (es : List HwEvent) :
    (hardware s es).dtd (view s controlOut).next = s.dtd (view s controlOut).next := by
  have hall : Moored l buf (hardware s es) ∧ view (hardware s es) controlOut = view s controlOut ∧
      (hardware s es).dtd (view s controlOut).next = s.dtd (view s controlOut).next := by
    refine hardware_invariant (I := fun u => Moored l buf u ∧
      view u controlOut = view s controlOut ∧
      u.dtd (view s controlOut).next = s.dtd (view s controlOut).next)
      (fun u e v hu he => ?_) es s ⟨h, rfl, rfl⟩
    obtain ⟨hm, hview, hdtd⟩ := hu
    have hrest' := hrest.congr hview
    have hleaves := leaves_turn (turn_served hm hfresh he) hrest'.stat
    rw [← hview] at hal hdtd ⊢
    exact ⟨moored_hwStep hm he, rest_hwStep controlOut_valid hrest' he,
      (hleaves.dtd hal).trans hdtd⟩
  exact hall.2.2

theorem moored_controlReady (h : Moored l ⟨0, 0⟩ s) (hrest : AtRest s controlOut)
    (hcur : (view s controlOut).current = noNextDtd) {d : ℕ} {token : Token}
    (hd : (s.dqhs (epaddr2dqhidx controlOut)).getNextDtd = some d)
    (htoken : activeToken buf.cap = some token) (hfresh : buf.addr ∉ l.b64s ++ l.b512s) :
    Moored l buf (controlReady s controlOut d token buf.addr) := by
  obtain ⟨hnext, hne⟩ := getNextDtd_some hd
  have hnext' : (view s controlOut).next = d := hnext
  have hal : d % 32 = 0 := by
    rw [← hnext']
    exact next_aligned kept_staged h.good controlOut_valid (by rw [hnext']; exact hne)
  have hview := controlReady_view s controlOut d token buf.addr
  have heff := controlReady_effect h.good.single controlOut d token buf.addr
  refine ⟨good_effect kept_staged h.good heff h.good.noted, fun ep hu hout h0 => ?_,
    armed_rest rfl (hrest.congr (hview controlOut)), .inr ⟨hfresh, activeToken_lt htoken⟩⟩
  have hv := h.good.valid ep hu
  have hne' : ep ≠ controlOut := by
    rintro rfl
    exact h0 rfl
  have hdqh : (controlReady s controlOut d token buf.addr).dqhs (epaddr2dqhidx ep) =
      s.dqhs (epaddr2dqhidx ep) := by
    simp [controlReady, Usbd.setDqh, Usbd.setDtd, dqhidx_ne hne']
  refine posted_same (h.posted ep hu hout h0) hdqh (hview ep) fun a _ _ =>
    ⟨fun hal' => ?_, rfl, rfl⟩
  have hdiff := next_ne_slot h.good hv controlOut_valid hne' hal' hal (.inl ⟨hcur, hnext'⟩)
  simp [controlReady, Usbd.setDqh, Usbd.setDtd, hdiff]

theorem moored_controlPrimed (h : Moored l ⟨0, 0⟩ s) (hrest : AtRest s controlOut)
    (hcur : (view s controlOut).current = noNextDtd) {d : ℕ} {token : Token}
    (hd : (s.dqhs (epaddr2dqhidx controlOut)).getNextDtd = some d)
    (htoken : activeToken buf.cap = some token) (hfresh : buf.addr ∉ l.b64s ++ l.b512s)
    (gap : List HwEvent) :
    Moored l buf (controlPrimed s controlOut d token buf.addr gap) := by
  obtain ⟨hnext, hne⟩ := getNextDtd_some hd
  have hnext' : (view s controlOut).next = d := hnext
  have hstable := moored_stable h hrest
  have heff := controlPrimed_effect hstable rfl (d := d) token buf.addr gap
    (by rw [hcur]; exact noNextDtd_mod) (by rw [hnext']; exact hne)
  have hview := controlPrimed_self hstable d token buf.addr gap
  have hready := moored_controlReady h hrest hcur hd htoken hfresh
  have hviewReady := controlReady_view s controlOut d token buf.addr controlOut
  have hgap := moored_hardware hready gap
  have hgood : Good Staged (controlPrimed s controlOut d token buf.addr gap) := by
    refine good_effect kept_staged h.good heff ?_
    rw [controlPrimed, (prime_frame _ controlOut gap).inner]
    exact h.good.noted
  refine ⟨hgood, fun ep hu hout h0 => ?_, ?_, .inr ⟨hfresh, activeToken_lt htoken⟩⟩
  · obtain ⟨a, ha, hbuf, hmax, harmed⟩ := hgap.posted ep hu hout h0
    exact ⟨a, ha, hbuf, hmax, armed_congr harmed rfl (fun _ => .inr h0) id id rfl
      ⟨fun _ => rfl, rfl, rfl⟩⟩
  · refine ⟨fun _ => ?_, fun _ => ?_, fun _ hal => ?_, fun hst => ?_, fun hyes => ?_⟩
    · rw [hview]
      exact ⟨hrest.stat, hrest.complete⟩
    · rw [hview]
      exact hrest.complete
    · rw [hview] at hal ⊢
      have hdtd := queued_hardware hready hfresh (hrest.congr hviewReady)
        (by rw [hviewReady]; exact hal) gap
      have htotal := getTotalBytes_activeToken buf.cap token htoken
      rw [hviewReady] at hdtd
      dsimp only at hal ⊢
      rw [show (controlPrimed s controlOut d token buf.addr gap).dtd =
        (hardware (controlReady s controlOut d token buf.addr) gap).dtd from rfl, hdtd, hnext']
      simpa [controlReady, Usbd.setDqh, Usbd.setDtd, DTD.setPages] using htotal
    · rw [hview] at hst
      exact absurd (hrest.stat.symm.trans hst) (by decide)
    · rw [hview] at hyes
      exact absurd (hrest.complete.symm.trans hyes) (by decide)

theorem released_dqh (s : Usbd) (d : ℕ) (hne : ep ≠ x) :
    (released s x d).dqhs (epaddr2dqhidx ep) = s.dqhs (epaddr2dqhidx ep) := by
  simp [released, releaseDtd, clearInterrupt, writeEndptcomplete, writeUsbsts, Usbd.setDqh,
    dqhidx_ne hne]

theorem posted_readControl (h : Inbound l s) (hfresh : buf.addr ∉ l.b64s ++ l.b512s)
    {bytes : List UInt8}
    (hc : readControl s controlOut (epaddr2dqhidx controlOut) buf hw = .ok (t, bytes))
    (hu : isEpBeingUsed t ep = true) (hout : ep.isOut = true) (h0 : ep.index ≠ 0) :
    Posted l t ep := by
  obtain ⟨hnone, d, token, u, hd, htoken, hwait, rfl⟩ := readControl_ok hc
  have hprimed := moored_controlPrimed h.moored h.rest h.current hd htoken hfresh hw.priming
  have hm := moored_waitFor hprimed hwait
  have hne : ep ≠ controlOut := by
    rintro rfl
    exact h0 rfl
  exact posted_same (hm.posted ep hu hout h0) (released_dqh u d hne)
    (released_other u controlOut d controlOut_valid ep (hm.good.valid ep hu) hne) fun _ _ _ =>
    ⟨fun _ => rfl, rfl, rfl⟩

theorem armed_released {a d m : ℕ} {token : Token} (ha : Armed s ep a m)
    (hbit : (view s ep).complete = true) (htotal : token.getTotalBytes = m) :
    Armed (released (s.setDtd d ({ s.dtd d with token := token }.setPages a)) ep d) ep a m := by
  have hview := released_view (s.setDtd d ({ s.dtd d with token := token }.setPages a)) ep d
  have hstat : (view s ep).stat = false :=
    Bool.eq_false_iff.mpr fun hst => absurd ((ha.once hst).symm.trans hbit) (by decide)
  refine ⟨fun _ => ?_, fun _ => ?_, fun _ _ => ?_, fun hst => ?_, fun hyes => ?_⟩
  · rw [hview]
    exact ⟨hstat, rfl⟩
  · rw [hview]
  · rw [hview]
    simpa [released, releaseDtd, clearInterrupt, writeEndptcomplete, writeUsbsts, Usbd.setDqh,
      Usbd.setDtd, DTD.setPages] using htotal
  · rw [hview] at hst
    exact absurd (hstat.symm.trans hst) (by decide)
  · rw [hview] at hyes
    cases hyes

theorem moored_readData (h : Inbound l s) (hvx : x.isValid = true) (hox : x.isOut = true)
    (hx0 : x.index ≠ 0) {gap : List HwEvent} {r : Except UsbError (List UInt8)}
    (hc : readData s x (epaddr2dqhidx x) buf gap = .ok (t, r)) : Moored l ⟨0, 0⟩ t := by
  rcases readData_ok hc with ⟨-, rfl, -⟩ | ⟨hbit, d, addr, token, _, hd, haddr, htoken, rfl, -⟩
  · exact h.moored
  · have hne : x ≠ controlOut := by
      rintro rfl
      exact hx0 rfl
    have hstable := moored_stable h.moored h.rest
    obtain ⟨hcur, hal⟩ := getCurrentDtd_some hd
    have hux : isEpBeingUsed s x = true := by
      by_contra hfree
      have hcurrent : (view s x).current = d := hcur
      rw [h.moored.good.free x hvx ((Bool.not_eq_true _).mp hfree)] at hcurrent
      exact ne_noNextDtd hal hcurrent.symm
    have hslot : Slot d (view s x) := by
      obtain ⟨d', hd', hslot⟩ := h.moored.good.slot kept_staged hux
      rcases hslot with ⟨hnone, -⟩ | ⟨hc, hn⟩
      · exact absurd (hcur.symm.trans hnone) (ne_noNextDtd hal)
      · exact .inr ⟨hcur, hn⟩
    obtain ⟨a, ha, hbuf, hmax, harmed⟩ := h.moored.posted x hux hox hx0
    obtain rfl : a = addr := Option.some.inj (hbuf.symm.trans haddr)
    have hset : Effect false s (s.setDtd d ({ s.dtd d with token := token }.setPages a)) :=
      .same (fun _ => rfl) (setDtd_single hstable.single d _ (hstable.single d)) rfl rfl
    have hrel : Effect false (s.setDtd d ({ s.dtd d with token := token }.setPages a))
        (released (s.setDtd d ({ s.dtd d with token := token }.setPages a)) x d) :=
      release_effect hset.single x hvx hbit hal hslot
    have heff := hset.trans hrel
    have hrest := (hstable.effect heff).rest
    have hself : Slotted (released
        (s.setDtd d ({ s.dtd d with token := token }.setPages a)) x d) x :=
      ⟨d, hal, slot_moves hal hslot (heff.moves x hvx)⟩
    refine moored_prime ⟨good_effect kept_staged h.moored.good heff h.moored.good.noted,
      fun ep hu hout h0 => ?_, armed_rest rfl hrest, .inl hrest⟩ hrest hvx hne hself gap
    have hep : ep = x := by
      by_contra hne'
      have hv := h.moored.good.valid ep hu
      exact hx0 (congrArg EndpointAddress.index (out_unique hv hvx hout hox h0 (Ne.symm hne')))
    subst hep
    have hkept : bufferOf (released (s.setDtd d ({ s.dtd d with token := token }.setPages a)) ep d)
          ep = bufferOf s ep ∧
        ((released (s.setDtd d ({ s.dtd d with token := token }.setPages a)) ep d).dqhs
          (epaddr2dqhidx ep)).getMaxPacketSize = (s.dqhs (epaddr2dqhidx ep)).getMaxPacketSize := by
      simp [bufferOf, released, releaseDtd, clearInterrupt, writeEndptcomplete, writeUsbsts,
        Usbd.setDqh, Usbd.setDtd, DQH.clearCurrentDtd, DQH.setNextDtd, DQH.getMaxPacketSize]
    refine ⟨a, ha, hkept.1.trans hbuf, ?_, ?_⟩ <;> rw [hkept.2]
    · exact hmax
    · exact armed_released harmed hbit (getTotalBytes_activeToken _ token htoken)

theorem inbound_takeSetup (h : Inbound l s) (ep : EndpointAddress) :
    Inbound l (takeSetup s ep).1 := by
  have htake := moored_takeSetup h.moored ep
  rw [takeSetup_eq] at htake ⊢
  exact ⟨htake, ⟨h.rest.prime, h.rest.stat, h.rest.complete⟩, h.current, h.bare, h.balanced⟩

theorem posted_read (h : Inbound l s) (hox : x.isOut = true)
    (hfresh : buf.addr ∉ l.b64s ++ l.b512s) {r : Except UsbError (List UInt8)}
    (hc : Bus.read s x buf hw = .ok (t, r)) (hu : isEpBeingUsed t ep = true)
    (hout : ep.isOut = true) (h0 : ep.index ≠ 0) : Posted l t ep := by
  have hin := inbound_takeSetup h x
  rcases read_ok hc with ⟨rfl, -, -⟩ |
    ⟨hvx, ⟨-, bytes, hread, -⟩ | ⟨-, hx0, bytes, hread, -⟩ | ⟨-, hx0, hread⟩⟩
  · exact hin.moored.posted ep hu hout h0
  · exact (moored_readSetup hin.moored hread).posted ep hu hout h0
  · obtain rfl := out_zero hox hx0
    exact posted_readControl hin hfresh hread hu hout h0
  · exact (moored_readData hin hvx hox hx0 hread).posted ep hu hout h0

theorem current_read (h : Inbound l s) (hox : x.isOut = true) {r : Except UsbError (List UInt8)}
    (hc : Bus.read s x buf hw = .ok (t, r)) : (view t controlOut).current = noNextDtd := by
  have hstable := moored_stable h.moored h.rest
  have heff := read_effect hstable hox hc
  cases hfree : readsControl s x with
  | false =>
    rw [hfree] at heff
    rw [quiet_moves hstable.rest (heff.moves controlOut rfl)]
    exact h.current
  | true =>
    obtain ⟨h0, hno⟩ := Bool.and_eq_true_iff.mp hfree
    obtain rfl := out_zero hox (of_decide_eq_true h0)
    rcases read_ok hc with ⟨-, hv, -⟩ |
      ⟨-, ⟨hcached, -⟩ | ⟨-, -, bytes, hread, -⟩ | ⟨-, hne, -⟩⟩
    · cases hv
    · rw [hcached] at hno
      cases hno
    · obtain ⟨-, d, token, u, -, -, -, rfl⟩ := readControl_ok hread
      rw [released_view]
    · exact absurd rfl hne

theorem current_call (h : Inbound l s) {c : Call} {r : Response} (ha : Allowed l c)
    (hc : call s c = .ok (t, r)) : (view t controlOut).current = noNextDtd := by
  have hstable := moored_stable h.moored h.rest
  have hkept : Effect false s t → (view t controlOut).current = noNextDtd := by
    intro heff
    rw [quiet_moves hstable.rest (heff.moves controlOut rfl)]
    exact h.current
  have hgood := h.moored.good
  cases c with
  | allocEp dir addr ty n =>
    obtain ⟨⟨u, res⟩, hp, heq⟩ := map_ok hc
    cases heq
    rcases allocEp_ok hp with ⟨rfl, -⟩ | ⟨x, hx, -⟩
    · exact h.current
    · rw [Allocation.allocated_current hx]
      exact h.current
  | enable =>
    cases hc
    exact h.current
  | setDeviceAddress addr gaps =>
    cases hc
    exact hkept (setDeviceAddress_effect hstable addr (allocatedEps_slotted kept_staged hgood))
  | reset wait =>
    obtain ⟨v, hv, heq⟩ := map_ok hc
    cases heq
    obtain ⟨u, hu, rfl⟩ := reset_ok hv
    have hcleared : AtRest (cleared s) controlOut := by
      constructor <;> rw [cleared_view]
      · exact h.rest.prime
      · exact h.rest.stat
    have hwait := rests_waitFor (s := cleared s) hgood.single controlOut_valid hcleared hu
    rw [flushed_view, hwait.view, cleared_view]
    exact h.current
  | poll h₁ h₂ =>
    obtain ⟨⟨u, res⟩, hp, heq⟩ := map_ok hc
    cases heq
    exact hkept (poll_effect hgood.single hgood.noted hp)
  | read x buf hw =>
    obtain ⟨⟨u, res⟩, hp, heq⟩ := map_ok hc
    cases heq
    exact current_read h ha.1 hp
  | startWrite x bytes gap =>
    obtain ⟨⟨u, res⟩, hp, heq⟩ := map_ok hc
    cases heq
    exact hkept (startWrite_effect hstable ha hp)

theorem posted_call (h : Inbound l s) {c : Call} {r : Response} (ha : Allowed l c)
    (hc : call s c = .ok (t, r)) (ep : EndpointAddress) (hu : isEpBeingUsed t ep = true)
    (hout : ep.isOut = true) (h0 : ep.index ≠ 0) : Posted l t ep := by
  cases c with
  | allocEp dir addr ty n =>
    obtain ⟨⟨u, res⟩, hp, heq⟩ := map_ok hc
    cases heq
    exact posted_allocEp h hp hu hout h0
  | enable =>
    cases hc
    have henabled : Moored l ⟨0, 0⟩ (Bus.enable s) :=
      moored_same h.moored same_registers (fun _ => rfl) rfl h.moored.good.noted
    exact henabled.posted ep hu hout h0
  | setDeviceAddress addr gaps =>
    cases hc
    exact (moored_setDeviceAddress h.moored h.rest addr gaps).posted ep hu hout h0
  | reset wait =>
    obtain ⟨v, hv, heq⟩ := map_ok hc
    cases heq
    exact (moored_reset h.moored hv).posted ep hu hout h0
  | poll h₁ h₂ =>
    obtain ⟨⟨u, res⟩, hp, heq⟩ := map_ok hc
    cases heq
    exact (moored_poll h.moored hp).posted ep hu hout h0
  | read x buf hw =>
    obtain ⟨⟨u, res⟩, hp, heq⟩ := map_ok hc
    cases heq
    exact posted_read h ha.1 ha.2 hp hu hout h0
  | startWrite x bytes gap =>
    obtain ⟨⟨u, res⟩, hp, heq⟩ := map_ok hc
    cases heq
    exact (moored_startWrite h ha hp).posted ep hu hout h0

theorem inbound_call (h : Inbound l s) {c : Call} {r : Response} (ha : Allowed l c)
    (hc : call s c = .ok (t, r)) : Inbound l t := by
  have hbefore : Steady Staged s := ⟨h.moored.good, h.rest⟩
  have hsteady : Steady Staged t := steady_anyCall kept_staged wipes_staged hbefore ha hc
  refine ⟨⟨hsteady.toGood, posted_call h ha hc, armed_rest rfl hsteady.rest, .inl hsteady.rest⟩,
    hsteady.rest, current_call h ha hc, bare_call kept_staged hbefore h.bare ha hc,
    balanced_entries h.balanced (entries_call h.moored.good h.bare ha hc)⟩

theorem inbound_step {y z : Session} {e : Event} (h : Inbound l y.usbd) (hs : step l y e = some z) :
    Inbound l z.usbd := by
  cases e with
  | hw e =>
    obtain ⟨he, -⟩ := step_hw hs
    have hf := hwStep_frame e he
    have hview := rest_hwStep controlOut_valid h.rest he
    have hused : z.usbd.inner.usedDqhs = y.usbd.inner.usedDqhs :=
      congrArg Inner.usedDqhs hf.inner
    refine ⟨moored_hwStep h.moored he, h.rest.congr hview, by rw [hview]; exact h.current,
      bare_books h.bare hused (books_frame hf), ?_⟩
    rw [books_frame hf]
    exact h.balanced
  | call c =>
    obtain ⟨ha, r, hc, -⟩ := step_call hs
    exact inbound_call h ha hc

theorem inbound_start (l : Layout) : Inbound l (start l).usbd := by
  have hrest : AtRest (start l).usbd controlOut := by
    constructor <;> simp [view, start, Layout.start]
  have hgood : Good Staged (start l).usbd := good_start _ l
  refine ⟨⟨hgood, fun ep hu => ?_, armed_rest rfl hrest, .inl hrest⟩, hrest, rfl, fun ep _ => rfl,
    balanced_start l⟩
  simp [isEpBeingUsed, start, Layout.start] at hu

theorem inbound_run {es : List Event} {y : Session}
    (hs : exec (step l) es (start l) = some y) : Inbound l y.usbd :=
  exec_invariant (I := fun y => Inbound l y.usbd) (fun _ _ _ hx hy => inbound_step hx hy) es
    (inbound_start l) hs

end UsbArmory.Usb.OutReads
