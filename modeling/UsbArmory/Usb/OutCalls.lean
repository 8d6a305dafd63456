import UsbArmory.Usb.Allocation
import UsbArmory.Usb.OutBuffers

/-!
# Calls keep the OUT endpoints armed

Between two calls endpoint 0 is at rest, and every other OUT endpoint that has
been allocated is armed with a static buffer of its own. This holds in all
runs, with bus resets.
-/

set_option autoImplicit false

namespace UsbArmory.Usb.OutCalls
open UsbArmory.Library.Bits UsbArmory.Library.Run UsbArmory.Usb.Descriptors
open UsbArmory.Usb.Controller UsbArmory.Usb.Bus UsbArmory.Usb.Endpoint UsbArmory.Usb.Effects
open UsbArmory.Usb.EndWrite UsbArmory.Usb.Write UsbArmory.Usb.Poll UsbArmory.Usb.Read
open UsbArmory.Usb.Configure UsbArmory.Usb.Invariant UsbArmory.Usb.Runs UsbArmory.Usb.Memory
open UsbArmory.Usb.Transfer UsbArmory.Usb.ResetSteps
open UsbArmory.Usb.Books UsbArmory.Usb.Bookkeeping UsbArmory.Usb.BookedCalls
open UsbArmory.Usb.Allocation UsbArmory.Usb.Arrivals UsbArmory.Usb.OutBuffers

structure Inbound (l : Layout) (s : Usbd) : Prop where
  moored : Moored l ⟨0, 0⟩ s
  rest : AtRest s controlOut
  current : (view s controlOut).current = noNextDtd
  bare : Bare s
  balanced : Balanced l (books s)

variable {l : Layout} {s t : Usbd} {ep x : EndpointAddress} {buf : Lent} {hw : During}

theorem moored_bits (h : Moored l buf s) (hgood : Good Staged t)
    (hused : t.inner.usedDqhs = s.inner.usedDqhs) (hdqhs : t.dqhs = s.dqhs)
    (hmem : t.dtd = s.dtd ∧ t.buffer = s.buffer ∧ t.transfers = s.transfers)
    (hprime : ∀ ep, ep.isValid = true → ep.isOut = true → (view t ep).prime = true →
      (view s ep).prime = true ∨ ep.index ≠ 0)
    (hstat : ∀ ep, (view t ep).stat = true → (view s ep).stat = true)
    (hcomplete : ∀ ep, (view t ep).complete = true → (view s ep).complete = true) :
    Moored l buf t := by
  obtain ⟨hdtd, hbuffer, htransfers⟩ := hmem
  have harmed : ∀ {ep a m}, ep.isValid = true → ep.isOut = true → Armed s ep a m →
      Armed t ep a m := by
    intro ep a m hv hout ha
    refine armed_congr ha ?_ (hprime ep hv hout) (hstat ep) (hcomplete ep) ?_
      ⟨fun _ => by rw [hdtd], by rw [hbuffer], by rw [htransfers]⟩
    · simp [view, hdqhs]
    · simp [overlay, hdqhs]
  refine ⟨hgood, fun ep hu hout h0 => ?_, harmed controlOut_valid rfl h.served, ?_⟩
  · rw [isEpBeingUsed_congr hused] at hu
    obtain ⟨a, ha, hbuf, hmax, hs⟩ := h.posted ep hu hout h0
    rw [Posted, bufferOf, hdqhs]
    exact ⟨a, ha, hbuf, hmax, harmed (h.good.valid ep hu) hout hs⟩
  · refine h.lent.imp (fun hrest => ⟨bit_clear (fun hp => ?_) hrest.prime,
      bit_clear (hstat controlOut) hrest.stat, bit_clear (hcomplete controlOut) hrest.complete⟩) id
    exact (hprime controlOut controlOut_valid rfl hp).resolve_right fun hne => hne rfl

theorem moored_stable (h : Moored l buf s) (hrest : AtRest s controlOut) : Stable s :=
  ⟨h.good.single, fun _ hv => h.good.blank_or_slot kept_staged hv, hrest⟩

theorem moored_prime (h : Moored l buf s) (hrest : AtRest s controlOut) (hv : ep.isValid = true)
    (hne : ep ≠ controlOut) (hslot : Slotted s ep) (gap : List HwEvent) :
    Moored l buf (prime s ep gap) := by
  have hstable := moored_stable h hrest
  have heff : Effect false s (prime s ep gap) := prime_effect hstable hv hne hslot gap
  have hnoted : (prime s ep gap).inner.epInComplete = none := by
    rw [(prime_frame s ep gap).inner]
    exact h.good.noted
  refine moored_bits (moored_hardware h gap) (good_effect kept_staged h.good heff hnoted) rfl rfl
    ⟨rfl, rfl, rfl⟩ (fun x hvx hox hp => ?_) (fun _ => id) fun _ => id
  by_cases h0 : x.index = 0
  · obtain rfl := out_zero hox h0
    exact absurd hp (by rw [(hstable.effect heff).rest.prime]; exact Bool.false_ne_true)
  · exact .inr h0

theorem moored_enableEps {gaps : EndpointAddress → List HwEvent} (eps : List EndpointAddress)
    (h : Moored l buf s) (hrest : AtRest s controlOut)
    (heps : ∀ ep ∈ eps, ep.isValid = true ∧ Slotted s ep) :
    Moored l buf (eps.foldl (enableEp gaps) s) := by
  induction eps generalizing s with
  | nil => exact h
  | cons ep eps ih =>
    have hstable := moored_stable h hrest
    obtain ⟨hv, hslot⟩ := heps ep List.mem_cons_self
    have heff : Effect false s (enableEp gaps s ep) := enableEp_effect hstable hv hslot
    refine ih ?_ (hstable.effect heff).rest fun ep' hep' => ?_
    · obtain ⟨bits, ⟨hdata, heq⟩ | ⟨-, heq⟩⟩ := enableEp_cases gaps s ep <;> rw [heq]
      · have hprimed := moored_prime h hrest hv (dataOut_ne hdata) hslot (gaps ep)
        exact moored_same hprimed same_registers (fun _ => rfl) rfl hprimed.good.noted
      · exact moored_same h same_registers (fun _ => rfl) rfl h.good.noted
    · obtain ⟨hv', hslot'⟩ := heps ep' (List.mem_cons_of_mem _ hep')
      exact ⟨hv', hslot'.effect hv' heff⟩

theorem moored_setDeviceAddress (h : Moored l buf s) (hrest : AtRest s controlOut) (addr : BitVec 8)
    (gaps : EndpointAddress → List HwEvent) :
    Moored l buf (Bus.setDeviceAddress s addr gaps) := by
  have hany (bits : BitVec 32) :
      Moored l buf ((allocatedEps s).foldl (enableEp gaps) (writeDeviceaddr s bits)) := by
    have hfirst : Moored l buf (writeDeviceaddr s bits) :=
      moored_same h same_registers (fun _ => rfl) rfl h.good.noted
    exact moored_enableEps (allocatedEps s) hfirst hrest (allocatedEps_slotted kept_staged h.good)
  exact hany _

theorem moored_reset (h : Moored l buf s) {wait : List (List HwEvent)}
    (hr : Bus.reset s wait = .ok t) : Moored l buf t := by
  obtain ⟨u, hu, rfl⟩ := reset_ok hr
  have hc : Moored l buf (cleared s) := by
    refine moored_bits h (good_cleared wipes_staged h.good) rfl rfl ⟨rfl, rfl, rfl⟩
      (fun _ _ _ => .inl) (fun _ => id) fun ep hyes => ?_
    rw [cleared_view] at hyes
    cases hyes
  have hw := moored_waitFor hc hu
  refine moored_bits hw (good_flushed wipes_staged hw.good) rfl rfl ⟨rfl, rfl, rfl⟩
    (fun _ _ _ => .inl) (fun ep hyes => ?_) fun _ => id
  rw [flushed_view] at hyes
  cases hyes

theorem moored_poll (h : Moored l buf s) {h₁ h₂ : List HwEvent} {r : PollResult}
    (hc : Bus.poll s h₁ h₂ = .ok (t, r)) : Moored l buf t := by
  have hack : Moored l buf (writeUsbsts s (mask 32 usbstsSre)) :=
    moored_same h same_registers (fun _ => rfl) rfl h.good.noted
  rcases poll_eq s h₁ h₂ with heq | heq <;> rw [heq] at hc
  · cases hc
    exact moored_same hack same_registers (fun _ => rfl) rfl h.good.noted
  · have hb : Moored l buf (atComplete s h₁ h₂) :=
      moored_hardware (moored_hardware hack h₁) h₂
    have hp := polled hb.good.single hb.good.noted hc
    refine moored_aside hb ⟨hp.effect.used, fun ep hv hout => hp.view ep hv (.inl hout),
      fun ep => ?_, fun ep => (hp.dqh _).2.1, fun q => (hp.dqh q).1,
      hp.memory.1, hp.memory.2.1, hp.memory.2.2.2⟩
      (good_effect kept_staged hb.good hp.effect hp.noted)
    rw [overlay, (hp.dqh _).2.2.1, (hp.dqh _).2.2.2, overlay]

theorem next_ne_slot (h : Good Staged s) (hv : ep.isValid = true) (hvx : x.isValid = true)
    (hne : ep ≠ x) (hal : (view s ep).next % 32 = 0) {d : ℕ} (hd : d % 32 = 0)
    (hs : Slot d (view s x)) : (view s ep).next ≠ d := by
  rintro rfl
  obtain ⟨hu, hslot⟩ := next_slot kept_staged h hv hal
  have hux : isEpBeingUsed s x = true := by
    by_contra hfree
    rw [h.free x hvx ((Bool.not_eq_true _).mp hfree)] at hs
    rcases hs with ⟨-, hn⟩ | ⟨hc, -⟩
    · exact ne_noNextDtd hd hn.symm
    · exact ne_noNextDtd hd hc.symm
  exact hne (h.own ep x _ hd hu hux hslot hs)

theorem moored_written (h : Inbound l s) (hin : x.isOut = false) (hvx : x.isValid = true)
    (hfree : (s.dqhs (epaddr2dqhidx x)).getCurrentDtd = none) {d addr : ℕ} {b64s b512s : List ℕ}
    (hd : (s.dqhs (epaddr2dqhidx x)).getNextDtd = some d)
    (hbuf : Buffered s (epaddr2dqhidx x) addr b64s b512s) (bytes : List UInt8) (token : Token) :
    Moored l ⟨0, 0⟩ (written s x bytes d addr token b64s b512s) := by
  have hview := written_view s x bytes d addr token b64s b512s
  have heff : Effect false s (written s x bytes d addr token b64s b512s) :=
    .same hview (written_single h.moored.good.single x bytes d addr token b64s b512s) rfl rfl
  have hrest : AtRest (written s x bytes d addr token b64s b512s) controlOut :=
    h.rest.congr (hview controlOut)
  refine ⟨good_effect kept_staged h.moored.good heff h.moored.good.noted,
    fun ep hu hout h0 => ?_, armed_rest rfl hrest, .inl hrest⟩
  · have hv := h.moored.good.valid ep hu
    have hne : ep ≠ x := by
      rintro rfl
      rw [hin] at hout
      cases hout
    have hq := dqhidx_ne hne
    have hdiff : ∀ a ∈ l.b64s ++ l.b512s, bufferOf s ep = some a → a ≠ addr := by
      rintro a ha hself rfl
      have hpool := (h.balanced.held ep a hself ha).1
      rcases hbuf with ⟨hold, -, -⟩ | ⟨-, ⟨htaken, -⟩ | ⟨-, htaken⟩⟩
      · exact hne (h.balanced.own ep x a ha hself hold)
      · exact hpool (by simp [books, htaken])
      · exact hpool (by simp [books, htaken])
    have hdescr : (view s ep).next % 32 = 0 → (view s ep).next ≠ d := by
      intro hal
      obtain ⟨hnext, hnone⟩ := getNextDtd_some hd
      obtain ⟨d', hd', hslot⟩ := h.moored.good.slot kept_staged (next_used h.moored.good hvx hd)
      have heq : d' = d :=
        (slot_next hd' hslot (getCurrentDtd_none hfree)).2.symm.trans hnext
      rw [← heq]
      exact next_ne_slot h.moored.good hv hvx hne hal hd' hslot
    have hdqh : (written s x bytes d addr token b64s b512s).dqhs (epaddr2dqhidx ep) =
        s.dqhs (epaddr2dqhidx ep) := by simp [written, hq]
    refine posted_same (h.moored.posted ep hu hout h0) hdqh (hview ep) fun a ha hself =>
      ⟨fun hal => ?_, ?_, rfl⟩
    · have hne' := hdescr hal
      simp [written, hne']
    · have hne' := hdiff a ha hself
      simp [written, hne']

theorem moored_startWrite (h : Inbound l s) (hin : x.isOut = false) {bytes : List UInt8}
    {gap : List HwEvent} {r : Except UsbError ℕ}
    (hc : Bus.startWrite s x bytes gap = .ok (t, r)) : Moored l ⟨0, 0⟩ t := by
  rcases startWrite_ok hc with ⟨rfl, -⟩ | ⟨ha, -⟩
  · exact h.moored
  · have hslot := accepted_slot (moored_stable h.moored h.rest) ha
    obtain ⟨hvx, -, hfree, d, addr, token, b64s, b512s, hd, hbuf, -, rfl⟩ := ha
    have hview := written_view s x bytes d addr token b64s b512s
    exact moored_prime (moored_written h hin hvx hfree hd hbuf bytes token)
      (h.rest.congr (hview controlOut)) hvx (in_ne hin) (hslot.congr (hview x)) gap

structure Stocked (s : Usbd) (ep : EndpointAddress) (n : ℕ) (t : Usbd) : Prop where
  size : n ≤ 512
  buffer : ∃ a ∈ pool s, bufferOf t ep = some a ∧ (t.dtd (view t ep).next).page0 = a
  total : (t.dtd (view t ep).next).token.getTotalBytes = n

theorem installDtd_stocked (hout : ep.isOut = true) (h0 : ep.index ≠ 0) {n : ℕ}
    (h : installDtd s ep n = .ok t) : Stocked s ep n t := by
  unfold installDtd at h
  obtain ⟨caps, -, h⟩ := bind_ok h
  obtain ⟨p, hp, h⟩ := bind_ok h
  obtain ⟨d, u⟩ := p
  dsimp only at h
  obtain ⟨rest, -, rfl⟩ := popDtd_ok hp
  rw [if_pos ⟨hout, h0⟩] at h
  obtain ⟨v, hv, h⟩ := bind_ok h
  unfold installBuffer at hv
  obtain ⟨p, hp, hv⟩ := bind_ok hv
  obtain ⟨a, w⟩ := p
  dsimp only at hv
  obtain ⟨token, htoken, hv⟩ := bind_ok hv
  cases hv
  cases h
  have htotal := getTotalBytes_activeToken n token (expect_ok htoken)
  have hpop : n ≤ 512 ∧ a ∈ pool s := by
    rcases popBuffer_entry hp with ⟨h64, hpool, -⟩ | ⟨-, h512, hpool, -⟩
    · have hmem : s.inner.b64s = a::w.inner.b64s := hpool
      exact ⟨by omega, by simp [pool, hmem]⟩
    · have hmem : s.inner.b512s = a::w.inner.b512s := hpool
      exact ⟨h512, by simp [pool, hmem]⟩
  refine ⟨hpop.1, ⟨a, hpop.2, ?_, ?_⟩, ?_⟩
  · simp [bufferOf, Usbd.setDqh, DQH.setNextDtd]
  · simp [view, Usbd.setDqh, Usbd.setDtd, DQH.setNextDtd, DTD.setPages]
  · simpa [view, Usbd.setDqh, Usbd.setDtd, DQH.setNextDtd, DTD.setPages] using htotal

theorem allocEp_stocked (hout : ep.isOut = true) (h0 : ep.index ≠ 0) {dir : UsbDirection}
    {addr : Option EndpointAddress} {ty : EndpointType} {n : ℕ}
    (h : allocEp s dir addr ty n = .ok (t, .ok ep)) : Stocked s ep n t := by
  unfold allocEp at h
  obtain ⟨_, -, h⟩ := bind_ok h
  split at h
  next e he => cases h
  next ep' hep =>
    obtain ⟨u, hu, h⟩ := bind_ok h
    dsimp only at h
    split at h
    next =>
      obtain ⟨v, hv', h⟩ := bind_ok h
      obtain ⟨c, rfl⟩ := configureEp_eq hv'
      cases h
      have hs := installDtd_stocked hout h0 hu
      exact ⟨hs.size, hs.buffer, hs.total⟩
    next hz =>
      cases h
      exact absurd h0 hz

theorem posted_allocEp (h : Inbound l s) {dir : UsbDirection} {addr : Option EndpointAddress}
    {ty : EndpointType} {n : ℕ} {r : Except UsbError EndpointAddress}
    (hc : allocEp s dir addr ty n = .ok (t, r)) (hu : isEpBeingUsed t ep = true)
    (hout : ep.isOut = true) (h0 : ep.index ≠ 0) : Posted l t ep := by
  rcases allocEp_ok hc with ⟨rfl, -⟩ | ⟨x, hx, rfl⟩
  · exact h.moored.posted ep hu hout h0
  · by_cases he : ep = x
    · subst he
      have hopened := allocEp_opened (l := l) h.bare hc
      have hstocked := allocEp_stocked hout h0 hc
      obtain ⟨a, hmem, hbuf, hpage⟩ := hstocked.buffer
      have hstatic : a ∈ l.b64s ++ l.b512s := by
        rw [List.mem_append]
        exact (List.mem_append.mp hmem).imp (h.balanced.in64 a) (h.balanced.in512 a)
      have hsize : (t.dqhs (epaddr2dqhidx ep)).getMaxPacketSize = n := hopened.size
      obtain ⟨d, rest, -, -, hview⟩ := allocated_view hx
      rw [h.moored.good.free ep hx.valid hx.fresh] at hview
      refine ⟨a, hstatic, hbuf, ?_, ?_⟩ <;> rw [hsize]
      · exact hstocked.size
      · refine ⟨fun _ => ?_, fun _ => ?_, fun _ _ => ⟨hpage, hstocked.total⟩, fun hst => ?_,
          fun hyes => ?_⟩
        · rw [hview]
          exact ⟨rfl, rfl⟩
        · rw [hview]
          rfl
        · rw [hview] at hst
          cases hst
        · rw [hview] at hyes
          cases hyes
    · have hold : isEpBeingUsed s ep = true :=
        ((allocated_used hx ep).mp hu).resolve_right he
      have hview := allocated_other hx ep he
      obtain ⟨hvx, -, d, rest, caps, b64s, b512s, addr', dtd, hpool, -, -, heq⟩ := hx
      have hdqh : t.dqhs (epaddr2dqhidx ep) = s.dqhs (epaddr2dqhidx ep) := by
        rw [heq]
        simp [dqhidx_ne he]
      have hdiff : (view s ep).next % 32 = 0 → (view s ep).next ≠ d := by
        rintro hal rfl
        obtain ⟨d', hd', hnot, hstaged⟩ := h.moored.good.held ep hold
        have hslot := (next_slot kept_staged h.moored.good
          (h.moored.good.valid ep hold) hal).2
        rw [slot_unique hd' hal hstaged.slot hslot, hpool] at hnot
        exact hnot List.mem_cons_self
      refine posted_same (h.moored.posted ep hold hout h0) hdqh hview fun a _ _ =>
        ⟨fun hal => ?_, ?_, ?_⟩
      · have hne := hdiff hal
        rw [heq]
        simp [hne]
      · rw [heq]
      · rw [heq]

end UsbArmory.Usb.OutCalls
