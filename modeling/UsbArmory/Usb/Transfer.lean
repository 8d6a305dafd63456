import UsbArmory.Usb.Memory

/-!
# The controller and the memory

No event of the controller touches the bytes of a transfer that is under way on
an IN endpoint, and the transfer that it completes carries them.
-/

set_option autoImplicit false

namespace UsbArmory.Usb.Transfer
open UsbArmory.Library.Bits UsbArmory.Usb.Descriptors UsbArmory.Usb.Controller UsbArmory.Usb.Bus
open UsbArmory.Usb.Endpoint UsbArmory.Usb.Effects UsbArmory.Usb.Invariant UsbArmory.Usb.Memory

variable {l : Layout} {s t : Usbd} {ep ep' : EndpointAddress} {acc : List (List UInt8)}

theorem fetch_loads (s : Usbd) (ep : EndpointAddress)
    (hn : (s.dqhs (epaddr2dqhidx ep)).nextDtd ≠ noNextDtd) : fetch s ep =
      { s with
        endptprime := s.endptprime &&& ~~~epaddr2endptmask ep
        endptstat := s.endptstat ||| epaddr2endptmask ep
        fifo := Function.update s.fifo (epaddr2dqhidx ep) none
        dqhs := Function.update s.dqhs (epaddr2dqhidx ep)
          { s.dqhs (epaddr2dqhidx ep) with
            currentDtd := (s.dqhs (epaddr2dqhidx ep)).nextDtd
            nextDtd := (s.dtd (s.dqhs (epaddr2dqhidx ep)).nextDtd).nextDtd
            token := (s.dtd (s.dqhs (epaddr2dqhidx ep)).nextDtd).token
            page0 := (s.dtd (s.dqhs (epaddr2dqhidx ep)).nextDtd).page0 } } := by
  simp [fetch, hn, Usbd.setDqh]

theorem view_next (s : Usbd) (ep : EndpointAddress) :
    (view s ep).next = (s.dqhs (epaddr2dqhidx ep)).nextDtd := rfl

theorem dqhidx_ne (hne : ep ≠ ep') : epaddr2dqhidx ep ≠ epaddr2dqhidx ep' :=
  fun hq => hne (epaddr2dqhidx_inj hq)

theorem fetch_carries (h : Phased s) (h1 : Once s) (hv : ep.isValid = true) (hin : ep.isOut = false)
    (hv' : ep'.isValid = true) (hp : (view s ep').prime = true) (hc : Carries s ep acc) :
    Carries (fetch s ep') ep acc := by
  by_cases he : ep = ep'
  · subst ep'
    obtain ⟨hd, -⟩ := phased_primed h h1 hv hin hp
    have hn : (s.dqhs (epaddr2dqhidx ep)).nextDtd ≠ noNextDtd := ne_noNextDtd hd
    have hview := fetch_self h.single ep hv hn
    obtain ⟨bytes, hacc, hheld⟩ := hc.primed hp
    refine ⟨fun _ hst => ?_, fun hp' => ?_, fun _ => ⟨bytes, ?_, ?_, ?_⟩⟩
    · rw [hview] at hst
      cases hst
    · rw [hview] at hp'
      cases hp'
    all_goals rw [fetch_loads s ep hn]
    · exact hacc
    · rw [view_next] at hheld
      obtain ⟨hbuf, htotal, htake⟩ := hheld
      refine ⟨?_, ?_, ?_⟩
      · simpa [bufferOf] using hbuf
      · simpa using htotal
      · simpa using htake
    · intro f hf
      simp at hf
  · have hother := fetch_other s ep' hv' ep hv he
    have hq := dqhidx_ne he
    by_cases hn : (s.dqhs (epaddr2dqhidx ep')).nextDtd = noNextDtd
    · rw [fetch_skip s ep' hn] at hother ⊢
      exact carries_congr hc hother ⟨rfl, rfl, rfl⟩ rfl rfl (fun _ => rfl) fun _ _ => rfl
    · rw [fetch_loads s ep' hn] at hother ⊢
      apply carries_congr hc hother
      · simp [hq]
      · rfl
      · simp [hq]
      · intro _
        rfl
      · intro _ _
        rfl

theorem fetch_outPages (h : Phased s) (hv : ep.isValid = true) (hv' : ep'.isValid = true)
    (hp : (view s ep').prime = true) (ho : OutPages s ep) : OutPages (fetch s ep') ep := by
  have hk := Keeps.of_frame (fetch_frame s ep')
  have hbuf : bufferOf (fetch s ep') ep = bufferOf s ep := ((fetch_frame s ep').dqh _).2
  by_cases hn : (s.dqhs (epaddr2dqhidx ep')).nextDtd = noNextDtd
  · by_cases he : ep = ep'
    · subst ep'
      have hview := fetch_skip_self s ep hn
      refine ⟨fun a ha => ?_, fun hst => ?_, fun _ hu d hd hs => ?_⟩
      · rw [hbuf] at ha
        exact hk.foreign (ho.buffer a ha)
      · rw [hview] at hst
        rw [fetch_skip s ep hn] at hk ⊢
        exact hk.foreign (ho.loaded hst)
      · rw [hview] at hs
        rw [fetch_skip s ep hn] at hk hu ⊢
        exact hk.foreign (ho.next (Or.inl hp) hu d hd hs)
    · have hother := fetch_other s ep' hv' ep hv he
      rw [fetch_skip s ep' hn] at hk hother hbuf ⊢
      exact outPages_congr hk ho hother rfl hbuf rfl fun _ _ _ => rfl
  · by_cases he : ep = ep'
    · subst ep'
      have hview := fetch_self h.single ep hv hn
      obtain ⟨d, hd, -, hph⟩ := h.held ep (phased_used h hv (Or.inl hp))
      have hnext : (view s ep).next = d := by
        rcases hph.slot with ⟨-, hnext⟩ | ⟨-, hnext⟩
        · exact hnext
        · exact absurd hnext hn
      have hpage := ho.next (Or.inl hp) (phased_used h hv (Or.inl hp)) d hd hph.slot
      refine ⟨fun a ha => ?_, fun _ => ?_, fun _ hu d' hd' hs => ?_⟩
      · rw [hbuf] at ha
        exact hk.foreign (ho.buffer a ha)
      · rw [← hnext, view_next] at hpage
        have hkept := hk.foreign hpage
        rw [fetch_loads s ep hn] at hkept ⊢
        simpa using hkept
      · rw [hview] at hs
        have heq : d' = d := by
          rcases hs with ⟨hc, -⟩ | ⟨hc, -⟩
          · exact absurd hc hn
          · exact hc.symm.trans hnext
        rw [heq]
        have hkept := hk.foreign hpage
        rw [fetch_loads s ep hn] at hkept ⊢
        exact hkept
    · have hother := fetch_other s ep' hv' ep hv he
      have hq := dqhidx_ne he
      rw [fetch_loads s ep' hn] at hk hother hbuf ⊢
      apply outPages_congr hk ho hother rfl hbuf
      · simp [hq]
      · intro _ _ _
        rfl

theorem retire_carries (h : Phased s) (h1 : Once s) (hv : ep.isValid = true)
    (hin : ep.isOut = false)
    (hv' : ep'.isValid = true) (hst : (view s ep').stat = true) (status : Status) (left : ℕ)
    (bytes : List UInt8) (hbytes : ep' = ep → ep.isOut = false →
      s.fifo (epaddr2dqhidx ep) = some bytes) (hc : Carries s ep acc) :
    Carries (retire s ep' status left bytes) ep acc := by
  by_cases he : ep = ep'
  · subst ep'
    have hview := retire_self s ep hv status left bytes
    obtain ⟨bytes', hacc, -, hfifo⟩ := hc.loaded hst
    have heq : bytes = bytes' := hfifo bytes (hbytes rfl hin)
    refine ⟨fun _ _ => ?_, fun hp => ?_, fun hst' => ?_⟩
    · rw [hacc, heq]
      simp [retire, Usbd.setDqh, Usbd.setDtd]
    · rw [hview] at hp
      cases hst.symm.trans (h1 ep hv hin hp).1
    · rw [hview] at hst'
      cases hst'
  · have hother := retire_other s ep' hv' status left bytes ep hv he
    have hq := dqhidx_ne he
    apply carries_congr hc hother
    · simp [retire, Usbd.setDqh, Usbd.setDtd, hq]
    · simp [retire, Usbd.setDqh, Usbd.setDtd, hq]
    · rfl
    · intro hp
      have hne := next_ne_current h h1 hv hv' hin hp hst (fun heq => he heq.symm)
      have hne' : (view s ep).next ≠ (s.dqhs (epaddr2dqhidx ep')).currentDtd := hne
      simp [retire, Usbd.setDqh, Usbd.setDtd, hne']
    · intro _ _
      rfl

theorem retire_outPages (hv : ep.isValid = true) (hv' : ep'.isValid = true) (status : Status)
    (left : ℕ) (bytes : List UInt8) (ho : OutPages s ep) :
    OutPages (retire s ep' status left bytes) ep := by
  have hk := Keeps.of_frame (retire_frame s ep' status left bytes)
  have hbuf : bufferOf (retire s ep' status left bytes) ep = bufferOf s ep :=
    ((retire_frame s ep' status left bytes).dqh _).2
  have hdtd : ∀ d, ((retire s ep' status left bytes).dtd d).page0 = (s.dtd d).page0 := by
    intro d
    by_cases hd : d = (s.dqhs (epaddr2dqhidx ep')).currentDtd
    · subst d
      simp [retire, Usbd.setDqh, Usbd.setDtd]
    · simp [retire, Usbd.setDqh, Usbd.setDtd, hd]
  have hpage : ((retire s ep' status left bytes).dqhs (epaddr2dqhidx ep)).page0 =
      (s.dqhs (epaddr2dqhidx ep)).page0 := by
    by_cases hq : epaddr2dqhidx ep = epaddr2dqhidx ep'
    · simp [retire, Usbd.setDqh, Usbd.setDtd, hq]
    · simp [retire, Usbd.setDqh, Usbd.setDtd, hq]
  by_cases he : ep = ep'
  · subst ep'
    have hview := retire_self s ep hv status left bytes
    refine ⟨fun a ha => ?_, fun hst => ?_, fun hp hu d hd hs => ?_⟩
    · rw [hbuf] at ha
      exact hk.foreign (ho.buffer a ha)
    · rw [hview] at hst
      cases hst
    · rw [hview] at hp hs
      rw [hdtd]
      exact hk.foreign (ho.next hp hu d hd hs)
  · exact outPages_congr hk ho (retire_other s ep' hv' status left bytes ep hv he) rfl hbuf hpage
      fun d _ _ => hdtd d

theorem fillBuffer_carries {a : ℕ} (hf : Foreign s a) (hin : ep.isOut = false)
    (bytes : List UInt8) (hc : Carries s ep acc) : Carries (s.fillBuffer a bytes) ep acc := by
  refine carries_congr (t := s.fillBuffer a bytes) hc rfl ⟨rfl, rfl, rfl⟩ rfl rfl (fun _ => rfl) ?_
  intro b hb
  have hne : b ≠ a := by
    intro heq
    rw [heq] at hb
    exact hf.2 ep hin hb
  simp [Usbd.fillBuffer, hne]

/-- The registers and the memory that the transfers depend on stay. -/
structure Same (s t : Usbd) : Prop where
  pools : t.inner.b64s = s.inner.b64s ∧ t.inner.b512s = s.inner.b512s
  used : t.inner.usedDqhs = s.inner.usedDqhs
  view : ∀ ep, view t ep = view s ep
  dqh : ∀ q, (t.dqhs q).token = (s.dqhs q).token ∧ (t.dqhs q).page0 = (s.dqhs q).page0 ∧
    (t.dqhs q).addr = (s.dqhs q).addr
  memory : t.dtd = s.dtd ∧ t.buffer = s.buffer ∧ t.transfers = s.transfers
  fifo : t.fifo = s.fifo

theorem same_registers {setupstat : Option (BitVec 16)} {lastPollWasNone : Bool}
    {preStatusOut statusOut : BitVec 16}
    {usbcmd usbsts deviceaddr endptsetupstat endptctrl1 : BitVec 32} :
    Same s { s with
      inner := { s.inner with
        setupstat := setupstat
        lastPollWasNone := lastPollWasNone
        preStatusOut := preStatusOut
        statusOut := statusOut }
      usbcmd := usbcmd
      usbsts := usbsts
      deviceaddr := deviceaddr
      endptsetupstat := endptsetupstat
      endptctrl1 := endptctrl1 } :=
  ⟨⟨rfl, rfl⟩, rfl, fun _ => rfl, fun _ => ⟨rfl, rfl, rfl⟩, ⟨rfl, rfl, rfl⟩, rfl⟩

theorem Same.keeps (h : Same s t) : Keeps s t := ⟨h.pools, fun _ _ => (h.dqh _).2.2⟩

theorem Same.carries (h : Same s t) (hc : Carries s ep acc) : Carries t ep acc := by
  apply carries_congr hc (h.view ep)
  · exact h.dqh _
  · rw [h.memory.2.2]
  · rw [h.fifo]
  · intro _
    rw [h.memory.1]
  · intro _ _
    rw [h.memory.2.1]

theorem Same.owned (h : Same s t) (ho : Owned l s) : Owned l t := by
  refine ⟨h.keeps.inside ho.inside, fun ep hv hout => ?_⟩
  apply outPages_congr h.keeps (ho.outside ep hv hout) (h.view ep) h.used (h.dqh _).2.2
    (h.dqh _).2.1
  intro d _ _
  rw [h.memory.1]

theorem load_carries (hst : (view s ep').stat = true) (hc : Carries s ep acc) :
    Carries { s with
      fifo := Function.update s.fifo (epaddr2dqhidx ep')
        (some ((s.buffer (s.dqhs (epaddr2dqhidx ep')).page0).take
          (s.dqhs (epaddr2dqhidx ep')).token.getTotalBytes)) } ep acc := by
  by_cases he : ep = ep'
  · subst ep'
    obtain ⟨bytes, hacc, hheld, -⟩ := hc.loaded hst
    refine ⟨hc.idle, hc.primed, fun _ => ⟨bytes, hacc, hheld, fun f hf => ?_⟩⟩
    obtain ⟨-, htotal, htake⟩ := hheld
    simp only [Function.update_self, Option.some.injEq] at hf
    rw [← hf, htotal]
    exact htake
  · have hne := dqhidx_ne he
    refine ⟨hc.idle, hc.primed, fun hst' => ?_⟩
    obtain ⟨bytes, hacc, hheld, hfifo⟩ := hc.loaded hst'
    refine ⟨bytes, hacc, hheld, fun f hf => hfifo f ?_⟩
    simpa [hne] using hf

theorem hwStep_carries (h : Phased s) (h1 : Once s) (ho : Owned l s) (hv : ep.isValid = true)
    (hin : ep.isOut = false) (e : HwEvent) (hs : hwStep s e = some t) (hc : Carries s ep acc) :
    Carries t ep acc := by
  cases hwStep_happens hs with
  | fetch ep' hv' hprime =>
    exact fetch_carries h h1 hv hin hv' ((mask_ne_zero_iff _ ep').mp hprime) hc
  | load ep' hv' hin' hstat => exact load_carries ((mask_ne_zero_iff _ ep').mp hstat) hc
  | sent ep' status bytes hv' hin' hstat hfifo =>
    apply retire_carries h h1 hv hin hv' ((mask_ne_zero_iff _ ep').mp hstat) status 0 bytes ?_ hc
    intro heq _
    rw [← heq]
    exact hfifo
  | received ep' status bytes hv' hout hstat hlen =>
    have hst := (mask_ne_zero_iff _ ep').mp hstat
    apply fillBuffer_carries ?_ hin bytes
    · apply retire_carries h h1 hv hin hv' hst status _ bytes ?_ hc
      intro heq hin'
      rw [← heq, hout] at hin'
      cases hin'
    · exact (Keeps.of_frame (retire_frame s ep' status _ bytes)).foreign
        ((ho.outside ep' hv' hout).loaded hst)
  | setup index bytes hused hlen =>
    have hq : epaddr2dqhidx ep ≠ epaddr2dqhidx ⟨index, .out⟩ := by
      intro hq
      rw [epaddr2dqhidx_inj hq] at hin
      cases hin
    apply carries_congr hc
    · simp [view, Usbd.setDqh, hq]
    · simp [Usbd.setDqh, hq]
    · rfl
    · rfl
    · intro _
      rfl
    · intro _ _
      rfl
  | status bits => exact ⟨hc.idle, hc.primed, hc.loaded⟩

theorem hwStep_outPages (h : Phased s) (hv : ep.isValid = true) (e : HwEvent)
    (hs : hwStep s e = some t) (ho : OutPages s ep) : OutPages t ep := by
  have hk := Keeps.of_frame (hwStep_frame e hs)
  have hbuf : bufferOf t ep = bufferOf s ep := ((hwStep_frame e hs).dqh _).2
  cases hwStep_happens hs with
  | fetch ep' hv' hprime => exact fetch_outPages h hv hv' ((mask_ne_zero_iff _ ep').mp hprime) ho
  | load ep' hv' hin hstat => exact outPages_congr hk ho rfl rfl hbuf rfl fun _ _ _ => rfl
  | sent ep' status bytes hv' hin hstat hfifo =>
    exact retire_outPages hv hv' status 0 bytes ho
  | received ep' status bytes hv' hout hstat hlen =>
    have hr := retire_outPages hv hv' status
      ((s.dqhs (epaddr2dqhidx ep')).token.getTotalBytes - bytes.length) bytes ho
    exact ⟨hr.buffer, hr.loaded, hr.next⟩
  | setup index bytes hused hlen =>
    apply outPages_congr hk ho
    · by_cases hq : epaddr2dqhidx ep = epaddr2dqhidx ⟨index, .out⟩
      · simp [view, Usbd.setDqh, hq]
      · simp [view, Usbd.setDqh, hq]
    · rfl
    · exact hbuf
    · by_cases hq : epaddr2dqhidx ep = epaddr2dqhidx ⟨index, .out⟩
      · simp [Usbd.setDqh, hq]
      · simp [Usbd.setDqh, hq]
    · intro _ _ _
      rfl
  | status bits => exact ⟨ho.buffer, ho.loaded, ho.next⟩

end UsbArmory.Usb.Transfer
