import UsbArmory.Usb.Delivery

/-!
# The writes that are accepted

Polls and the configuration leave the IN transfers alone. A write that is
accepted on an idle endpoint is the one that the endpoint then carries.
-/

set_option autoImplicit false

namespace UsbArmory.Usb.Accepted
open UsbArmory.Library.Bits UsbArmory.Usb.Descriptors UsbArmory.Usb.Controller UsbArmory.Usb.Bus
open UsbArmory.Usb.Endpoint UsbArmory.Usb.Effects UsbArmory.Usb.EndWrite UsbArmory.Usb.Poll
open UsbArmory.Usb.Write UsbArmory.Usb.Read UsbArmory.Usb.ReadFrame UsbArmory.Usb.Configure
open UsbArmory.Usb.Invariant UsbArmory.Usb.Memory UsbArmory.Usb.Transfer UsbArmory.Usb.Delivery

variable {l : Layout} {s t : Usbd} {ep : EndpointAddress} {acc : List (List UInt8)}

theorem phased_done (h : Phased s) (h1 : Once s) (hv : ep.isValid = true) (hin : ep.isOut = false)
    (hdone : (view s ep).complete = true) :
    (view s ep).prime = false ∧ (view s ep).stat = false := by
  have hu : isEpBeingUsed s ep = true := by
    by_contra hu
    rw [h.free ep hv ((Bool.not_eq_true _).mp hu)] at hdone
    cases hdone
  have honce := h1 ep hv hin
  obtain ⟨d, -, -, hph⟩ := h.held ep hu
  generalize view s ep = v at hdone hph honce ⊢
  cases hph with
  | idle n => cases hdone
  | primed n => cases hdone
  | loaded n p hr => cases hdone
  | done n p hr =>
    cases p with
    | false => exact ⟨rfl, rfl⟩
    | true => cases (honce rfl).2

theorem onward_polled {b : Usbd} {seen : BitVec 16} {r : PollResult} (h : Tidy l b)
    (hp : Polled b seen t r) : Onward l b t := by
  have hk : Keeps b t := ⟨hp.pools, fun ep _ => (hp.dqh _).2.1⟩
  obtain ⟨hdtd, hbuf, hfifo, htr⟩ := hp.memory
  have hprime : ∀ ep, (view t ep).prime = (view b ep).prime := by
    intro ep
    unfold view
    rw [hp.registers.1]
  have hstat : ∀ ep, (view t ep).stat = (view b ep).stat := by
    intro ep
    unfold view
    rw [hp.registers.2]
  have honce : Once t := by
    intro ep hv hin hp'
    rw [hprime] at hp'
    obtain ⟨hs', hc'⟩ := h.once ep hv hin hp'
    rw [hp.view ep hv (Or.inr hc')]
    exact ⟨hs', hc'⟩
  refine ⟨⟨good_effect kept_phase h.ready hp.effect hp.noted, honce, hk.inside h.owned.inside,
    fun ep hv hout => ?_⟩, fun ep acc hv hin hc => ?_⟩
  · apply outPages_congr hk (h.owned.outside ep hv hout) (hp.view ep hv (Or.inl hout))
      hp.effect.used (hp.dqh _).2.1 (hp.dqh _).2.2.2
    intro d _ _
    rw [hdtd]
  · cases hdone : b.endptcomplete.getLsbD (endptBit ep) with
    | false =>
      apply carries_congr hc (hp.view ep hv (Or.inr hdone))
      · obtain ⟨-, haddr, htoken, hpage⟩ := hp.dqh (epaddr2dqhidx ep)
        exact ⟨htoken, hpage, haddr⟩
      · rw [htr]
      · rw [hfifo]
      · intro _
        rw [hdtd]
      · intro _ _
        rw [hbuf]
    | true =>
      obtain ⟨hnp, hns⟩ := phased_done h.ready h.once hv hin hdone
      refine ⟨fun _ _ => ?_, fun hp' => ?_, fun hs' => ?_⟩
      · rw [htr]
        exact hc.idle hnp hns
      · rw [hprime, hnp] at hp'
        cases hp'
      · rw [hstat, hns] at hs'
        cases hs'

theorem onward_poll (h : Tidy l s) {h₁ h₂ : List HwEvent} {r : PollResult}
    (hc : Bus.poll s h₁ h₂ = .ok (t, r)) : Onward l s t := by
  rcases poll_eq s h₁ h₂ with heq | heq <;> rw [heq] at hc
  · cases hc
    exact onward_same h same_registers rfl h.ready.noted
  · have hack : Onward l s (writeUsbsts s (mask 32 usbstsSre)) :=
      onward_same h same_registers rfl h.ready.noted
    have hset : Onward l s (atSetup s h₁) := hack.trans (onward_hardware hack.tidy h₁)
    have hcomplete : Onward l s (atComplete s h₁ h₂) := hset.trans (onward_hardware hset.tidy h₂)
    have hpolled := polled hcomplete.tidy.ready.single hcomplete.tidy.ready.noted hc
    exact hcomplete.trans (onward_polled hcomplete.tidy hpolled)

theorem onward_enable (h : Tidy l s) : Onward l s (Bus.enable s) :=
  onward_same h same_registers rfl h.ready.noted

theorem onward_setDeviceAddress (h : Tidy l s) (hs : Stable s) (addr : BitVec 8)
    {gaps : EndpointAddress → List HwEvent}
    (hgaps : ∀ ep ∈ allocatedEps s, dataOut ep = true → InsUnfetched s (gaps ep)) :
    Onward l s (Bus.setDeviceAddress s addr gaps) := by
  have hany (bits : BitVec 32) :
      Onward l s ((allocatedEps s).foldl (enableEp gaps) (writeDeviceaddr s bits)) := by
    have hwrite : Onward l s (writeDeviceaddr s bits) :=
      onward_same h same_registers rfl h.ready.noted
    have heff : Effect false s (writeDeviceaddr s bits) := .same (fun _ => rfl) hs.single rfl rfl
    refine hwrite.trans (onward_enableEps _ hwrite.tidy (hs.effect heff) (fun ep hep => ?_) hgaps)
    exact (isEpBeingUsed_iff s ep).mpr ((mem_allocatedEps s ep).mp hep)
  exact hany _

theorem taken_pool {a : ℕ} {b64s b512s : List ℕ} (h : Taken s a b64s b512s)
    (hn : (pool s).Nodup) : a ∈ pool s ∧ a ∉ b64s ++ b512s ∧ (b64s ++ b512s).Nodup ∧
      ∀ b ∈ b64s ++ b512s, b ∈ pool s := by
  unfold pool at hn ⊢
  rcases h with ⟨h1, h2⟩ | ⟨h1, h2⟩
  · rw [h1, h2] at hn ⊢
    rw [List.cons_append, List.nodup_cons] at hn
    exact ⟨List.mem_cons_self, hn.1, hn.2, fun b hb => List.mem_cons_of_mem _ hb⟩
  · rw [h1, h2] at hn ⊢
    rw [List.nodup_middle, List.nodup_cons] at hn
    refine ⟨by simp, hn.1, hn.2, fun b hb => ?_⟩
    rw [List.mem_append] at hb ⊢
    exact hb.imp id fun hb => List.mem_cons_of_mem _ hb

theorem taken_foreign {a b : ℕ} (hsub : ∀ c ∈ pool t, c ∈ pool s) (ha : a ∈ pool s)
    (hbuf : ∀ ep, ep.isOut = false → bufferOf t ep = bufferOf s ep ∨ bufferOf t ep = some a)
    (hf : Foreign s b) : Foreign t b := by
  refine ⟨fun hmem => hf.1 (hsub b hmem), fun ep hin hb => ?_⟩
  rcases hbuf ep hin with heq | heq
  · exact hf.2 ep hin (heq.symm.trans hb)
  · have hab : a = b := Option.some.inj (heq.symm.trans hb)
    rw [← hab] at hf
    exact hf.1 ha

theorem taken_inside {a : ℕ} {b64s b512s : List ℕ} (h : Taken s a b64s b512s)
    (hi : InBuffers l s) (hpool : pool t = b64s ++ b512s)
    (hbuf : ∀ ep, ep.isOut = false → bufferOf t ep = bufferOf s ep) :
    InBuffers l t ∧ Foreign t a ∧ ∀ b, Foreign s b → Foreign t b := by
  obtain ⟨ha, hnot, hnodup, hsub⟩ := taken_pool h hi.nodup
  rw [← hpool] at hnot hnodup hsub
  refine ⟨⟨hnodup, fun b hb => hi.static b (hsub b hb), fun ep b hin hb => ?_,
    fun ep ep' b hin hin' hb hb' => ?_⟩, ⟨hnot, fun ep hin hb => ?_⟩, fun b hf => ?_⟩
  · rw [hbuf ep hin] at hb
    obtain ⟨hstatic, hout⟩ := hi.taken ep b hin hb
    exact ⟨hstatic, fun hmem => hout (hsub b hmem)⟩
  · rw [hbuf ep hin] at hb
    rw [hbuf ep' hin'] at hb'
    exact hi.own ep ep' b hin hin' hb hb'
  · rw [hbuf ep hin] at hb
    exact (hi.taken ep a hin hb).2 ha
  · exact taken_foreign hsub ha (fun ep hin => Or.inl (hbuf ep hin)) hf

structure NewPages (l : Layout) (s : Usbd) (ep : EndpointAddress) (d : ℕ) (t : Usbd) : Prop where
  inside : InBuffers l t
  foreign : ∀ b, Foreign s b → Foreign t b
  buffer : ep.isOut = true → ∀ a, bufferOf t ep = some a → Foreign t a
  page : ep.isOut = true → ep.index ≠ 0 → Foreign t (t.dtd d).page0
  dtd : ∀ d', d' ≠ d → t.dtd d' = s.dtd d'
  others : ∀ ep', ep' ≠ ep →
    t.dqhs (epaddr2dqhidx ep') = s.dqhs (epaddr2dqhidx ep')
  memory : t.buffer = s.buffer ∧ t.fifo = s.fifo ∧ t.transfers = s.transfers

theorem allocated_pages (h : Owned l s) (ha : Allocated s ep t) :
    ∃ d, s.inner.dtds.head? = some d ∧ (view t ep).next = d ∧ NewPages l s ep d t := by
  obtain ⟨hv, hfree, d, rest, caps, b64s, b512s, addr, dtd, hpool, -, hcase, heq⟩ := ha
  have hself : bufferOf t ep = addr := by
    rw [heq]
    simp [bufferOf]
  have hothers : ∀ ep', ep' ≠ ep → t.dqhs (epaddr2dqhidx ep') = s.dqhs (epaddr2dqhidx ep') := by
    intro ep' hne
    rw [heq]
    simp [dqhidx_ne hne]
  have hdtd : ∀ d', d' ≠ d → t.dtd d' = s.dtd d' := by
    intro d' hne
    rw [heq]
    simp [hne]
  have hmemory : t.buffer = s.buffer ∧ t.fifo = s.fifo ∧ t.transfers = s.transfers := by
    rw [heq]
    exact ⟨rfl, rfl, rfl⟩
  have hnext : (view t ep).next = d := by
    rw [heq]
    simp [view]
  refine ⟨d, by rw [hpool]; rfl, hnext, ?_⟩
  rcases hcase with ⟨h0, hsame, -, hb64s, hb512s⟩ | ⟨hout, a, token, hsome, htaken, hpages⟩
  · have hk : Keeps s t := by
      refine ⟨by rw [heq]; exact ⟨hb64s, hb512s⟩, fun ep' _ => ?_⟩
      by_cases he : ep' = ep
      · rw [he, hself, hsame]
        rfl
      · show (t.dqhs _).addr = _
        rw [hothers ep' he]
        rfl
    refine ⟨hk.inside h.inside, fun b hf => hk.foreign hf, fun hout a hb => ?_, ?_, hdtd, hothers,
      hmemory⟩
    · rw [hself, hsame] at hb
      exact hk.foreign ((h.outside ep hv hout).buffer a hb)
    · intro hout hne
      exact absurd (h0 hout) hne
  · have hbuf : ∀ ep', ep'.isOut = false → bufferOf t ep' = bufferOf s ep' := by
      intro ep' hin
      have hne : ep' ≠ ep := by
        intro he
        rw [he, hout] at hin
        cases hin
      show (t.dqhs _).addr = _
      rw [hothers ep' hne]
      rfl
    have hpoolt : pool t = b64s ++ b512s := by rw [heq]; rfl
    obtain ⟨hinside, ha, hforeign⟩ := taken_inside htaken h.inside hpoolt hbuf
    refine ⟨hinside, hforeign, fun _ b hb => ?_, fun _ _ => ?_, hdtd, hothers, hmemory⟩
    · rw [hself, hsome] at hb
      cases hb
      exact ha
    · have hpage : (t.dtd d).page0 = a := by
        rw [heq, hpages]
        simp [DTD.setPages]
      rw [hpage]
      exact ha

theorem onward_allocated (h : Tidy l s) (ha : Allocated s ep t) : Onward l s t := by
  obtain ⟨d, hhead, hnext, hpages⟩ := allocated_pages h.owned ha
  obtain ⟨d', rest, hpool, -, hview⟩ := allocated_view ha
  have hother := allocated_other ha
  have hused := allocated_used ha
  have hready := good_allocated kept_phase h.ready ha
  have hblank := h.ready.free ep ha.valid ha.fresh
  have hd : d ∈ s.inner.dtds := by
    rw [hpool] at hhead ⊢
    cases hhead
    exact List.mem_cons_self
  -- a descriptor of the pool is not one of an endpoint
  have hclash : ∀ ep' d', ep'.isValid = true → d' % 32 = 0 → Slot d' (view s ep') → d' ≠ d := by
    intro ep' d' hv' hd' hs' heq
    obtain ⟨d'', hd'', hnot, hph⟩ := h.ready.held ep' (slot_used h.ready hv' hd' hs')
    rw [slot_unique hd'' hd' hph.slot hs', heq] at hnot
    exact hnot hd
  have hnew : view t ep = { blank with next := d' } := by rw [hview, hblank]
  have honce : Once t := by
    intro ep' hv' hin hp
    by_cases he : ep' = ep
    · subst ep'
      rw [hnew] at hp
      cases hp
    · rw [hother ep' he] at hp ⊢
      exact h.once ep' hv' hin hp
  refine ⟨⟨hready, honce, hpages.inside, fun ep' hv' hout' => ?_⟩, fun ep' acc hv' hin hc => ?_⟩
  · by_cases he : ep' = ep
    · subst ep'
      refine ⟨hpages.buffer hout', fun hst => ?_, fun hp _ d'' hd'' hs'' => ?_⟩
      · rw [hnew] at hst
        cases hst
      · rw [hnew] at hp hs''
        have hne : ep.index ≠ 0 := hp.resolve_left (by simp [blank])
        have heq : d'' = d := by
          rw [← hnext, hnew]
          rcases hs'' with ⟨-, hn⟩ | ⟨hc, -⟩
          · exact hn.symm
          · exact absurd hc.symm (ne_noNextDtd hd'')
        rw [heq]
        exact hpages.page hout' hne
    · have ho := h.owned.outside ep' hv' hout'
      have hdqh := hpages.others ep' he
      refine ⟨fun a hb => ?_, fun hst => ?_, fun hp hu d'' hd'' hs'' => ?_⟩
      · have hb' : bufferOf s ep' = some a := by
          unfold bufferOf at hb ⊢
          rw [← hdqh]
          exact hb
        exact hpages.foreign a (ho.buffer a hb')
      · rw [hother ep' he] at hst
        rw [hdqh]
        exact hpages.foreign _ (ho.loaded hst)
      · rw [hother ep' he] at hp hs''
        have hu' : isEpBeingUsed s ep' = true := ((hused ep').mp hu).resolve_right he
        rw [hpages.dtd d'' (hclash ep' d'' hv' hd'' hs'')]
        exact hpages.foreign _ (ho.next hp hu' d'' hd'' hs'')
  · obtain ⟨hbuf, hfifo, htr⟩ := hpages.memory
    by_cases he : ep' = ep
    · subst ep'
      refine ⟨fun _ _ => ?_, fun hp => ?_, fun hst => ?_⟩
      · rw [htr]
        exact hc.idle (by rw [hblank]; rfl) (by rw [hblank]; rfl)
      · rw [hnew] at hp
        cases hp
      · rw [hnew] at hst
        cases hst
    · have hdqh := hpages.others ep' he
      apply carries_congr hc (hother ep' he)
      · rw [hdqh]
        exact ⟨rfl, rfl, rfl⟩
      · rw [htr]
      · rw [hfifo]
      · intro hp
        obtain ⟨hd', hs'⟩ := phased_primed h.ready h.once hv' hin hp
        exact hpages.dtd _ (hclash ep' _ hv' hd' hs')
      · intro _ _
        rw [hbuf]

end UsbArmory.Usb.Accepted
