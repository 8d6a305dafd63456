import UsbArmory.Usb.Arrivals

/-!
# OUT endpoints with a buffer for the next packet

The descriptor of an OUT endpoint, and then the queue head, is for one buffer
and a number of bytes; a packet that has been stored is in that buffer. For
endpoint 0 that is the slice which the read is lent, for the others a static
buffer of the size of their packets.
-/

set_option autoImplicit false

namespace UsbArmory.Usb.OutBuffers
open UsbArmory.Library.Bits UsbArmory.Usb.Descriptors UsbArmory.Usb.Controller UsbArmory.Usb.Bus
open UsbArmory.Usb.Endpoint UsbArmory.Usb.Effects UsbArmory.Usb.Read UsbArmory.Usb.Invariant
open UsbArmory.Usb.Memory UsbArmory.Usb.Transfer UsbArmory.Usb.ResetSteps UsbArmory.Usb.Arrivals

structure Armed (s : Usbd) (ep : EndpointAddress) (a m : ℕ) : Prop where
  free : (view s ep).next % 32 = 0 → (view s ep).stat = false ∧ (view s ep).complete = false
  once : (view s ep).stat = true → (view s ep).complete = false
  queued : (view s ep).prime = true ∨ ep.index ≠ 0 → (view s ep).next % 32 = 0 →
    (s.dtd (view s ep).next).page0 = a ∧ (s.dtd (view s ep).next).token.getTotalBytes = m
  loaded : (view s ep).stat = true → (overlay s ep).2 = a ∧ (overlay s ep).1.getTotalBytes = m
  done : (view s ep).complete = true → ∃ bytes,
    (s.transfers (epaddr2dqhidx ep)).getLast? = some bytes ∧ bytes.length ≤ m ∧
      (overlay s ep).1.getTotalBytes = m - bytes.length ∧
      (s.buffer a).take bytes.length = bytes

variable {l : Layout} {s t : Usbd} {ep x : EndpointAddress} {a m : ℕ} {buf : Lent}

theorem bit_clear {b c : Bool} (h : b = true → c = true) (hc : c = false) : b = false :=
  Bool.eq_false_iff.mpr fun hb => absurd ((h hb).symm.trans hc) (by decide)

theorem armed_congr (h : Armed s ep a m) (hnext : (view t ep).next = (view s ep).next)
    (hprime : (view t ep).prime = true → (view s ep).prime = true ∨ ep.index ≠ 0)
    (hstat : (view t ep).stat = true → (view s ep).stat = true)
    (hcomplete : (view t ep).complete = true → (view s ep).complete = true)
    (hload : overlay t ep = overlay s ep) (hl : Leaves s ep a t) : Armed t ep a m := by
  refine ⟨fun hal => ?_, fun hst => ?_, fun hp hal => ?_, fun hst => ?_, fun hc => ?_⟩
  · rw [hnext] at hal
    obtain ⟨hst, hc⟩ := h.free hal
    exact ⟨bit_clear hstat hst, bit_clear hcomplete hc⟩
  · exact bit_clear hcomplete (h.once (hstat hst))
  · rw [hnext] at hal ⊢
    rw [hl.dtd hal]
    exact h.queued (hp.elim hprime .inr) hal
  · rw [hload]
    exact h.loaded (hstat hst)
  · rw [hload, hl.transfers, hl.buffer]
    exact h.done (hcomplete hc)

theorem armed_same (h : Armed s ep a m) (hview : view t ep = view s ep)
    (hload : overlay t ep = overlay s ep) (hl : Leaves s ep a t) : Armed t ep a m := by
  refine armed_congr h ?_ ?_ ?_ ?_ hload hl <;> rw [hview]
  · exact .inl
  · exact id
  · exact id

theorem armed_rest (h0 : ep.index = 0) (h : AtRest s ep) : Armed s ep a m := by
  refine ⟨fun _ => ⟨h.stat, h.complete⟩, fun _ => h.complete, fun hp => ?_, fun hst => ?_,
    fun hc => ?_⟩
  · rcases hp with hp | hne
    · rw [h.prime] at hp
      cases hp
    · exact absurd h0 hne
  · rw [h.stat] at hst
    cases hst
  · rw [h.complete] at hc
    cases hc

theorem armed_turn (h : Armed s ep a m) (hv : ep.isValid = true) (hm : m < 0x5000)
    (hal : (view s ep).next ≠ noNextDtd → (view s ep).next % 32 = 0) {e : HwEvent}
    (ht : Turn s ep a t e) : Armed t ep a m := by
  cases ht with
  | still _ _ _ hview hload hl => exact armed_same h hview hload hl
  | skipped _ hview hload hl =>
    refine armed_congr h ?_ ?_ ?_ ?_ hload hl <;> rw [hview]
    · exact fun hno => by cases hno
    · exact id
    · exact id
  | fetched hprime hnext hview hload hl =>
    obtain ⟨-, hc⟩ := h.free (hal hnext)
    refine ⟨fun hyes => ?_, fun _ => ?_, fun _ hyes => ?_, fun _ => ?_, fun hyes => ?_⟩
    · rw [hview] at hyes
      exact absurd hyes noNextDtd_mod
    · rw [hview]
      exact hc
    · rw [hview] at hyes
      exact absurd hyes noNextDtd_mod
    · rw [hload]
      exact h.queued (.inl hprime) (hal hnext)
    · rw [hview] at hyes
      exact absurd (hc.symm.trans hyes) (by decide)
  | received status bytes hstat hlen ht =>
    subst ht
    obtain ⟨hpage, htotal⟩ := h.loaded hstat
    have hview := stored_view s hv status bytes
    have hlast := stored_overlay s ep status bytes (by omega)
    refine ⟨fun hyes => ?_, fun hyes => ?_, fun _ hyes => ?_, fun hyes => ?_, fun _ => ?_⟩
    · rw [hview] at hyes
      exact absurd ((h.free hyes).1.symm.trans hstat) (by decide)
    · rw [hview] at hyes
      cases hyes
    · rw [hview] at hyes
      exact absurd ((h.free hyes).1.symm.trans hstat) (by decide)
    · rw [hview] at hyes
      cases hyes
    · refine ⟨bytes, ?_, ?_, ?_, ?_⟩
      · rw [stored_transfers, List.getLast?_concat]
      · rw [← htotal]
        exact hlen
      · rw [hlast, htotal]
      · rw [← hpage]
        exact stored_buffer s ep status bytes

/-- An endpoint other than 0 is armed with a static buffer. -/
def Posted (l : Layout) (s : Usbd) (ep : EndpointAddress) : Prop :=
  ∃ a ∈ l.b64s ++ l.b512s, bufferOf s ep = some a ∧
    (s.dqhs (epaddr2dqhidx ep)).getMaxPacketSize ≤ 512 ∧
    Armed s ep a (s.dqhs (epaddr2dqhidx ep)).getMaxPacketSize

theorem posted_same (h : Posted l s ep)
    (hdqh : t.dqhs (epaddr2dqhidx ep) = s.dqhs (epaddr2dqhidx ep))
    (hview : view t ep = view s ep)
    (hl : ∀ a ∈ l.b64s ++ l.b512s, bufferOf s ep = some a → Leaves s ep a t) :
    Posted l t ep := by
  obtain ⟨a, ha, hbuf, hmax, harmed⟩ := h
  rw [Posted, bufferOf, hdqh]
  refine ⟨a, ha, hbuf, hmax, armed_same harmed hview ?_ (hl a ha hbuf)⟩
  rw [overlay, hdqh, overlay]

/-- The OUT endpoints, while endpoint 0 may be reading into a slice. -/
structure Moored (l : Layout) (buf : Lent) (s : Usbd) : Prop where
  good : Good Staged s
  posted : ∀ ep, isEpBeingUsed s ep = true → ep.isOut = true → ep.index ≠ 0 → Posted l s ep
  served : Armed s controlOut buf.addr buf.cap
  lent : AtRest s controlOut ∨ buf.addr ∉ l.b64s ++ l.b512s ∧ buf.cap < 0x5000

theorem out_unique (hv : ep.isValid = true) (hvx : x.isValid = true) (hout : ep.isOut = true)
    (hoxt : x.isOut = true) (h0 : ep.index ≠ 0) (hne : x ≠ ep) : x = controlOut := by
  have hi := index_lt hv
  have hix := index_lt hvx
  obtain ⟨i, d⟩ := ep
  obtain ⟨j, e⟩ := x
  cases d <;> cases e <;> simp [EndpointAddress.isOut, controlOut] at hout hoxt hi hix h0 hne ⊢
  omega

theorem stat_used {P : EndpointAddress → ℕ → View → Prop} (h : Good P s) (hv : ep.isValid = true)
    (hst : (view s ep).stat = true) : isEpBeingUsed s ep = true := by
  by_contra hu
  rw [h.free ep hv ((Bool.not_eq_true _).mp hu)] at hst
  cases hst

theorem next_aligned {P : EndpointAddress → ℕ → View → Prop} (hP : Kept P) (h : Good P s)
    (hv : ep.isValid = true) (hn : (view s ep).next ≠ noNextDtd) : (view s ep).next % 32 = 0 := by
  rcases h.blank_or_slot hP hv with hblank | ⟨d, hd, hslot⟩
  · rw [hblank] at hn
    exact absurd rfl hn
  · rcases hslot with ⟨-, hnext⟩ | ⟨-, hnext⟩
    · rw [hnext]
      exact hd
    · exact absurd hnext hn

theorem done_current {P : EndpointAddress → ℕ → View → Prop} (hP : Kept P) (h : Good P s)
    (hv : ep.isValid = true) (ha : Armed s ep a m) (hc : (view s ep).complete = true) :
    (view s ep).current % 32 = 0 ∧ Slot (view s ep).current (view s ep) := by
  rcases h.blank_or_slot hP hv with hblank | ⟨d, hd, hslot⟩
  · rw [hblank] at hc
    cases hc
  · rcases hslot with ⟨-, hnext⟩ | ⟨hcur, hnext⟩
    · have hno := (ha.free (by rw [hnext]; exact hd)).2
      exact absurd (hno.symm.trans hc) (by decide)
    · exact ⟨by rw [hcur]; exact hd, .inr ⟨rfl, hnext⟩⟩

theorem moored_apart (h : Moored l buf s) (hu : isEpBeingUsed s ep = true)
    (hout : ep.isOut = true) (h0 : ep.index ≠ 0) (ha : a ∈ l.b64s ++ l.b512s)
    (hv : x.isValid = true) (hox : x.isOut = true) (hne : x ≠ ep)
    (hst : (view s x).stat = true) : (overlay s x).2 ≠ a := by
  have hx := out_unique (h.good.valid ep hu) hv hout hox h0 hne
  subst hx
  rw [(h.served.loaded hst).1]
  rintro rfl
  rcases h.lent with hrest | ⟨hfresh, -⟩
  · rw [hrest.stat] at hst
    cases hst
  · exact hfresh ha

theorem turn_posted (h : Moored l buf s) (hu : isEpBeingUsed s ep = true) (hout : ep.isOut = true)
    (h0 : ep.index ≠ 0) (ha : a ∈ l.b64s ++ l.b512s) {e : HwEvent} (he : hwStep s e = some t) :
    Turn s ep a t e :=
  turn_hwStep kept_staged h.good (h.good.valid ep hu) hout
    (fun _ hv hox hne hst => moored_apart h hu hout h0 ha hv hox hne hst) he

theorem turn_served (h : Moored l buf s) (hfresh : buf.addr ∉ l.b64s ++ l.b512s) {e : HwEvent}
    (he : hwStep s e = some t) : Turn s controlOut buf.addr t e := by
  refine turn_hwStep kept_staged h.good controlOut_valid rfl (fun x hv hox hne hst heq => ?_) he
  have h0 : x.index ≠ 0 := fun h0 => hne (out_zero hox h0)
  obtain ⟨a, ha, -, -, harmed⟩ := h.posted x (stat_used h.good hv hst) hox h0
  rw [(harmed.loaded hst).1] at heq
  exact hfresh (heq ▸ ha)

theorem moored_hwStep (h : Moored l buf s) {e : HwEvent} (he : hwStep s e = some t) :
    Moored l buf t := by
  have hf := hwStep_frame e he
  have hused := isEpBeingUsed_congr (congrArg Inner.usedDqhs hf.inner)
  refine ⟨good_hwStep kept_staged h.good e he, fun ep hu hout h0 => ?_, ?_, ?_⟩
  · rw [hused] at hu
    obtain ⟨a, ha, hbuf, hmax, harmed⟩ := h.posted ep hu hout h0
    have hv := h.good.valid ep hu
    have hcaps : (t.dqhs (epaddr2dqhidx ep)).getMaxPacketSize =
        (s.dqhs (epaddr2dqhidx ep)).getMaxPacketSize := by
      rw [DQH.getMaxPacketSize, (hf.dqh _).1, DQH.getMaxPacketSize]
    have hturn := turn_posted h hu hout h0 ha he
    refine ⟨a, ha, (hf.dqh _).2.trans hbuf, ?_, ?_⟩ <;> rw [hcaps]
    · exact hmax
    · exact armed_turn harmed hv (by omega) (next_aligned kept_staged h.good hv) hturn
  · rcases h.lent with hrest | ⟨hfresh, hcap⟩
    · exact armed_rest rfl (hrest.congr (rest_hwStep controlOut_valid hrest he))
    · exact armed_turn h.served controlOut_valid hcap
        (next_aligned kept_staged h.good controlOut_valid) (turn_served h hfresh he)
  · rcases h.lent with hrest | hlent
    · exact .inl (hrest.congr (rest_hwStep controlOut_valid hrest he))
    · exact .inr hlent

theorem moored_hardware (h : Moored l buf s) (es : List HwEvent) :
    Moored l buf (hardware s es) :=
  hardware_invariant (fun _ _ _ hs he => moored_hwStep hs he) es s h

theorem moored_waitFor (h : Moored l buf s) {cond : Usbd → Bool} {wait : List (List HwEvent)}
    (hw : waitFor cond s wait = .ok t) : Moored l buf t :=
  waitFor_invariant (fun _ _ _ hs he => moored_hwStep hs he) h hw

/-- A change of the driver that the OUT endpoints do not notice. -/
structure Aside (s t : Usbd) : Prop where
  used : t.inner.usedDqhs = s.inner.usedDqhs
  view : ∀ ep, ep.isValid = true → ep.isOut = true → view t ep = view s ep
  overlay : ∀ ep, overlay t ep = overlay s ep
  addr : ∀ ep, bufferOf t ep = bufferOf s ep
  caps : ∀ q, (t.dqhs q).caps = (s.dqhs q).caps
  memory : t.dtd = s.dtd ∧ t.buffer = s.buffer ∧ t.transfers = s.transfers

theorem armed_aside (h : Aside s t) (hv : ep.isValid = true) (hout : ep.isOut = true)
    (ha : Armed s ep a m) : Armed t ep a m := by
  obtain ⟨hdtd, hbuffer, htransfers⟩ := h.memory
  refine armed_same ha (h.view ep hv hout) (h.overlay ep) ⟨fun _ => ?_, ?_, ?_⟩
  · rw [hdtd]
  · rw [hbuffer]
  · rw [htransfers]

theorem posted_aside (h : Aside s t) (hv : ep.isValid = true) (hout : ep.isOut = true)
    (hp : Posted l s ep) : Posted l t ep := by
  obtain ⟨a, ha, hbuf, hmax, harmed⟩ := hp
  have hcaps : (t.dqhs (epaddr2dqhidx ep)).getMaxPacketSize =
      (s.dqhs (epaddr2dqhidx ep)).getMaxPacketSize := by
    rw [DQH.getMaxPacketSize, h.caps, DQH.getMaxPacketSize]
  refine ⟨a, ha, (h.addr ep).trans hbuf, ?_, ?_⟩ <;> rw [hcaps]
  · exact hmax
  · exact armed_aside h hv hout harmed

theorem moored_aside (h : Moored l buf s) (ha : Aside s t) (hgood : Good Staged t) :
    Moored l buf t := by
  refine ⟨hgood, fun ep hu hout h0 => ?_, armed_aside ha controlOut_valid rfl h.served, ?_⟩
  · exact posted_aside ha (hgood.valid ep hu) hout
      (h.posted ep (by rw [← isEpBeingUsed_congr ha.used]; exact hu) hout h0)
  · exact h.lent.imp (fun hrest => hrest.congr (ha.view controlOut controlOut_valid rfl)) id

theorem moored_same (h : Moored l buf s) (hs : Same s t)
    (hcaps : ∀ q, (t.dqhs q).caps = (s.dqhs q).caps) (hd : t.inner.dtds = s.inner.dtds)
    (hn : t.inner.epInComplete = none) : Moored l buf t := by
  have heff : Effect false s t := by
    refine .same hs.view (fun a => ?_) hs.used hd
    rw [hs.memory.1]
    exact h.good.single a
  refine moored_aside h ⟨hs.used, fun ep _ _ => hs.view ep, fun ep => ?_, fun ep => ?_, hcaps,
    hs.memory⟩ (good_effect kept_staged h.good heff hn)
  · rw [overlay, (hs.dqh _).1, (hs.dqh _).2.1, overlay]
  · exact (hs.dqh _).2.2

theorem moored_tripwire (h : Moored l buf s) (q : ℕ) (rounds : List (List HwEvent)) :
    Moored l buf (tripwire s q rounds).1 := by
  have harm : ∀ {u : Usbd}, Moored l buf u → Moored l buf (arm u) := fun hu =>
    moored_same hu same_registers (fun _ => rfl) rfl hu.good.noted
  induction rounds generalizing s with
  | nil => exact harm h
  | cons es rounds ih =>
    have hhw := moored_hardware (harm h) es
    unfold tripwire
    simp only
    split
    next => exact hhw
    next => exact ih hhw

end UsbArmory.Usb.OutBuffers
