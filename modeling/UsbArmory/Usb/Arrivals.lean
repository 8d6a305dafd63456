import UsbArmory.Usb.ResetSteps
import UsbArmory.Usb.Transfer

/-!
# What an OUT endpoint sees of the controller

An event of the controller leaves the transfer of an OUT endpoint as it is,
loads the next descriptor of the endpoint, or stores a packet.
-/

set_option autoImplicit false

namespace UsbArmory.Usb.Arrivals
open UsbArmory.Library.Bits UsbArmory.Usb.Descriptors UsbArmory.Usb.Controller UsbArmory.Usb.Bus
open UsbArmory.Usb.Endpoint UsbArmory.Usb.Effects UsbArmory.Usb.Invariant UsbArmory.Usb.Memory
open UsbArmory.Usb.Transfer

/-- The token and the page that the controller works with. -/
def overlay (s : Usbd) (ep : EndpointAddress) : Token × ℕ :=
  ((s.dqhs (epaddr2dqhidx ep)).token, (s.dqhs (epaddr2dqhidx ep)).page0)

/-- The memory that a transfer to the buffer `a` depends on stays. -/
structure Leaves (s : Usbd) (ep : EndpointAddress) (a : ℕ) (t : Usbd) : Prop where
  dtd : (view s ep).next % 32 = 0 → t.dtd (view s ep).next = s.dtd (view s ep).next
  buffer : t.buffer a = s.buffer a
  transfers : t.transfers (epaddr2dqhidx ep) = s.transfers (epaddr2dqhidx ep)

def stored (s : Usbd) (ep : EndpointAddress) (status : Status) (bytes : List UInt8) : Usbd :=
  (retire s ep status ((overlay s ep).1.getTotalBytes - bytes.length) bytes).fillBuffer
    (overlay s ep).2 bytes

inductive Turn (s : Usbd) (ep : EndpointAddress) (a : ℕ) (t : Usbd) : HwEvent → Prop where
  | still (e : HwEvent) (hfetch : e ≠ .fetch ep)
    (hreceived : ∀ status bytes, e ≠ .received ep status bytes) (hview : view t ep = view s ep)
    (hload : overlay t ep = overlay s ep) (h : Leaves s ep a t) : Turn s ep a t e
  | skipped (hnext : (view s ep).next = noNextDtd)
    (hview : view t ep = { view s ep with prime := false }) (hload : overlay t ep = overlay s ep)
    (h : Leaves s ep a t) : Turn s ep a t (.fetch ep)
  | fetched (hprime : (view s ep).prime = true) (hnext : (view s ep).next ≠ noNextDtd)
    (hview : view t ep = ⟨(view s ep).next, noNextDtd, false, true, (view s ep).complete,
      (view s ep).transfers, (view s ep).ended⟩)
    (hload : overlay t ep = ((s.dtd (view s ep).next).token, (s.dtd (view s ep).next).page0))
    (h : Leaves s ep a t) : Turn s ep a t (.fetch ep)
  | received (status : Status) (bytes : List UInt8) (hstat : (view s ep).stat = true)
    (hlen : bytes.length ≤ (overlay s ep).1.getTotalBytes) (ht : t = stored s ep status bytes) :
    Turn s ep a t (.received ep status bytes)

variable {P : EndpointAddress → ℕ → View → Prop} {s t : Usbd} {ep x : EndpointAddress} {a : ℕ}

theorem next_slot (hP : Kept P) (h : Good P s) (hv : ep.isValid = true)
    (hal : (view s ep).next % 32 = 0) :
    isEpBeingUsed s ep = true ∧ Slot (view s ep).next (view s ep) := by
  cases hu : isEpBeingUsed s ep with
  | false =>
    rw [h.free ep hv hu] at hal
    exact absurd hal noNextDtd_mod
  | true =>
    obtain ⟨d, hd, hslot⟩ := h.slot hP hu
    refine ⟨rfl, ?_⟩
    rcases hslot with ⟨hcur, hnext⟩ | ⟨-, hnext⟩
    · exact .inl ⟨hcur, rfl⟩
    · rw [hnext] at hal
      exact absurd hal noNextDtd_mod

theorem next_apart (hP : Kept P) (h : Good P s) (hv : ep.isValid = true)
    (hvx : x.isValid = true) (hne : ep ≠ x) (hal : (view s ep).next % 32 = 0) :
    (view s ep).next ≠ (view s x).current := by
  intro heq
  obtain ⟨hu, hslot⟩ := next_slot hP h hv hal
  rcases h.blank_or_slot hP hvx with hblank | ⟨d, hd, hslotx⟩
  · rw [heq, hblank] at hal
    exact noNextDtd_mod hal
  · rcases hslotx with ⟨hcur, -⟩ | ⟨hcur, hnext⟩
    · rw [heq, hcur] at hal
      exact noNextDtd_mod hal
    · have hux : isEpBeingUsed s x = true := by
        by_contra hfree
        rw [h.free x hvx ((Bool.not_eq_true _).mp hfree)] at hcur
        exact ne_noNextDtd hd hcur.symm
      rw [heq, hcur] at hslot
      exact hne (h.own ep x d hd hu hux hslot (.inr ⟨hcur, hnext⟩))

theorem turn_fetch_self (h : Single s) (hv : ep.isValid = true) (hp : (view s ep).prime = true) :
    Turn s ep a (fetch s ep) (.fetch ep) := by
  by_cases hn : (view s ep).next = noNextDtd
  · have hn' : (s.dqhs (epaddr2dqhidx ep)).nextDtd = noNextDtd := hn
    have hview := fetch_skip_self s ep hn'
    rw [fetch_skip s ep hn'] at hview ⊢
    exact .skipped hn hview rfl ⟨fun _ => rfl, rfl, rfl⟩
  · have hn' : (s.dqhs (epaddr2dqhidx ep)).nextDtd ≠ noNextDtd := hn
    have hview := fetch_self h ep hv hn'
    rw [fetch_loads s ep hn'] at hview ⊢
    exact .fetched hp hn hview (by simp [overlay, view]) ⟨fun _ => rfl, rfl, rfl⟩

theorem turn_fetch_other (hv : ep.isValid = true) (hvx : x.isValid = true) (hne : ep ≠ x) :
    Turn s ep a (fetch s x) (.fetch x) := by
  have hview := fetch_other s x hvx ep hv hne
  have hq := dqhidx_ne hne
  have hfetch : HwEvent.fetch x ≠ .fetch ep := fun heq => hne (HwEvent.fetch.inj heq).symm
  by_cases hn : (s.dqhs (epaddr2dqhidx x)).nextDtd = noNextDtd
  · rw [fetch_skip s x hn] at hview ⊢
    exact .still _ hfetch (fun _ _ heq => by cases heq) hview rfl ⟨fun _ => rfl, rfl, rfl⟩
  · rw [fetch_loads s x hn] at hview ⊢
    exact .still _ hfetch (fun _ _ heq => by cases heq) hview (by simp [overlay, hq])
      ⟨fun _ => rfl, rfl, rfl⟩

theorem leaves_retire (hP : Kept P) (h : Good P s) (hv : ep.isValid = true)
    (hvx : x.isValid = true) (hne : ep ≠ x) (status : Status) (left : ℕ) (bytes : List UInt8) :
    overlay (retire s x status left bytes) ep = overlay s ep ∧
      Leaves s ep a (retire s x status left bytes) := by
  have hq := dqhidx_ne hne
  refine ⟨?_, fun hal => ?_, rfl, ?_⟩
  · simp [overlay, retire, Usbd.setDqh, Usbd.setDtd, hq]
  · have hdiff : (view s ep).next ≠ (s.dqhs (epaddr2dqhidx x)).currentDtd :=
      next_apart hP h hv hvx hne hal
    simp [retire, Usbd.setDqh, Usbd.setDtd, hdiff]
  · simp [retire, Usbd.setDqh, Usbd.setDtd, hq]

theorem turn_hwStep (hP : Kept P) (h : Good P s) (hv : ep.isValid = true) (hout : ep.isOut = true)
    (hapart : ∀ x, x.isValid = true → x.isOut = true → x ≠ ep → (view s x).stat = true →
      (overlay s x).2 ≠ a)
    {e : HwEvent} (he : hwStep s e = some t) : Turn s ep a t e := by
  cases hwStep_happens he with
  | fetch x hvx hprime =>
    by_cases hne : ep = x
    · subst hne
      exact turn_fetch_self h.single hv ((mask_ne_zero_iff _ ep).mp hprime)
    · exact turn_fetch_other hv hvx hne
  | load x hvx hin hstat =>
    exact .still _ (fun heq => by cases heq) (fun _ _ heq => by cases heq) rfl rfl
      ⟨fun _ => rfl, rfl, rfl⟩
  | sent x status bytes hvx hin hstat hfifo =>
    have hne : ep ≠ x := by
      rintro rfl
      rw [hout] at hin
      cases hin
    obtain ⟨hload, hleaves⟩ := leaves_retire (a := a) hP h hv hvx hne status 0 bytes
    exact .still _ (fun heq => by cases heq) (fun _ _ heq => by cases heq)
      (retire_other s x hvx status 0 bytes ep hv hne) hload hleaves
  | received x status bytes hvx hox hstat hlen =>
    have hst := (mask_ne_zero_iff _ x).mp hstat
    by_cases hne : ep = x
    · subst hne
      exact .received status bytes hst hlen rfl
    · have hpage : a ≠ (s.dqhs (epaddr2dqhidx x)).page0 :=
        fun heq => hapart x hvx hox (Ne.symm hne) hst heq.symm
      obtain ⟨hload, hleaves⟩ := leaves_retire (a := a) hP h hv hvx hne status
        ((s.dqhs (epaddr2dqhidx x)).token.getTotalBytes - bytes.length) bytes
      refine .still _ (fun heq => by cases heq)
        (fun _ _ heq => hne (HwEvent.received.inj heq).1.symm)
        (retire_other s x hvx status _ bytes ep hv hne) hload ⟨hleaves.dtd, ?_, hleaves.transfers⟩
      simp [Usbd.fillBuffer, hpage, hleaves.buffer]
  | setup index bytes hused hlen =>
    refine .still _ (fun heq => by cases heq) (fun _ _ heq => by cases heq) ?_ ?_
      ⟨fun _ => rfl, rfl, rfl⟩
    · by_cases hq : epaddr2dqhidx ep = epaddr2dqhidx ⟨index, .out⟩
      · simp [view, Usbd.setDqh, hq]
      · simp [view, Usbd.setDqh, hq]
    · by_cases hq : epaddr2dqhidx ep = epaddr2dqhidx ⟨index, .out⟩
      · simp [overlay, Usbd.setDqh, hq]
      · simp [overlay, Usbd.setDqh, hq]
  | status bits =>
    exact .still _ (fun heq => by cases heq) (fun _ _ heq => by cases heq) rfl rfl
      ⟨fun _ => rfl, rfl, rfl⟩

theorem stored_view (s : Usbd) (hv : ep.isValid = true) (status : Status) (bytes : List UInt8) :
    view (stored s ep status bytes) ep =
      { view s ep with
        stat := false, complete := true, transfers := (view s ep).transfers + 1 } :=
  retire_self s ep hv status _ bytes

theorem stored_transfers (s : Usbd) (ep : EndpointAddress) (status : Status)
    (bytes : List UInt8) :
    (stored s ep status bytes).transfers (epaddr2dqhidx ep) =
      s.transfers (epaddr2dqhidx ep) ++ [bytes] := by
  simp [stored, retire, Usbd.fillBuffer, Usbd.setDqh, Usbd.setDtd]

theorem stored_buffer (s : Usbd) (ep : EndpointAddress) (status : Status) (bytes : List UInt8) :
    ((stored s ep status bytes).buffer (overlay s ep).2).take bytes.length = bytes := by
  simp [stored, Usbd.fillBuffer]

theorem stored_overlay (s : Usbd) (ep : EndpointAddress) (status : Status) (bytes : List UInt8)
    (hlt : (overlay s ep).1.getTotalBytes < 0x5000) :
    (overlay (stored s ep status bytes) ep).1.getTotalBytes =
      (overlay s ep).1.getTotalBytes - bytes.length := by
  have htotal := getTotalBytes_retired (overlay s ep).1 status
    (n := (overlay s ep).1.getTotalBytes - bytes.length) (by omega)
  simpa [stored, overlay, retire, Usbd.fillBuffer, Usbd.setDqh, Usbd.setDtd] using htotal

theorem stored_status (s : Usbd) (ep : EndpointAddress) (status : Status) (bytes : List UInt8) :
    ((stored s ep status bytes).dtd (view s ep).current).token.getStatus = status := by
  simp [stored, retire, view, Usbd.fillBuffer, Usbd.setDqh, Usbd.setDtd, getStatus_setStatus]

end UsbArmory.Usb.Arrivals
