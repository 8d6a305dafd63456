import UsbArmory.Usb.Poll

/-!
# What a write starts

A write is refused and changes nothing, or it fills the static buffer of the
endpoint, rewrites the descriptor that is next and primes the endpoint.
-/

set_option autoImplicit false

namespace UsbArmory.Usb.Write
open UsbArmory.Library.Bits UsbArmory.Usb.Descriptors UsbArmory.Usb.Controller UsbArmory.Usb.Bus
open UsbArmory.Usb.Endpoint UsbArmory.Usb.Effects UsbArmory.Usb.EndWrite Relation

variable {s t : Usbd}

def Taken (s : Usbd) (addr : ℕ) (b64s b512s : List ℕ) : Prop :=
  s.inner.b64s = addr::b64s ∧ s.inner.b512s = b512s ∨
  s.inner.b64s = b64s ∧ s.inner.b512s = addr::b512s

theorem popBuffer_ok {n addr : ℕ} (h : popBuffer s n = .ok (addr, t)) :
    ∃ b64s b512s, Taken s addr b64s b512s ∧
      t = { s with inner := { s.inner with b64s := b64s, b512s := b512s } } := by
  unfold popBuffer at h
  split at h
  next =>
    split at h
    next => cases h
    next a rest hpool =>
      cases h
      exact ⟨rest, s.inner.b512s, Or.inl ⟨hpool, rfl⟩, rfl⟩
  next =>
    split at h
    next =>
      split at h
      next => cases h
      next a rest hpool =>
        cases h
        exact ⟨s.inner.b64s, rest, Or.inr ⟨rfl, hpool⟩, rfl⟩
    next => cases h

/-- The address of the endpoint's buffer and the pools after it is there. -/
def Buffered (s : Usbd) (q addr : ℕ) (b64s b512s : List ℕ) : Prop :=
  (s.dqhs q).addr = some addr ∧ b64s = s.inner.b64s ∧ b512s = s.inner.b512s ∨
  (s.dqhs q).addr = none ∧ Taken s addr b64s b512s

theorem staticBuffer_ok {q n addr : ℕ} (h : staticBuffer s q n = .ok (addr, t)) :
    ∃ b64s b512s, Buffered s q addr b64s b512s ∧
      t = { s with
        inner := { s.inner with b64s := b64s, b512s := b512s }
        dqhs := Function.update s.dqhs q { s.dqhs q with addr := some addr } } := by
  unfold staticBuffer at h
  split at h
  next a ha =>
    cases h
    refine ⟨s.inner.b64s, s.inner.b512s, Or.inl ⟨ha, rfl, rfl⟩, ?_⟩
    rw [← ha]
    simp
  next ha =>
    obtain ⟨p, hp, h⟩ := bind_ok h
    obtain ⟨a, u⟩ := p
    cases h
    obtain ⟨b64s, b512s, htaken, rfl⟩ := popBuffer_ok hp
    exact ⟨b64s, b512s, Or.inr ⟨ha, htaken⟩, rfl⟩

def written (s : Usbd) (ep : EndpointAddress) (bytes : List UInt8) (d addr : ℕ) (token : Token)
    (b64s b512s : List ℕ) : Usbd :=
  { s with
    inner := { s.inner with b64s := b64s, b512s := b512s }
    dqhs := Function.update s.dqhs (epaddr2dqhidx ep)
      { s.dqhs (epaddr2dqhidx ep) with addr := some addr }
    dtd := Function.update s.dtd d (({ s.dtd d with token := token }).setPages addr)
    buffer := Function.update s.buffer addr (bytes ++ (s.buffer addr).drop bytes.length) }

structure Accepted (s : Usbd) (ep : EndpointAddress) (bytes : List UInt8) (gap : List HwEvent)
    (t : Usbd) : Prop where
  valid : ep.isValid = true
  fits : bytes.length ≤ (s.dqhs (epaddr2dqhidx ep)).getMaxPacketSize
  free : (s.dqhs (epaddr2dqhidx ep)).getCurrentDtd = none
  result : ∃ d addr token b64s b512s, (s.dqhs (epaddr2dqhidx ep)).getNextDtd = some d ∧
    Buffered s (epaddr2dqhidx ep) addr b64s b512s ∧ activeToken bytes.length = some token ∧
    t = prime (written s ep bytes d addr token b64s b512s) ep gap

theorem startWrite_ok {ep : EndpointAddress} {bytes : List UInt8} {gap : List HwEvent}
    {r : Except UsbError ℕ} (h : startWrite s ep bytes gap = .ok (t, r)) :
    (t = s ∧ ∃ e, r = .error e) ∨ (Accepted s ep bytes gap t ∧ r = .ok bytes.length) := by
  unfold startWrite at h
  split at h
  next =>
    cases h
    exact Or.inl ⟨rfl, _, rfl⟩
  next q hq =>
    obtain ⟨rfl, hv⟩ := getDqh_ok hq
    simp only at h
    split at h
    next =>
      cases h
      exact Or.inl ⟨rfl, _, rfl⟩
    next hfits =>
      split at h
      next =>
        cases h
        exact Or.inl ⟨rfl, _, rfl⟩
      next hfree =>
        obtain ⟨d, hd, h⟩ := bind_ok h
        obtain ⟨p, hp, h⟩ := bind_ok h
        obtain ⟨addr, u⟩ := p
        obtain ⟨token, htoken, h⟩ := bind_ok h
        obtain ⟨b64s, b512s, hbuf, rfl⟩ := staticBuffer_ok hp
        cases h
        refine Or.inr ⟨⟨hv, Nat.le_of_not_lt hfits, by simpa using hfree, d, addr, token, b64s,
          b512s, expect_ok hd, hbuf, expect_ok htoken, ?_⟩, rfl⟩
        simp [written, Usbd.setDtd, Usbd.setDqh, Usbd.fillBuffer]

theorem getNextDtd_some {q : DQH} {d : ℕ} (h : q.getNextDtd = some d) :
    q.nextDtd = d ∧ d ≠ noNextDtd := by
  unfold DQH.getNextDtd at h
  split at h
  next => cases h
  next hne =>
    cases h
    exact ⟨rfl, hne⟩

theorem getCurrentDtd_none {q : DQH} (h : q.getCurrentDtd = none) : q.currentDtd % 32 ≠ 0 := by
  intro hal
  rw [getCurrentDtd_of_aligned q hal] at h
  cases h

theorem written_view (s : Usbd) (ep : EndpointAddress) (bytes : List UInt8) (d addr : ℕ)
    (token : Token) (b64s b512s : List ℕ) (ep' : EndpointAddress) :
    view (written s ep bytes d addr token b64s b512s) ep' = view s ep' := by
  by_cases hq : epaddr2dqhidx ep' = epaddr2dqhidx ep
  · simp [view, written, hq]
  · simp [view, written, hq]

theorem written_single (hs : Single s) (ep : EndpointAddress) (bytes : List UInt8) (d addr : ℕ)
    (token : Token) (b64s b512s : List ℕ) :
    Single (written s ep bytes d addr token b64s b512s) := by
  intro a
  by_cases ha : a = d
  · subst a
    simpa [written, DTD.setPages] using hs d
  · simpa [written, ha] using hs a

theorem in_ne {ep : EndpointAddress} (hin : ep.isOut = false) : ep ≠ controlOut := by
  rintro rfl
  cases hin

theorem accepted_slot {ep : EndpointAddress} {bytes : List UInt8} {gap : List HwEvent}
    (hs : Stable s) (h : Accepted s ep bytes gap t) : Slotted s ep := by
  obtain ⟨hv, -, -, d, addr, token, b64s, b512s, hd, -, -, -⟩ := h
  obtain ⟨hnext, hne⟩ := getNextDtd_some hd
  refine (hs.slots ep hv).resolve_left fun hblank => hne (hnext.symm.trans ?_)
  show (view s ep).next = noNextDtd
  rw [hblank]
  rfl

theorem accepted_effect (hs : Stable s) {ep : EndpointAddress} {bytes : List UInt8}
    {gap : List HwEvent} (hin : ep.isOut = false) (h : Accepted s ep bytes gap t) :
    Effect false s t := by
  have hself := accepted_slot hs h
  obtain ⟨hv, -, -, d, addr, token, b64s, b512s, -, -, -, rfl⟩ := h
  have hview := written_view s ep bytes d addr token b64s b512s
  have hfirst : Effect false s (written s ep bytes d addr token b64s b512s) :=
    .same hview (written_single hs.single ep bytes d addr token b64s b512s) rfl rfl
  exact hfirst.trans (prime_effect (hs.effect hfirst) hv (in_ne hin) (hself.congr (hview ep)) gap)

theorem startWrite_effect (hs : Stable s) {ep : EndpointAddress} {bytes : List UInt8}
    {gap : List HwEvent} {r : Except UsbError ℕ} (hin : ep.isOut = false)
    (h : startWrite s ep bytes gap = .ok (t, r)) : Effect false s t := by
  rcases startWrite_ok h with ⟨rfl, -⟩ | ⟨ha, -⟩
  · exact Effect.refl hs.single
  · exact accepted_effect hs hin ha

theorem startWrite_keeps {ep : EndpointAddress} {bytes : List UInt8} {gap : List HwEvent}
    {r : Except UsbError ℕ} (h : startWrite s ep bytes gap = .ok (t, r)) : t.ended = s.ended ∧
      (∀ j, s.endptsetupstat.getLsbD j = true → t.endptsetupstat.getLsbD j = true) ∧
      ∀ j, s.endptcomplete.getLsbD j = true → t.endptcomplete.getLsbD j = true := by
  rcases startWrite_ok h with ⟨rfl, -⟩ | ⟨⟨-, -, -, d, addr, token, b64s, b512s, -, -, -, rfl⟩, -⟩
  · exact ⟨rfl, fun _ hj => hj, fun _ hj => hj⟩
  · have hf := prime_frame (written s ep bytes d addr token b64s b512s) ep gap
    exact ⟨hf.ended, hf.setup, hf.complete⟩

theorem startWrite_inner {ep : EndpointAddress} {bytes : List UInt8} {gap : List HwEvent}
    {r : Except UsbError ℕ} (h : startWrite s ep bytes gap = .ok (t, r)) :
    ∃ b64s b512s, t.inner = { s.inner with b64s := b64s, b512s := b512s } := by
  rcases startWrite_ok h with ⟨rfl, -⟩ | ⟨⟨-, -, -, d, addr, token, b64s, b512s, -, -, -, rfl⟩, -⟩
  · exact ⟨t.inner.b64s, t.inner.b512s, rfl⟩
  · exact ⟨b64s, b512s, (prime_frame _ ep gap).inner⟩

theorem startWrite_busy {ep : EndpointAddress} {bytes : List UInt8} {gap : List HwEvent}
    (hv : ep.isValid = true)
    (hfits : bytes.length ≤ (s.dqhs (epaddr2dqhidx ep)).getMaxPacketSize)
    (hcur : (s.dqhs (epaddr2dqhidx ep)).currentDtd % 32 = 0) :
    startWrite s ep bytes gap = .ok (s, .error .wouldBlock) := by
  have hq : getDqh ep = some (epaddr2dqhidx ep) := if_pos (of_decide_eq_true hv)
  have hsome : ((s.dqhs (epaddr2dqhidx ep)).getCurrentDtd).isSome = true := by
    rw [getCurrentDtd_of_aligned _ hcur]
    rfl
  unfold startWrite
  rw [hq]
  simp only
  rw [if_neg (Nat.not_lt.mpr hfits), if_pos hsome]
  rfl

end UsbArmory.Usb.Write
