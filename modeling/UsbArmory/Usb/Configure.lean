import UsbArmory.Usb.ReadFrame

/-!
# Allocating and enabling endpoints

An allocation takes a descriptor from the pool and makes it the next one of an
endpoint that was not in use. Setting the device address primes every OUT
endpoint but the first, with or without a descriptor that is next.
-/

set_option autoImplicit false

namespace UsbArmory.Usb.Configure
open UsbArmory.Library.Bits UsbArmory.Usb.Descriptors UsbArmory.Usb.Controller UsbArmory.Usb.Bus
open UsbArmory.Usb.Endpoint UsbArmory.Usb.Effects UsbArmory.Usb.EndWrite UsbArmory.Usb.Write
open Relation

variable {s t : Usbd} {ep : EndpointAddress}

theorem mem_allocatedEps (s : Usbd) (ep : EndpointAddress) :
    ep ∈ allocatedEps s ↔ s.inner.usedDqhs.getLsbD (epaddr2dqhidx ep) = true := by
  have hinv : ∀ idx, epaddr2dqhidx (dqhidx2epaddr idx) = idx := by
    intro idx
    by_cases h : idx % 2 = 0
    · simp [epaddr2dqhidx, dqhidx2epaddr, EndpointAddress.isOut, h]
      omega
    · simp [epaddr2dqhidx, dqhidx2epaddr, EndpointAddress.isOut, h]
      omega
  unfold allocatedEps
  rw [List.mem_map]
  constructor
  · intro h
    obtain ⟨idx, hidx, rfl⟩ := h
    rw [hinv]
    exact (mem_oneIndices _ _).mp hidx
  · intro h
    exact ⟨_, (mem_oneIndices _ _).mpr h, epaddr2dqhidx_inj (hinv _)⟩

/-- Enabling this endpoint primes it. -/
def dataOut (ep : EndpointAddress) : Bool := ep.isOut && ep.index ≠ 0

theorem dataOut_ne (h : dataOut ep = true) : ep ≠ controlOut := by
  rintro rfl
  cases h

theorem enableEp_cases (gaps : EndpointAddress → List HwEvent) (s : Usbd) (ep : EndpointAddress) :
    ∃ bits, dataOut ep = true ∧
        enableEp gaps s ep = setEndptctrl1 (prime s ep (gaps ep)) bits ∨
      dataOut ep = false ∧ enableEp gaps s ep = setEndptctrl1 s bits := by
  unfold enableEp dataOut
  cases hout : ep.isOut with
  | false => exact ⟨mask 32 txe, Or.inr ⟨rfl, by simp⟩⟩
  | true =>
    by_cases h0 : ep.index = 0
    · exact ⟨mask 32 rxe, Or.inr ⟨by simp [h0], by simp [h0]⟩⟩
    · exact ⟨mask 32 rxe, Or.inl ⟨by simp [h0], by simp [h0]⟩⟩

theorem setEndptctrl1_effect (hs : Single s) (bits : BitVec 32) :
    Effect false s (setEndptctrl1 s bits) := .same (fun _ => rfl) hs rfl rfl

variable {gaps : EndpointAddress → List HwEvent}

theorem enableEp_effect (hs : Stable s) (hv : ep.isValid = true) (hslot : Slotted s ep) :
    Effect false s (enableEp gaps s ep) := by
  obtain ⟨bits, ⟨hout, heq⟩ | ⟨-, heq⟩⟩ := enableEp_cases gaps s ep <;> rw [heq]
  · have hprime : Effect false s (prime s ep (gaps ep)) :=
      prime_effect hs hv (dataOut_ne hout) hslot (gaps ep)
    exact hprime.trans (setEndptctrl1_effect hprime.single bits)
  · exact setEndptctrl1_effect hs.single bits

theorem enableEps_effect (eps : List EndpointAddress) (hs : Stable s)
    (heps : ∀ ep ∈ eps, ep.isValid = true ∧ Slotted s ep) :
    Effect false s (eps.foldl (enableEp gaps) s) := by
  induction eps generalizing s with
  | nil => exact Effect.refl hs.single
  | cons ep eps ih =>
    obtain ⟨hv, hslot⟩ := heps ep List.mem_cons_self
    have hfirst : Effect false s (enableEp gaps s ep) := enableEp_effect hs hv hslot
    apply hfirst.trans
    apply ih (hs.effect hfirst)
    intro ep' hep'
    obtain ⟨hv', hslot'⟩ := heps ep' (List.mem_cons_of_mem _ hep')
    exact ⟨hv', hslot'.effect hv' hfirst⟩

theorem setDeviceAddress_effect (hs : Stable s) (addr : BitVec 8)
    (heps : ∀ ep ∈ allocatedEps s, ep.isValid = true ∧ Slotted s ep) :
    Effect false s (setDeviceAddress s addr gaps) := by
  have hany (bits : BitVec 32) :
      Effect false s ((allocatedEps s).foldl (enableEp gaps) (writeDeviceaddr s bits)) := by
    have hfirst : Effect false s (writeDeviceaddr s bits) :=
      .same (fun _ => rfl) hs.single rfl rfl
    exact hfirst.trans (enableEps_effect (allocatedEps s) (hs.effect hfirst) heps)
  exact hany _

theorem enableEp_frame (s : Usbd) (ep : EndpointAddress) : Frame s (enableEp gaps s ep) := by
  obtain ⟨bits, ⟨-, heq⟩ | ⟨-, heq⟩⟩ := enableEp_cases gaps s ep <;> rw [heq]
  · exact (prime_frame s ep (gaps ep)).trans
      ⟨rfl, rfl, fun _ h => h, fun _ h => h, fun _ => ⟨rfl, rfl⟩⟩
  · exact ⟨rfl, rfl, fun _ h => h, fun _ h => h, fun _ => ⟨rfl, rfl⟩⟩

theorem enableEp_primed (hv : ep.isValid = true) {x : EndpointAddress} (hvx : x.isValid = true)
    (hin : x.isOut = false) (hp : (view (enableEp gaps s ep) x).prime = true) :
    (view s x).prime = true := by
  obtain ⟨bits, ⟨hdata, heq⟩ | ⟨-, heq⟩⟩ := enableEp_cases gaps s ep <;> rw [heq] at hp
  · have hview : (view (prime s ep (gaps ep)) x).prime = true := hp
    rw [prime, writeEndptprime_view, Bool.or_eq_true] at hview
    rcases hview with hfetched | hset
    · exact primed_hardware hvx (gaps ep) hfetched
    · rcases (primeBits_iff s hv hvx).mp hset with hp | rfl
      · exact hp
      · cases hin.symm.trans (Bool.and_eq_true_iff.mp hdata).1
  · exact hp

theorem enableEps_frame (eps : List EndpointAddress) (s : Usbd) :
    Frame s (eps.foldl (enableEp gaps) s) := by
  induction eps generalizing s with
  | nil => exact Frame.refl s
  | cons ep eps ih => exact (enableEp_frame s ep).trans (ih (enableEp gaps s ep))

theorem setDeviceAddress_frame (s : Usbd) (addr : BitVec 8) :
    Frame s (setDeviceAddress s addr gaps) := by
  have hany (bits : BitVec 32) :
      Frame s ((allocatedEps s).foldl (enableEp gaps) (writeDeviceaddr s bits)) :=
    have hfirst : Frame s (writeDeviceaddr s bits) :=
      ⟨rfl, rfl, fun _ h => h, fun _ h => h, fun _ => ⟨rfl, rfl⟩⟩
    hfirst.trans (enableEps_frame (allocatedEps s) (writeDeviceaddr s bits))
  exact hany _

theorem findEp_some {dir : UsbDirection} {fuel idx : ℕ} (h : findEp s dir fuel idx = some ep) :
    ep.isValid = true ∧ isEpBeingUsed s ep = false := by
  induction fuel generalizing idx with
  | zero => cases h
  | succ fuel ih =>
    unfold findEp at h
    split at h
    next => cases h
    next q hq =>
      obtain ⟨-, hv⟩ := getDqh_ok hq
      split at h
      next => exact ih h
      next hfree =>
        cases h
        exact ⟨hv, (Bool.not_eq_true _).mp hfree⟩

theorem chooseEp_ok {dir : UsbDirection} {addr : Option EndpointAddress}
    (h : chooseEp s dir addr = .ok ep) : ep.isValid = true ∧ isEpBeingUsed s ep = false := by
  unfold chooseEp at h
  split at h
  next ep' =>
    split at h
    next => cases h
    next hsome =>
      split at h
      next => cases h
      next hfree =>
        cases h
        obtain ⟨q, hq⟩ := Option.ne_none_iff_exists'.mp hsome
        exact ⟨(getDqh_ok hq).2, (Bool.not_eq_true _).mp hfree⟩
  next =>
    cases hf : findEp s dir endpoints 1 with
    | none =>
      rw [hf] at h
      cases h
    | some ep' =>
      rw [hf] at h
      cases h
      exact findEp_some hf

structure Allocated (s : Usbd) (ep : EndpointAddress) (t : Usbd) : Prop where
  valid : ep.isValid = true
  fresh : isEpBeingUsed s ep = false
  result : ∃ d rest caps b64s b512s addr dtd, s.inner.dtds = d::rest ∧
    (∃ n, capsNew n true = some caps) ∧
    ((ep.isOut = true → ep.index = 0) ∧ addr = (s.dqhs (epaddr2dqhidx ep)).addr ∧ dtd = s.dtd d ∧
        b64s = s.inner.b64s ∧ b512s = s.inner.b512s ∨
      ep.isOut = true ∧ ∃ a token, addr = some a ∧ Taken s a b64s b512s ∧
        dtd = ({ s.dtd d with token := token }.setPages a)) ∧
    t = { s with
      inner := { s.inner with
        dtds := rest, b64s := b64s, b512s := b512s
        usedDqhs := s.inner.usedDqhs ||| mask 8 (epaddr2dqhidx ep) }
      dqhs := Function.update s.dqhs (epaddr2dqhidx ep)
        { s.dqhs (epaddr2dqhidx ep) with caps := caps, nextDtd := d, addr := addr }
      dtd := Function.update s.dtd d dtd
      endptctrl1 := t.endptctrl1 }

theorem popDtd_ok {d : ℕ} (h : popDtd s = .ok (d, t)) :
    ∃ rest, s.inner.dtds = d::rest ∧ t = { s with inner.dtds := rest } := by
  unfold popDtd at h
  split at h
  next => cases h
  next d' rest hpool =>
    cases h
    exact ⟨rest, hpool, rfl⟩

theorem installDtd_ok {n : ℕ} (h : installDtd s ep n = .ok t) :
    ∃ d rest caps b64s b512s addr dtd, s.inner.dtds = d::rest ∧ capsNew n true = some caps ∧
      ((ep.isOut = true → ep.index = 0) ∧ addr = (s.dqhs (epaddr2dqhidx ep)).addr ∧
          dtd = s.dtd d ∧ b64s = s.inner.b64s ∧ b512s = s.inner.b512s ∨
        ep.isOut = true ∧ ∃ a token, addr = some a ∧ Taken s a b64s b512s ∧
          dtd = ({ s.dtd d with token := token }.setPages a)) ∧
      t = { s with
        inner := { s.inner with dtds := rest, b64s := b64s, b512s := b512s }
        dqhs := Function.update s.dqhs (epaddr2dqhidx ep)
          { s.dqhs (epaddr2dqhidx ep) with caps := caps, nextDtd := d, addr := addr }
        dtd := Function.update s.dtd d dtd } := by
  unfold installDtd at h
  obtain ⟨caps, hcaps, h⟩ := bind_ok h
  obtain ⟨p, hp, h⟩ := bind_ok h
  obtain ⟨d, u⟩ := p
  dsimp only at h
  obtain ⟨rest, hpool, rfl⟩ := popDtd_ok hp
  split at h
  next hout =>
    obtain ⟨v, hv, h⟩ := bind_ok h
    unfold installBuffer at hv
    obtain ⟨p, hp, hv⟩ := bind_ok hv
    obtain ⟨a, w⟩ := p
    dsimp only at hv
    obtain ⟨token, -, hv⟩ := bind_ok hv
    obtain ⟨b64s, b512s, htaken, rfl⟩ := popBuffer_ok hp
    cases hv
    cases h
    refine ⟨d, rest, caps, b64s, b512s, some a, _, hpool, expect_ok hcaps,
      Or.inr ⟨hout.1, a, token, rfl, htaken, rfl⟩, ?_⟩
    simp [Usbd.setDqh, Usbd.setDtd, DQH.setNextDtd]
  next hout =>
    cases h
    have h0 : ep.isOut = true → ep.index = 0 := by
      intro hyes
      by_contra hne
      exact hout ⟨hyes, hne⟩
    refine ⟨d, rest, caps, s.inner.b64s, s.inner.b512s, _, _, hpool, expect_ok hcaps,
      Or.inl ⟨h0, rfl, rfl, rfl, rfl⟩, ?_⟩
    simp [Usbd.setDqh, DQH.setNextDtd]

theorem configureEp_eq {ty : EndpointType} (h : configureEp s ep ty = .ok t) :
    ∃ c, t = { s with endptctrl1 := c } := by
  unfold configureEp at h
  obtain ⟨_, -, h⟩ := bind_ok h
  obtain ⟨_, -, h⟩ := bind_ok h
  cases h
  exact ⟨_, rfl⟩

theorem allocEp_ok {dir : UsbDirection} {addr : Option EndpointAddress} {ty : EndpointType} {n : ℕ}
    {r : Except UsbError EndpointAddress} (h : allocEp s dir addr ty n = .ok (t, r)) :
    (t = s ∧ ∃ e, r = .error e) ∨ ∃ ep, Allocated s ep t ∧ r = .ok ep := by
  unfold allocEp at h
  obtain ⟨_, -, h⟩ := bind_ok h
  split at h
  next e he =>
    cases h
    exact Or.inl ⟨rfl, e, rfl⟩
  next ep hep =>
    obtain ⟨hv, hfree⟩ := chooseEp_ok hep
    obtain ⟨u, hu, h⟩ := bind_ok h
    obtain ⟨d, rest, caps, b64s, b512s, addr, dtd, hpool, hcaps, hcase, rfl⟩ := installDtd_ok hu
    dsimp only at h
    split at h
    next =>
      obtain ⟨v, hv', h⟩ := bind_ok h
      obtain ⟨c, rfl⟩ := configureEp_eq hv'
      cases h
      exact Or.inr ⟨ep, ⟨hv, hfree, d, rest, caps, b64s, b512s, addr, dtd, hpool, ⟨n, hcaps⟩, hcase,
        rfl⟩, rfl⟩
    next =>
      cases h
      exact Or.inr ⟨ep, ⟨hv, hfree, d, rest, caps, b64s, b512s, addr, dtd, hpool, ⟨n, hcaps⟩, hcase,
        rfl⟩, rfl⟩

end UsbArmory.Usb.Configure
