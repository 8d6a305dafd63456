import UsbArmory.Usb.Invariant

/-!
# What a call leaves of an IN endpoint

A call about another endpoint does nothing to it that the controller would not
do by itself, unless a write of ENDPTPRIME sets its bit again that the
controller has just cleared.
-/

set_option autoImplicit false

namespace UsbArmory.Usb.Rest
open UsbArmory.Library.Bits UsbArmory.Usb.Descriptors UsbArmory.Usb.Controller UsbArmory.Usb.Bus
open UsbArmory.Usb.Endpoint UsbArmory.Usb.Effects UsbArmory.Usb.EndWrite UsbArmory.Usb.Write
open UsbArmory.Usb.Poll UsbArmory.Usb.Read UsbArmory.Usb.Configure UsbArmory.Usb.Invariant
open UsbArmory.Usb.Runs

variable {s t : Usbd} {ep x : EndpointAddress} {I : View → Prop}

def TakesData (s : Usbd) (x : EndpointAddress) : Prop :=
  cached s x.index = false ∧ (x.index ≠ 0 → (view s x).complete = true)

/-- No write of ENDPTPRIME sets the bit of `ep` again that the controller has cleared since the
register was read. -/
def Unrenewed (ep : EndpointAddress) (s : Usbd) : Call → Prop
  | .startWrite x bytes gap => bytes.length ≤ (s.dqhs (epaddr2dqhidx x)).getMaxPacketSize →
      (s.dqhs (epaddr2dqhidx x)).getCurrentDtd = none → Unfetched s ep gap
  | .read x _ hw => TakesData s x → Unfetched s ep hw.priming
  | .setDeviceAddress _ gaps => ∀ x ∈ allocatedEps s, dataOut x = true → Unfetched s ep (gaps x)
  | _ => True

def Still (ep : EndpointAddress) (I : View → Prop) : Prop :=
  ∀ s t e, I (view s ep) → hwStep s e = some t → I (view t ep)

theorem still_rest (hv : ep.isValid = true) {v : View} (h : Quiet v) : Still ep (· = v) := by
  intro s t e hs he
  have hrest : AtRest s ep := by
    show Quiet (view s ep)
    rw [show view s ep = v from hs]
    exact h
  exact (rest_hwStep hv hrest he).trans hs

theorem current_hwStep (hv : ep.isValid = true) {e : HwEvent} (hne : e ≠ .fetch ep)
    (he : hwStep s e = some t) : (view t ep).current = (view s ep).current := by
  have hretire : ∀ y status left bytes, y.isValid = true →
      (view (retire s y status left bytes) ep).current = (view s ep).current := by
    intro y status left bytes hvy
    by_cases hy : ep = y
    · subst y
      rw [retire_self s ep hv status left bytes]
    · rw [retire_other s y hvy status left bytes ep hv hy]
  cases hwStep_happens he with
  | fetch y hvy hprime =>
    have hy : ep ≠ y := by
      rintro rfl
      exact hne rfl
    rw [fetch_other s y hvy ep hv hy]
  | load y hvy hin hstat => rfl
  | sent y status bytes hvy hin hstat hfifo => exact hretire y status 0 bytes hvy
  | received y status bytes hvy hout hstat hlen => exact hretire y status _ bytes hvy
  | setup index bytes hused hlen =>
    by_cases hq : epaddr2dqhidx ep = epaddr2dqhidx ⟨index, .out⟩
    · simp [view, Usbd.setDqh, hq]
    · simp [view, Usbd.setDqh, hq]
  | status bits => rfl

/-- Primed, if at all, while the descriptor is not current. -/
def Fresh (v : View) : Prop := v.prime = true → v.current % 32 ≠ 0

theorem still_fresh (hv : ep.isValid = true) : Still ep Fresh := by
  intro s t e hs he hp
  by_cases hf : e = .fetch ep
  · subst e
    cases hwStep_happens he with
    | fetch _ _ hprime => cases (fetch_clears s ep).symm.trans hp
  · rw [current_hwStep hv hf he]
    exact hs ((prime_hwStep hv hf he).symm.trans hp)

theorem still_unprimed (hv : ep.isValid = true) (c : ℕ) :
    Still ep fun v => v.prime = false ∧ v.current = c := by
  rintro s t e ⟨hp, hc⟩ he
  have hf : e ≠ .fetch ep := by
    rintro rfl
    cases hwStep_happens he with
    | fetch _ _ hprime => cases ((mask_ne_zero_iff _ ep).mp hprime).symm.trans hp
  exact ⟨(prime_hwStep hv hf he).trans hp, (current_hwStep hv hf he).trans hc⟩

theorem Still.hardware (hI : Still ep I) (es : List HwEvent) (s : Usbd) (h : I (view s ep)) :
    I (view (hardware s es) ep) :=
  hardware_invariant (I := fun t => I (view t ep)) (fun s e t hs he => hI s t e hs he) es s h

theorem Still.waitFor (hI : Still ep I) {cond : Usbd → Bool} {wait : List (List HwEvent)}
    (h : I (view s ep)) (hw : waitFor cond s wait = .ok t) : I (view t ep) :=
  waitFor_invariant (I := fun t => I (view t ep)) (fun s e t hs he => hI s t e hs he) h hw

theorem Still.tripwire (hI : Still ep I) (q : ℕ) (rounds : List (List HwEvent)) (s : Usbd)
    (h : I (view s ep)) : I (view (tripwire s q rounds).1 ep) := by
  induction rounds generalizing s with
  | nil => exact h
  | cons es rounds ih =>
    have hnext := hI.hardware es (arm s) h
    unfold Bus.tripwire
    simp only
    split
    next => exact hnext
    next => exact ih _ hnext

theorem Still.atComplete (hI : Still ep I) (h₁ h₂ : List HwEvent) (h : I (view s ep)) :
    I (view (atComplete s h₁ h₂) ep) :=
  hI.hardware h₂ _ (hI.hardware h₁ (writeUsbsts s (mask 32 usbstsSre)) h)

theorem Still.prime (hI : Still ep I) (hv : ep.isValid = true) (hvx : x.isValid = true)
    (hne : ep ≠ x) {gap : List HwEvent} (hgap : Unfetched s ep gap) (h : I (view s ep)) :
    I (view (prime s x gap) ep) := by
  rw [prime_unfetched hv hvx hne hgap]
  exact hI.hardware gap s h

theorem Still.startWrite (hI : Still ep I) (hv : ep.isValid = true) (hne : ep ≠ x)
    {bytes : List UInt8} {gap : List HwEvent} {r : Except UsbError ℕ}
    (hgap : Unrenewed ep s (.startWrite x bytes gap)) (h : I (view s ep))
    (hc : Bus.startWrite s x bytes gap = .ok (t, r)) : I (view t ep) := by
  rcases startWrite_ok hc with ⟨rfl, -⟩ |
    ⟨⟨hvx, hfits, hfree, d, addr, token, b64s, b512s, -, -, -, rfl⟩, -⟩
  · exact h
  · have hviews := written_view s x bytes d addr token b64s b512s ep
    refine hI.prime hv hvx hne (fun hp => hgap hfits hfree ?_) ?_
    · rw [hviews] at hp
      exact hp
    · rw [hviews]
      exact h

theorem fresh_startWrite (hv : ep.isValid = true) {bytes : List UInt8} {gap : List HwEvent}
    {r : Except UsbError ℕ} (hgap : Unrenewed ep s (.startWrite ep bytes gap))
    (h : Fresh (view s ep)) (hc : Bus.startWrite s ep bytes gap = .ok (t, r)) :
    Fresh (view t ep) := by
  rcases startWrite_ok hc with ⟨rfl, -⟩ |
    ⟨⟨-, hfits, hfree, d, addr, token, b64s, b512s, -, -, -, rfl⟩, -⟩
  · exact h
  · have hviews := written_view s ep bytes d addr token b64s b512s ep
    have hcur : (view s ep).current % 32 ≠ 0 := getCurrentDtd_none hfree
    have hlater := (still_fresh hv).hardware gap (written s ep bytes d addr token b64s b512s)
      (by rw [hviews]; exact h)
    rw [prime_self _ hv]
    intro _
    cases hp : (view s ep).prime with
    | true =>
      have hprimed : (view (written s ep bytes d addr token b64s b512s) ep).prime = true := by
        rw [hviews]
        exact hp
      exact hlater ((prime_hardware hv gap (hgap hfits hfree hp) _).trans hprimed)
    | false =>
      have hno := (still_unprimed hv (view s ep).current).hardware gap
        (written s ep bytes d addr token b64s b512s) (by rw [hviews]; exact ⟨hp, rfl⟩)
      rw [show _ = (view s ep).current from hno.2]
      exact hcur

theorem Still.readSetup (hI : Still ep I) {q : ℕ} {buf : Lent} {hw : During} {bytes : List UInt8}
    (h : I (view s ep)) (hr : readSetup s x q buf hw = .ok (t, bytes)) : I (view t ep) := by
  unfold Bus.readSetup at hr
  obtain ⟨_, -, hr⟩ := bind_ok hr
  have htrip := hI.tripwire q hw.rounds _ (hI.hardware hw.before
    (writeEndptsetupstat s ((mask 16 x.index).setWidth 32)) h)
  generalize Bus.tripwire (Controller.hardware
    (writeEndptsetupstat s ((mask 16 x.index).setWidth 32)) hw.before) q hw.rounds = p at hr htrip
  obtain ⟨v, hvq, hr⟩ := bind_ok hr
  cases hr
  rw [request_eq hvq]
  exact htrip

theorem Still.readControl (hI : Still ep I) (hv : ep.isValid = true) (hvx : x.isValid = true)
    (hne : ep ≠ x) {buf : Lent} {hw : During} {bytes : List UInt8}
    (hgap : Unfetched s ep hw.priming) (h : I (view s ep))
    (hr : readControl s x (epaddr2dqhidx x) buf hw = .ok (t, bytes)) : I (view t ep) := by
  obtain ⟨-, d, token, u, -, -, hwait, rfl⟩ := readControl_ok hr
  have hready : view (controlReady s x d token buf.addr) ep = view s ep :=
    controlReady_view s x d token buf.addr ep
  rw [released_other u x d hvx ep hv hne]
  refine hI.waitFor (hI.prime hv hvx hne (fun hp => hgap ?_) ?_) hwait
  · rw [hready] at hp
    exact hp
  · rw [hready]
    exact h

theorem Still.readData (hI : Still ep I) (hv : ep.isValid = true) (hvx : x.isValid = true)
    (hne : ep ≠ x) {buf : Lent} {gap : List HwEvent} {r : Except UsbError (List UInt8)}
    (hgap : (view s x).complete = true → Unfetched s ep gap) (h : I (view s ep))
    (hr : readData s x (epaddr2dqhidx x) buf gap = .ok (t, r)) : I (view t ep) := by
  rcases readData_ok hr with ⟨-, rfl, -⟩ | ⟨hbit, d, addr, token, _, -, -, -, rfl, -⟩
  · exact h
  · have hother := released_other (s.setDtd d ({ s.dtd d with token := token }.setPages addr)) x d
      hvx ep hv hne
    refine hI.prime hv hvx hne (fun hp => hgap hbit ?_) ?_
    · rw [hother] at hp
      exact hp
    · rw [hother]
      exact h

theorem Still.read (hI : Still ep I) (hv : ep.isValid = true) (hne : ep ≠ x) {buf : Lent}
    {hw : During} {r : Except UsbError (List UInt8)} (hgap : Unrenewed ep s (.read x buf hw))
    (h : I (view s ep)) (hr : Bus.read s x buf hw = .ok (t, r)) : I (view t ep) := by
  have hviews := takeSetup_view s x
  have htaken : I (view (takeSetup s x).1 ep) := by
    rw [hviews]
    exact h
  have hgap' : TakesData s x → Unfetched (takeSetup s x).1 ep hw.priming := by
    intro htakes hp
    rw [hviews] at hp
    exact hgap htakes hp
  rcases read_ok hr with ⟨rfl, -, -⟩ |
    ⟨hvx, ⟨-, bytes, hread, -⟩ | ⟨hno, h0, bytes, hread, -⟩ | ⟨hno, h0, hread⟩⟩
  · exact htaken
  · exact hI.readSetup htaken hread
  · exact hI.readControl hv hvx hne (hgap' ⟨hno, fun hne => absurd h0 hne⟩) htaken hread
  · refine hI.readData hv hvx hne (fun hbit => hgap' ⟨hno, fun _ => ?_⟩) htaken hread
    rw [hviews] at hbit
    exact hbit

theorem Still.enableEps (hI : Still ep I) (hv : ep.isValid = true) (hin : ep.isOut = false)
    {gaps : EndpointAddress → List HwEvent} (eps : List EndpointAddress) (s : Usbd)
    (heps : ∀ x ∈ eps, x.isValid = true)
    (hgaps : ∀ x ∈ eps, dataOut x = true → Unfetched s ep (gaps x)) (h : I (view s ep)) :
    I (view (eps.foldl (enableEp gaps) s) ep) := by
  induction eps generalizing s with
  | nil => exact h
  | cons x eps ih =>
    have hvx := heps x List.mem_cons_self
    have hfirst : I (view (enableEp gaps s x) ep) := by
      obtain ⟨bits, ⟨hdata, heq⟩ | ⟨-, heq⟩⟩ := enableEp_cases gaps s x <;> rw [heq]
      · have hne : ep ≠ x := by
          rintro rfl
          cases hin.symm.trans (Bool.and_eq_true_iff.mp hdata).1
        exact hI.prime hv hvx hne (hgaps x List.mem_cons_self hdata) h
      · exact h
    refine ih _ (fun y hy => heps y (List.mem_cons_of_mem _ hy)) (fun y hy hdata hp => ?_) hfirst
    exact hgaps y (List.mem_cons_of_mem _ hy) hdata (enableEp_primed hvx hv hin hp)

theorem Still.setDeviceAddress (hI : Still ep I) (hv : ep.isValid = true) (hin : ep.isOut = false)
    {gaps : EndpointAddress → List HwEvent} (addr : BitVec 8)
    (hused : ∀ x ∈ allocatedEps s, x.isValid = true)
    (hgap : Unrenewed ep s (.setDeviceAddress addr gaps)) (h : I (view s ep)) :
    I (view (Bus.setDeviceAddress s addr gaps) ep) := by
  have hany (bits : BitVec 32) :
      I (view ((allocatedEps s).foldl (enableEp gaps) (writeDeviceaddr s bits)) ep) :=
    hI.enableEps hv hin (allocatedEps s) (writeDeviceaddr s bits) hused hgap h
  exact hany _

end UsbArmory.Usb.Rest
