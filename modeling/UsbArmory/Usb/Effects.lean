import UsbArmory.Usb.Endpoint

/-!
# The effects of the controller and of the calls

Every event of the controller and every call of the driver other than `reset`
and `alloc_ep` is a sequence of moves on every endpoint.
-/

set_option autoImplicit false

namespace UsbArmory.Usb.Effects
open UsbArmory.Library.Bits UsbArmory.Usb.Descriptors UsbArmory.Usb.Controller UsbArmory.Usb.Bus
open UsbArmory.Usb.Endpoint Relation

variable {free : Bool} {s t : Usbd}

theorem mask_ne_zero_iff (w : BitVec 32) (ep : EndpointAddress) :
    w &&& epaddr2endptmask ep ≠ 0 ↔ w.getLsbD (endptBit ep) = true := by
  rw [epaddr2endptmask_eq, and_mask_ne_zero]

theorem apart {ep ep' : EndpointAddress} (h : ep.isValid = true) (h' : ep'.isValid = true)
    (hne : ep' ≠ ep) : epaddr2dqhidx ep' ≠ epaddr2dqhidx ep ∧ endptBit ep ≠ endptBit ep' := by
  constructor
  · intro hq
    exact hne (epaddr2dqhidx_inj hq)
  · intro hb
    exact hne (endptBit_inj h h' hb).symm

theorem fetch_skip (s : Usbd) (ep : EndpointAddress)
    (hn : (s.dqhs (epaddr2dqhidx ep)).nextDtd = noNextDtd) :
    fetch s ep = { s with endptprime := s.endptprime &&& ~~~epaddr2endptmask ep } := by
  simp [fetch, hn]

theorem fetch_skip_self (s : Usbd) (ep : EndpointAddress)
    (hn : (s.dqhs (epaddr2dqhidx ep)).nextDtd = noNextDtd) :
    view (fetch s ep) ep = { view s ep with prime := false } := by
  rw [fetch_skip s ep hn]
  simp [view, epaddr2endptmask_eq, getLsbD_clear, -BitVec.getLsbD_and]

theorem fetch_self (hs : Single s) (ep : EndpointAddress) (hv : ep.isValid = true)
    (hn : (s.dqhs (epaddr2dqhidx ep)).nextDtd ≠ noNextDtd) : view (fetch s ep) ep =
      ⟨(view s ep).next, noNextDtd, false, true, (view s ep).complete, (view s ep).transfers,
        (view s ep).ended⟩ := by
  have hb := endptBit_lt hv
  simp [view, fetch, hn, epaddr2endptmask_eq, getLsbD_clear, getLsbD_set hb,
    -BitVec.getLsbD_and, -BitVec.getLsbD_or, Usbd.setDqh, hs _]

theorem fetch_other (s : Usbd) (ep : EndpointAddress) (hv : ep.isValid = true)
    (ep' : EndpointAddress) (hv' : ep'.isValid = true) (hne : ep' ≠ ep) :
    view (fetch s ep) ep' = view s ep' := by
  have hb := endptBit_lt hv
  have ha := apart hv hv' hne
  by_cases hn : (s.dqhs (epaddr2dqhidx ep)).nextDtd = noNextDtd
  · rw [fetch_skip s ep hn]
    simp [view, epaddr2endptmask_eq, getLsbD_clear, -BitVec.getLsbD_and, ha.2]
  · simp [view, fetch, hn, epaddr2endptmask_eq, getLsbD_clear, getLsbD_set hb,
      -BitVec.getLsbD_and, -BitVec.getLsbD_or, Usbd.setDqh, ha.1, ha.2]

theorem fetch_effect (hs : Single s) (ep : EndpointAddress) (hv : ep.isValid = true)
    (hp : s.endptprime.getLsbD (endptBit ep) = true) : Effect free s (fetch s ep) := by
  by_cases hn : (s.dqhs (epaddr2dqhidx ep)).nextDtd = noNextDtd
  · apply Effect.one ep hv
    · rw [fetch_skip_self s ep hn]
      exact .skip (view s ep) hp hn
    · exact fetch_other s ep hv
    all_goals rw [fetch_skip s ep hn]
    · intro j _
      rfl
    · exact hs
  · apply Effect.one ep hv
    · rw [fetch_self hs ep hv hn]
      exact .fetch (view s ep) hp hn
    · exact fetch_other s ep hv
    · intro j _
      simp [fetch, hn, Usbd.setDqh]
    · intro a
      simpa [fetch, hn, Usbd.setDqh] using hs a
    · simp [fetch, hn, Usbd.setDqh]
    · simp [fetch, hn, Usbd.setDqh]

theorem retire_self (s : Usbd) (ep : EndpointAddress) (hv : ep.isValid = true) (status : Status)
    (left : ℕ) (bytes : List UInt8) : view (retire s ep status left bytes) ep =
      { view s ep with
        stat := false, complete := true, transfers := (view s ep).transfers + 1 } := by
  have hb := endptBit_lt hv
  simp [view, retire, epaddr2endptmask_eq, getLsbD_clear, getLsbD_set hb,
    -BitVec.getLsbD_and, -BitVec.getLsbD_or, Usbd.setDqh, Usbd.setDtd]

theorem retire_other (s : Usbd) (ep : EndpointAddress) (hv : ep.isValid = true) (status : Status)
    (left : ℕ) (bytes : List UInt8) (ep' : EndpointAddress) (hv' : ep'.isValid = true)
    (hne : ep' ≠ ep) : view (retire s ep status left bytes) ep' = view s ep' := by
  have hb := endptBit_lt hv
  have ha := apart hv hv' hne
  simp [view, retire, epaddr2endptmask_eq, getLsbD_clear, getLsbD_set hb, -BitVec.getLsbD_and,
    -BitVec.getLsbD_or, Usbd.setDqh, Usbd.setDtd, ha.1, ha.2]

theorem retire_effect (hs : Single s) (ep : EndpointAddress) (hv : ep.isValid = true)
    (hp : s.endptstat.getLsbD (endptBit ep) = true) (status : Status) (left : ℕ)
    (bytes : List UInt8) : Effect free s (retire s ep status left bytes) := by
  have hb := endptBit_lt hv
  apply Effect.one ep hv
  · rw [retire_self s ep hv]
    exact .finish (view s ep) hp
  · exact retire_other s ep hv status left bytes
  · intro j hj
    show (s.endptcomplete ||| epaddr2endptmask ep).getLsbD j = _
    rw [epaddr2endptmask_eq, getLsbD_set hb, decide_eq_false hj, Bool.or_false]
  · intro a
    by_cases had : a = (s.dqhs (epaddr2dqhidx ep)).currentDtd
    · subst a
      simpa [retire, Usbd.setDqh, Usbd.setDtd] using hs _
    · simpa [retire, Usbd.setDqh, Usbd.setDtd, had] using hs a
  · rfl
  · rfl

theorem hwStep_effect (hs : Single s) (e : HwEvent) (h : hwStep s e = some t) :
    Effect free s t := by
  cases hwStep_happens h with
  | fetch ep hv hprime => exact fetch_effect hs ep hv ((mask_ne_zero_iff _ ep).mp hprime)
  | load ep hv hin hstat => exact .same (fun _ => rfl) hs rfl rfl
  | sent ep status bytes hv hin hstat hfifo =>
    exact retire_effect hs ep hv ((mask_ne_zero_iff _ ep).mp hstat) status 0 bytes
  | received ep status bytes hv hout hstat hlen =>
    have hr : Effect free s _ := retire_effect hs ep hv ((mask_ne_zero_iff _ ep).mp hstat)
      status ((s.dqhs (epaddr2dqhidx ep)).token.getTotalBytes - bytes.length) bytes
    exact ⟨hr.moves, hr.bits, hr.single, hr.used, hr.dtds⟩
  | setup index bytes hused hlen =>
    refine .same (fun ep => ?_) hs rfl rfl
    by_cases hq : epaddr2dqhidx ep = epaddr2dqhidx ⟨index, .out⟩
    · simp [view, Usbd.setDqh, hq]
    · simp [view, Usbd.setDqh, hq]
  | status bits => exact .same (fun _ => rfl) hs rfl rfl

/-- What the controller leaves alone; SETUPs and completions stay. -/
structure Frame (s t : Usbd) : Prop where
  inner : t.inner = s.inner
  ended : t.ended = s.ended
  setup : ∀ j, s.endptsetupstat.getLsbD j = true → t.endptsetupstat.getLsbD j = true
  complete : ∀ j, s.endptcomplete.getLsbD j = true → t.endptcomplete.getLsbD j = true
  dqh : ∀ q, (t.dqhs q).caps = (s.dqhs q).caps ∧ (t.dqhs q).addr = (s.dqhs q).addr

theorem Frame.trans {u : Usbd} (h : Frame s t) (h' : Frame t u) : Frame s u :=
  ⟨h'.inner.trans h.inner, h'.ended.trans h.ended, fun j hj => h'.setup j (h.setup j hj),
    fun j hj => h'.complete j (h.complete j hj),
    fun q => ⟨(h'.dqh q).1.trans (h.dqh q).1, (h'.dqh q).2.trans (h.dqh q).2⟩⟩

theorem Frame.refl (s : Usbd) : Frame s s :=
  ⟨rfl, rfl, fun _ h => h, fun _ h => h, fun _ => ⟨rfl, rfl⟩⟩

theorem setDqh_frame (s : Usbd) (q : ℕ) (dqh : DQH) (hc : dqh.caps = (s.dqhs q).caps)
    (ha : dqh.addr = (s.dqhs q).addr) : Frame s (s.setDqh q dqh) := by
  refine ⟨rfl, rfl, fun _ h => h, fun _ h => h, fun q' => ?_⟩
  by_cases hq : q' = q
  · subst q'
    simp [Usbd.setDqh, hc, ha]
  · simp [Usbd.setDqh, hq]

theorem fetch_frame (s : Usbd) (ep : EndpointAddress) : Frame s (fetch s ep) := by
  unfold fetch
  simp only
  split
  next => exact ⟨rfl, rfl, fun _ h => h, fun _ h => h, fun _ => ⟨rfl, rfl⟩⟩
  next =>
    have h := setDqh_frame s (epaddr2dqhidx ep)
      { s.dqhs (epaddr2dqhidx ep) with
        currentDtd := (s.dqhs (epaddr2dqhidx ep)).nextDtd
        nextDtd := (s.dtd (s.dqhs (epaddr2dqhidx ep)).nextDtd).nextDtd
        token := (s.dtd (s.dqhs (epaddr2dqhidx ep)).nextDtd).token
        page0 := (s.dtd (s.dqhs (epaddr2dqhidx ep)).nextDtd).page0 } rfl rfl
    exact ⟨rfl, rfl, h.setup, h.complete, h.dqh⟩

theorem retire_frame (s : Usbd) (ep : EndpointAddress) (status : Status) (left : ℕ)
    (bytes : List UInt8) : Frame s (retire s ep status left bytes) := by
  have h := setDqh_frame s (epaddr2dqhidx ep)
    { s.dqhs (epaddr2dqhidx ep) with
      token := (((s.dqhs (epaddr2dqhidx ep)).token.setTotalBytes left).getD
        (s.dqhs (epaddr2dqhidx ep)).token).setStatus status } rfl rfl
  refine ⟨rfl, rfl, h.setup, fun j hj => ?_, h.dqh⟩
  show (s.endptcomplete ||| epaddr2endptmask ep).getLsbD j = true
  rw [BitVec.getLsbD_or, hj, Bool.true_or]

theorem hwStep_frame (e : HwEvent) (h : hwStep s e = some t) : Frame s t := by
  cases hwStep_happens h with
  | fetch ep hv hprime => exact fetch_frame s ep
  | load ep hv hin hstat => exact ⟨rfl, rfl, fun _ h => h, fun _ h => h, fun _ => ⟨rfl, rfl⟩⟩
  | sent ep status bytes hv hin hstat hfifo => exact retire_frame s ep status 0 bytes
  | received ep status bytes hv hout hstat hlen =>
    have hr := retire_frame s ep status
      ((s.dqhs (epaddr2dqhidx ep)).token.getTotalBytes - bytes.length) bytes
    exact ⟨hr.inner, hr.ended, hr.setup, hr.complete, hr.dqh⟩
  | setup index bytes hused hlen =>
    have hd := setDqh_frame s (epaddr2dqhidx ⟨index, .out⟩)
      { s.dqhs (epaddr2dqhidx ⟨index, .out⟩) with setup := bytes } rfl rfl
    refine ⟨rfl, rfl, fun j hj => ?_, fun _ h => h, hd.dqh⟩
    show (s.endptsetupstat ||| mask 32 index).getLsbD j = true
    rw [BitVec.getLsbD_or, hj, Bool.true_or]
  | status bits => exact ⟨rfl, rfl, fun _ h => h, fun _ h => h, fun _ => ⟨rfl, rfl⟩⟩

theorem hardware_frame (es : List HwEvent) (s : Usbd) : Frame s (hardware s es) := by
  apply hardware_invariant (I := fun t => Frame s t) ?_ es s (Frame.refl s)
  intro t e u ht hu
  exact ht.trans (hwStep_frame e hu)

theorem hardware_effect (hs : Single s) (es : List HwEvent) : Effect free s (hardware s es) := by
  apply hardware_invariant (I := fun t => Effect free s t) ?_ es s (Effect.refl hs)
  intro t e u ht hu
  exact ht.trans (hwStep_effect ht.single e hu)

theorem rest_hwStep {ep : EndpointAddress} (hv : ep.isValid = true) (h : AtRest s ep) {e : HwEvent}
    (he : hwStep s e = some t) : view t ep = view s ep := by
  -- the event is about another endpoint, since no bit of this one is set
  have hother : ∀ {w : BitVec 32} {x : EndpointAddress}, w.getLsbD (endptBit ep) = false →
      w &&& epaddr2endptmask x ≠ 0 → ep ≠ x := by
    rintro w x hno hset rfl
    cases ((mask_ne_zero_iff w ep).mp hset).symm.trans hno
  cases hwStep_happens he with
  | fetch x hvx hprime => exact fetch_other s x hvx ep hv (hother h.prime hprime)
  | load x hvx hin hstat => rfl
  | sent x status bytes hvx hin hstat hfifo =>
    exact retire_other s x hvx status 0 bytes ep hv (hother h.stat hstat)
  | received x status bytes hvx hout hstat hlen =>
    exact retire_other s x hvx status _ bytes ep hv (hother h.stat hstat)
  | setup index bytes hused hlen =>
    by_cases hq : epaddr2dqhidx ep = epaddr2dqhidx ⟨index, .out⟩
    · simp [view, Usbd.setDqh, hq]
    · simp [view, Usbd.setDqh, hq]
  | status bits => rfl

structure Rests (s : Usbd) (ep : EndpointAddress) (t : Usbd) : Prop where
  single : Single t
  view : view t ep = view s ep

theorem rests_hardware (hs : Single s) {ep : EndpointAddress} (hv : ep.isValid = true)
    (h : AtRest s ep)
    (es : List HwEvent) : Rests s ep (hardware s es) := by
  refine hardware_invariant (I := fun t => Rests s ep t) (fun t e u ht hu => ?_) es s ⟨hs, rfl⟩
  have hstep : Effect false t u := hwStep_effect ht.single e hu
  exact ⟨hstep.single, (rest_hwStep hv (h.congr ht.view) hu).trans ht.view⟩

theorem waitFor_invariant {I : Usbd → Prop} (hstep : ∀ s e t, I s → hwStep s e = some t → I t)
    {cond : Usbd → Bool} {wait : List (List HwEvent)} (hs : I s)
    (h : waitFor cond s wait = .ok t) : I t := by
  induction wait generalizing s with
  | nil =>
    simp only [waitFor] at h
    split at h
    · cases h
      exact hs
    · cases h
  | cons e es ih =>
    simp only [waitFor] at h
    split at h
    · cases h
      exact hs
    · exact ih (hardware_invariant hstep e s hs) h

theorem waitFor_frame (cond : Usbd → Bool) (hw : List (List HwEvent))
    (h : waitFor cond s hw = .ok t) : Frame s t := by
  induction hw generalizing s with
  | nil =>
    simp only [waitFor] at h
    split at h
    next =>
      cases h
      exact Frame.refl _
    next => cases h
  | cons e es ih =>
    simp only [waitFor] at h
    split at h
    next =>
      cases h
      exact Frame.refl _
    next => exact (hardware_frame e s).trans (ih h)

theorem waitFor_effect (hs : Single s) (cond : Usbd → Bool) (hw : List (List HwEvent))
    (h : waitFor cond s hw = .ok t) : Effect free s t ∧ cond t = true := by
  induction hw generalizing s with
  | nil =>
    simp only [waitFor] at h
    split at h
    next hc =>
      cases h
      exact ⟨Effect.refl hs, hc⟩
    next => cases h
  | cons e es ih =>
    simp only [waitFor] at h
    split at h
    next hc =>
      cases h
      exact ⟨Effect.refl hs, hc⟩
    next =>
      have he : Effect free s (hardware s e) := hardware_effect hs e
      obtain ⟨hr, hc⟩ := ih he.single h
      exact ⟨he.trans hr, hc⟩

/-- Bits of ENDPTPRIME that are set for endpoints that have a descriptor. -/
def Primes (free : Bool) (s : Usbd) (ep : EndpointAddress) : Prop :=
  (ep ≠ controlOut ∨ free = true) ∧
    ((view s ep).current % 32 = 0 ∨ (view s ep).next ≠ noNextDtd) ∧
    ((view s ep).current % 32 ≠ 0 ∨ reprimes ep = true)

theorem writeEndptprime_view (s : Usbd) (bits : BitVec 32) (ep : EndpointAddress) :
    view (writeEndptprime s bits) ep =
      { view s ep with prime := (view s ep).prime || bits.getLsbD (endptBit ep) } := by
  unfold view
  rw [show (writeEndptprime s bits).endptprime = s.endptprime ||| bits from rfl,
    BitVec.getLsbD_or]
  rfl

theorem writeEndptprime_effect (hs : Single s) (bits : BitVec 32)
    (h : ∀ ep, ep.isValid = true → bits.getLsbD (endptBit ep) = true → Primes free s ep) :
    Effect free s (writeEndptprime s bits) := by
  refine ⟨fun ep hv => ?_, fun _ hj => Or.inl hj, hs, rfl, rfl⟩
  rw [writeEndptprime_view]
  cases hbit : bits.getLsbD (endptBit ep) with
  | false => rw [Bool.or_false]
  | true =>
    obtain ⟨hf, hd, hc⟩ := h ep hv hbit
    rw [Bool.or_true]
    exact .single (.prime (view s ep) hf hd hc)

theorem primeBits_iff (s : Usbd) {ep ep' : EndpointAddress} (hv : ep.isValid = true)
    (hv' : ep'.isValid = true) :
    (s.endptprime ||| epaddr2endptmask ep).getLsbD (endptBit ep') = true ↔
      (view s ep').prime = true ∨ ep' = ep := by
  rw [epaddr2endptmask_eq, getLsbD_set (endptBit_lt hv), Bool.or_eq_true, decide_eq_true_eq]
  refine or_congr Iff.rfl ⟨fun hb => (endptBit_inj hv hv' hb).symm, ?_⟩
  rintro rfl
  rfl

theorem prime_moves (hs : Single s) {ep : EndpointAddress} (hv : ep.isValid = true)
    (gap : List HwEvent) (h : ∀ ep', ep'.isValid = true → (view s ep').prime = true ∨ ep' = ep →
      Primes free (hardware s gap) ep') : Effect free s (prime s ep gap) := by
  have hgap : Effect free s (hardware s gap) := hardware_effect hs gap
  refine hgap.trans (writeEndptprime_effect hgap.single _ fun ep' hv' hbit => ?_)
  exact h ep' hv' ((primeBits_iff s hv hv').mp hbit)

def Slotted (s : Usbd) (ep : EndpointAddress) : Prop := ∃ d, d % 32 = 0 ∧ Slot d (view s ep)

theorem Slotted.congr {ep : EndpointAddress} (h : Slotted s ep) (hv : view t ep = view s ep) :
    Slotted t ep := by
  unfold Slotted
  rw [hv]
  exact h

theorem Slotted.effect {ep : EndpointAddress} (h : Slotted s ep) (hv : ep.isValid = true)
    (he : Effect free s t) : Slotted t ep := by
  obtain ⟨d, hd, hslot⟩ := h
  exact ⟨d, hd, slot_moves hd hslot (he.moves ep hv)⟩

theorem Slotted.primes {ep : EndpointAddress} (h : Slotted s ep) (hne : ep ≠ controlOut) :
    Primes free s ep := by
  obtain ⟨d, hd, hslot⟩ := h
  refine ⟨Or.inl hne, ?_, Or.inr (decide_eq_true hne)⟩
  rcases hslot with ⟨-, hn⟩ | ⟨hc, -⟩
  · exact Or.inr (by rw [hn]; exact ne_noNextDtd hd)
  · exact Or.inl (by rw [hc]; exact hd)

/-- Between the parts of a call: the endpoints that are used have a descriptor, and the OUT half of
endpoint 0 is not primed. -/
structure Stable (s : Usbd) : Prop where
  single : Single s
  slots : ∀ ep, ep.isValid = true → view s ep = blank ∨ Slotted s ep
  rest : AtRest s controlOut

theorem Stable.effect (h : Stable s) (he : Effect false s t) : Stable t := by
  refine ⟨he.single, fun ep hv => ?_, h.rest.congr (quiet_moves h.rest (he.moves controlOut rfl))⟩
  rcases h.slots ep hv with hblank | hslot
  · exact Or.inl ((unused_moves hblank (he.moves ep hv)).trans hblank)
  · exact Or.inr (hslot.effect hv he)

theorem Stable.primable (h : Stable s) {ep : EndpointAddress} (hv : ep.isValid = true)
    (hp : (view s ep).prime = true) : ep ≠ controlOut ∧ Slotted s ep := by
  refine ⟨?_, (h.slots ep hv).resolve_left fun hblank => ?_⟩
  · rintro rfl
    exact absurd hp (by rw [h.rest.prime]; exact Bool.false_ne_true)
  · rw [hblank] at hp
    cases hp

/-- A bit that is set again stands for an endpoint that has its descriptor behind the gap too. -/
theorem prime_effect (h : Stable s) {ep : EndpointAddress} (hv : ep.isValid = true)
    (hne : ep ≠ controlOut) (hslot : Slotted s ep) (gap : List HwEvent) :
    Effect free s (prime s ep gap) := by
  have hgap : Effect false s (hardware s gap) := hardware_effect h.single gap
  refine prime_moves h.single hv gap fun ep' hv' hor => ?_
  rcases hor with hp | rfl
  · obtain ⟨hne', hslot'⟩ := h.primable hv' hp
    exact (hslot'.effect hv' hgap).primes hne'
  · exact (hslot.effect hv' hgap).primes hne

theorem prime_hwStep {ep : EndpointAddress} (hv : ep.isValid = true) {e : HwEvent}
    (hne : e ≠ .fetch ep) (h : hwStep s e = some t) : (view t ep).prime = (view s ep).prime := by
  cases hwStep_happens h with
  | fetch x hvx hprime =>
    have hep : ep ≠ x := by
      rintro rfl
      exact hne rfl
    rw [fetch_other s x hvx ep hv hep]
  | _ => rfl

/-- The endpoint is not fetched in the gap if it is primed. -/
def Unfetched (s : Usbd) (ep : EndpointAddress) (gap : List HwEvent) : Prop :=
  (view s ep).prime = true → .fetch ep ∉ gap

theorem prime_hardware {ep : EndpointAddress} (hv : ep.isValid = true) (gap : List HwEvent)
    (hgap : .fetch ep ∉ gap) (s : Usbd) :
    (view (hardware s gap) ep).prime = (view s ep).prime := by
  induction gap generalizing s with
  | nil => rfl
  | cons e gap ih =>
    obtain ⟨hne, hgap⟩ := not_or.mp (mt List.mem_cons.mpr hgap)
    have hrest := ih hgap ((hwStep s e).getD s)
    refine Eq.trans hrest ?_
    cases he : hwStep s e with
    | none => rfl
    | some t => exact prime_hwStep hv (Ne.symm hne) he

theorem fetch_clears (s : Usbd) (ep : EndpointAddress) : (view (fetch s ep) ep).prime = false := by
  have hclear : (fetch s ep).endptprime = s.endptprime &&& ~~~epaddr2endptmask ep := by
    unfold fetch
    simp only
    split <;> rfl
  unfold view
  rw [hclear, epaddr2endptmask_eq, getLsbD_clear, decide_eq_false (not_not.mpr rfl), Bool.and_false]

theorem primed_hardware {ep : EndpointAddress} (hv : ep.isValid = true) (gap : List HwEvent)
    (h : (view (hardware s gap) ep).prime = true) : (view s ep).prime = true := by
  refine hardware_invariant (I := fun t => (view t ep).prime = true → (view s ep).prime = true)
    (fun t e u ht hu hp => ?_) gap s id h
  by_cases he : e = .fetch ep
  · subst e
    cases hwStep_happens hu with
    | fetch _ _ hprime => cases (fetch_clears t ep).symm.trans hp
  · exact ht ((prime_hwStep hv he hu).symm.trans hp)

/-- Without a stale bit an endpoint sees no more of the prime of another one than the gap. -/
theorem prime_unfetched {ep x : EndpointAddress} (hv : ep.isValid = true) (hvx : x.isValid = true)
    (hne : ep ≠ x) {gap : List HwEvent} (hgap : Unfetched s ep gap) :
    view (prime s x gap) ep = view (hardware s gap) ep := by
  rw [prime, writeEndptprime_view]
  cases hbit : (s.endptprime ||| epaddr2endptmask x).getLsbD (endptBit ep) with
  | false => rw [Bool.or_false]
  | true =>
    have hp := ((primeBits_iff s hvx hv).mp hbit).resolve_right hne
    have hstays := (prime_hardware hv gap (hgap hp) s).trans hp
    rw [Bool.or_true, ← hstays]

theorem prime_self (s : Usbd) {ep : EndpointAddress} (hv : ep.isValid = true)
    (gap : List HwEvent) :
    view (prime s ep gap) ep = { view (hardware s gap) ep with prime := true } := by
  have hbit := (primeBits_iff s hv hv).mpr (Or.inr rfl)
  rw [prime, writeEndptprime_view, hbit, Bool.or_true]

theorem prime_frame (s : Usbd) (ep : EndpointAddress) (gap : List HwEvent) :
    Frame s (prime s ep gap) :=
  (hardware_frame gap s).trans ⟨rfl, rfl, fun _ h => h, fun _ h => h, fun _ => ⟨rfl, rfl⟩⟩

def primed (s : Usbd) (ep : EndpointAddress) : Usbd := writeEndptprime s (epaddr2endptmask ep)

theorem primed_self (s : Usbd) (ep : EndpointAddress) (hv : ep.isValid = true) :
    view (primed s ep) ep = { view s ep with prime := true } := by
  have hbit : (epaddr2endptmask ep).getLsbD (endptBit ep) = true := by
    rw [epaddr2endptmask_eq, getLsbD_mask, decide_eq_true_eq]
    exact ⟨rfl, endptBit_lt hv⟩
  rw [primed, writeEndptprime_view, hbit, Bool.or_true]

theorem primed_other (s : Usbd) (ep : EndpointAddress) (hv : ep.isValid = true)
    (ep' : EndpointAddress) (hv' : ep'.isValid = true) (hne : ep' ≠ ep) :
    view (primed s ep) ep' = view s ep' := by
  have hbit : (epaddr2endptmask ep).getLsbD (endptBit ep') = false := by
    rw [epaddr2endptmask_eq, getLsbD_mask]
    exact decide_eq_false fun hbit => (apart hv hv' hne).2 hbit.1
  rw [primed, writeEndptprime_view, hbit, Bool.or_false]

theorem primed_effect (hs : Single s) {ep : EndpointAddress} (hv : ep.isValid = true)
    (hne : ep ≠ controlOut) (hslot : Slotted s ep) : Effect free s (primed s ep) := by
  refine writeEndptprime_effect hs _ fun ep' hv' hbit => ?_
  rw [epaddr2endptmask_eq, getLsbD_mask, decide_eq_true_eq] at hbit
  obtain rfl := endptBit_inj hv hv' hbit.1
  exact hslot.primes hne

theorem setDtd_single (hs : Single s) (d : ℕ) (dtd : DTD) (hn : dtd.nextDtd = noNextDtd) :
    Single (s.setDtd d dtd) := by
  intro a
  by_cases ha : a = d
  · subst a
    simpa [Usbd.setDtd] using hn
  · simpa [Usbd.setDtd, ha] using hs a

/-- What the driver does to a transfer that has completed. -/
def released (s : Usbd) (ep : EndpointAddress) (d : ℕ) : Usbd :=
  releaseDtd (clearInterrupt (writeEndptcomplete s (epaddr2endptmask ep))) (epaddr2dqhidx ep) d

theorem released_view (s : Usbd) (ep : EndpointAddress) (d : ℕ) : view (released s ep d) ep =
    ⟨noNextDtd, d, (view s ep).prime, (view s ep).stat, false, (view s ep).transfers,
      (view s ep).ended + 1⟩ := by
  simp [view, released, releaseDtd, clearInterrupt, writeEndptcomplete, writeUsbsts, Usbd.setDqh,
    epaddr2endptmask_eq, getLsbD_clear, -BitVec.getLsbD_and, DQH.clearCurrentDtd, DQH.setNextDtd]

theorem released_other (s : Usbd) (ep : EndpointAddress) (d : ℕ) (hv : ep.isValid = true)
    (ep' : EndpointAddress) (hv' : ep'.isValid = true) (hne : ep' ≠ ep) :
    view (released s ep d) ep' = view s ep' := by
  have ha := apart hv hv' hne
  simp [view, released, releaseDtd, clearInterrupt, writeEndptcomplete, writeUsbsts, Usbd.setDqh,
    epaddr2endptmask_eq, getLsbD_clear, -BitVec.getLsbD_and, ha.1, ha.2]

theorem release_effect (hs : Single s) (ep : EndpointAddress) (hv : ep.isValid = true)
    (hc : (view s ep).complete = true) {d : ℕ} (hal : d % 32 = 0) (hslot : Slot d (view s ep)) :
    Effect free s (released s ep d) := by
  apply Effect.one ep hv
  · rw [released_view]
    rcases hslot with ⟨hcur, hnext⟩ | ⟨hcur, hnext⟩
    · have hmove : Move free ep (view s ep) _ := Move.acknowledge _ hc
        (by rw [hcur]; exact noNextDtd_mod)
      rw [← hcur, ← hnext]
      exact hmove
    · have hmove : Move free ep (view s ep) _ := Move.release _ hc (by rw [hcur]; exact hal)
      rw [← hcur]
      exact hmove
  · exact released_other s ep d hv
  · intro j hj
    show (s.endptcomplete &&& ~~~epaddr2endptmask ep).getLsbD j = _
    rw [epaddr2endptmask_eq, getLsbD_clear, decide_eq_true hj, Bool.and_true]
  · exact hs
  · rfl
  · rfl

end UsbArmory.Usb.Effects
