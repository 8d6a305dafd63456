import UsbArmory.Usb.Write

/-!
# What a read consumes

A read takes the cached SETUP of its endpoint, or the OUT data: for endpoint 0
the descriptor is primed and waited for, for the others the completion that is
latched is acknowledged.
-/

set_option autoImplicit false

namespace UsbArmory.Usb.Read
open UsbArmory.Library.Bits UsbArmory.Usb.Descriptors UsbArmory.Usb.Controller UsbArmory.Usb.Bus
open UsbArmory.Usb.Endpoint UsbArmory.Usb.Effects UsbArmory.Usb.EndWrite UsbArmory.Usb.Write
open Relation

variable {s t : Usbd} {ep : EndpointAddress} {q : ℕ} {buf : Lent} {hw : During}
variable {bytes : List UInt8}

/-- The SETUPs that `poll` has cached. -/
def cached (s : Usbd) (j : ℕ) : Bool := (s.inner.setupstat.getD 0).getLsbD j

theorem cacheSetup_cached (s : Usbd) (w : BitVec 16) (j : ℕ) :
    cached (cacheSetup s w) j = w.getLsbD j := by
  by_cases hw : w = 0
  · simp [cached, cacheSetup, hw]
  · show ((if w = 0 then none else some w).getD 0).getLsbD j = _
    rw [if_neg hw]
    rfl

theorem takeSetup_taken (s : Usbd) (ep : EndpointAddress) :
    (takeSetup s ep).2 = cached s ep.index := by
  unfold takeSetup cached
  cases hw : s.inner.setupstat with
  | none => simp
  | some w =>
    have hbit := and_mask_ne_zero w ep.index
    simp only [Option.getD_some]
    split
    next hne => exact (hbit.mp hne).symm
    next hne =>
      have hfalse : ¬w.getLsbD ep.index = true := fun ht => hne (hbit.mpr ht)
      exact ((Bool.not_eq_true _).mp hfalse).symm

theorem takeSetup_cached (s : Usbd) (ep : EndpointAddress) (j : ℕ) :
    cached (takeSetup s ep).1 j = (cached s j && decide (ep.index ≠ j)) := by
  have htaken := takeSetup_taken s ep
  unfold takeSetup at htaken ⊢
  cases hw : s.inner.setupstat with
  | none => simp [cached, hw]
  | some w =>
    have hs : ∀ i, cached s i = w.getLsbD i := by
      intro i
      simp [cached, hw]
    rw [hw] at htaken
    simp only at htaken ⊢
    rw [hs] at htaken ⊢
    split at htaken
    next hne =>
      rw [if_pos hne, cacheSetup_cached, getLsbD_clear]
    next hne =>
      rw [if_neg hne, cacheSetup_cached]
      by_cases hj : ep.index = j
      · subst j
        simp [← htaken]
      · simp [hj]

theorem takeSetup_eq (s : Usbd) (ep : EndpointAddress) : (takeSetup s ep).1 =
    { s with inner := { s.inner with setupstat := (takeSetup s ep).1.inner.setupstat } } := by
  unfold takeSetup
  split
  next => rfl
  next =>
    simp only
    split <;> rfl

theorem takeSetup_effect (hs : Single s) (ep : EndpointAddress) :
    Effect false s (takeSetup s ep).1 := by
  rw [takeSetup_eq]
  exact .same (fun _ => rfl) hs rfl rfl

theorem tripwire_spec (hs : Single s) (q : ℕ) (rounds : List (List HwEvent)) :
    Effect false s (tripwire s q rounds).1 ∧ Frame s (tripwire s q rounds).1 := by
  induction rounds generalizing s with
  | nil =>
    exact ⟨.same (fun _ => rfl) hs rfl rfl, ⟨rfl, rfl, fun _ h => h, fun _ h => h,
      fun _ => ⟨rfl, rfl⟩⟩⟩
  | cons h rounds ih =>
    have harm : Effect false s (arm s) := .same (fun _ => rfl) hs rfl rfl
    have hframe : Frame s (arm s) := ⟨rfl, rfl, fun _ h => h, fun _ h => h, fun _ => ⟨rfl, rfl⟩⟩
    have heff := harm.trans (hardware_effect harm.single h)
    have hfr := hframe.trans (hardware_frame h (arm s))
    unfold tripwire
    simp only
    split
    next => exact ⟨heff, hfr⟩
    next =>
      obtain ⟨he, hf⟩ := ih heff.single
      exact ⟨heff.trans he, hfr.trans hf⟩

def isGetDescriptor (setup : List UInt8) : Bool :=
  match setup.take 4 with
  | [128, 6, _, _] => true
  | _ => false

theorem resetEp_eq {ep : EndpointAddress} (h : resetEp s ep = .ok t) :
    t = { s with endptctrl1 := t.endptctrl1 } := by
  unfold resetEp at h
  obtain ⟨u, -, h⟩ := bind_ok h
  cases h
  rfl

theorem resetEps_eq (eps : List EndpointAddress) (h : eps.foldlM resetEp s = .ok t) :
    t = { s with endptctrl1 := t.endptctrl1 } := by
  induction eps generalizing s with
  | nil =>
    cases h
    rfl
  | cons ep eps ih =>
    rw [List.foldlM_cons] at h
    obtain ⟨u, hu, h⟩ := bind_ok h
    have hrest := ih h
    rw [resetEp_eq hu] at hrest
    exact hrest

theorem request_eq {setup : List UInt8} (h : request s setup = .ok t) :
    t = { s with
      inner := { s.inner with
        preStatusOut := if isGetDescriptor setup then 1 else s.inner.preStatusOut }
      endptctrl1 := t.endptctrl1 } := by
  unfold request isGetDescriptor at *
  split at h
  next h4 =>
    cases h
    simp [h4]
  next h4 =>
    simpa [h4] using resetEps_eq _ h
  next h4 =>
    simpa [h4] using resetEps_eq _ h
  next h4 =>
    cases h
    simp [h4]
  next => cases h

structure SetupRead (s : Usbd) (ep : EndpointAddress) (bytes : List UInt8) (t : Usbd) : Prop where
  effect : Effect false s t
  inner : t.inner = { s.inner with
    preStatusOut := if isGetDescriptor bytes then 1 else s.inner.preStatusOut }
  ended : t.ended = s.ended
  setup : ∀ j, ep.index ≠ j → s.endptsetupstat.getLsbD j = true →
    t.endptsetupstat.getLsbD j = true
  complete : ∀ j, s.endptcomplete.getLsbD j = true → t.endptcomplete.getLsbD j = true
  dqh : ∀ q, (t.dqhs q).caps = (s.dqhs q).caps ∧ (t.dqhs q).addr = (s.dqhs q).addr

theorem readSetup_spec (hs : Single s) (h : readSetup s ep q buf hw = .ok (t, bytes)) :
    SetupRead s ep bytes t := by
  unfold readSetup at h
  obtain ⟨u, -, h⟩ := bind_ok h
  have hwrite : Effect false s (writeEndptsetupstat s ((mask 16 ep.index).setWidth 32)) :=
    .same (fun _ => rfl) hs rfl rfl
  have hbefore := hwrite.trans (hardware_effect hwrite.single hw.before)
  have hframe := hardware_frame hw.before
    (writeEndptsetupstat s ((mask 16 ep.index).setWidth 32))
  obtain ⟨htrip, htripf⟩ := tripwire_spec hbefore.single q hw.rounds
  have heff := hbefore.trans htrip
  have hfr := hframe.trans htripf
  generalize tripwire (hardware (writeEndptsetupstat s ((mask 16 ep.index).setWidth 32)) hw.before)
    q hw.rounds = p at h heff hfr
  obtain ⟨v, hv, h⟩ := bind_ok h
  cases h
  have heq := request_eq hv
  have hinner : p.1.inner = s.inner := hfr.inner
  constructor
  · have hlast : Effect false p.1 t := by
      rw [heq]
      exact .same (fun _ => rfl) heff.single rfl rfl
    exact heff.trans hlast
  · rw [heq, ← hinner]
    rfl
  · rw [heq]
    exact hfr.ended
  · intro j hj hbit
    have hkeep : (writeEndptsetupstat s ((mask 16 ep.index).setWidth 32)).endptsetupstat.getLsbD j
        = true := by
      show (s.endptsetupstat &&& ~~~((mask 16 ep.index).setWidth 32)).getLsbD j = true
      have hlt : j < 32 := BitVec.lt_of_getLsbD hbit
      rw [BitVec.getLsbD_and, hbit, BitVec.getLsbD_not, BitVec.getLsbD_setWidth, getLsbD_mask]
      simp [hlt, hj]
    rw [heq]
    exact hfr.setup j hkeep
  · rw [heq]
    exact hfr.complete
  · rw [heq]
    exact hfr.dqh

theorem out_zero (hout : ep.isOut = true) (h0 : ep.index = 0) : ep = controlOut := by
  obtain ⟨i, d⟩ := ep
  cases d with
  | out => exact congrArg (EndpointAddress.mk · .out) h0
  | «in» => cases hout

theorem controlOut_valid : controlOut.isValid = true := rfl

/-- The memory of a read of OUT data before it primes endpoint 0. -/
def controlReady (s : Usbd) (ep : EndpointAddress) (d : ℕ) (token : Token) (addr : ℕ) : Usbd :=
  let s := s.setDtd d ({ s.dtd d with token := token }.setPages addr)
  let q := epaddr2dqhidx ep
  s.setDqh q { s.dqhs q with addr := some addr }

def controlPrimed (s : Usbd) (ep : EndpointAddress) (d : ℕ) (token : Token) (addr : ℕ)
    (gap : List HwEvent) : Usbd := prime (controlReady s ep d token addr) ep gap

theorem readControl_ok (h : readControl s ep (epaddr2dqhidx ep) buf hw = .ok (t, bytes)) :
    (s.dqhs (epaddr2dqhidx ep)).getCurrentDtd = none ∧ ∃ d token u,
      (s.dqhs (epaddr2dqhidx ep)).getNextDtd = some d ∧ activeToken buf.cap = some token ∧
      waitFor (fun s => s.endptcomplete &&& epaddr2endptmask ep ≠ 0)
        (controlPrimed s ep d token buf.addr hw.priming) hw.rounds = .ok u ∧
        t = released u ep d := by
  unfold readControl at h
  obtain ⟨_, hnone, h⟩ := bind_ok h
  obtain ⟨d, hd, h⟩ := bind_ok h
  obtain ⟨token, htoken, h⟩ := bind_ok h
  obtain ⟨u, hu, h⟩ := bind_ok h
  obtain ⟨_, -, h⟩ := bind_ok h
  cases h
  exact ⟨of_decide_eq_true (require_ok hnone), d, token, u, expect_ok hd, expect_ok htoken, hu, rfl⟩

/-- The descriptor of an OUT endpoint as it is handed back to the controller. -/
def reprimed (s : Usbd) (ep : EndpointAddress) (d : ℕ) (token : Token) (addr : ℕ)
    (gap : List HwEvent) : Usbd :=
  prime (released (s.setDtd d ({ s.dtd d with token := token }.setPages addr)) ep d) ep gap

theorem readData_ok {gap : List HwEvent} {r : Except UsbError (List UInt8)}
    (h : readData s ep (epaddr2dqhidx ep) buf gap = .ok (t, r)) :
    (s.endptcomplete.getLsbD (endptBit ep) = false ∧ t = s ∧ r = .error .wouldBlock) ∨
    (s.endptcomplete.getLsbD (endptBit ep) = true ∧ ∃ d addr token bytes,
      (s.dqhs (epaddr2dqhidx ep)).getCurrentDtd = some d ∧
      (s.dqhs (epaddr2dqhidx ep)).addr = some addr ∧
      activeToken (s.dqhs (epaddr2dqhidx ep)).getMaxPacketSize = some token ∧
      t = reprimed s ep d token addr gap ∧ r = .ok bytes) := by
  have hbit := mask_ne_zero_iff s.endptcomplete ep
  unfold readData at h
  split at h
  next hz =>
    cases h
    have hfalse : ¬s.endptcomplete.getLsbD (endptBit ep) = true := fun ht => hbit.mpr ht hz
    exact Or.inl ⟨(Bool.not_eq_true _).mp hfalse, rfl, rfl⟩
  next hz =>
    obtain ⟨d, hd, h⟩ := bind_ok h
    obtain ⟨_, -, h⟩ := bind_ok h
    obtain ⟨addr, haddr, h⟩ := bind_ok h
    obtain ⟨_, -, h⟩ := bind_ok h
    obtain ⟨token, htoken, h⟩ := bind_ok h
    cases h
    exact Or.inr ⟨hbit.mp hz, d, addr, token, _, expect_ok hd, expect_ok haddr,
      expect_ok htoken, rfl, rfl⟩

theorem controlReady_view (s : Usbd) (ep : EndpointAddress) (d : ℕ) (token : Token) (addr : ℕ)
    (ep' : EndpointAddress) : view (controlReady s ep d token addr) ep' = view s ep' := by
  by_cases hq : epaddr2dqhidx ep' = epaddr2dqhidx ep
  · simp [controlReady, view, Usbd.setDqh, Usbd.setDtd, hq]
  · simp [controlReady, view, Usbd.setDqh, Usbd.setDtd, hq]

theorem controlReady_effect (hs : Single s) (ep : EndpointAddress) (d : ℕ) (token : Token)
    (addr : ℕ) : Effect false s (controlReady s ep d token addr) := by
  have hset : Single (s.setDtd d ({ s.dtd d with token := token }.setPages addr)) :=
    setDtd_single hs d _ (hs d)
  exact .same (controlReady_view s ep d token addr) (fun a => hset a) rfl rfl

theorem controlPrimed_self (hs : Stable s) (d : ℕ) (token : Token) (addr : ℕ)
    (gap : List HwEvent) : view (controlPrimed s controlOut d token addr gap) controlOut =
      { view s controlOut with prime := true } := by
  have hready := hs.effect (controlReady_effect hs.single controlOut d token addr)
  rw [controlPrimed, prime_self _ controlOut_valid,
    (rests_hardware hready.single controlOut_valid hready.rest gap).view, controlReady_view]

theorem controlPrimed_effect (hs : Stable s) (hep : ep = controlOut) {d : ℕ} (token : Token)
    (addr : ℕ) (gap : List HwEvent) (hcur : (view s ep).current % 32 ≠ 0)
    (hnext : (view s ep).next ≠ noNextDtd) :
    Effect true s (controlPrimed s ep d token addr gap) := by
  subst hep
  have hfirst := controlReady_effect hs.single controlOut d token addr
  have hready := hs.effect hfirst
  have hgap : Effect false _ (hardware (controlReady s controlOut d token addr) gap) :=
    hardware_effect hready.single gap
  refine hfirst.weaken.trans (prime_moves hready.single controlOut_valid gap
    fun ep' hv' hor => ?_)
  rcases hor with hp | rfl
  · obtain ⟨hne, hslot⟩ := hready.primable hv' hp
    exact (hslot.effect hv' hgap).primes hne
  · unfold Primes
    rw [(rests_hardware hready.single controlOut_valid hready.rest gap).view,
      controlReady_view]
    exact ⟨Or.inr rfl, Or.inr hnext, Or.inl hcur⟩

theorem readControl_effect (hs : Stable s) (hep : ep = controlOut) (hslot : Slotted s ep)
    (h : readControl s ep (epaddr2dqhidx ep) buf hw = .ok (t, bytes)) :
    ∃ u d, d % 32 = 0 ∧ Slot d (view u ep) ∧ Effect true s u ∧ (view u ep).complete = true ∧
      t = released u ep d := by
  obtain ⟨d₀, hal, hslot⟩ := hslot
  obtain ⟨hnone, d, token, u, hd, -, hwait, rfl⟩ := readControl_ok h
  obtain ⟨hnext, hne⟩ := getNextDtd_some hd
  have hcur := getCurrentDtd_none hnone
  have heq : d₀ = d := (slot_next hal hslot hcur).2.symm.trans hnext
  subst d₀
  have hne' : (view s ep).next ≠ noNextDtd := by
    show (s.dqhs (epaddr2dqhidx ep)).nextDtd ≠ noNextDtd
    rw [hnext]
    exact hne
  have hv : ep.isValid = true := by
    rw [hep]
    rfl
  have hprimed := controlPrimed_effect (d := d) hs hep token buf.addr hw.priming hcur hne'
  obtain ⟨hwaited, hdone⟩ := waitFor_effect hprimed.single _ hw.rounds hwait
  have hall := hprimed.trans hwaited
  have hdone' := (mask_ne_zero_iff u.endptcomplete ep).mp (of_decide_eq_true hdone)
  exact ⟨u, d, hal, slot_moves hal hslot (hall.moves ep hv), hall, hdone', rfl⟩

theorem readData_effect (hs : Stable s) (hv : ep.isValid = true) (hne : ep ≠ controlOut)
    (hslot : Slotted s ep) {gap : List HwEvent} {r : Except UsbError (List UInt8)}
    (h : readData s ep (epaddr2dqhidx ep) buf gap = .ok (t, r)) : Effect false s t := by
  rcases readData_ok h with ⟨-, rfl, -⟩ | ⟨hbit, d, addr, token, _, hd, -, -, rfl, -⟩
  · exact Effect.refl hs.single
  · obtain ⟨d₀, hal₀, hslot⟩ := hslot
    obtain ⟨hcur, hal⟩ := getCurrentDtd_some hd
    have heq : d₀ = d := by
      rcases hslot with ⟨hc, -⟩ | ⟨hc, -⟩
      · have hone : d = noNextDtd := hcur.symm.trans hc
        exact absurd hone (ne_noNextDtd hal)
      · exact hc.symm.trans hcur
    subst d₀
    have hsame : Effect false s (s.setDtd d ({ s.dtd d with token := token }.setPages addr)) :=
      .same (fun _ => rfl) (setDtd_single hs.single d _ (hs.single d)) rfl rfl
    have hrel : Effect false _ (released _ ep d) :=
      release_effect hsame.single ep hv hbit hal hslot
    have hafter := hsame.trans hrel
    have hself : Slotted _ ep := ⟨d, hal, slot_moves hal hslot (hafter.moves ep hv)⟩
    exact hafter.trans (prime_effect (hs.effect hafter) hv hne hself gap)

def readsControl (s : Usbd) (ep : EndpointAddress) : Bool := ep.index = 0 && !cached s ep.index

theorem read_ok {r : Except UsbError (List UInt8)} (h : read s ep buf hw = .ok (t, r)) :
    (t = (takeSetup s ep).1 ∧ ep.isValid = false ∧ r = .error .invalidEndpoint) ∨
    ep.isValid = true ∧
      ((cached s ep.index = true ∧ ∃ bytes,
        readSetup (takeSetup s ep).1 ep (epaddr2dqhidx ep) buf hw = .ok (t, bytes) ∧
          r = .ok bytes) ∨
      (cached s ep.index = false ∧ ep.index = 0 ∧ ∃ bytes,
        readControl (takeSetup s ep).1 ep (epaddr2dqhidx ep) buf hw = .ok (t, bytes) ∧
          r = .ok bytes) ∨
      (cached s ep.index = false ∧ ep.index ≠ 0 ∧
        readData (takeSetup s ep).1 ep (epaddr2dqhidx ep) buf hw.priming = .ok (t, r))) := by
  have htaken := takeSetup_taken s ep
  unfold Bus.read at h
  simp only at h
  split at h
  next hnone =>
    cases h
    refine Or.inl ⟨rfl, ?_, rfl⟩
    unfold getDqh at hnone
    split at hnone
    next => cases hnone
    next hv => exact decide_eq_false hv
  next q hq =>
    obtain ⟨rfl, hv⟩ := getDqh_ok hq
    refine Or.inr ⟨hv, ?_⟩
    rw [htaken] at h
    split at h
    next hc =>
      obtain ⟨p, hp, h⟩ := bind_ok h
      cases h
      exact Or.inl ⟨hc, p.2, hp, rfl⟩
    next hc =>
      have hc' := (Bool.not_eq_true _).mp hc
      split at h
      next h0 =>
        obtain ⟨p, hp, h⟩ := bind_ok h
        cases h
        exact Or.inr (Or.inl ⟨hc', h0, p.2, hp, rfl⟩)
      next h0 => exact Or.inr (Or.inr ⟨hc', h0, h⟩)

theorem takeSetup_view (s : Usbd) (x ep : EndpointAddress) :
    view (takeSetup s x).1 ep = view s ep := by
  rw [takeSetup_eq]
  rfl

theorem readControl_slot (hs : Stable s) (hv : ep.isValid = true)
    (h : readControl s ep (epaddr2dqhidx ep) buf hw = .ok (t, bytes)) : Slotted s ep := by
  obtain ⟨-, d, token, u, hd, -⟩ := readControl_ok h
  obtain ⟨hnext, hne⟩ := getNextDtd_some hd
  refine (hs.slots ep hv).resolve_left fun hblank => hne (hnext.symm.trans ?_)
  show (view s ep).next = noNextDtd
  rw [hblank]
  rfl

theorem read_effect (hs : Stable s) (hout : ep.isOut = true)
    {r : Except UsbError (List UInt8)} (h : read s ep buf hw = .ok (t, r)) :
    Effect (readsControl s ep) s t := by
  have htake := takeSetup_effect hs.single ep
  have hs' := hs.effect htake
  rcases read_ok h with ⟨rfl, -, -⟩ | ⟨hv, ⟨-, bytes, hr, -⟩ | ⟨hc, h0, bytes, hr, -⟩ | ⟨-, h0, hr⟩⟩
  · exact htake.weaken
  · exact (htake.trans (readSetup_spec htake.single hr).effect).weaken
  · have hfree : readsControl s ep = true := by
      unfold readsControl
      rw [hc, decide_eq_true h0]
      rfl
    rw [hfree]
    obtain ⟨u, d, hal, hsl, heff, hdone, rfl⟩ :=
      readControl_effect hs' (out_zero hout h0) (readControl_slot hs' hv hr) hr
    exact (htake.weaken.trans heff).trans (release_effect heff.single ep hv hdone hal hsl)
  · have hne : ep ≠ controlOut := by
      rintro rfl
      exact h0 rfl
    rcases hs'.slots ep hv with hblank | hslot
    · rcases readData_ok hr with ⟨-, rfl, -⟩ | ⟨hbit, -⟩
      · exact htake.weaken
      · have hno : (view (takeSetup s ep).1 ep).complete = false := by rw [hblank]; rfl
        exact absurd (hbit.symm.trans hno) (by simp)
    · exact (htake.trans (readData_effect hs' hv hne hslot hr)).weaken

theorem readControl_rest (hs : Stable s)
    (h : readControl s controlOut (epaddr2dqhidx controlOut) buf hw = .ok (t, bytes)) :
    AtRest t controlOut := by
  have hslot := readControl_slot hs controlOut_valid h
  have hcur := getCurrentDtd_none (readControl_ok h).1
  obtain ⟨d₀, hal, hslot₀⟩ := id hslot
  obtain ⟨hcurrent, hnext⟩ := slot_next hal hslot₀ hcur
  obtain ⟨u, d, -, -, heff, hdone, rfl⟩ := readControl_effect hs rfl hslot h
  have hstage := stage_moves hal (quiet_stage hs.rest hcurrent hnext) (heff.moves controlOut rfl)
  obtain ⟨hstat, hprime⟩ := stage_done hstage hdone
  constructor <;> rw [released_view]
  · exact hprime rfl
  · exact hstat

theorem read_stable (hs : Stable s) (hout : ep.isOut = true) {r : Except UsbError (List UInt8)}
    (h : read s ep buf hw = .ok (t, r)) : Stable t := by
  have heff := read_effect hs hout h
  cases hfree : readsControl s ep with
  | false =>
    rw [hfree] at heff
    exact hs.effect heff
  | true =>
    obtain ⟨h0, hnot⟩ := Bool.and_eq_true_iff.mp hfree
    have hc : cached s ep.index = false := by simpa using hnot
    obtain rfl := out_zero hout (of_decide_eq_true h0)
    refine ⟨heff.single, fun ep hv => ?_, ?_⟩
    · rcases hs.slots ep hv with hblank | hslot
      · exact Or.inl ((unused_moves hblank (heff.moves ep hv)).trans hblank)
      · exact Or.inr (hslot.effect hv heff)
    · have hs' := hs.effect (takeSetup_effect hs.single controlOut)
      rcases read_ok h with ⟨-, hv, -⟩ | ⟨-, ⟨hyes, -⟩ | ⟨-, -, bytes, hr, -⟩ | ⟨-, h0, -⟩⟩
      · cases hv
      · cases hyes.symm.trans hc
      · exact readControl_rest hs' hr
      · exact absurd rfl h0

end UsbArmory.Usb.Read
