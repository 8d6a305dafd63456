import UsbArmory.Usb.Events

/-!
# What poll reports

Every result names the events that were outstanding at the call, and no others;
`None` says that there were none. A poll halts only on a transfer that failed.
-/

set_option autoImplicit false

namespace UsbArmory.Usb.Reports
open UsbArmory.Library.Bits UsbArmory.Library.Run UsbArmory.Usb.Descriptors
open UsbArmory.Usb.Controller UsbArmory.Usb.Bus UsbArmory.Usb.Endpoint UsbArmory.Usb.Effects
open UsbArmory.Usb.EndWrite UsbArmory.Usb.Poll UsbArmory.Usb.Runs UsbArmory.Usb.Invariant
open UsbArmory.Usb.Events

variable {l : Layout} {s t : Usbd} {x y : Session}

/-- A Data result with a pending STATUS OUT in the place of the OUT endpoints. -/
def CarriesStatusOut (s : Usbd) (epInComplete : BitVec 16) : Prop :=
  s.inner.statusOut ≠ 0 ∧ epInComplete = 0

/-- What the result owes to the state `s` at the call and `t` after it. -/
def Faithful (s t : Usbd) : PollResult → Prop
  | .reset => s.usbsts.getLsbD usbstsUri = true ∧ t.endptcomplete = s.endptcomplete ∧
      t.endptsetupstat = s.endptsetupstat
  | .none => s.endptcomplete = 0 ∧ (∀ i < 16, s.endptsetupstat.getLsbD i = false) ∧
      s.inner.statusOut = 0
  | .data epOut epInComplete epSetup =>
    (∀ i, s.endptcomplete.getLsbD (16 + i) = true → epInComplete.getLsbD i = true) ∧
    (¬CarriesStatusOut s epInComplete → ∀ i < 16,
      (s.endptcomplete.getLsbD i = true → epOut.getLsbD i = true) ∧
      (epOut.getLsbD i = true → t.endptcomplete.getLsbD i = true)) ∧
    ∀ i < 16, (s.endptsetupstat.getLsbD i = true → epSetup.getLsbD i = true) ∧
      (epSetup.getLsbD i = true → t.endptsetupstat.getLsbD i = true)

def Polls (s : Usbd) (h₁ h₂ : List HwEvent) : Prop :=
  match Bus.poll s h₁ h₂ with
  | .ok (t, r) => Faithful s t r
  | .error e => e = .flushAndReset ∧ ∃ i, Failed (atComplete s h₁ h₂) i

theorem getLsbD_seenSetup (s : Usbd) (h₁ : List HwEvent) {i : ℕ} (hi : i < 16) :
    (seenSetup s h₁).getLsbD i = (atSetup s h₁).endptsetupstat.getLsbD i := by
  unfold seenSetup
  rw [BitVec.getLsbD_setWidth, decide_eq_true hi, Bool.true_and]

theorem setup_seen (s : Usbd) (h₁ : List HwEvent) {i : ℕ} (hi : i < 16)
    (h : s.endptsetupstat.getLsbD i = true) : (seenSetup s h₁).getLsbD i = true := by
  rw [getLsbD_seenSetup s h₁ hi]
  exact (atSetup_frame s h₁).setup i h

theorem seen_stays (s : Usbd) (h₁ h₂ : List HwEvent) {i : ℕ} (hi : i < 16)
    (h : (seenSetup s h₁).getLsbD i = true) :
    (atComplete s h₁ h₂).endptsetupstat.getLsbD i = true := by
  rw [getLsbD_seenSetup s h₁ hi] at h
  exact (hardware_frame h₂ _).setup i h

theorem eq_zero_of_bits {n : ℕ} {w : BitVec n} (h : ∀ i, w.getLsbD i = false) : w = 0 := by
  by_contra hne
  obtain ⟨i, hi⟩ := (ne_zero_iff w).mp hne
  rw [h] at hi
  cases hi

theorem false_of_imp {a b : Bool} (h : a = true → b = true) (hb : b = false) : a = false := by
  cases a with
  | false => rfl
  | true => exact (h rfl).symm.trans hb

theorem polled_faithful {h₁ h₂ : List HwEvent} {r : PollResult}
    (hp : Polled (atComplete s h₁ h₂) (seenSetup s h₁) t r) : Faithful s t r := by
  have hf := atComplete_frame s h₁ h₂
  have hset := hp.setup
  have hresult := hp.result
  have hseen : ∀ i < 16, (s.endptsetupstat.getLsbD i = true → (seenSetup s h₁).getLsbD i = true) ∧
      ((seenSetup s h₁).getLsbD i = true → t.endptsetupstat.getLsbD i = true) := by
    intro i hi
    rw [hset]
    exact ⟨setup_seen s h₁ hi, seen_stays s h₁ h₂ hi⟩
  cases hresult with
  | none hzero hcomplete hb ht =>
    refine ⟨eq_zero_of_bits fun i => ?_, fun i hi => ?_, ?_⟩
    · exact false_of_imp (hf.complete i) (by rw [hcomplete]; simp)
    · exact false_of_imp (setup_seen s h₁ hi) (by rw [hzero]; simp)
    · rw [← hf.inner]
      exact hb
  | statusOut hb ht hin =>
    rw [hf.inner] at hb
    refine ⟨fun i hi => ?_, fun hno => absurd ⟨hb, rfl⟩ hno, hseen⟩
    have hbit := hf.complete _ hi
    rw [hin] at hbit
    cases hbit
  | data epOut epIn hsome hin hout hstatus ht =>
    refine ⟨fun i hi => ?_, fun _ i hi => ⟨fun hbit => ?_, fun hbit => ?_⟩, hseen⟩
    · rw [hin]
      exact hf.complete _ hi
    · rw [hout i hi]
      exact hf.complete i hbit
    · rw [hout i hi] at hbit
      rw [hp.complete, hbit, decide_eq_true hi]
      rfl

theorem phased_current (h : Phased s) (i : ℕ) (hbit : s.endptcomplete.getLsbD (16 + i) = true) :
    i < 2 ∧ ((s.dqhs (epaddr2dqhidx ⟨i, .in⟩)).getCurrentDtd).isSome = true := by
  obtain ⟨ep, hv, hep⟩ := h.bits _ hbit
  have hlt := index_lt hv
  have heq : ep = ⟨i, .in⟩ := by
    obtain ⟨index, dir⟩ := ep
    cases dir with
    | out =>
      simp only [endptBit, EndpointAddress.isOut, decide_true, if_true] at hep hlt
      omega
    | «in» =>
      have hi : index = i := by simpa [endptBit, EndpointAddress.isOut] using hep
      rw [hi]
  subst heq
  refine ⟨hlt, ?_⟩
  have hcomplete : (view s ⟨i, .in⟩).complete = true := hbit
  have hu : isEpBeingUsed s ⟨i, .in⟩ = true := by
    by_contra hu
    rw [h.free _ hv ((Bool.not_eq_true _).mp hu)] at hcomplete
    cases hcomplete
  obtain ⟨d, hd, -, hp⟩ := h.held _ hu
  have hcur : (view s ⟨i, .in⟩).current = d := by
    generalize view s ⟨i, .in⟩ = v at hcomplete hp
    cases hp with
    | idle n => cases hcomplete
    | primed n => cases hcomplete
    | loaded n p hr => cases hcomplete
    | done n p hr => rfl
  have hal : (s.dqhs (epaddr2dqhidx ⟨i, .in⟩)).currentDtd % 32 = 0 := by
    show (view s ⟨i, .in⟩).current % 32 = 0
    rw [hcur]
    exact hd
  rw [getCurrentDtd_of_aligned _ hal]
  rfl

theorem poll_uri (h : (writeUsbsts s (mask 32 usbstsSre)).usbsts &&& mask 32 usbstsUri ≠ 0) :
    s.usbsts.getLsbD usbstsUri = true := by
  rw [and_mask_ne_zero, show (writeUsbsts s (mask 32 usbstsSre)).usbsts =
    s.usbsts &&& ~~~mask 32 usbstsSre from rfl, getLsbD_clear, Bool.and_eq_true] at h
  exact h.1

theorem ready_polls (h : Ready s) (h₁ h₂ : List HwEvent) : Polls s h₁ h₂ := by
  have hat := atComplete_effect h.single h₁ h₂
  have hinner : (atComplete s h₁ h₂).inner.epInComplete = none := by
    rw [(atComplete_frame s h₁ h₂).inner]
    exact h.noted
  have hphased : Phased (atComplete s h₁ h₂) := good_effect kept_phase h.toGood hat hinner
  unfold Polls
  by_cases huri : (writeUsbsts s (mask 32 usbstsSre)).usbsts &&& mask 32 usbstsUri ≠ 0
  · rw [poll_reset huri]
    exact ⟨poll_uri huri, rfl, rfl⟩
  · rw [poll_handle huri]
    rcases handle_returns (writeUsbsts s (mask 32 usbstsSre)).usbsts (seenSetup s h₁)
      (phased_current hphased) with ⟨t, r, hok⟩ | ⟨herr, i, -, hfailed⟩
    · rw [hok]
      exact polled_faithful (polled hat.single hinner hok)
    · rw [herr]
      exact ⟨rfl, i, hfailed⟩

/-- The bits that are latched in `x` and the steps of the run to `y` leave. -/
def StaysLatched (l : Layout) (fs : List Event) (x y : Session) : Prop :=
  (∀ ep, ep.isValid = true → ep.isOut = true →
    x.usbd.endptcomplete.getLsbD (endptBit ep) = true →
    Along (step l) (fun z e => ¬Acknowledges ep z e) fs x →
    y.usbd.endptcomplete.getLsbD (endptBit ep) = true) ∧
  ∀ j, x.usbd.endptsetupstat.getLsbD j = true →
    Along (step l) (fun z e => ¬Consumes j z e) fs x →
    y.usbd.endptsetupstat.getLsbD j = true

theorem stays_latched {fs : List Event} (h : Ready x.usbd) (hr : ∀ e ∈ fs, e.isReset = false)
    (hy : exec (step l) fs x = some y) : StaysLatched l fs x y := by
  have hreset : Along (step l) (fun _ e => e.isReset = false) fs x := along_of_forall hr x
  constructor
  · intro ep hv hout hbit hno
    have hrun : Ready y.usbd ∧ y.usbd.endptcomplete.getLsbD (endptBit ep) = true :=
      exec_invariant_along
        (I := fun z => Ready z.usbd ∧ z.usbd.endptcomplete.getLsbD (endptBit ep) = true)
        (fun z e w hz he hw => ⟨ready_step hz.1 he.1 hw, out_step hz.1 he.1 hw hv hout he.2 hz.2⟩)
        fs ⟨h, hbit⟩ (along_and fs x hreset hno) hy
    exact hrun.2
  · intro j hbit hno
    have hrun : Ready y.usbd ∧ y.usbd.endptsetupstat.getLsbD j = true :=
      exec_invariant_along (I := fun z => Ready z.usbd ∧ z.usbd.endptsetupstat.getLsbD j = true)
        (fun z e w hz he hw => ⟨ready_step hz.1 he.1 hw, setup_step hz.1 he.1 hw he.2 hz.2⟩)
        fs ⟨h, hbit⟩ (along_and fs x hreset hno) hy
    exact hrun.2

theorem counted_run {es : List Event} (hr : ∀ e ∈ es, e.isReset = false)
    (hx : exec (step l) es (start l) = some x) : Counted x := by
  have hrun : Ready x.usbd ∧ ∀ i, x.usbd.ended (epaddr2dqhidx ⟨i, .in⟩) = reports i x.log :=
    exec_invariant_along
      (I := fun z => Ready z.usbd ∧
        ∀ i, z.usbd.ended (epaddr2dqhidx ⟨i, .in⟩) = reports i z.log)
      (fun z e w hz he hw => ⟨ready_step hz.1 he hw, fun i => ended_step hz.1 he hw i (hz.2 i)⟩)
      es ⟨steady_start _ l, fun i => rfl⟩ (along_of_forall hr (start l)) hx
  intro ep hv hin
  obtain ⟨index, dir⟩ := ep
  cases dir with
  | out => cases hin
  | «in» => exact ⟨ready_count hrun.1 hv, hrun.2 index⟩

/-- No event is lost and none is reported twice, in any run without a bus reset
and any continuation of it. -/
theorem no_event_lost (l : Layout) (es fs : List Event) (x y : Session)
    (hr : ∀ e ∈ es ++ fs, e.isReset = false) (hx : exec (step l) es (start l) = some x)
    (hy : exec (step l) fs x = some y) :
    Counted y ∧ StaysLatched l fs x y ∧ ∀ h₁ h₂, Polls y.usbd h₁ h₂ := by
  have hes : ∀ e ∈ es, e.isReset = false := fun e he => hr e (List.mem_append_left _ he)
  have hfs : ∀ e ∈ fs, e.isReset = false := fun e he => hr e (List.mem_append_right _ he)
  have hall : exec (step l) (es ++ fs) (start l) = some y := by
    rw [exec_append, hx]
    exact hy
  exact ⟨counted_run hr hall, stays_latched (ready_run hes hx) hfs hy,
    fun h₁ h₂ => ready_polls (ready_run hr hall) h₁ h₂⟩

/-- A write on endpoint 0 that the controller completes. -/
def oneWrite : List Event :=
  [.call (.allocEp .in (some ⟨0, .in⟩) .control 64), .call (.startWrite ⟨0, .in⟩ [1, 2, 3] []),
    .hw (.fetch ⟨0, .in⟩), .hw (.load ⟨0, .in⟩), .hw (.sent ⟨0, .in⟩ 0)]

def onePoll : List Event := [.call (.poll [] [])]

theorem oneWrite_runs : (exec (step smallLayout) oneWrite (start smallLayout)).isSome = true := by
  decide

theorem onePoll_runs : (exec (step smallLayout) onePoll
    ((exec (step smallLayout) oneWrite (start smallLayout)).get oneWrite_runs)).isSome = true := by
  decide

theorem no_event_lost_oneWrite :
    let x := (exec (step smallLayout) oneWrite (start smallLayout)).get oneWrite_runs
    let y := (exec (step smallLayout) onePoll x).get onePoll_runs
    Counted y ∧ StaysLatched smallLayout onePoll x y ∧ ∀ h₁ h₂, Polls y.usbd h₁ h₂ :=
  no_event_lost smallLayout oneWrite onePoll _ _ (by decide)
    (Option.some_get oneWrite_runs).symm (Option.some_get onePoll_runs).symm

end UsbArmory.Usb.Reports
