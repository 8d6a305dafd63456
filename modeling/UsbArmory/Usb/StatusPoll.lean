import UsbArmory.Usb.StatusOut

/-!
# The STATUS OUT flags during a request

While a GET_DESCRIPTOR is answered the flags tell how far the answer is. What a
poll does to them, by the kinds of its result.
-/

set_option autoImplicit false

namespace UsbArmory.Usb.StatusPoll
open UsbArmory.Library.Bits UsbArmory.Usb.Descriptors
open UsbArmory.Usb.Controller UsbArmory.Usb.Bus UsbArmory.Usb.Endpoint UsbArmory.Usb.Effects
open UsbArmory.Usb.Poll UsbArmory.Usb.Read UsbArmory.Usb.Invariant UsbArmory.Usb.Runs
open UsbArmory.Usb.ResetSteps UsbArmory.Usb.Rest UsbArmory.Usb.RestCalls UsbArmory.Usb.StatusOut

variable {s t b : Usbd} {q : Request}

structure Describing (s : Usbd) (q : Request) : Prop where
  some_packet : 1 ≤ q.packets
  sent_le : q.sent ≤ q.written
  written_le : q.written ≤ q.packets
  one : q.written ≤ q.sent+1
  reports_le : q.reports ≤ 1
  reported : q.reports ≠ 0 → q.sent = q.packets
  rest : q.written = q.sent → AtRest s controlIn
  pre : s.inner.preStatusOut = if q.sent = 0 then 1 else 0
  status : s.inner.statusOut = if q.sent = 0 ∨ q.reports ≠ 0 then 0 else 1

def Quiet (s : Usbd) : Prop := s.inner.preStatusOut = 0 ∧ s.inner.statusOut = 0

def Flags (s : Usbd) : Option Request → Prop
  | none => Quiet s
  | some q => if q.describes then Describing s q else Quiet s

theorem flags_describing (h : Flags s (some q)) (hd : q.describes = true) : Describing s q := by
  rw [Flags, if_pos hd] at h
  exact h

theorem flags_due {o : Option Request} (h : Flags s o) (hne : s.inner.statusOut ≠ 0) :
    ∃ q ∈ o, q.describes = true ∧ Describing s q ∧ q.sent ≠ 0 ∧ q.reports = 0 := by
  cases o with
  | none => exact absurd h.2 hne
  | some q =>
    by_cases hd : q.describes = true
    · have hdescribing := flags_describing h hd
      have hdue : ¬(q.sent = 0 ∨ q.reports ≠ 0) := by
        intro hno
        rw [hdescribing.status, if_pos hno] at hne
        exact hne rfl
      obtain ⟨hsent, hreports⟩ := not_or.mp hdue
      exact ⟨q, rfl, hd, hdescribing, hsent, not_not.mp hreports⟩
    · rw [Flags, if_neg hd] at h
      exact absurd h.2 hne

theorem flags_congr {o : Option Request} (h : Flags s o)
    (hpre : t.inner.preStatusOut = s.inner.preStatusOut)
    (hstatus : t.inner.statusOut = s.inner.statusOut)
    (hrest : AtRest s controlIn → AtRest t controlIn) : Flags t o := by
  have hquiet : Quiet s → Quiet t := fun hq => ⟨hpre.trans hq.1, hstatus.trans hq.2⟩
  cases o with
  | none => exact hquiet h
  | some q =>
    by_cases hd : q.describes = true
    · rw [Flags, if_pos hd] at h ⊢
      exact { h with
        rest := fun heq => hrest (h.rest heq)
        pre := hpre.trans h.pre
        status := hstatus.trans h.status }
    · rw [Flags, if_neg hd] at h ⊢
      exact hquiet h

/-- The registers at the read of ENDPTCOMPLETE and the result of the poll. -/
structure Took (s b : Usbd) (seen : BitVec 16) (t : Usbd) (r : PollResult) : Prop where
  rests (ep : EndpointAddress) : ep.isValid = true → AtRest s ep → view b ep = view s ep
  fresh : Fresh (view b controlIn)
  good : Good Staged b
  pre : b.inner.preStatusOut = s.inner.preStatusOut
  status : b.inner.statusOut = s.inner.statusOut
  polled : Polled b seen t r

theorem took (hG : Good Staged s) (hF : Fresh (view s controlIn)) {h₁ h₂ : List HwEvent}
    {r : PollResult} (hn : ¬reportsReset s)
    (hc : Bus.poll s h₁ h₂ = .ok (t, r)) :
    Took s (atComplete s h₁ h₂) (seenSetup s h₁) t r := by
  rw [poll_handle hn] at hc
  have hinner : (atComplete s h₁ h₂).inner = s.inner := (atComplete_frame s h₁ h₂).inner
  have heff := atComplete_effect hG.single h₁ h₂
  have hgood : Good Staged (atComplete s h₁ h₂) :=
    good_effect kept_staged hG heff (by rw [hinner]; exact hG.noted)
  refine ⟨fun ep hv h => (still_rest hv h).atComplete h₁ h₂ rfl,
    (still_fresh rfl).atComplete h₁ h₂ hF, hgood, ?_, ?_,
    polled heff.single (by rw [hinner]; exact hG.noted) hc⟩
  · rw [hinner]
  · rw [hinner]

theorem one_bit (i : ℕ) : (1#16).getLsbD i = decide (i = 0) := by
  rw [BitVec.getLsbD_one]
  simp

variable {seen : BitVec 16} {r : PollResult}

abbrev completes (b : Usbd) : Bool := b.endptcomplete.getLsbD 16

theorem rest_incomplete (h : Took s b seen t r) {ep : EndpointAddress} (hv : ep.isValid = true)
    (hrest : AtRest s ep) : b.endptcomplete.getLsbD (endptBit ep) = false :=
  (hrest.congr (h.rests ep hv hrest)).complete

theorem rest_after (h : Took s b seen t r) (hcase : AtRest s controlIn ∨ completes b = true) :
    AtRest t controlIn := by
  rcases hcase with hrest | hdone
  · have hb := hrest.congr (h.rests controlIn rfl hrest)
    exact hb.congr (h.polled.view controlIn rfl (Or.inr hb.complete))
  · obtain ⟨hprime, hstat⟩ := h.polled.registers
    have hbefore : (view b controlIn).prime = false ∧ (view b controlIn).stat = false := by
      refine ⟨?_, complete_stat h.good rfl hdone⟩
      rw [← Bool.not_eq_true]
      exact fun hp => h.fresh hp (complete_current h.good rfl hdone)
    constructor
    · show t.endptprime.getLsbD (endptBit controlIn) = false
      rw [hprime]
      exact hbefore.1
    · show t.endptstat.getLsbD (endptBit controlIn) = false
      rw [hstat]
      exact hbefore.2
    · show t.endptcomplete.getLsbD 16 = false
      rw [h.polled.complete, decide_eq_false (by decide), Bool.and_false]

theorem getLsbD_flag (p : Prop) [Decidable p] (i : ℕ) :
    (if p then 1 else 0 : BitVec 16).getLsbD i = (decide p && decide (i = 0)) := by
  by_cases hp : p
  · rw [if_pos hp, decide_eq_true hp, Bool.true_and]
    exact one_bit i
  · rw [if_neg hp, decide_eq_false hp, Bool.false_and]
    exact BitVec.getLsbD_zero

theorem pre_after (h : Took s b seen t r) {p : Prop} [Decidable p]
    (hpre : s.inner.preStatusOut = if p then 1 else 0) :
    t.inner.preStatusOut = if p ∧ completes b = false then 1 else 0 := by
  apply BitVec.eq_of_getLsbD_eq
  intro i _
  rw [h.polled.pre, h.pre, hpre, getLsbD_flag, getLsbD_flag]
  by_cases hi : i = 0
  · subst hi
    show (decide p && true && !completes b) = (decide (p ∧ completes b = false) && true)
    cases completes b <;> simp
  · rw [decide_eq_false hi, Bool.and_false, Bool.and_false, Bool.false_and]

theorem status_after {p o : Prop} [Decidable p] [Decidable o]
    (hpre : b.inner.preStatusOut = if p then 1 else 0)
    (hstatus : b.inner.statusOut = if o then 0 else 1)
    (ht : ∀ i, t.inner.statusOut.getLsbD i = (b.inner.statusOut.getLsbD i ||
      (b.inner.preStatusOut.getLsbD i && b.endptcomplete.getLsbD (16 + i)))) :
    t.inner.statusOut = if o ∧ ¬(p ∧ completes b = true) then 0 else 1 := by
  rw [← ite_not] at hstatus ⊢
  apply BitVec.eq_of_getLsbD_eq
  intro i _
  rw [ht, hpre, hstatus, getLsbD_flag, getLsbD_flag, getLsbD_flag]
  by_cases hi : i = 0
  · subst hi
    show (decide (¬o) && true || decide p && true && completes b) = _
    cases completes b <;> by_cases hp : p <;> by_cases ho : o <;> simp [hp, ho]
  · simp only [decide_eq_false hi, Bool.and_false, Bool.false_and, Bool.or_false]

/-- The request after the monitor has seen what a poll returns. -/
def after (q : Request) : PollResult → Request
  | .data epOut epInComplete _ => q.polled epOut epInComplete
  | _ => q

theorem describing_in_flight (h : Took s b seen t r) (hd : Describing s q)
    (hc : completes b = true) : q.sent < q.written := by
  refine Nat.lt_of_le_of_ne hd.sent_le fun heq => ?_
  cases hc.symm.trans (rest_incomplete h rfl (hd.rest heq.symm))

theorem describing_none (h : Took s b seen t .none) (hd : Describing s q)
    (hcomplete : b.endptcomplete = 0) (hb : b.inner.statusOut = 0) (ht : t.inner.statusOut = 0) :
    Describing t q := by
  have hc : completes b = false := by
    rw [completes, hcomplete]
    exact BitVec.getLsbD_zero
  have hpre := pre_after h hd.pre
  exact { hd with
    rest := fun heq => rest_after h (.inl (hd.rest heq))
    pre := by simpa only [hc, and_true] using hpre
    status := by rw [ht, ← hd.status, ← h.status, hb] }

theorem describing_statusOut (h : Took s b seen t (.data b.inner.statusOut 0 seen))
    (hd : Describing s q) (hb : b.inner.statusOut ≠ 0) (ht : t.inner.statusOut = 0)
    (hlast : ¬q.sent < q.packets) :
    Describing t (q.polled b.inner.statusOut 0) := by
  have hdue : ¬(q.sent = 0 ∨ q.reports ≠ 0) := by
    intro hno
    rw [h.status, hd.status, if_pos hno] at hb
    exact hb rfl
  have hone : b.inner.statusOut = 1 := by rw [h.status, hd.status, if_neg hdue]
  obtain ⟨hsent, hreports⟩ := not_or.mp hdue
  have hpolled : q.polled b.inner.statusOut 0 = { q with reports := 1 } := by
    have hzero : q.reports = 0 := by simpa using hreports
    rw [hone]
    simp [Request.polled, hzero]
  have hle := hd.sent_le
  have hwritten := hd.written_le
  have hpre := pre_after h hd.pre
  rw [hpolled]
  exact { hd with
    reports_le := Nat.le_refl 1
    reported := fun _ => by
      show q.sent = q.packets
      omega
    rest := fun heq => rest_after h (.inl (hd.rest heq))
    pre := by
      rw [hpre, if_neg fun hz => hsent hz.1, if_neg hsent]
    status := by
      rw [ht]
      exact (if_pos (.inr one_ne_zero)).symm }

theorem describing_data {epOut epInComplete : BitVec 16}
    (h : Took s b seen t (.data epOut epInComplete seen)) (hd : Describing s q)
    (hnone : b.endptcomplete.getLsbD 0 = false)
    (hin : ∀ i, epInComplete.getLsbD i = b.endptcomplete.getLsbD (16 + i))
    (hout : ∀ i < 16, epOut.getLsbD i = b.endptcomplete.getLsbD i)
    (ht : ∀ i, t.inner.statusOut.getLsbD i = (b.inner.statusOut.getLsbD i ||
      (b.inner.preStatusOut.getLsbD i && b.endptcomplete.getLsbD (16 + i)))) :
    Describing t (q.polled epOut epInComplete) := by
  have hreport : epOut.getLsbD 0 = false := (hout 0 (by decide)).trans hnone
  have hbit : epInComplete.getLsbD 0 = completes b := hin 0
  have hpre := pre_after h hd.pre
  have hstatus := status_after (h.pre.trans hd.pre) (h.status.trans hd.status) ht
  cases hc : completes b with
  | false =>
    have hsame : q.polled epOut epInComplete = q := by
      rw [Request.polled, hreport, hbit, hc]
      simp
    rw [hc] at hpre hstatus
    rw [hsame]
    exact { hd with
      rest := fun heq => rest_after h (.inl (hd.rest heq))
      pre := by simpa using hpre
      status := by simpa using hstatus }
  | true =>
    have hlt := describing_in_flight h hd hc
    have hone := hd.one
    have hwritten := hd.written_le
    have hzero : q.reports = 0 := by
      by_contra hne
      have hsent := hd.reported hne
      omega
    have hnext : q.polled epOut epInComplete = { q with sent := q.sent + 1, reports := 0 } := by
      rw [Request.polled, hreport, hbit, hc]
      simp [hlt, hzero]
    rw [hc] at hpre hstatus
    rw [hnext]
    exact {
      some_packet := hd.some_packet
      sent_le := hlt
      written_le := hwritten
      one := by
        show q.written ≤ q.sent + 1 + 1
        omega
      reports_le := Nat.zero_le 1
      reported := fun hne => absurd rfl hne
      rest := fun _ => rest_after h (.inr hc)
      pre := by simpa using hpre
      status := by simpa [hzero] using hstatus }

/-- A poll that does not report a bus reset keeps the flags in step with the
request. -/
theorem describing_poll (h : Took s b seen t r) (hd : Describing s q)
    (hnone : b.endptcomplete.getLsbD 0 = false)
    (hstep : s.inner.statusOut ≠ 0 → q.sent < q.packets →
      ∃ i, b.endptcomplete.getLsbD (16 + i) = true) :
    Describing t (after q r) := by
  cases h.polled.result with
  | none _ hcomplete hb ht => exact describing_none h hd hcomplete hb ht
  | statusOut hb ht hin =>
    refine describing_statusOut h hd hb ht fun hlt => ?_
    obtain ⟨i, hi⟩ := hstep (by rw [← h.status]; exact hb) hlt
    cases hi.symm.trans (hin i)
  | data _ _ _ hin hout _ ht => exact describing_data h hd hnone hin hout ht

theorem quiet_poll (h : Took s b seen t r) (hq : Quiet s) : Quiet t := by
  have hb : b.inner.statusOut = 0 := h.status.trans hq.2
  constructor
  · have hpre := pre_after (p := False) h hq.1
    simpa using hpre
  · cases h.polled.result with
    | none _ _ _ ht => exact ht
    | statusOut hne => exact absurd hb hne
    | data _ _ _ _ _ _ ht =>
      have hstatus := status_after (p := False) (o := True) (h.pre.trans hq.1) hb ht
      simpa using hstatus

end UsbArmory.Usb.StatusPoll
