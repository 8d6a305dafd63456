import UsbArmory.Usb.Events
import UsbArmory.Usb.InFlight

/-!
# When a transfer is not disturbed

A transfer is in flight from the write that was accepted to its `end_write`.
As long as no bit of an IN endpoint is set again in ENDPTPRIME that the
controller has just cleared, the writes that come meanwhile are refused, and
every transfer carries its own bytes, if and only if no write comes before the
controller has fetched the descriptor of the one before.
-/

set_option autoImplicit false

namespace UsbArmory.Usb.Undisturbed
open UsbArmory.Library.Bits UsbArmory.Library.Run UsbArmory.Usb.Descriptors
open UsbArmory.Usb.Controller UsbArmory.Usb.Bus UsbArmory.Usb.Endpoint UsbArmory.Usb.Effects
open UsbArmory.Usb.EndWrite UsbArmory.Usb.Write UsbArmory.Usb.Configure UsbArmory.Usb.Runs
open UsbArmory.Usb.Invariant UsbArmory.Usb.Rest
open UsbArmory.Usb.Memory UsbArmory.Usb.Transfer UsbArmory.Usb.Delivery UsbArmory.Usb.Accepted
open UsbArmory.Usb.InFlight UsbArmory.Usb.Events

variable {l : Layout} {s t : Usbd} {ep : EndpointAddress} {bytes : List UInt8} {x y : Session}
variable {gap : List HwEvent}

def acceptedBy (ep : EndpointAddress) : Call × Response → Option (List UInt8)
  | (.startWrite ep' bytes _, .written (.ok _)) => if ep' = ep then some bytes else none
  | _ => none

/-- The bytes of the writes on this endpoint that have returned `Ok`. -/
def accepted (ep : EndpointAddress) (log : List (Call × Response)) : List (List UInt8) :=
  log.filterMap (acceptedBy ep)

/-- A write has been accepted that `end_write` has not dealt with. -/
def InFlight (x : Session) (ep : EndpointAddress) : Prop :=
  x.usbd.ended (epaddr2dqhidx ep) < (accepted ep x.log).length

/-- A write while a transfer is in flight is refused and changes nothing. -/
def Refused (x : Session) : Event → Prop
  | .call (.startWrite ep bytes gap) => InFlight x ep →
      Bus.startWrite x.usbd ep bytes gap = .ok (x.usbd, .error .wouldBlock)
  | _ => True

/-- Every transfer that has been completed carries the bytes of its write, and
at most one write is ahead of them. -/
def Carried (x : Session) : Prop := ∀ ep, ep.isValid = true → ep.isOut = false →
  x.usbd.transfers (epaddr2dqhidx ep) <+: accepted ep x.log ∧
  (accepted ep x.log).length ≤ (x.usbd.transfers (epaddr2dqhidx ep)).length + 1

/-- A write comes when the endpoint is not primed, and is of legal length if
it comes before the end of the transfer. -/
def Spaced (x : Session) : Event → Prop
  | .call (.startWrite ep bytes _) => ep.isValid = true →
      x.usbd.endptprime.getLsbD (endptBit ep) = false ∧
      ((x.usbd.dqhs (epaddr2dqhidx ep)).getCurrentDtd.isSome = true →
        bytes.length ≤ (x.usbd.dqhs (epaddr2dqhidx ep)).getMaxPacketSize)
  | _ => True

/-- No write of ENDPTPRIME sets the bit of an IN endpoint again that the controller has cleared
since the register was read. -/
def NoneRenewed (x : Session) : Event → Prop
  | .call c => ∀ ep, ep.isValid = true → ep.isOut = false → Unrenewed ep x.usbd c
  | _ => True

structure Delivering (l : Layout) (x : Session) : Prop where
  tidy : Tidy l x.usbd
  rest : AtRest x.usbd controlOut
  valid : ∀ ep, accepted ep x.log ≠ [] → ep.isValid = true
  carries : ∀ ep, ep.isValid = true → ep.isOut = false →
    Carries x.usbd ep (accepted ep x.log)

theorem accepted_append (ep : EndpointAddress) (log : List (Call × Response)) (c : Call)
    (r : Response) : accepted ep (log ++ [(c, r)]) =
      accepted ep log ++ (acceptedBy ep (c, r)).toList := by
  unfold accepted
  rw [List.filterMap_append]
  cases h : acceptedBy ep (c, r) <;> simp [h]

theorem Delivering.ready (h : Delivering l x) : Ready x.usbd := ⟨h.tidy.ready, h.rest⟩

theorem Delivering.stable (h : Delivering l x) : Stable x.usbd := h.ready.stable kept_phase

theorem delivering_onward {c : Call} {r : Response} (h : Delivering l x)
    (ho : Onward l x.usbd y.usbd) (hrest : AtRest y.usbd controlOut)
    (hlog : y.log = x.log ++ [(c, r)]) (hno : ∀ ep, acceptedBy ep (c, r) = none) :
    Delivering l y := by
  have hsame : ∀ ep, accepted ep y.log = accepted ep x.log := by
    intro ep
    rw [hlog, accepted_append, hno]
    exact List.append_nil _
  refine ⟨ho.tidy, hrest, fun ep hne => ?_, fun ep hv hin => ?_⟩
  · rw [hsame] at hne
    exact h.valid ep hne
  · rw [hsame]
    exact ho.carries ep _ hv hin (h.carries ep hv hin)

theorem delivering_write (h : Delivering l x) {n : ℕ} (hin : ep.isOut = false)
    (hidle : (view x.usbd ep).prime = false) (hgap : InsUnfetched x.usbd gap)
    (ha : Write.Accepted x.usbd ep bytes gap y.usbd) (hrest : AtRest y.usbd controlOut)
    (hlog : y.log = x.log ++ [(.startWrite ep bytes gap, .written (.ok n))]) : Delivering l y := by
  have hgives := accepted_gives h.tidy h.stable hin hidle hgap ha
  have hlogself : accepted ep y.log = accepted ep x.log ++ [bytes] := by
    rw [hlog, accepted_append]
    simp [acceptedBy]
  have hlogother : ∀ ep', ep' ≠ ep → accepted ep' y.log = accepted ep' x.log := by
    intro ep' hne
    rw [hlog, accepted_append]
    simp [acceptedBy, Ne.symm hne]
  refine ⟨hgives.tidy, hrest, fun ep' hne => ?_, fun ep' hv' hin' => ?_⟩
  · by_cases he : ep' = ep
    · rw [he]
      exact ha.valid
    · rw [hlogother ep' he] at hne
      exact h.valid ep' hne
  · by_cases he : ep' = ep
    · subst ep'
      rw [hlogself]
      exact hgives.self _ (h.carries ep hv' hin')
    · rw [hlogother ep' he]
      exact hgives.others ep' hv' hin' he _ (h.carries ep' hv' hin')

theorem onward_call {c : Call} {r : Response} (h : Delivering l x) (ha : Allowed l c)
    (hr : c.isReset = false) (hgap : NoneRenewed x (.call c))
    (hno : ∀ ep bytes gap, c ≠ .startWrite ep bytes gap)
    (hc : call x.usbd c = .ok (t, r)) : Onward l x.usbd t := by
  cases c with
  | allocEp dir addr ty n =>
    obtain ⟨p, hp, heq⟩ := map_ok hc
    cases heq
    rcases allocEp_ok hp with ⟨ht, -⟩ | ⟨ep, hep, -⟩
    · rw [ht]
      exact Onward.refl h.tidy
    · exact onward_allocated h.tidy hep
  | enable =>
    cases hc
    exact onward_enable h.tidy
  | setDeviceAddress addr gaps =>
    cases hc
    exact onward_setDeviceAddress h.tidy h.stable addr fun y hy hdata ep hv hin =>
      hgap ep hv hin y hy hdata
  | reset wait => cases hr
  | poll h₁ h₂ =>
    obtain ⟨p, hp, heq⟩ := map_ok hc
    cases heq
    exact onward_poll h.tidy hp
  | read ep buf hw =>
    obtain ⟨p, hp, heq⟩ := map_ok hc
    cases heq
    exact onward_read h.tidy h.stable ha.1 ha.2 (fun htakes ep' hv hin => hgap ep' hv hin htakes) hp
  | startWrite ep bytes gap => exact absurd rfl (hno ep bytes gap)

theorem call_startWrite {r : Response} (hc : call s (.startWrite ep bytes gap) = .ok (t, r)) :
    ∃ w, r = .written w ∧ Bus.startWrite s ep bytes gap = .ok (t, w) := by
  obtain ⟨p, hp, heq⟩ := map_ok hc
  cases heq
  exact ⟨p.2, rfl, hp⟩

theorem acceptedBy_other {c : Call} (hno : ∀ ep bytes gap, c ≠ .startWrite ep bytes gap)
    (r : Response) (ep : EndpointAddress) : acceptedBy ep (c, r) = none := by
  cases c with
  | startWrite ep' bytes gap => exact absurd rfl (hno ep' bytes gap)
  | _ => rfl

theorem delivering_step {e : Event} (h : Delivering l x) (hr : e.isReset = false)
    (hgap : NoneRenewed x e) (hsp : Spaced x e) (hs : step l x e = some y) : Delivering l y := by
  have hrest : AtRest y.usbd controlOut := (ready_step h.ready hr hs).rest
  cases e with
  | hw e =>
    obtain ⟨hstep, hlog⟩ := step_hw hs
    have ho := onward_hwStep h.tidy e hstep
    refine ⟨ho.tidy, hrest, fun ep hne => ?_, fun ep hv hin => ?_⟩
    · rw [hlog] at hne
      exact h.valid ep hne
    · rw [hlog]
      exact ho.carries ep _ hv hin (h.carries ep hv hin)
  | call c =>
    obtain ⟨ha, r, hc, hlog⟩ := step_call hs
    by_cases hw : ∃ ep bytes gap, c = .startWrite ep bytes gap
    · obtain ⟨ep, bytes, gap, rfl⟩ := hw
      obtain ⟨w, rfl, hwrite⟩ := call_startWrite hc
      rcases startWrite_ok hwrite with ⟨ht, e, rfl⟩ | ⟨hacc, rfl⟩
      · apply delivering_onward h ?_ hrest hlog fun _ => rfl
        rw [ht]
        exact Onward.refl h.tidy
      · have hins : InsUnfetched x.usbd gap := fun ep' hv hin =>
          hgap ep' hv hin hacc.fits hacc.free
        exact delivering_write h ha (hsp hacc.valid).1 hins hacc hrest hlog
    · have hno : ∀ ep bytes gap, c ≠ .startWrite ep bytes gap := fun ep bytes gap he =>
        hw ⟨ep, bytes, gap, he⟩
      exact delivering_onward h (onward_call h ha hr hgap hno hc) hrest hlog
        (acceptedBy_other hno r)

theorem inFlight_iff (h : Delivering l x) (hv : ep.isValid = true) (hin : ep.isOut = false) :
    InFlight x ep ↔ (view x.usbd ep).prime = true ∨ (view x.usbd ep).stat = true ∨
      (view x.usbd ep).complete = true := by
  have hc := h.carries ep hv hin
  have hcount : (x.usbd.transfers (epaddr2dqhidx ep)).length =
      x.usbd.ended (epaddr2dqhidx ep) + (view x.usbd ep).complete.toNat := ready_count h.ready hv
  unfold InFlight
  cases hp : (view x.usbd ep).prime with
  | true =>
    obtain ⟨bytes, hacc, -⟩ := hc.primed hp
    rw [hacc]
    simp
    omega
  | false =>
    cases hst : (view x.usbd ep).stat with
    | true =>
      obtain ⟨bytes, hacc, -⟩ := hc.loaded hst
      rw [hacc]
      simp
      omega
    | false =>
      rw [hc.idle hp hst, hcount]
      cases (view x.usbd ep).complete <;> simp

theorem carried (h : Delivering l x) : Carried x := by
  intro ep hv hin
  have hc := h.carries ep hv hin
  cases hp : (view x.usbd ep).prime with
  | true =>
    obtain ⟨bytes, hacc, -⟩ := hc.primed hp
    rw [hacc]
    exact ⟨List.prefix_append _ _, by simp⟩
  | false =>
    cases hst : (view x.usbd ep).stat with
    | true =>
      obtain ⟨bytes, hacc, -⟩ := hc.loaded hst
      rw [hacc]
      exact ⟨List.prefix_append _ _, by simp⟩
    | false =>
      rw [hc.idle hp hst]
      exact ⟨List.prefix_rfl, Nat.le_succ _⟩

theorem wouldBlock_current (h : Bus.startWrite s ep bytes gap = .ok (s, .error .wouldBlock)) :
    bytes.length ≤ (s.dqhs (epaddr2dqhidx ep)).getMaxPacketSize ∧
      (s.dqhs (epaddr2dqhidx ep)).getCurrentDtd.isSome = true := by
  unfold Bus.startWrite at h
  split at h
  next => cases h
  next q hq =>
    obtain ⟨rfl, -⟩ := getDqh_ok hq
    simp only at h
    split at h
    next => cases h
    next hfits =>
      split at h
      next hcur => exact ⟨Nat.le_of_not_lt hfits, hcur⟩
      next =>
        obtain ⟨d, -, h⟩ := bind_ok h
        obtain ⟨p, -, h⟩ := bind_ok h
        obtain ⟨a, u⟩ := p
        obtain ⟨token, -, h⟩ := bind_ok h
        cases h

theorem fetched_current (h : Delivering l x) (hv : ep.isValid = true)
    (hst : (view x.usbd ep).stat = true ∨ (view x.usbd ep).complete = true) :
    (view x.usbd ep).current % 32 = 0 := by
  have hu : isEpBeingUsed x.usbd ep = true := by
    by_contra hu
    rw [h.tidy.ready.free ep hv ((Bool.not_eq_true _).mp hu)] at hst
    rcases hst with hst | hst <;> cases hst
  obtain ⟨d, hd, -, hph⟩ := h.tidy.ready.held ep hu
  generalize view x.usbd ep = v at hst hph ⊢
  cases hph with
  | idle n => rcases hst with hst | hst <;> cases hst
  | primed n => rcases hst with hst | hst <;> cases hst
  | loaded n p hr => exact hd
  | done n p hr => exact hd

theorem current_inFlight (h : Delivering l x) (hv : ep.isValid = true) (hin : ep.isOut = false)
    (hcur : (x.usbd.dqhs (epaddr2dqhidx ep)).getCurrentDtd.isSome = true) :
    InFlight x ep ∧ (view x.usbd ep).prime = false := by
  have hcur' : (view x.usbd ep).current ≠ noNextDtd := by
    intro hnone
    rw [getCurrentDtd_noNextDtd _ hnone] at hcur
    cases hcur
  have hu : isEpBeingUsed x.usbd ep = true := by
    by_contra hu
    rw [h.tidy.ready.free ep hv ((Bool.not_eq_true _).mp hu)] at hcur'
    exact hcur' rfl
  obtain ⟨d, hd, -, hph⟩ := h.tidy.ready.held ep hu
  have honce := h.tidy.once ep hv hin
  rw [inFlight_iff h hv hin]
  generalize view x.usbd ep = v at hcur' hph honce ⊢
  cases hph with
  | idle n => exact absurd rfl hcur'
  | primed n => exact absurd rfl hcur'
  | loaded n p hr =>
    refine ⟨Or.inr (Or.inl rfl), ?_⟩
    cases p with
    | false => rfl
    | true => cases (honce rfl).1
  | done n p hr =>
    refine ⟨Or.inr (Or.inr rfl), ?_⟩
    cases p with
    | false => rfl
    | true => cases (honce rfl).2

/-- Where the invariant holds, the guard of `start_write` refuses the write if
and only if the write is spaced. -/
theorem refused_iff_spaced {e : Event} (h : Delivering l x) (hs : step l x e = some y) :
    Refused x e ↔ Spaced x e := by
  cases e with
  | hw e => exact Iff.rfl
  | call c =>
    by_cases hw : ∃ ep bytes gap, c = .startWrite ep bytes gap
    · obtain ⟨ep, bytes, gap, rfl⟩ := hw
      have hin : ep.isOut = false := (step_call hs).1
      constructor
      · intro hr hv
        have hprime : (view x.usbd ep).prime = false := by
          by_contra hp
          have hfly := (inFlight_iff h hv hin).mpr (Or.inl ((Bool.not_eq_false _).mp hp))
          obtain ⟨-, hcur⟩ := wouldBlock_current (hr hfly)
          rw [(current_inFlight h hv hin hcur).2] at hp
          exact hp rfl
        refine ⟨hprime, fun hcur => ?_⟩
        exact (wouldBlock_current (hr (current_inFlight h hv hin hcur).1)).1
      · intro hsp hfly
        have hv : ep.isValid = true := by
          apply h.valid ep
          intro hnil
          unfold InFlight at hfly
          rw [hnil] at hfly
          exact absurd hfly (Nat.not_lt_zero _)
        obtain ⟨hprime, hfits⟩ := hsp hv
        have hprime' : (view x.usbd ep).prime = false := hprime
        have hst := (inFlight_iff h hv hin).mp hfly
        rw [hprime'] at hst
        have hcur := fetched_current h hv (hst.resolve_left (by simp))
        apply startWrite_busy hv ?_ hcur
        apply hfits
        rw [getCurrentDtd_of_aligned _ hcur]
        rfl
    · cases c with
      | startWrite ep bytes gap => exact absurd ⟨ep, bytes, gap, rfl⟩ hw
      | _ => exact Iff.rfl

theorem delivering_start (l : Layout) : Delivering l (start l) := by
  have hfree : ∀ ep, isEpBeingUsed (start l).usbd ep = false := by
    intro ep
    simp [isEpBeingUsed, start, Layout.start]
  have hblank : ∀ ep, ep.isValid = true → view (start l).usbd ep = blank := fun ep hv =>
    (good_start (fun ep => Phase (reprimes ep)) l).free ep hv (hfree ep)
  refine ⟨⟨good_start _ l, fun ep hv _ hp => ?_, ⟨⟨?_, ?_, ?_, ?_⟩, fun ep hv hout =>
    ⟨?_, ?_, ?_⟩⟩⟩, (steady_start (fun _ d v => Slot d v) l).rest, ?_, ?_⟩
  · rw [hblank ep hv] at hp
    cases hp
  · show (l.b64s.reverse ++ l.b512s.reverse).Nodup
    have hnodup := List.nodup_append.mp l.buffers_nodup
    apply List.nodup_append.mpr
    refine ⟨List.nodup_reverse.mpr hnodup.1, List.nodup_reverse.mpr hnodup.2.1, ?_⟩
    intro a ha b hb
    exact hnodup.2.2 a (List.mem_reverse.mp ha) b (List.mem_reverse.mp hb)
  · intro a ha
    have ha' : a ∈ l.b64s.reverse ++ l.b512s.reverse := ha
    simpa using ha'
  · intro ep a _ ha
    cases ha
  · intro ep ep' a _ _ ha
    cases ha
  · intro a ha
    cases ha
  · intro hst
    rw [hblank ep hv] at hst
    cases hst
  · intro _ hu
    rw [hfree] at hu
    cases hu
  · intro ep hne
    exact absurd rfl hne
  · intro ep hv _
    refine ⟨fun _ _ => rfl, fun hp => ?_, fun hst => ?_⟩
    · rw [hblank ep hv] at hp
      cases hp
    · rw [hblank ep hv] at hst
      cases hst

/-- In a run without a bus reset in which no bit is set again, every write in flight is left alone,
and the transfers carry the bytes of the accepted writes, if and only if no write comes while the
endpoint is still primed. -/
theorem undisturbed_iff (l : Layout) (es : List Event) (x : Session)
    (hr : ∀ e ∈ es, e.isReset = false) (hgap : Along (step l) NoneRenewed es (start l))
    (hx : exec (step l) es (start l) = some x) :
    (Along (step l) Refused es (start l) ∧ Carried x) ↔ Along (step l) Spaced es (start l) := by
  have hquiet : Along (step l) (fun z e => e.isReset = false ∧ NoneRenewed z e) es (start l) :=
    along_and es _ (along_of_forall hr (start l)) hgap
  have hiff : Along (step l) (fun z e => (e.isReset = false ∧ NoneRenewed z e) ∧ Refused z e) es
      (start l) ↔
      Along (step l) (fun z e => (e.isReset = false ∧ NoneRenewed z e) ∧ Spaced z e) es
        (start l) := by
    apply along_iff (I := Delivering l) ?_ ?_ es (delivering_start l) hx
    · intro z e w hz he hw
      exact delivering_step hz he.1.1 he.1.2 ((refused_iff_spaced hz hw).mp he.2) hw
    · intro z e w hz hw
      rw [refused_iff_spaced hz hw]
  constructor
  · intro h
    exact along_mono (fun _ _ h => h.2) es _ (hiff.mp (along_and es _ hquiet h.1))
  · intro h
    have hboth := along_and es _ hquiet h
    refine ⟨along_mono (fun _ _ h => h.2) es _ (hiff.mpr hboth), carried (l := l) ?_⟩
    exact exec_invariant_along (I := Delivering l)
      (fun z e w hz he hw => delivering_step hz he.1.1 he.1.2 he.2 hw) es (delivering_start l) hboth
      hx

/-- A second write waits until the first one has been sent. -/
def twoWrites : List Event :=
  [.call (.allocEp .in (some ⟨0, .in⟩) .control 64), .call (.startWrite ⟨0, .in⟩ [1, 2, 3] []),
    .hw (.fetch ⟨0, .in⟩), .call (.startWrite ⟨0, .in⟩ [4, 5] []), .hw (.load ⟨0, .in⟩),
    .hw (.sent ⟨0, .in⟩ 0), .call (.poll [] []),
    .call (.startWrite ⟨0, .in⟩ [4, 5] [.setup 0 [0, 5, 1, 0, 0, 0, 0, 0]])]

theorem twoWrites_runs : (exec (step smallLayout) twoWrites (start smallLayout)).isSome = true := by
  decide

theorem twoWrites_unrenewed :
    Along (step smallLayout) NoneRenewed twoWrites (start smallLayout) := by
  have hall : ∀ e ∈ twoWrites, ∀ x, NoneRenewed x e := by
    simp [twoWrites, NoneRenewed, Unrenewed, Unfetched]
  exact along_mono (fun x _ h => h x) _ _ (along_of_forall hall _)

instance (x : Session) : (e : Event) → Decidable (Spaced x e)
  | .call (.startWrite ep bytes _) => inferInstanceAs (Decidable (ep.isValid = true →
      x.usbd.endptprime.getLsbD (endptBit ep) = false ∧
      ((x.usbd.dqhs (epaddr2dqhidx ep)).getCurrentDtd.isSome = true →
        bytes.length ≤ (x.usbd.dqhs (epaddr2dqhidx ep)).getMaxPacketSize)))
  | .hw _ => isTrue trivial
  | .call (.allocEp _ _ _ _) => isTrue trivial
  | .call .enable => isTrue trivial
  | .call (.setDeviceAddress _ _) => isTrue trivial
  | .call (.reset _) => isTrue trivial
  | .call (.poll _ _) => isTrue trivial
  | .call (.read _ _ _) => isTrue trivial

/-- The condition is met by both writes. -/
theorem undisturbed_iff_twoWrites : Along (step smallLayout) Spaced twoWrites (start smallLayout) ∧
    Along (step smallLayout) Refused twoWrites (start smallLayout) ∧
    Carried ((exec (step smallLayout) twoWrites (start smallLayout)).get twoWrites_runs) := by
  have hspaced : Along (step smallLayout) Spaced twoWrites (start smallLayout) := by decide
  exact ⟨hspaced, (undisturbed_iff smallLayout twoWrites _ (by decide) twoWrites_unrenewed
    (Option.some_get twoWrites_runs).symm).mpr hspaced⟩

/-- The second write comes before the controller has fetched the descriptor. -/
def earlyWrite : List Event :=
  [.call (.allocEp .in (some ⟨0, .in⟩) .control 64), .call (.startWrite ⟨0, .in⟩ [1, 2, 3] []),
    .call (.startWrite ⟨0, .in⟩ [4, 5] []), .hw (.fetch ⟨0, .in⟩), .hw (.load ⟨0, .in⟩),
    .hw (.sent ⟨0, .in⟩ 0)]

theorem earlyWrite_runs :
    (exec (step smallLayout) earlyWrite (start smallLayout)).isSome = true := by
  decide

/-- The bit of endpoint 0 is cleared while a write of endpoint 1 is primed, and set again. -/
def staleWrite : List Event :=
  [.call (.allocEp .in (some ⟨0, .in⟩) .control 64),
    .call (.allocEp .in (some ⟨1, .in⟩) .bulk 64), .call (.startWrite ⟨0, .in⟩ [1, 2, 3] []),
    .call (.startWrite ⟨1, .in⟩ [4, 5] [.fetch ⟨0, .in⟩]), .hw (.load ⟨0, .in⟩),
    .hw (.sent ⟨0, .in⟩ 0), .call (.poll [] []), .hw (.fetch ⟨0, .in⟩), .hw (.load ⟨0, .in⟩),
    .hw (.sent ⟨0, .in⟩ 0)]

theorem staleWrite_runs :
    (exec (step smallLayout) staleWrite (start smallLayout)).isSome = true := by
  decide

/-- In the first run both writes have returned `Ok` and the first one is never sent; in the second
endpoint 0 makes two transfers for one write. -/
theorem early_and_stale :
    ((∀ e ∈ earlyWrite, e.isReset = false) ∧
      let x := (exec (step smallLayout) earlyWrite (start smallLayout)).get earlyWrite_runs
      accepted ⟨0, .in⟩ x.log = [[1, 2, 3], [4, 5]] ∧
        x.usbd.transfers (epaddr2dqhidx ⟨0, .in⟩) = [[4, 5]] ∧ ¬Carried x) ∧
    (∀ e ∈ staleWrite, e.isReset = false) ∧
      let x := (exec (step smallLayout) staleWrite (start smallLayout)).get staleWrite_runs
      accepted ⟨0, .in⟩ x.log = [[1, 2, 3]] ∧
        x.usbd.transfers (epaddr2dqhidx ⟨0, .in⟩) = [[1, 2, 3], []] ∧ ¬Carried x := by
  refine ⟨⟨by decide, by decide, by decide, fun h => ?_⟩, by decide, by decide, by decide,
    fun h => ?_⟩
  · exact absurd (h ⟨0, .in⟩ rfl rfl).1 (by decide)
  · exact absurd (h ⟨0, .in⟩ rfl rfl).1 (by decide)

end UsbArmory.Usb.Undisturbed
