import UsbArmory.Usb.Configure
import UsbArmory.Usb.Runs

/-!
# What holds between two calls

Every allocated endpoint has one descriptor of its own, in a phase `P` that
the moves keep, and the others have none. Two instances are used: without bus
resets the descriptor goes through the phases of a transfer, with them it is
at least current or next. No call returns with the OUT half of endpoint 0 at
work.
-/

set_option autoImplicit false

namespace UsbArmory.Usb.Invariant
open UsbArmory.Library.Bits UsbArmory.Library.Run UsbArmory.Usb.Descriptors
open UsbArmory.Usb.Controller UsbArmory.Usb.Bus UsbArmory.Usb.Endpoint UsbArmory.Usb.Effects
open UsbArmory.Usb.Write UsbArmory.Usb.Poll UsbArmory.Usb.Read UsbArmory.Usb.ReadFrame
open UsbArmory.Usb.Configure UsbArmory.Usb.Runs Relation

variable {P : EndpointAddress → ℕ → View → Prop} {s t : Usbd} {ep : EndpointAddress}

structure Kept (P : EndpointAddress → ℕ → View → Prop) : Prop where
  slot : ∀ {ep d v}, P ep d v → Slot d v
  move : ∀ {free ep d v v'}, d % 32 = 0 → P ep d v → Move free ep v v' → P ep d v'
  fresh : ∀ ep d, P ep d ⟨noNextDtd, d, false, false, false, 0, 0⟩

structure Good (P : EndpointAddress → ℕ → View → Prop) (s : Usbd) : Prop where
  single : Single s
  aligned : ∀ d ∈ s.inner.dtds, d % 32 = 0
  nodup : s.inner.dtds.Nodup
  valid : ∀ ep, isEpBeingUsed s ep = true → ep.isValid = true
  held : ∀ ep, isEpBeingUsed s ep = true →
    ∃ d, d % 32 = 0 ∧ d ∉ s.inner.dtds ∧ P ep d (view s ep)
  own : ∀ ep ep' d, d % 32 = 0 → isEpBeingUsed s ep = true → isEpBeingUsed s ep' = true →
    Slot d (view s ep) → Slot d (view s ep') → ep = ep'
  free : ∀ ep, ep.isValid = true → isEpBeingUsed s ep = false → view s ep = blank
  bits : ∀ j, s.endptcomplete.getLsbD j = true → ∃ ep, ep.isValid = true ∧ endptBit ep = j
  noted : s.inner.epInComplete = none

theorem kept_moves (hP : Kept P) {free : Bool} {d : ℕ} (hd : d % 32 = 0) {v v' : View}
    (h : P ep d v) (hm : ReflTransGen (Move free ep) v v') : P ep d v' := by
  induction hm with
  | refl => exact h
  | tail _ hm ih => exact hP.move hd ih hm

theorem isEpBeingUsed_iff (s : Usbd) (ep : EndpointAddress) :
    isEpBeingUsed s ep = true ↔ s.inner.usedDqhs.getLsbD (epaddr2dqhidx ep) = true := by
  unfold isEpBeingUsed
  rw [decide_eq_true_iff, and_mask_ne_zero]

theorem isEpBeingUsed_congr (h : t.inner.usedDqhs = s.inner.usedDqhs) (ep : EndpointAddress) :
    isEpBeingUsed t ep = isEpBeingUsed s ep := by
  unfold isEpBeingUsed
  rw [h]

theorem Good.slot_back (hP : Kept P) (h : Good P s) {free : Bool} (he : Effect free s t) {d : ℕ}
    (hd : d % 32 = 0) (hu : isEpBeingUsed s ep = true) (hs : Slot d (view t ep)) :
    Slot d (view s ep) := by
  obtain ⟨d', hd', -, hp⟩ := h.held ep hu
  have hslot := slot_moves hd' (hP.slot hp) (he.moves ep (h.valid ep hu))
  rw [slot_unique hd hd' hs hslot]
  exact hP.slot hp

theorem good_effect (hP : Kept P) (h : Good P s) {free : Bool} (he : Effect free s t)
    (hn : t.inner.epInComplete = none) : Good P t := by
  have hused := isEpBeingUsed_congr he.used
  constructor
  · exact he.single
  · rw [he.dtds]
    exact h.aligned
  · rw [he.dtds]
    exact h.nodup
  · intro ep hu
    rw [hused] at hu
    exact h.valid ep hu
  · intro ep hu
    rw [hused] at hu
    obtain ⟨d, hd, hpool, hp⟩ := h.held ep hu
    rw [he.dtds]
    exact ⟨d, hd, hpool, kept_moves hP hd hp (he.moves ep (h.valid ep hu))⟩
  · intro ep ep' d hd hu hu' hs hs'
    rw [hused] at hu hu'
    exact h.own ep ep' d hd hu hu' (h.slot_back hP he hd hu hs) (h.slot_back hP he hd hu' hs')
  · intro ep hv hu
    rw [hused] at hu
    have hblank := h.free ep hv hu
    rw [unused_moves hblank (he.moves ep hv)]
    exact hblank
  · intro j hj
    rcases he.bits j hj with hj | hj
    · exact h.bits j hj
    · exact hj
  · exact hn

theorem good_hwStep (hP : Kept P) (h : Good P s) (e : HwEvent) (hs : hwStep s e = some t) :
    Good P t := by
  have he : Effect false s t := hwStep_effect h.single e hs
  apply good_effect hP h he
  rw [(hwStep_frame e hs).inner]
  exact h.noted

theorem allocated_view (h : Allocated s ep t) : ∃ d rest, s.inner.dtds = d::rest ∧
    t.inner.dtds = rest ∧ view t ep = { view s ep with next := d } := by
  obtain ⟨hv, hfree, d, rest, caps, b64s, b512s, addr, dtd, hpool, -, -, heq⟩ := h
  refine ⟨d, rest, hpool, ?_, ?_⟩
  · rw [heq]
  · rw [heq]
    simp [view]

theorem allocated_other (h : Allocated s ep t) (ep' : EndpointAddress) (hne : ep' ≠ ep) :
    view t ep' = view s ep' := by
  obtain ⟨hv, hfree, d, rest, caps, b64s, b512s, addr, dtd, hpool, -, -, heq⟩ := h
  have hq : epaddr2dqhidx ep' ≠ epaddr2dqhidx ep := fun hq => hne (epaddr2dqhidx_inj hq)
  rw [heq]
  simp [view, hq]

theorem allocated_used (h : Allocated s ep t) (ep' : EndpointAddress) :
    isEpBeingUsed t ep' = true ↔ isEpBeingUsed s ep' = true ∨ ep' = ep := by
  obtain ⟨hv, hfree, d, rest, caps, b64s, b512s, addr, dtd, hpool, -, -, heq⟩ := h
  have hlt : epaddr2dqhidx ep < 4 := of_decide_eq_true hv
  rw [isEpBeingUsed_iff, isEpBeingUsed_iff, heq]
  show (s.inner.usedDqhs ||| mask 8 (epaddr2dqhidx ep)).getLsbD _ = true ↔ _
  rw [getLsbD_set (by omega), Bool.or_eq_true, decide_eq_true_eq]
  constructor
  · intro h
    exact h.imp id fun hq => epaddr2dqhidx_inj hq.symm
  · intro h
    exact h.imp id fun he => by rw [he]

theorem allocated_single (h : Allocated s ep t) (hs : Single s) : Single t := by
  obtain ⟨hv, hfree, d, rest, caps, b64s, b512s, addr, dtd, hpool, -, hcase, heq⟩ := h
  have hn : dtd.nextDtd = noNextDtd := by
    rcases hcase with ⟨-, -, rfl, -⟩ | ⟨-, a, token, -, -, rfl⟩
    · exact hs d
    · exact hs d
  intro a
  rw [heq]
  by_cases ha : a = d
  · subst a
    simpa using hn
  · simpa [ha] using hs a

theorem good_allocated (hP : Kept P) (h : Good P s) (ha : Allocated s ep t) : Good P t := by
  obtain ⟨d, rest, hpool, hrest, hview⟩ := allocated_view ha
  have hother := allocated_other ha
  have hused := allocated_used ha
  have hblank := h.free ep ha.valid ha.fresh
  have hd : d % 32 = 0 := h.aligned d (by rw [hpool]; exact List.mem_cons_self)
  have hnodup := h.nodup
  rw [hpool] at hnodup
  obtain ⟨hfresh, hnodup⟩ := List.nodup_cons.mp hnodup
  have hnew : view t ep = ⟨noNextDtd, d, false, false, false, 0, 0⟩ := by
    rw [hview, hblank]
    rfl
  have hold : ∀ ep', isEpBeingUsed s ep' = true → ep' ≠ ep := by
    intro ep' hu he
    rw [he, ha.fresh] at hu
    cases hu
  -- the pool does not hold a descriptor that an endpoint has
  have hclash : ∀ ep', isEpBeingUsed s ep' = true → ¬Slot d (view s ep') := by
    intro ep' hu hs
    obtain ⟨d', hd', hnot, hp⟩ := h.held ep' hu
    rw [slot_unique hd' hd (hP.slot hp) hs, hpool] at hnot
    exact hnot List.mem_cons_self
  constructor
  · exact allocated_single ha h.single
  · rw [hrest]
    intro d' hd'
    exact h.aligned d' (by rw [hpool]; exact List.mem_cons_of_mem _ hd')
  · rw [hrest]
    exact hnodup
  · intro ep' hu
    rcases (hused ep').mp hu with hu | rfl
    · exact h.valid ep' hu
    · exact ha.valid
  · intro ep' hu
    rw [hrest]
    rcases (hused ep').mp hu with hu | rfl
    · obtain ⟨d', hd', hnot, hp⟩ := h.held ep' hu
      rw [hother ep' (hold ep' hu)]
      rw [hpool] at hnot
      exact ⟨d', hd', fun hmem => hnot (List.mem_cons_of_mem _ hmem), hp⟩
    · rw [hnew]
      exact ⟨d, hd, hfresh, hP.fresh ep' d⟩
  · intro ep' ep'' d' hd' hu hu' hs hs'
    have hslot : Slot d (view t ep) := by
      rw [hnew]
      exact Or.inl ⟨rfl, rfl⟩
    rcases (hused ep').mp hu with hu | rfl <;> rcases (hused ep'').mp hu' with hu' | rfl
    · rw [hother _ (hold _ hu)] at hs
      rw [hother _ (hold _ hu')] at hs'
      exact h.own _ _ d' hd' hu hu' hs hs'
    · rw [hother _ (hold _ hu), slot_unique hd' hd hs' hslot] at hs
      exact absurd hs (hclash _ hu)
    · rw [hother _ (hold _ hu'), slot_unique hd' hd hs hslot] at hs'
      exact absurd hs' (hclash _ hu')
    · rfl
  · intro ep' hv hu
    have hne : ep' ≠ ep := by
      intro he
      have hyes := (hused ep').mpr (Or.inr he)
      rw [hu] at hyes
      cases hyes
    rw [hother ep' hne]
    apply h.free ep' hv
    rw [← Bool.not_eq_true]
    intro hyes
    rw [(hused ep').mpr (Or.inl hyes)] at hu
    cases hu
  · obtain ⟨-, -, _, _, _, _, _, _, _, -, -, -, heq⟩ := ha
    rw [heq]
    exact h.bits
  · obtain ⟨-, -, _, _, _, _, _, _, _, -, -, -, heq⟩ := ha
    rw [heq]
    exact h.noted

theorem good_start (P : EndpointAddress → ℕ → View → Prop) (l : Layout) : Good P l.start := by
  have hunused : ∀ ep, isEpBeingUsed l.start ep = false := by
    intro ep
    simp [isEpBeingUsed, Layout.start]
  constructor
  · intro a
    rfl
  · intro d hd
    exact l.dtds_aligned d (List.mem_reverse.mp hd)
  · exact List.nodup_reverse.mpr l.dtds_nodup
  · intro ep hu
    rw [hunused] at hu
    cases hu
  · intro ep hu
    rw [hunused] at hu
    cases hu
  · intro ep ep' d hd hu
    rw [hunused] at hu
    cases hu
  · intro ep hv hu
    simp [view, Layout.start, DQH.new, blank, noNextDtd]
  · intro j hj
    simp [Layout.start] at hj
  · rfl

theorem Good.slot (hP : Kept P) (h : Good P s) (hu : isEpBeingUsed s ep = true) :
    ∃ d, d % 32 = 0 ∧ Slot d (view s ep) := by
  obtain ⟨d, hd, -, hp⟩ := h.held ep hu
  exact ⟨d, hd, hP.slot hp⟩

theorem Good.blank_or_slot (hP : Kept P) (h : Good P s) (hv : ep.isValid = true) :
    view s ep = blank ∨ ∃ d, d % 32 = 0 ∧ Slot d (view s ep) := by
  cases hu : isEpBeingUsed s ep with
  | false => exact Or.inl (h.free ep hv hu)
  | true => exact Or.inr (h.slot hP hu)

theorem good_poll (hP : Kept P) (h : Good P s) {h₁ h₂ : List HwEvent} {r : PollResult}
    (hc : Bus.poll s h₁ h₂ = .ok (t, r)) : Good P t := by
  have hn : t.inner.epInComplete = none := by
    rcases poll_eq s h₁ h₂ with heq | heq <;> rw [heq] at hc
    · cases hc
      exact h.noted
    · have hinner : (atComplete s h₁ h₂).inner = s.inner := (atComplete_frame s h₁ h₂).inner
      exact (polled (atComplete_effect h.single h₁ h₂).single
        (by rw [hinner]; exact h.noted) hc).noted
  exact good_effect hP h (poll_effect h.single h.noted hc) hn

theorem good_enable (hP : Kept P) (h : Good P s) : Good P (Bus.enable s) := by
  have he : Effect false s (Bus.enable s) := .same (fun _ => rfl) h.single rfl rfl
  exact good_effect hP h he h.noted

structure Steady (P : EndpointAddress → ℕ → View → Prop) (s : Usbd) : Prop extends Good P s where
  rest : AtRest s controlOut

theorem Steady.stable (hP : Kept P) (h : Steady P s) : Stable s :=
  ⟨h.single, fun _ hv => h.blank_or_slot hP hv, h.rest⟩

theorem steady_effect (hP : Kept P) (h : Steady P s) (he : Effect false s t)
    (hn : t.inner.epInComplete = none) : Steady P t :=
  ⟨good_effect hP h.toGood he hn, ((h.stable hP).effect he).rest⟩

theorem steady_hwStep (hP : Kept P) (h : Steady P s) (e : HwEvent) (hs : hwStep s e = some t) :
    Steady P t := by
  apply steady_effect hP h (hwStep_effect h.single e hs)
  rw [(hwStep_frame e hs).inner]
  exact h.noted

theorem allocEp_rest (h : AtRest s ep) {dir : UsbDirection} {addr : Option EndpointAddress}
    {ty : EndpointType} {n : ℕ} {r : Except UsbError EndpointAddress}
    (hc : allocEp s dir addr ty n = .ok (t, r)) : AtRest t ep := by
  rcases allocEp_ok hc with ⟨rfl, -⟩ | ⟨x, hx, -⟩
  · exact h
  · by_cases hep : ep = x
    · subst hep
      obtain ⟨d, rest, -, -, hview⟩ := allocated_view hx
      constructor <;> rw [hview]
      · exact h.prime
      · exact h.stat
      · exact h.complete
    · exact h.congr (allocated_other hx ep hep)

theorem steady_poll (hP : Kept P) (h : Steady P s) {h₁ h₂ : List HwEvent} {r : PollResult}
    (hc : Bus.poll s h₁ h₂ = .ok (t, r)) : Steady P t := by
  have hrest := ((h.stable hP).effect (poll_effect h.single h.noted hc)).rest
  exact ⟨good_poll hP h.toGood hc, hrest⟩

theorem steady_read (hP : Kept P) (h : Steady P s) (hout : ep.isOut = true) {buf : Lent}
    {hw : During} {r : Except UsbError (List UInt8)} (hc : Bus.read s ep buf hw = .ok (t, r)) :
    Steady P t := by
  have hs := h.stable hP
  refine ⟨good_effect hP h.toGood (read_effect hs hout hc) ?_, (read_stable hs hout hc).rest⟩
  rw [(read_frame h.single hc).inner]
  exact h.noted

theorem steady_startWrite (hP : Kept P) (h : Steady P s) (hin : ep.isOut = false)
    {bytes : List UInt8} {gap : List HwEvent} {r : Except UsbError ℕ}
    (hc : Bus.startWrite s ep bytes gap = .ok (t, r)) : Steady P t := by
  apply steady_effect hP h (startWrite_effect (h.stable hP) hin hc)
  obtain ⟨b64s, b512s, heq⟩ := startWrite_inner hc
  rw [heq]
  exact h.noted

theorem allocatedEps_slotted (hP : Kept P) (h : Good P s) :
    ∀ ep ∈ allocatedEps s, ep.isValid = true ∧ Slotted s ep := by
  intro ep hep
  have hu := (isEpBeingUsed_iff s ep).mpr ((mem_allocatedEps s ep).mp hep)
  exact ⟨h.valid ep hu, h.slot hP hu⟩

theorem steady_setDeviceAddress (hP : Kept P) (h : Steady P s) (addr : BitVec 8)
    (gaps : EndpointAddress → List HwEvent) : Steady P (Bus.setDeviceAddress s addr gaps) := by
  have heps := allocatedEps_slotted hP h.toGood
  apply steady_effect hP h (setDeviceAddress_effect (h.stable hP) addr heps)
  rw [(setDeviceAddress_frame s addr).inner]
  exact h.noted

theorem steady_call (hP : Kept P) (h : Steady P s) {l : Layout} {c : Call} {r : Response}
    (ha : Allowed l c) (hr : c.isReset = false) (hc : call s c = .ok (t, r)) : Steady P t := by
  cases c with
  | allocEp dir addr ty n =>
    obtain ⟨p, hp, heq⟩ := map_ok hc
    cases heq
    refine ⟨?_, allocEp_rest h.rest hp⟩
    rcases allocEp_ok hp with ⟨ht, -⟩ | ⟨ep, hep, -⟩
    · rw [ht]
      exact h.toGood
    · exact good_allocated hP h.toGood hep
  | enable =>
    cases hc
    exact ⟨good_enable hP h.toGood, h.rest.congr rfl⟩
  | setDeviceAddress addr gaps =>
    cases hc
    exact steady_setDeviceAddress hP h addr gaps
  | reset wait => cases hr
  | poll h₁ h₂ =>
    obtain ⟨p, hp, heq⟩ := map_ok hc
    cases heq
    exact steady_poll hP h hp
  | read ep buf hw =>
    obtain ⟨p, hp, heq⟩ := map_ok hc
    cases heq
    exact steady_read hP h ha.1 hp
  | startWrite ep bytes gap =>
    obtain ⟨p, hp, heq⟩ := map_ok hc
    cases heq
    exact steady_startWrite hP h ha hp

theorem steady_start (P : EndpointAddress → ℕ → View → Prop) (l : Layout) : Steady P l.start := by
  have hgood := good_start P l
  refine ⟨hgood, ?_⟩
  have hview : view l.start controlOut = blank :=
    hgood.free controlOut rfl (by simp [isEpBeingUsed, Layout.start])
  constructor <;> rw [hview] <;> rfl

theorem kept_phase : Kept fun ep d v => Phase (reprimes ep) d v :=
  ⟨fun h => h.slot, fun hd h hm => phase_move hd h hm, fun _ _ => .idle 0⟩

theorem kept_slot : Kept fun _ d v => Slot d v :=
  ⟨fun h => h, fun hd h hm => slot_move hd h hm, fun _ _ => Or.inl ⟨rfl, rfl⟩⟩

/-- The invariant of the runs without a bus reset, during a call. -/
abbrev Phased (s : Usbd) : Prop := Good (fun ep d v => Phase (reprimes ep) d v) s

abbrev Ready (s : Usbd) : Prop := Steady (fun ep d v => Phase (reprimes ep) d v) s

abbrev Sane (s : Usbd) : Prop := Steady (fun _ d v => Slot d v) s

theorem ready_step {l : Layout} {x y : Session} {e : Event} (h : Ready x.usbd)
    (hr : e.isReset = false) (hs : step l x e = some y) : Ready y.usbd := by
  cases e with
  | hw e => exact steady_hwStep kept_phase h e (step_hw hs).1
  | call c =>
    obtain ⟨ha, r, hc, -⟩ := step_call hs
    exact steady_call kept_phase h ha hr hc

theorem ready_run {l : Layout} {es : List Event} {y : Session} (hr : ∀ e ∈ es, e.isReset = false)
    (hs : exec (step l) es (start l) = some y) : Ready y.usbd := by
  have hrun : Along (step l) (fun _ e => e.isReset = false) es (start l) := along_of_forall hr _
  exact exec_invariant_along (I := fun x => Ready x.usbd)
    (fun _ _ _ hx he hy => ready_step hx he hy) es (steady_start _ l) hrun hs

end UsbArmory.Usb.Invariant
