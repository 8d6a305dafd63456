import UsbArmory.Usb.OutReads

/-!
# OUT data of endpoint 0

The read primes the endpoint and waits. When the controller fetches the
descriptor and then receives a packet that fits, the read returns the packet.
-/

set_option autoImplicit false

namespace UsbArmory.Usb.ControlData
open UsbArmory.Library.Bits UsbArmory.Usb.Descriptors UsbArmory.Usb.Controller UsbArmory.Usb.Bus
open UsbArmory.Usb.Endpoint UsbArmory.Usb.Effects UsbArmory.Usb.EndWrite UsbArmory.Usb.Write
open UsbArmory.Usb.Read UsbArmory.Usb.Invariant UsbArmory.Usb.Memory UsbArmory.Usb.Transfer
open UsbArmory.Usb.ResetSteps UsbArmory.Usb.Arrivals UsbArmory.Usb.OutBuffers
open UsbArmory.Usb.OutCalls UsbArmory.Usb.OutReads

/-- The endpoint is primed, or its descriptor has been loaded. -/
structure Awaits (l : Layout) (buf : Lent) (s : Usbd) : Prop where
  moored : Moored l buf s
  fresh : buf.addr ∉ l.b64s ++ l.b512s
  pending : (view s controlOut).stat = true ∨
    (view s controlOut).prime = true ∧ (view s controlOut).next % 32 = 0

structure Arrived (l : Layout) (buf : Lent) (packet : List UInt8) (s : Usbd) : Prop where
  moored : Moored l buf s
  fresh : buf.addr ∉ l.b64s ++ l.b512s
  complete : (view s controlOut).complete = true
  last : (s.transfers (epaddr2dqhidx controlOut)).getLast? = some packet
  clean : (s.dtd (view s controlOut).current).token.getStatus.failed = false

variable {l : Layout} {s t : Usbd} {buf : Lent} {hw : During} {packet : List UInt8}
variable {status : Status}

theorem awaits_incomplete (h : Awaits l buf s) : (view s controlOut).complete = false := by
  rcases h.pending with hst | ⟨-, hal⟩
  · exact h.moored.served.once hst
  · exact (h.moored.served.free hal).2

theorem awaits_hwStep (h : Awaits l buf s) {e : HwEvent}
    (hnot : ∀ status bytes, e ≠ .received controlOut status bytes) (he : hwStep s e = some t) :
    Awaits l buf t ∧ (e = .fetch controlOut ∨ (view s controlOut).stat = true →
      (view t controlOut).stat = true) := by
  have hmoored := moored_hwStep h.moored he
  cases turn_served h.moored h.fresh he with
  | still _ hfetch _ hview _ _ =>
    refine ⟨⟨hmoored, h.fresh, by rw [hview]; exact h.pending⟩, fun hor => ?_⟩
    rw [hview]
    exact hor.resolve_left hfetch
  | skipped hnext hview _ _ =>
    have hst : (view s controlOut).stat = true := by
      refine h.pending.resolve_right fun ⟨_, hal⟩ => ?_
      rw [hnext] at hal
      exact noNextDtd_mod hal
    have hst' : (view t controlOut).stat = true := by
      rw [hview]
      exact hst
    exact ⟨⟨hmoored, h.fresh, .inl hst'⟩, fun _ => hst'⟩
  | fetched _ _ hview _ _ =>
    have hst' : (view t controlOut).stat = true := by rw [hview]
    exact ⟨⟨hmoored, h.fresh, .inl hst'⟩, fun _ => hst'⟩
  | received status bytes _ _ _ => exact absurd rfl (hnot status bytes)

theorem awaits_event (h : Awaits l buf s) {e : HwEvent}
    (hnot : ∀ status bytes, e ≠ .received controlOut status bytes) :
    Awaits l buf ((hwStep s e).getD s) ∧
      (e = .fetch controlOut ∨ (view s controlOut).stat = true →
        (view ((hwStep s e).getD s) controlOut).stat = true) := by
  cases he : hwStep s e with
  | some t => exact awaits_hwStep h hnot he
  | none =>
    refine ⟨h, fun hor => ?_⟩
    rcases hor with rfl | hst
    · refine h.pending.resolve_right fun ⟨hp, _⟩ => ?_
      have hset := (mask_ne_zero_iff s.endptprime controlOut).mpr hp
      simp only [hwStep, controlOut_valid, true_and] at he
      rw [if_pos hset] at he
      cases he
    · exact hst

theorem awaits_hardware {es : List HwEvent} (h : Awaits l buf s)
    (hnot : ∀ status bytes, HwEvent.received controlOut status bytes ∉ es) :
    Awaits l buf (hardware s es) ∧
      (HwEvent.fetch controlOut ∈ es ∨ (view s controlOut).stat = true →
        (view (hardware s es) controlOut).stat = true) := by
  induction es generalizing s with
  | nil => exact ⟨h, fun hor => hor.resolve_left List.not_mem_nil⟩
  | cons e es ih =>
    obtain ⟨hnext, hstat⟩ := awaits_event h (e := e)
      fun status bytes heq => hnot status bytes (heq ▸ List.mem_cons_self)
    obtain ⟨hlast, hstat'⟩ := ih hnext
      fun status bytes hmem => hnot status bytes (List.mem_cons_of_mem e hmem)
    refine ⟨hlast, fun hor => hstat' ?_⟩
    rcases hor with hmem | hst
    · rcases List.mem_cons.mp hmem with rfl | hmem
      · exact .inr (hstat (.inl rfl))
      · exact .inl hmem
    · exact .inr (hstat (.inr hst))

theorem hwStep_dtd {e : HwEvent} (he : hwStep s e = some t) (d : ℕ) : t.dtd d = s.dtd d ∨
    ∃ x : EndpointAddress, x.isValid = true ∧ (view s x).stat = true ∧ (view s x).current = d := by
  have hretire : ∀ (x : EndpointAddress) (status : Status) (left : ℕ) (bytes : List UInt8),
      x.isValid = true → s.endptstat &&& epaddr2endptmask x ≠ 0 →
      (retire s x status left bytes).dtd d = s.dtd d ∨
        ∃ x : EndpointAddress, x.isValid = true ∧ (view s x).stat = true ∧
          (view s x).current = d := by
    intro x status left bytes hv hset
    by_cases hd : (s.dqhs (epaddr2dqhidx x)).currentDtd = d
    · exact .inr ⟨x, hv, (mask_ne_zero_iff _ x).mp hset, hd⟩
    · refine .inl ?_
      simp [retire, Usbd.setDqh, Usbd.setDtd, Ne.symm hd]
  cases hwStep_happens he with
  | fetch x hv hprime =>
    refine .inl ?_
    unfold fetch
    simp only
    split <;> rfl
  | sent x status bytes hv hin hstat hfifo => exact hretire x status 0 bytes hv hstat
  | received x status bytes hv hout hstat hlen => exact hretire x status _ bytes hv hstat
  | _ => exact .inl rfl

theorem done_dtd (h : Moored l buf s) (hc : (view s controlOut).complete = true) {e : HwEvent}
    (he : hwStep s e = some t) :
    t.dtd (view s controlOut).current = s.dtd (view s controlOut).current := by
  obtain ⟨hal, hslot⟩ := done_current kept_staged h.good controlOut_valid h.served hc
  refine (hwStep_dtd he _).resolve_right ?_
  rintro ⟨x, hv, hst, hcur⟩
  have hux := stat_used h.good hv hst
  have hu : isEpBeingUsed s controlOut = true := by
    by_contra hfree
    rw [h.good.free controlOut controlOut_valid ((Bool.not_eq_true _).mp hfree)] at hc
    cases hc
  have hslotx : Slot (view s controlOut).current (view s x) := by
    obtain ⟨d, hd, hs⟩ := h.good.slot kept_staged hux
    rcases hs with ⟨hnone, -⟩ | ⟨hcur', hnext⟩
    · rw [← hcur, hnone] at hal
      exact absurd hal noNextDtd_mod
    · exact .inr ⟨hcur, hnext⟩
  obtain rfl := h.good.own x controlOut _ hal hux hu hslotx hslot
  exact absurd ((h.served.once hst).symm.trans hc) (by decide)

theorem arrived_hwStep (h : Arrived l buf packet s) {e : HwEvent} (he : hwStep s e = some t) :
    Arrived l buf packet t := by
  have hmoored := moored_hwStep h.moored he
  have hdtd := done_dtd h.moored h.complete he
  have hkept : (view t controlOut).complete = (view s controlOut).complete →
      (view t controlOut).current = (view s controlOut).current →
      t.transfers (epaddr2dqhidx controlOut) = s.transfers (epaddr2dqhidx controlOut) →
      Arrived l buf packet t := by
    intro hc hcur htransfers
    refine ⟨hmoored, h.fresh, hc.trans h.complete, ?_, ?_⟩
    · rw [htransfers]
      exact h.last
    · rw [hcur, hdtd]
      exact h.clean
  cases turn_served h.moored h.fresh he with
  | still _ _ _ hview _ hl => exact hkept (by rw [hview]) (by rw [hview]) hl.transfers
  | skipped _ hview _ hl => exact hkept (by rw [hview]) (by rw [hview]) hl.transfers
  | fetched _ hnext _ _ _ =>
    have hal := next_aligned kept_staged h.moored.good controlOut_valid hnext
    exact absurd ((h.moored.served.free hal).2.symm.trans h.complete) (by decide)
  | received _ _ hst _ _ =>
    exact absurd ((h.moored.served.once hst).symm.trans h.complete) (by decide)

theorem arrived_hardware (h : Arrived l buf packet s) (es : List HwEvent) :
    Arrived l buf packet (hardware s es) :=
  hardware_invariant (fun _ _ _ hs he => arrived_hwStep hs he) es s h

theorem awaits_received (h : Awaits l buf s) (hst : (view s controlOut).stat = true)
    (hlen : packet.length ≤ buf.cap) (hclean : status.failed = false) :
    Arrived l buf packet ((hwStep s (.received controlOut status packet)).getD s) := by
  obtain ⟨-, htotal⟩ := h.moored.served.loaded hst
  have hset := (mask_ne_zero_iff s.endptstat controlOut).mpr hst
  have hstep : hwStep s (.received controlOut status packet) =
      some (stored s controlOut status packet) := by
    refine if_pos ⟨controlOut_valid, rfl, hset, ?_⟩
    exact le_of_le_of_eq hlen htotal.symm
  have hview := stored_view s controlOut_valid status packet
  rw [hstep, Option.getD_some]
  refine ⟨moored_hwStep h.moored hstep, h.fresh, ?_, ?_, ?_⟩
  · rw [hview]
  · rw [stored_transfers, List.getLast?_concat]
  · rw [hview]
    exact (congrArg Status.failed (stored_status s controlOut status packet)).trans hclean

def completed (s : Usbd) : Bool := s.endptcomplete &&& epaddr2endptmask controlOut ≠ 0

theorem completed_iff (s : Usbd) : completed s = true ↔ (view s controlOut).complete = true := by
  rw [completed, decide_eq_true_iff]
  exact mask_ne_zero_iff s.endptcomplete controlOut

theorem waitFor_now {cond : Usbd → Bool} (h : cond s = true) (rounds : List (List HwEvent)) :
    waitFor cond s rounds = .ok s := by
  cases rounds <;> simp [waitFor, h]

theorem waitFor_arrives {rounds : List (List HwEvent)} {before after : List HwEvent}
    (h : Awaits l buf s)
    (hrounds : rounds.flatten = before ++ .received controlOut status packet :: after)
    (hfirst : ∀ status bytes, HwEvent.received controlOut status bytes ∉ before)
    (hfetch : .fetch controlOut ∈ before ∨ (view s controlOut).stat = true)
    (hlen : packet.length ≤ buf.cap) (hclean : status.failed = false) :
    ∃ u, waitFor completed s rounds = .ok u ∧ Arrived l buf packet u := by
  induction rounds generalizing s before with
  | nil => simp at hrounds
  | cons es rounds ih =>
    have hwait : waitFor completed s (es::rounds) = waitFor completed (hardware s es) rounds := by
      refine if_neg fun hdone => ?_
      exact absurd ((awaits_incomplete h).symm.trans ((completed_iff s).mp hdone)) (by decide)
    rw [hwait]
    rw [List.flatten_cons] at hrounds
    rcases List.append_eq_append_iff.mp hrounds with ⟨late, rfl, hrest⟩ | ⟨early, rfl, hrest⟩
    · -- the packet comes in a later round
      obtain ⟨hnext, hstat⟩ := awaits_hardware h
        fun status bytes hmem => hfirst status bytes (List.mem_append_left _ hmem)
      refine ih hnext hrest (fun status bytes hmem => hfirst status bytes
        (List.mem_append_right _ hmem)) ?_
      rcases hfetch with hmem | hst
      · rcases List.mem_append.mp hmem with hmem | hmem
        · exact .inr (hstat (.inl hmem))
        · exact .inl hmem
      · exact .inr (hstat (.inr hst))
    · obtain ⟨hnext, hstat⟩ := awaits_hardware h hfirst
      cases early with
      | nil =>
        have hnow : rounds.flatten = [] ++ HwEvent.received controlOut status packet :: after :=
          hrest.symm
        rw [List.append_nil]
        exact ih hnext hnow (fun _ _ => List.not_mem_nil) (.inr (hstat hfetch))
      | cons e early =>
        obtain ⟨rfl, -⟩ := List.cons.inj hrest
        have harrived : Arrived l buf packet (hardware s (before ++
            HwEvent.received controlOut status packet :: early)) := by
          rw [hardware, List.foldl_append]
          exact arrived_hardware (awaits_received hnext (hstat hfetch) hlen hclean) early
        exact ⟨_, waitFor_now ((completed_iff _).mpr harrived.complete) rounds, harrived⟩

theorem readControl_packet (h : Inbound l s) (hu : isEpBeingUsed s controlOut = true)
    (hfresh : buf.addr ∉ l.b64s ++ l.b512s) (hcap : buf.cap < 0x5000) {before after : List HwEvent}
    (hrounds : hw.rounds.flatten = before ++ .received controlOut status packet :: after)
    (hfirst : ∀ status bytes, HwEvent.received controlOut status bytes ∉ before)
    (hfetch : .fetch controlOut ∈ before) (hlen : packet.length ≤ buf.cap)
    (hclean : status.failed = false) :
    ∃ t, readControl s controlOut (epaddr2dqhidx controlOut) buf hw = .ok (t, packet) := by
  obtain ⟨d, hal, hslot⟩ := h.moored.good.slot kept_staged hu
  have hcurrent : (s.dqhs (epaddr2dqhidx controlOut)).currentDtd = noNextDtd := h.current
  have hnext : (s.dqhs (epaddr2dqhidx controlOut)).nextDtd = d := by
    rcases hslot with ⟨-, hnext⟩ | ⟨hcur, -⟩
    · exact hnext
    · exact absurd (hcur.symm.trans hcurrent) (ne_noNextDtd hal)
  have hne := ne_noNextDtd hal
  have hd : (s.dqhs (epaddr2dqhidx controlOut)).getNextDtd = some d := by
    rw [DQH.getNextDtd, hnext, if_neg hne]
  obtain ⟨token, htoken⟩ := activeToken_some hcap
  have hprimed := moored_controlPrimed h.moored h.rest h.current hd htoken hfresh hw.priming
  have hstable := moored_stable h.moored h.rest
  have hview := controlPrimed_self hstable d token buf.addr hw.priming
  have hawaits : Awaits l buf (controlPrimed s controlOut d token buf.addr hw.priming) := by
    refine ⟨hprimed, hfresh, .inr ⟨by rw [hview], ?_⟩⟩
    rw [hview]
    exact (congrArg (· % 32) hnext).trans hal
  obtain ⟨u, hwait, harrived⟩ :=
    waitFor_arrives hawaits hrounds hfirst (.inl hfetch) hlen hclean
  -- the descriptor that was primed is the one that has completed
  have hcur : (view u controlOut).current = d := by
    have heff := controlPrimed_effect hstable rfl (d := d) token buf.addr hw.priming
      (by rw [h.current]; exact noNextDtd_mod) (by rw [view_next, hnext]; exact hne)
    obtain ⟨hrounds, -⟩ := waitFor_effect heff.single _ hw.rounds hwait
    have hs := slot_moves hal hslot ((heff.trans hrounds).moves controlOut controlOut_valid)
    obtain ⟨hal', hs'⟩ := done_current kept_staged harrived.moored.good
      controlOut_valid harrived.moored.served harrived.complete
    exact slot_unique hal' hal hs' hs
  obtain ⟨bytes, hlast, hle, htotal, htake⟩ := harrived.moored.served.done harrived.complete
  obtain rfl := Option.some.inj (harrived.last.symm.trans hlast)
  have hcheck : checkTransfer (u.dtd d).token = .ok () := by
    rw [checkTransfer, ← hcur, harrived.clean]
    rfl
  have hleft : buf.cap - (u.dqhs (epaddr2dqhidx controlOut)).token.getTotalBytes =
      packet.length := by
    have htotal' : (u.dqhs (epaddr2dqhidx controlOut)).token.getTotalBytes =
        buf.cap - packet.length := htotal
    omega
  refine ⟨released u controlOut d, ?_⟩
  unfold readControl
  rw [require_true (decide_eq_true (getCurrentDtd_noNextDtd _ hcurrent)), ok_bind, expect_some hd,
    ok_bind, expect_some htoken, ok_bind]
  show (waitFor completed (controlPrimed s controlOut d token buf.addr hw.priming)
      hw.rounds >>= _) =
    _
  rw [hwait, ok_bind]
  show (checkTransfer (u.dtd d).token >>= _) = _
  rw [hcheck, ok_bind]
  show Except.ok (released u controlOut d, (u.buffer buf.addr).take
    (buf.cap - (u.dqhs (epaddr2dqhidx controlOut)).token.getTotalBytes)) = _
  rw [hleft, htake]

end UsbArmory.Usb.ControlData
