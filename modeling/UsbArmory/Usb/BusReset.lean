import UsbArmory.Usb.PacketSize

/-!
# What a bus reset leaves of a session

`reset` clears registers. The fields of `Inner` and the queue heads stay, so
the new session starts clean exactly if the old one had left nothing there.
-/

set_option autoImplicit false

namespace UsbArmory.Usb.BusReset
open UsbArmory.Library.Bits UsbArmory.Library.Run UsbArmory.Usb.Descriptors
open UsbArmory.Usb.Controller UsbArmory.Usb.Bus UsbArmory.Usb.Endpoint UsbArmory.Usb.Effects
open UsbArmory.Usb.EndWrite UsbArmory.Usb.Write UsbArmory.Usb.Poll UsbArmory.Usb.Read
open UsbArmory.Usb.ReadFrame UsbArmory.Usb.Configure UsbArmory.Usb.Invariant
open UsbArmory.Usb.Runs UsbArmory.Usb.ResetSteps UsbArmory.Usb.PacketSize

variable {s t : Usbd} {ep : EndpointAddress} {l : Layout}

structure Settled (s : Usbd) : Prop where
  statusOut : s.inner.statusOut = 0
  preStatusOut : s.inner.preStatusOut = 0
  setup : cached s 0 = false
  idle : ∀ ep ∈ allocatedEps s, s.endptprime &&& epaddr2endptmask ep = 0 ∧
    (s.dqhs (epaddr2dqhidx ep)).getCurrentDtd = none

/-- Nothing of the old session can be seen in the new one. -/
structure Clean (t : Usbd) : Prop where
  poll : ∃ u r, Bus.poll t [] [] = .ok (u, r) ∧
    ∀ epOut epInComplete epSetup, r ≠ .data epOut epInComplete epSetup
  read : (takeSetup t ⟨0, .out⟩).2 = false
  status : ∀ idx, scheduleStatusOut t (mask 16 idx) = t
  idle : ∀ ep ∈ allocatedEps t, (t.dqhs (epaddr2dqhidx ep)).getCurrentDtd = none ∧
    (t.dqhs (epaddr2dqhidx ep)).getNextDtd.isSome = true
  -- the pools have a buffer for an endpoint that is written for the first time
  write : ∀ ep ∈ allocatedEps t, ep.isOut = false → ∀ bytes : List UInt8,
    bytes.length ≤ (t.dqhs (epaddr2dqhidx ep)).getMaxPacketSize →
    (∃ p, staticBuffer t (epaddr2dqhidx ep) (t.dqhs (epaddr2dqhidx ep)).getMaxPacketSize = .ok p) →
    ∀ gap, ∃ u, Bus.startWrite t ep bytes gap = .ok (u, .ok bytes.length)

theorem getDqh_valid (h : ep.isValid = true) : getDqh ep = some (epaddr2dqhidx ep) :=
  if_pos (of_decide_eq_true h)

theorem startWrite_accepts {bytes : List UInt8} {d : ℕ} {token : Token} {p : ℕ × Usbd}
    (hv : ep.isValid = true)
    (hfits : bytes.length ≤ (s.dqhs (epaddr2dqhidx ep)).getMaxPacketSize)
    (hcur : (s.dqhs (epaddr2dqhidx ep)).getCurrentDtd = none)
    (hnext : (s.dqhs (epaddr2dqhidx ep)).getNextDtd = some d)
    (hpool : staticBuffer s (epaddr2dqhidx ep) (s.dqhs (epaddr2dqhidx ep)).getMaxPacketSize = .ok p)
    (htoken : activeToken bytes.length = some token) (gap : List HwEvent) :
    ∃ u, Bus.startWrite s ep bytes gap = .ok (u, .ok bytes.length) := by
  unfold Bus.startWrite
  rw [getDqh_valid hv]
  simp only [Nat.not_lt.mpr hfits, hcur, hnext, hpool, htoken, expect]
  exact ⟨_, rfl⟩

theorem reset_idle (h : s.endptprime = 0) {wait : List (List HwEvent)}
    (hr : Bus.reset s wait = .ok t) : t = flushed (cleared s) := by
  obtain ⟨u, hu, rfl⟩ := reset_ok hr
  have hcond : decide ((cleared s).endptprime = 0) = true := decide_eq_true h
  cases wait with
  | nil =>
    simp only [waitFor, hcond] at hu
    cases hu
    rfl
  | cons e es =>
    simp only [waitFor, hcond] at hu
    cases hu
    rfl

theorem reset_inner {wait : List (List HwEvent)} (hr : Bus.reset s wait = .ok t) :
    t.inner = s.inner := by
  obtain ⟨u, hu, rfl⟩ := reset_ok hr
  exact (waitFor_frame _ wait hu).inner

theorem reset_unprimed {wait : List (List HwEvent)} (hs : Sane s) (hr : Bus.reset s wait = .ok t) :
    t.endptprime = 0 := by
  obtain ⟨u, hu, rfl⟩ := reset_ok hr
  have hsingle := (good_cleared wipes_slot hs.toGood).single
  have heff : Effect false (cleared s) u ∧ _ := waitFor_effect hsingle _ wait hu
  exact of_decide_eq_true heff.2

theorem reset_busy {wait : List (List HwEvent)} (hs : Sane s) (hr : Bus.reset s wait = .ok t)
    {d : ℕ} (hd : d % 32 = 0) (hv : ep.isValid = true) (hslot : Slot d (view s ep))
    (hbusy : (view s ep).current = d ∨ (view s ep).prime = true) : (view t ep).current = d := by
  have hprime := reset_unprimed hs hr
  obtain ⟨u, hu, rfl⟩ := reset_ok hr
  have hsingle := (good_cleared wipes_slot hs.toGood).single
  have heff : Effect false (cleared s) u ∧ _ := waitFor_effect hsingle _ wait hu
  have hended : (view u ep).ended = (view (cleared s) ep).ended :=
    congrFun (waitFor_frame _ wait hu).ended _
  have hc := cleared_view s ep
  have hafter := (busy_moves hd (by rw [hc]; exact hslot) (heff.1.moves ep hv)).2 hended
    (by rw [hc]; exact hbusy)
  have hnot : (view u ep).prime = false := by
    show u.endptprime.getLsbD _ = false
    rw [show u.endptprime = 0 from hprime]
    exact BitVec.getLsbD_zero
  rw [flushed_view]
  exact hafter.resolve_right fun hp => nomatch hp.symm.trans hnot

theorem reset_stray {wait : List (List HwEvent)} (hs : Sane s) (hr : Bus.reset s wait = .ok t)
    {j : ℕ} (hj : ∀ ep, ep.isValid = true → endptBit ep ≠ j) : s.endptprime.getLsbD j = false := by
  have hprime := reset_unprimed hs hr
  obtain ⟨u, hu, rfl⟩ := reset_ok hr
  have hkept : u.endptprime.getLsbD j = s.endptprime.getLsbD j :=
    waitFor_invariant (s := cleared s)
      (I := fun v => v.endptprime.getLsbD j = s.endptprime.getLsbD j)
      (fun v e w hv hw => (stray_hwStep hj hw).trans hv) rfl hu
  rw [← hkept, show u.endptprime = 0 from hprime]
  exact BitVec.getLsbD_zero

theorem unprimed {wait : List (List HwEvent)} (hs : Sane s) (hr : Bus.reset s wait = .ok t)
    (h : ∀ ep ∈ allocatedEps s, s.endptprime &&& epaddr2endptmask ep = 0) : s.endptprime = 0 := by
  by_contra hne
  obtain ⟨j, hj⟩ := (ne_zero_iff _).mp hne
  by_cases hep : ∀ ep, ep.isValid = true → endptBit ep ≠ j
  · rw [reset_stray hs hr hep] at hj
    cases hj
  · push Not at hep
    obtain ⟨ep, hv, rfl⟩ := hep
    cases hu : isEpBeingUsed s ep with
    | true =>
      have hmem := (mem_allocatedEps s ep).mpr ((isEpBeingUsed_iff s ep).mp hu)
      exact (mask_ne_zero_iff _ ep).mpr hj (h ep hmem)
    | false =>
      have hprime : (view s ep).prime = true := hj
      rw [hs.free ep hv hu] at hprime
      cases hprime

theorem wiped {n : ℕ} (w : BitVec n) : w &&& ~~~w = 0 := by
  apply BitVec.eq_of_getLsbD_eq
  intro j _
  rw [getLsbD_wiped]
  exact BitVec.getLsbD_zero.symm

theorem unreset {wait : List (List HwEvent)} (hr : Bus.reset s wait = .ok t) :
    (writeUsbsts t (mask 32 usbstsSre)).usbsts &&& mask 32 usbstsUri = 0 := by
  obtain ⟨u, hu, rfl⟩ := reset_ok hr
  show (u.usbsts &&& ~~~mask 32 usbstsUri &&& ~~~mask 32 usbstsSre) &&& mask 32 usbstsUri = 0
  by_contra hne
  have hbit := (and_mask_ne_zero _ usbstsUri).mp hne
  rw [getLsbD_clear, getLsbD_clear] at hbit
  simp at hbit

theorem poll_quiet (hs : Single s) (hstatus : s.inner.statusOut = 0)
    (hnoted : s.inner.epInComplete = none)
    (hsts : (writeUsbsts s (mask 32 usbstsSre)).usbsts &&& mask 32 usbstsUri = 0)
    (hsetup : s.endptsetupstat = 0) (hcomplete : s.endptcomplete = 0) :
    ∃ u, Bus.poll s [] [] = .ok (u, .none) := by
  have hpoll := poll_handle (not_not_intro hsts) [] []
  have hnone : (atComplete s [] []).endptcomplete = 0 := hcomplete
  have hno : ∀ j, (atComplete s [] []).endptcomplete.getLsbD j = false := by
    intro j
    rw [hnone]
    exact BitVec.getLsbD_zero
  have hseen : seenSetup s [] = 0 := congrArg (BitVec.setWidth 16) hsetup
  rw [hpoll]
  rcases handle_returns (writeUsbsts s (mask 32 usbstsSre)).usbsts (seenSetup s [])
    (fun i hi => nomatch hi.symm.trans (hno (16 + i))) with ⟨u, r, hu⟩ | ⟨-, i, hi, -⟩
  · rw [hu]
    have hsame : Single (atComplete s [] []) := hs
    have hp := (polled hsame hnoted hu).result
    cases hp with
    | none => exact ⟨u, rfl⟩
    | statusOut hb => exact absurd hstatus hb
    | data _ _ hsome => exact absurd hsome (not_or.mpr ⟨not_not_intro hseen, not_not_intro hnone⟩)
  · cases hi.symm.trans (hno (16 + i))

theorem settled_clean {wait : List (List HwEvent)} (hs : Sane s) (hn : Narrow s)
    (hr : Bus.reset s wait = .ok t) (h : Settled s) : Clean t := by
  have ht := reset_idle (unprimed hs hr fun ep hep => (h.idle ep hep).1) hr
  have hsane := sane_reset hs hr
  have hnarrow := narrow_reset hn hr
  have hinner := reset_inner hr
  have hused : allocatedEps t = allocatedEps s := by
    unfold allocatedEps
    rw [hinner]
  have hidle : ∀ ep ∈ allocatedEps t, (t.dqhs (epaddr2dqhidx ep)).getCurrentDtd = none ∧
      ∃ d, (t.dqhs (epaddr2dqhidx ep)).getNextDtd = some d := by
    intro ep hep
    rw [hused] at hep
    have hcur : (t.dqhs (epaddr2dqhidx ep)).getCurrentDtd = none := by
      rw [ht]
      exact (h.idle ep hep).2
    have hu : isEpBeingUsed t ep = true := by
      rw [isEpBeingUsed_iff, hinner]
      exact (mem_allocatedEps s ep).mp hep
    obtain ⟨d, hd, hslot⟩ := hsane.slot kept_slot hu
    rcases hslot with ⟨-, hnext⟩ | ⟨hd', -⟩
    · refine ⟨hcur, d, ?_⟩
      have hnext' : (t.dqhs (epaddr2dqhidx ep)).nextDtd = d := hnext
      rw [DQH.getNextDtd, hnext', if_neg (ne_noNextDtd hd)]
    · have hal : (t.dqhs (epaddr2dqhidx ep)).currentDtd % 32 = 0 := by
        rw [show (t.dqhs (epaddr2dqhidx ep)).currentDtd = d from hd']
        exact hd
      exact absurd hal (getCurrentDtd_none hcur)
  constructor
  · have hquiet : ∃ u, Bus.poll t [] [] = .ok (u, .none) := by
      apply poll_quiet hsane.single
      · rw [hinner]
        exact h.statusOut
      · exact hsane.noted
      · exact unreset hr
      · rw [ht]
        exact wiped s.endptsetupstat
      · rw [ht]
        exact wiped s.endptcomplete
    obtain ⟨u, hu⟩ := hquiet
    exact ⟨u, .none, hu, fun _ _ _ hne => nomatch hne⟩
  · rw [takeSetup_taken, cached, hinner]
    exact h.setup
  · intro idx
    have hpre : t.inner.preStatusOut = 0 := by
      rw [hinner]
      exact h.preStatusOut
    have hnone : t.inner.preStatusOut &&& mask 16 idx = 0 := by
      rw [hpre]
      exact BitVec.zero_and
    exact if_neg (not_not_intro hnone)
  · intro ep hep
    obtain ⟨hcur, d, hd⟩ := hidle ep hep
    rw [hd]
    exact ⟨hcur, rfl⟩
  · intro ep hep hin bytes hfits hpool gap
    obtain ⟨hcur, d, hd⟩ := hidle ep hep
    obtain ⟨p, hp⟩ := hpool
    have hv : ep.isValid = true :=
      hsane.valid ep ((isEpBeingUsed_iff t ep).mpr ((mem_allocatedEps t ep).mp hep))
    obtain ⟨token, htoken⟩ :=
      activeToken_some (lt_of_le_of_lt (hfits.trans (hnarrow _)) (by decide))
    exact startWrite_accepts hv hfits hcur hd hp htoken gap

theorem clean_settled {wait : List (List HwEvent)} (hs : Sane s)
    (hr : Bus.reset s wait = .ok t) (h : Clean t) : Settled s := by
  have hsane := sane_reset hs hr
  have hinner := reset_inner hr
  have hused : allocatedEps t = allocatedEps s := by
    unfold allocatedEps
    rw [hinner]
  have hstatus : t.inner.statusOut = 0 := by
    obtain ⟨u, r, hpoll, hr'⟩ := h.poll
    rw [poll_handle (not_not_intro (unreset hr))] at hpoll
    have hsame : Single (atComplete t [] []) := hsane.single
    have hp := (polled hsame hsane.noted hpoll).result
    cases hp with
    | none _ _ hb => exact hb
    | statusOut => exact absurd rfl (hr' _ _ _)
    | data => exact absurd rfl (hr' _ _ _)
  constructor
  · rw [← hinner]
    exact hstatus
  · by_contra hne
    rw [← hinner] at hne
    obtain ⟨j, hj⟩ := (ne_zero_iff _).mp hne
    have hbit : t.inner.preStatusOut &&& mask 16 j ≠ 0 := (and_mask_ne_zero _ j).mpr hj
    have hsame := h.status j
    rw [scheduleStatusOut, if_pos hbit] at hsame
    have hpre : t.inner.preStatusOut &&& ~~~mask 16 j = t.inner.preStatusOut :=
      congrArg (fun u => u.inner.preStatusOut) hsame
    rw [← hpre, getLsbD_clear] at hj
    simp at hj
  · have hread := h.read
    rw [takeSetup_taken] at hread
    rw [cached, ← hinner]
    exact hread
  · intro ep hep
    have hu : isEpBeingUsed s ep = true :=
      (isEpBeingUsed_iff s ep).mpr ((mem_allocatedEps s ep).mp hep)
    obtain ⟨d, hd, hslot⟩ := hs.slot kept_slot hu
    have hcur := (h.idle ep (by rw [hused]; exact hep)).1
    have hnot : ¬((view s ep).current = d ∨ (view s ep).prime = true) := by
      intro hbusy
      have hd' := reset_busy hs hr hd (hs.valid ep hu) hslot hbusy
      refine getCurrentDtd_none hcur ?_
      rw [show (t.dqhs (epaddr2dqhidx ep)).currentDtd = d from hd']
      exact hd
    constructor
    · by_contra hne
      exact hnot (.inr ((mask_ne_zero_iff _ ep).mp hne))
    · rcases hslot with ⟨hnone, -⟩ | ⟨hd', -⟩
      · exact getCurrentDtd_noNextDtd _ hnone
      · exact absurd (.inl hd') hnot

/-- A reset leaves nothing of the old session exactly if the driver held
nothing of it. -/
theorem clean_iff_settled (l : Layout) (es : List Event) {x : Session}
    (hx : exec (step l) es (start l) = some x) (wait : List (List HwEvent)) {t : Usbd}
    (hr : Bus.reset x.usbd wait = .ok t) : Clean t ↔ Settled x.usbd := by
  obtain ⟨hsane, hnarrow⟩ := narrow_run hx
  exact ⟨clean_settled hsane hr, settled_clean hsane hnarrow hr⟩

def configured : List Event :=
  [.call (.allocEp .out (some ⟨0, .out⟩) .control 64),
    .call (.allocEp .in (some ⟨0, .in⟩) .control 64), .call .enable]

/-- The bus is reset before the host has asked for anything. -/
def attached : List Event := configured ++ [.hw (.status (mask 32 usbstsUri))]

theorem attached_runs : (exec (step smallLayout) attached (start smallLayout)).isSome = true := by
  decide

theorem clean_iff_settled_attached :
    let x := (exec (step smallLayout) attached (start smallLayout)).get attached_runs
    ∃ t, Bus.reset x.usbd [] = .ok t ∧ Clean t := by
  refine ⟨_, rfl, (clean_iff_settled smallLayout attached (Option.some_get _).symm [] rfl).mpr ?_⟩
  exact ⟨by decide, by decide, by decide, by decide⟩

/-- The bus is reset while a packet is in flight to the host. -/
def loaded : List Event :=
  configured ++ [.call (.startWrite ⟨0, .in⟩ [1] []), .hw (.fetch ⟨0, .in⟩),
    .hw (.status (mask 32 usbstsUri))]

/-- The bus is reset when a SETUP has been cached and not been read. -/
def unread : List Event :=
  configured ++ [.hw (.setup 0 [0, 5, 1, 0, 0, 0, 0, 0]), .call (.poll [] []),
    .hw (.status (mask 32 usbstsUri))]

/-- The bus is reset when the device descriptor has been sent. -/
def described : List Event :=
  configured ++ [.hw (.setup 0 [128, 6, 0, 1, 0, 0, 18, 0]), .call (.poll [] []),
    .call (.read ⟨0, .out⟩ ⟨1024, 8⟩ ⟨[], [], []⟩), .call (.startWrite ⟨0, .in⟩ [18] []),
    .hw (.fetch ⟨0, .in⟩), .hw (.load ⟨0, .in⟩), .hw (.sent ⟨0, .in⟩ 0), .call (.poll [] []),
    .hw (.status (mask 32 usbstsUri))]

theorem loaded_runs : (exec (step smallLayout) loaded (start smallLayout)).isSome = true := by
  decide

theorem unread_runs : (exec (step smallLayout) unread (start smallLayout)).isSome = true := by
  decide

theorem described_runs : (exec (step smallLayout) described (start smallLayout)).isSome = true := by
  decide

/-- The new session finds its endpoint busy, takes an old SETUP for a new one,
and is told of an old STATUS OUT. -/
theorem reset_leaves :
    (let x := (exec (step smallLayout) loaded (start smallLayout)).get loaded_runs
      ∃ t, Bus.reset x.usbd [] = .ok t ∧ ¬Clean t ∧
        Bus.startWrite t ⟨0, .in⟩ [1] [] = .ok (t, .error .wouldBlock)) ∧
    (let x := (exec (step smallLayout) unread (start smallLayout)).get unread_runs
      ∃ t, Bus.reset x.usbd [] = .ok t ∧ ¬Clean t ∧ (takeSetup t ⟨0, .out⟩).2 = true) ∧
    (let x := (exec (step smallLayout) described (start smallLayout)).get described_runs
      ∃ t u, Bus.reset x.usbd [] = .ok t ∧ ¬Clean t ∧
        Bus.poll t [] [] = .ok (u, .data 1 0 0)) := by
  refine ⟨⟨_, rfl, fun h => ?_, rfl⟩, ⟨_, rfl, fun h => ?_, rfl⟩, ⟨_, _, rfl, fun h => ?_, rfl⟩⟩
  · have hidle := (h.idle ⟨0, .in⟩ (by decide)).1
    cases hidle
  · have hread := h.read
    cases hread
  · obtain ⟨u, r, hpoll, hr⟩ := h.poll
    cases hpoll
    exact hr _ _ _ rfl

end UsbArmory.Usb.BusReset
