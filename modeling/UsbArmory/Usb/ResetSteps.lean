import UsbArmory.Usb.Invariant

/-!
# What a bus reset leaves of the endpoints

The controller may fetch descriptors while `reset` waits. What was primed or in
flight before is in flight after it, since only the driver takes a descriptor
back.
-/

set_option autoImplicit false

namespace UsbArmory.Usb.ResetSteps
open UsbArmory.Library.Bits UsbArmory.Library.Run UsbArmory.Usb.Descriptors
open UsbArmory.Usb.Controller UsbArmory.Usb.Bus UsbArmory.Usb.Endpoint UsbArmory.Usb.Effects
open UsbArmory.Usb.Invariant UsbArmory.Usb.Runs Relation

variable {P : EndpointAddress → ℕ → View → Prop} {s t u : Usbd} {ep : EndpointAddress}

/-- The first two writes of `reset`. -/
def cleared (s : Usbd) : Usbd :=
  writeEndptcomplete (writeEndptsetupstat s s.endptsetupstat) s.endptcomplete

/-- The last two writes of `reset`. -/
def flushed (s : Usbd) : Usbd := writeUsbsts (writeEndptflush s (~~~0)) (mask 32 usbstsUri)

theorem reset_ok {wait : List (List HwEvent)} (h : reset s wait = .ok t) :
    ∃ u, waitFor (fun s => s.endptprime = 0) (cleared s) wait = .ok u ∧ t = flushed u := by
  obtain ⟨u, hu, h⟩ := bind_ok h
  cases h
  exact ⟨u, hu, rfl⟩

theorem getLsbD_wiped {n : ℕ} (w : BitVec n) (j : ℕ) : (w &&& ~~~w).getLsbD j = false := by
  rw [BitVec.getLsbD_and, BitVec.getLsbD_not]
  cases w.getLsbD j <;> simp

theorem cleared_view (s : Usbd) (ep : EndpointAddress) :
    view (cleared s) ep = { view s ep with complete := false } := by
  have hc : (cleared s).endptcomplete.getLsbD (endptBit ep) = false := getLsbD_wiped _ _
  unfold view
  rw [hc]
  rfl

theorem flushed_view (s : Usbd) (ep : EndpointAddress) :
    view (flushed s) ep = { view s ep with stat := false } := by
  have hc : (flushed s).endptstat.getLsbD (endptBit ep) = false := by
    show (s.endptstat &&& ~~~(~~~0#32)).getLsbD (endptBit ep) = false
    rw [BitVec.not_not, BitVec.and_zero, BitVec.getLsbD_zero]
  unfold view
  rw [hc]
  rfl

/-- A phase that is kept where a bit of the registers is cleared. -/
structure Wipes (P : EndpointAddress → ℕ → View → Prop) : Prop where
  complete : ∀ {ep d v}, P ep d v → P ep d { v with complete := false }
  stat : ∀ {ep d v}, P ep d v → P ep d { v with stat := false }

theorem wipes_slot : Wipes fun _ d v => Slot d v := ⟨fun h => h, fun h => h⟩

abbrev Staged (ep : EndpointAddress) (d : ℕ) (v : View) : Prop := Stage (reprimes ep) d v

theorem kept_staged : Kept Staged where
  slot h := h.slot
  move hd h hm := stage_move hd h hm
  fresh _ _ := .idle 0 0

theorem wipes_staged : Wipes Staged where
  complete h := by
    cases h with
    | idle n m => exact .idle n m
    | primed n m => exact .primed n m
    | loaded n m p hr => exact .loaded n m p hr
    | done n m p hr => exact .stuck n m p hr
    | stuck n m p hr => exact .stuck n m p hr
  stat h := by
    cases h with
    | idle n m => exact .idle n m
    | primed n m => exact .primed n m
    | loaded n m p hr => exact .stuck n m p hr
    | done n m p hr => exact .done n m p hr
    | stuck n m p hr => exact .stuck n m p hr

theorem complete_stage (h : Good Staged s) (hv : ep.isValid = true)
    (hc : (view s ep).complete = true) :
    ∃ d, d % 32 = 0 ∧ Stage (reprimes ep) d (view s ep) := by
  have hu : isEpBeingUsed s ep = true := by
    by_contra hu
    rw [h.free ep hv ((Bool.not_eq_true _).mp hu)] at hc
    cases hc
  obtain ⟨d, hd, -, hstage⟩ := h.held ep hu
  exact ⟨d, hd, hstage⟩

theorem complete_current (h : Good Staged s) (hv : ep.isValid = true)
    (hc : (view s ep).complete = true) : (view s ep).current % 32 = 0 := by
  obtain ⟨d, hd, hstage⟩ := complete_stage h hv hc
  generalize view s ep = v at hc hstage ⊢
  cases hstage with
  | done n m p hr => exact hd
  | _ => cases hc

theorem complete_stat (h : Good Staged s) (hv : ep.isValid = true)
    (hc : (view s ep).complete = true) : (view s ep).stat = false := by
  obtain ⟨d, -, hstage⟩ := complete_stage h hv hc
  exact (stage_done hstage hc).1

theorem good_wiped (h : Good P s) (hinner : t.inner = s.inner) (hdtd : t.dtd = s.dtd)
    (hheld : ∀ ep d, P ep d (view s ep) → P ep d (view t ep))
    (hslot : ∀ ep d, Slot d (view t ep) ↔ Slot d (view s ep))
    (hblank : ∀ ep, view s ep = blank → view t ep = blank)
    (hbits : ∀ j, t.endptcomplete.getLsbD j = true → s.endptcomplete.getLsbD j = true) :
    Good P t := by
  have hused := isEpBeingUsed_congr (congrArg Inner.usedDqhs hinner)
  constructor
  · intro a
    rw [hdtd]
    exact h.single a
  · rw [hinner]
    exact h.aligned
  · rw [hinner]
    exact h.nodup
  · intro ep hu
    rw [hused] at hu
    exact h.valid ep hu
  · intro ep hu
    rw [hused] at hu
    obtain ⟨d, hd, hpool, hp⟩ := h.held ep hu
    rw [hinner]
    exact ⟨d, hd, hpool, hheld ep d hp⟩
  · intro ep ep' d hd hu hu' hs hs'
    rw [hused] at hu hu'
    exact h.own ep ep' d hd hu hu' ((hslot ep d).mp hs) ((hslot ep' d).mp hs')
  · intro ep hv hu
    rw [hused] at hu
    exact hblank ep (h.free ep hv hu)
  · intro j hj
    exact h.bits j (hbits j hj)
  · rw [hinner]
    exact h.noted

theorem good_cleared (hw : Wipes P) (h : Good P s) : Good P (cleared s) := by
  refine good_wiped h rfl rfl (fun ep d hp => ?_) (fun ep d => ?_) (fun ep hb => ?_) fun j hj => ?_
  · rw [cleared_view]
    exact hw.complete hp
  · rw [cleared_view]
    exact Iff.rfl
  · rw [cleared_view, hb]
    rfl
  · rw [show (cleared s).endptcomplete = s.endptcomplete &&& ~~~s.endptcomplete from rfl,
      getLsbD_wiped] at hj
    cases hj

theorem good_flushed (hw : Wipes P) (h : Good P s) : Good P (flushed s) := by
  refine good_wiped h rfl rfl (fun ep d hp => ?_) (fun ep d => ?_) (fun ep hb => ?_) fun _ hj => hj
  · rw [flushed_view]
    exact hw.stat hp
  · rw [flushed_view]
    exact Iff.rfl
  · rw [flushed_view, hb]
    rfl

theorem rests_waitFor (hs : Single s) (hv : ep.isValid = true) (h : AtRest s ep)
    {cond : Usbd → Bool} {wait : List (List HwEvent)} (hw : waitFor cond s wait = .ok t) :
    Rests s ep t := by
  refine waitFor_invariant (I := fun t => Rests s ep t) (fun t e u ht hu => ?_) ⟨hs, rfl⟩ hw
  have hstep : Effect false t u := hwStep_effect ht.single e hu
  exact ⟨hstep.single, (rest_hwStep hv (h.congr ht.view) hu).trans ht.view⟩

theorem reset_rest (hs : Single s) (hv : ep.isValid = true) (h : AtRest s ep)
    {wait : List (List HwEvent)} (hr : Bus.reset s wait = .ok t) : AtRest t ep := by
  obtain ⟨u, hu, rfl⟩ := reset_ok hr
  have hc : AtRest (cleared s) ep := by
    constructor <;> rw [cleared_view]
    · exact h.prime
    · exact h.stat
  have hwait := rests_waitFor (s := cleared s) hs hv hc hu
  have hafter := hc.congr hwait.view
  constructor <;> rw [flushed_view]
  · exact hafter.prime
  · exact hafter.complete

theorem steady_reset (hP : Kept P) (hw : Wipes P) (h : Steady P s) {wait : List (List HwEvent)}
    (hr : reset s wait = .ok t) : Steady P t := by
  refine ⟨?_, reset_rest h.single rfl h.rest hr⟩
  obtain ⟨u, hu, rfl⟩ := reset_ok hr
  have hc := good_cleared hw h.toGood
  have he : Effect false (cleared s) u := (waitFor_effect hc.single _ wait hu).1
  have hf := waitFor_frame _ wait hu
  exact good_flushed hw (good_effect hP hc he (by rw [hf.inner]; exact hc.noted))

theorem steady_anyCall (hP : Kept P) (hw : Wipes P) (h : Steady P s) {l : Layout} {c : Call}
    {r : Response} (ha : Allowed l c) (hc : call s c = .ok (t, r)) : Steady P t := by
  cases hr : c.isReset with
  | false => exact steady_call hP h ha hr hc
  | true =>
    cases c with
    | reset wait =>
      obtain ⟨v, hv, heq⟩ := map_ok hc
      cases heq
      exact steady_reset hP hw h hv
    | _ => cases hr

theorem sane_reset (h : Sane s) {wait : List (List HwEvent)} (hr : reset s wait = .ok t) :
    Sane t := steady_reset kept_slot wipes_slot h hr

theorem sane_step {l : Layout} {x y : Session} {e : Event} (h : Sane x.usbd)
    (hs : step l x e = some y) : Sane y.usbd := by
  cases e with
  | hw e => exact steady_hwStep kept_slot h e (step_hw hs).1
  | call c =>
    obtain ⟨ha, r, hc, -⟩ := step_call hs
    exact steady_anyCall kept_slot wipes_slot h ha hc

/-- Only the driver counts a transfer as dealt with, and only the driver takes
the descriptor back. -/
theorem busy_moves {d : ℕ} (hd : d % 32 = 0) {free : Bool} {v v' : View} (hslot : Slot d v)
    (hm : ReflTransGen (Move free ep) v v') : v.ended ≤ v'.ended ∧
      (v'.ended = v.ended → v.current = d ∨ v.prime = true → v'.current = d ∨ v'.prime = true) := by
  induction hm with
  | refl => exact ⟨le_refl _, fun _ h => h⟩
  | @tail b c hb hm ih =>
    obtain ⟨hle, hbusy⟩ := ih
    have hsb : Slot d b := slot_moves hd hslot hb
    cases hm with
    | skip hp hn =>
      refine ⟨hle, fun _ _ => .inl ?_⟩
      rcases hsb with ⟨-, hnext⟩ | ⟨hcur, -⟩
      · exact absurd (hnext.symm.trans hn) (ne_noNextDtd hd)
      · exact hcur
    | fetch hp hn =>
      refine ⟨hle, fun _ _ => .inl ?_⟩
      rcases hsb with ⟨-, hnext⟩ | ⟨-, hnext⟩
      · exact hnext
      · exact absurd hnext hn
    | finish hs => exact ⟨hle, hbusy⟩
    | prime hf hd' hc => exact ⟨hle, fun _ _ => .inr rfl⟩
    | release hc ha =>
      refine ⟨Nat.le_succ_of_le hle, fun heq => ?_⟩
      have hlt : b.ended+1 = v.ended := heq
      omega
    | acknowledge hc ha =>
      refine ⟨Nat.le_succ_of_le hle, fun heq => ?_⟩
      have hlt : b.ended+1 = v.ended := heq
      omega

theorem stray_hwStep {j : ℕ} (hj : ∀ ep, ep.isValid = true → endptBit ep ≠ j) {e : HwEvent}
    (h : hwStep s e = some t) : t.endptprime.getLsbD j = s.endptprime.getLsbD j := by
  cases hwStep_happens h with
  | fetch ep hv hprime =>
    have hbit : (s.endptprime &&& ~~~epaddr2endptmask ep).getLsbD j = s.endptprime.getLsbD j := by
      rw [epaddr2endptmask_eq, getLsbD_clear, decide_eq_true (hj ep hv), Bool.and_true]
    unfold fetch
    simp only
    split <;> exact hbit
  | _ => rfl

end UsbArmory.Usb.ResetSteps
