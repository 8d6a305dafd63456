import Mathlib.Logic.Relation
import UsbArmory.Usb.Bus

/-!
# What happens to one endpoint

The pointers of a queue head and the three register bits of its endpoint,
the moves that the controller and the driver make on them, and the phases an
endpoint goes through. An effect of a call is a sequence of such moves on
every endpoint.
-/

set_option autoImplicit false

namespace UsbArmory.Usb.Endpoint
open UsbArmory.Library.Bits UsbArmory.Usb.Descriptors UsbArmory.Usb.Controller UsbArmory.Usb.Bus
open Relation

def endptBit (ep : EndpointAddress) : ℕ := if ep.isOut then ep.index else 16 + ep.index

theorem epaddr2endptmask_eq (ep : EndpointAddress) :
    epaddr2endptmask ep = mask 32 (endptBit ep) := by
  unfold epaddr2endptmask endptBit
  split <;> rfl

theorem epaddr2dqhidx_inj {ep ep' : EndpointAddress} (h : epaddr2dqhidx ep = epaddr2dqhidx ep') :
    ep = ep' := by
  obtain ⟨i, d⟩ := ep
  obtain ⟨i', d'⟩ := ep'
  cases d <;> cases d' <;> simp [epaddr2dqhidx, EndpointAddress.isOut] at h ⊢ <;> omega

theorem index_lt {ep : EndpointAddress} (h : ep.isValid = true) : ep.index < 2 := by
  have hlt : epaddr2dqhidx ep < endpoints := of_decide_eq_true h
  unfold epaddr2dqhidx endpoints at hlt
  omega

theorem endptBit_lt {ep : EndpointAddress} (h : ep.isValid = true) : endptBit ep < 32 := by
  have hi := index_lt h
  unfold endptBit
  split <;> omega

theorem endptBit_inj {ep ep' : EndpointAddress} (h : ep.isValid = true) (h' : ep'.isValid = true)
    (hb : endptBit ep = endptBit ep') : ep = ep' := by
  have hi := index_lt h
  have hi' := index_lt h'
  obtain ⟨i, d⟩ := ep
  obtain ⟨i', d'⟩ := ep'
  cases d <;> cases d' <;> simp [endptBit, EndpointAddress.isOut] at hb hi hi' ⊢ <;> omega

structure View where
  current : ℕ
  next : ℕ
  prime : Bool
  stat : Bool
  complete : Bool
  transfers : ℕ
  ended : ℕ
  deriving DecidableEq

def view (s : Usbd) (ep : EndpointAddress) : View :=
  { current := (s.dqhs (epaddr2dqhidx ep)).currentDtd
    next := (s.dqhs (epaddr2dqhidx ep)).nextDtd
    prime := s.endptprime.getLsbD (endptBit ep)
    stat := s.endptstat.getLsbD (endptBit ep)
    complete := s.endptcomplete.getLsbD (endptBit ep)
    transfers := (s.transfers (epaddr2dqhidx ep)).length
    ended := s.ended (epaddr2dqhidx ep) }

def controlOut : EndpointAddress := ⟨0, .out⟩

/-- Endpoints that may be primed while a transfer is in flight: by a bit of ENDPTPRIME that is set
again, or by enabling an OUT endpoint. -/
def reprimes (ep : EndpointAddress) : Bool := ep ≠ controlOut

/-- What the controller and the driver do to an endpoint; only a read of OUT
data from endpoint 0 is `free` to prime that. -/
inductive Move (free : Bool) (ep : EndpointAddress) : View → View → Prop where
  | skip (v : View) (hp : v.prime = true) (hn : v.next = noNextDtd) :
      Move free ep v { v with prime := false }
  | fetch (v : View) (hp : v.prime = true) (hn : v.next ≠ noNextDtd) :
      Move free ep v ⟨v.next, noNextDtd, false, true, v.complete, v.transfers, v.ended⟩
  | finish (v : View) (hs : v.stat = true) :
      Move free ep v { v with stat := false, complete := true, transfers := v.transfers + 1 }
  | prime (v : View) (hf : ep ≠ controlOut ∨ free = true)
      (hd : v.current % 32 = 0 ∨ v.next ≠ noNextDtd)
      (hc : v.current % 32 ≠ 0 ∨ reprimes ep = true) : Move free ep v { v with prime := true }
  | release (v : View) (hc : v.complete = true) (ha : v.current % 32 = 0) :
      Move free ep v ⟨noNextDtd, v.current, v.prime, v.stat, false, v.transfers, v.ended + 1⟩
  | acknowledge (v : View) (hc : v.complete = true) (ha : v.current % 32 ≠ 0) :
      Move free ep v { v with complete := false, ended := v.ended + 1 }

def Slot (d : ℕ) (v : View) : Prop :=
  v.current = noNextDtd ∧ v.next = d ∨ v.current = d ∧ v.next = noNextDtd

def blank : View := ⟨noNextDtd, noNextDtd, false, false, false, 0, 0⟩

/-- The phases of a transfer, after `n` transfers. -/
inductive Phase (again : Bool) (d : ℕ) : View → Prop where
  | idle (n : ℕ) : Phase again d ⟨noNextDtd, d, false, false, false, n, n⟩
  | primed (n : ℕ) : Phase again d ⟨noNextDtd, d, true, false, false, n, n⟩
  | loaded (n : ℕ) (p : Bool) (hp : p = true → again = true) :
      Phase again d ⟨d, noNextDtd, p, true, false, n, n⟩
  | done (n : ℕ) (p : Bool) (hp : p = true → again = true) :
      Phase again d ⟨d, noNextDtd, p, false, true, n + 1, n⟩

structure Quiet (v : View) : Prop where
  prime : v.prime = false
  stat : v.stat = false
  complete : v.complete = false

abbrev AtRest (s : Usbd) (ep : EndpointAddress) : Prop := Quiet (view s ep)

theorem AtRest.congr {s t : Usbd} {ep : EndpointAddress} (h : AtRest s ep)
    (hv : view t ep = view s ep) : AtRest t ep := by
  constructor <;> rw [hv]
  · exact h.prime
  · exact h.stat
  · exact h.complete

variable {free : Bool} {ep : EndpointAddress}

theorem quiet_moves {v v' : View} (h : Quiet v) (hm : ReflTransGen (Move false controlOut) v v') :
    v' = v := by
  induction hm with
  | refl => rfl
  | tail _ hm ih =>
    subst ih
    cases hm with
    | skip hp hn => cases hp.symm.trans h.prime
    | fetch hp hn => cases hp.symm.trans h.prime
    | finish hs => cases hs.symm.trans h.stat
    | prime hf hd hc => exact absurd rfl (hf.resolve_right Bool.false_ne_true)
    | release hc ha => cases hc.symm.trans h.complete
    | acknowledge hc ha => cases hc.symm.trans h.complete

theorem noNextDtd_mod : noNextDtd % 32 ≠ 0 := by decide

theorem ne_noNextDtd {d : ℕ} (hd : d % 32 = 0) : d ≠ noNextDtd := by
  intro h
  rw [h] at hd
  exact noNextDtd_mod hd

theorem slot_move {d : ℕ} (hd : d % 32 = 0) {v v' : View} (h : Slot d v)
    (hm : Move free ep v v') : Slot d v' := by
  have hne := ne_noNextDtd hd
  cases hm with
  | skip hp hn => exact h
  | fetch hp hn =>
    rcases h with ⟨hc, hn'⟩ | ⟨hc, hn'⟩
    · exact Or.inr ⟨hn', rfl⟩
    · exact absurd hn' hn
  | finish hs => exact h
  | prime hf hd' hc => exact h
  | release hc ha =>
    rcases h with ⟨hc', hn'⟩ | ⟨hc', hn'⟩
    · rw [hc'] at ha
      exact absurd ha noNextDtd_mod
    · exact Or.inl ⟨rfl, hc'⟩
  | acknowledge hc ha => exact h

theorem phase_move {d : ℕ} (hd : d % 32 = 0) {v v' : View} (h : Phase (reprimes ep) d v)
    (hm : Move free ep v v') : Phase (reprimes ep) d v' := by
  have hne := ne_noNextDtd hd
  cases hm with
  | skip hp hn =>
    cases h with
    | idle n => exact .idle n
    | primed n => exact absurd hn hne
    | loaded n p hr => exact .loaded n false (by simp)
    | done n p hr => exact .done n false (by simp)
  | fetch hp hn =>
    cases h with
    | idle n => cases hp
    | primed n => exact .loaded n false (by simp)
    | loaded n p hr => exact absurd rfl hn
    | done n p hr => exact absurd rfl hn
  | finish hs =>
    cases h with
    | idle n => cases hs
    | primed n => cases hs
    | loaded n p hr => exact .done n p hr
    | done n p hr => cases hs
  | prime hf hd' hc =>
    cases h with
    | idle n => exact .primed n
    | primed n => exact .primed n
    | loaded n p hr => exact .loaded n true fun _ => hc.resolve_left fun hn => hn hd
    | done n p hr => exact .done n true fun _ => hc.resolve_left fun hn => hn hd
  | release hc ha =>
    cases h with
    | idle n => cases hc
    | primed n => cases hc
    | loaded n p hr => cases hc
    | done n p hr =>
      cases p with
      | false => exact .idle (n + 1)
      | true => exact .primed (n + 1)
  | acknowledge hc ha =>
    cases h with
    | idle n => cases hc
    | primed n => cases hc
    | loaded n p hr => cases hc
    | done n p hr => exact absurd hd ha

/-- The phases of a transfer, and that of a transfer that a bus reset has
flushed. -/
inductive Stage (again : Bool) (d : ℕ) : View → Prop where
  | idle (n m : ℕ) : Stage again d ⟨noNextDtd, d, false, false, false, n, m⟩
  | primed (n m : ℕ) : Stage again d ⟨noNextDtd, d, true, false, false, n, m⟩
  | loaded (n m : ℕ) (p : Bool) (hp : p = true → again = true) :
      Stage again d ⟨d, noNextDtd, p, true, false, n, m⟩
  | done (n m : ℕ) (p : Bool) (hp : p = true → again = true) :
      Stage again d ⟨d, noNextDtd, p, false, true, n, m⟩
  | stuck (n m : ℕ) (p : Bool) (hp : p = true → again = true) :
      Stage again d ⟨d, noNextDtd, p, false, false, n, m⟩

theorem Stage.slot {again : Bool} {d : ℕ} {v : View} (h : Stage again d v) : Slot d v := by
  cases h with
  | idle | primed => exact Or.inl ⟨rfl, rfl⟩
  | loaded | done | stuck => exact Or.inr ⟨rfl, rfl⟩

theorem stage_move {d : ℕ} (hd : d % 32 = 0) {v v' : View} (h : Stage (reprimes ep) d v)
    (hm : Move free ep v v') : Stage (reprimes ep) d v' := by
  have hne := ne_noNextDtd hd
  cases hm with
  | skip hp hn =>
    cases h with
    | idle => cases hp
    | primed => exact absurd hn hne
    | loaded n m p hr => exact .loaded n m false (by simp)
    | done n m p hr => exact .done n m false (by simp)
    | stuck n m p hr => exact .stuck n m false (by simp)
  | fetch hp hn =>
    cases h with
    | idle => cases hp
    | primed n m => exact .loaded n m false (by simp)
    | loaded | done | stuck => exact absurd rfl hn
  | finish hs =>
    cases h with
    | loaded n m p hr => exact .done (n + 1) m p hr
    | _ => cases hs
  | prime hf hd' hc =>
    have hagain : ∀ {c : ℕ}, (c % 32 ≠ 0 ∨ reprimes ep = true) → c = d → true = true →
        reprimes ep = true := by
      rintro c hc rfl -
      exact hc.resolve_left fun hn => hn hd
    cases h with
    | idle n m => exact .primed n m
    | primed n m => exact .primed n m
    | loaded n m p hr => exact .loaded n m true (hagain hc rfl)
    | done n m p hr => exact .done n m true (hagain hc rfl)
    | stuck n m p hr => exact .stuck n m true (hagain hc rfl)
  | release hc ha =>
    cases h with
    | done n m p hr =>
      cases p with
      | false => exact .idle n (m + 1)
      | true => exact .primed n (m + 1)
    | _ => cases hc
  | acknowledge hc ha =>
    cases h with
    | done => exact absurd hd ha
    | _ => cases hc

theorem stage_done {again : Bool} {d : ℕ} {v : View} (h : Stage again d v)
    (hc : v.complete = true) : v.stat = false ∧ (again = false → v.prime = false) := by
  cases h with
  | done n m p hr =>
    refine ⟨rfl, fun hno => ?_⟩
    cases p with
    | false => rfl
    | true => cases (hr rfl).symm.trans hno
  | _ => cases hc

theorem stage_moves {d : ℕ} (hd : d % 32 = 0) {v v' : View} (h : Stage (reprimes ep) d v)
    (hm : ReflTransGen (Move free ep) v v') : Stage (reprimes ep) d v' := by
  induction hm with
  | refl => exact h
  | tail _ hm ih => exact stage_move hd ih hm

theorem quiet_stage {again : Bool} {d : ℕ} {v : View} (h : Quiet v) (hc : v.current = noNextDtd)
    (hn : v.next = d) : Stage again d v := by
  obtain ⟨c, n, p, st, co, tr, en⟩ := v
  obtain ⟨rfl, rfl, rfl⟩ := h
  obtain rfl : c = noNextDtd := hc
  obtain rfl : n = d := hn
  exact .idle tr en

theorem slot_unique {d d' : ℕ} {v : View} (hd : d % 32 = 0) (hd' : d' % 32 = 0) (h : Slot d v)
    (h' : Slot d' v) : d = d' := by
  have hne := ne_noNextDtd hd
  have hne' := ne_noNextDtd hd'
  rcases h with ⟨hc, hn⟩ | ⟨hc, hn⟩ <;> rcases h' with ⟨hc', hn'⟩ | ⟨hc', hn'⟩ <;> omega

theorem slot_next {d : ℕ} {v : View} (hd : d % 32 = 0) (h : Slot d v) (hc : v.current % 32 ≠ 0) :
    v.current = noNextDtd ∧ v.next = d := by
  rcases h with h | ⟨hc', hn⟩
  · exact h
  · rw [hc'] at hc
    exact absurd hd hc

theorem slot_moves {d : ℕ} (hd : d % 32 = 0) {v v' : View} (h : Slot d v)
    (hm : ReflTransGen (Move free ep) v v') : Slot d v' := by
  induction hm with
  | refl => exact h
  | tail _ hm ih => exact slot_move hd ih hm

theorem Phase.slot {r : Bool} {d : ℕ} {v : View} (h : Phase r d v) : Slot d v := by
  cases h with
  | idle n => exact Or.inl ⟨rfl, rfl⟩
  | primed n => exact Or.inl ⟨rfl, rfl⟩
  | loaded n p hr => exact Or.inr ⟨rfl, rfl⟩
  | done n p hr => exact Or.inr ⟨rfl, rfl⟩

theorem unused_moves {v v' : View} (h : v = blank)
    (hm : ReflTransGen (Move free ep) v v') : v' = v := by
  induction hm with
  | refl => rfl
  | tail _ hm ih =>
    subst h
    subst ih
    cases hm with
    | skip hp hn => cases hp
    | fetch hp hn => cases hp
    | finish hs => cases hs
    | prime hf hd hc =>
      rcases hd with hd | hd
      · exact absurd hd noNextDtd_mod
      · exact absurd rfl hd
    | release hc ha => cases hc
    | acknowledge hc ha => cases hc

/-- No descriptor has a successor. -/
def Single (s : Usbd) : Prop := ∀ a, (s.dtd a).nextDtd = noNextDtd

/-- Every endpoint goes from its view in `s` to that in `s'` by moves. -/
structure Effect (free : Bool) (s s' : Usbd) : Prop where
  moves : ∀ ep, ep.isValid = true → ReflTransGen (Move free ep) (view s ep) (view s' ep)
  bits : ∀ j, s'.endptcomplete.getLsbD j = true →
    s.endptcomplete.getLsbD j = true ∨ ∃ ep, ep.isValid = true ∧ endptBit ep = j
  single : Single s'
  used : s'.inner.usedDqhs = s.inner.usedDqhs
  dtds : s'.inner.dtds = s.inner.dtds

theorem Effect.trans {s t u : Usbd} (h : Effect free s t) (h' : Effect free t u) :
    Effect free s u := by
  refine ⟨fun ep hv => (h.moves ep hv).trans (h'.moves ep hv), fun j hj => ?_, h'.single,
    h'.used.trans h.used, h'.dtds.trans h.dtds⟩
  rcases h'.bits j hj with hj | hj
  · exact h.bits j hj
  · exact Or.inr hj

theorem Move.weaken {v v' : View} (hm : Move false ep v v') : Move free ep v v' := by
  cases hm with
  | skip hp hn => exact .skip v hp hn
  | fetch hp hn => exact .fetch v hp hn
  | finish hs => exact .finish v hs
  | prime hf hd hc => exact .prime v (Or.inl (hf.resolve_right (by simp))) hd hc
  | release hc ha => exact .release v hc ha
  | acknowledge hc ha => exact .acknowledge v hc ha

theorem Effect.weaken {s s' : Usbd} (h : Effect false s s') : Effect free s s' :=
  ⟨fun ep hv => ReflTransGen.mono (fun _ _ hm => hm.weaken) _ _ (h.moves ep hv), h.bits, h.single,
    h.used, h.dtds⟩

theorem Effect.one {s s' : Usbd} (ep : EndpointAddress) (hv : ep.isValid = true)
    (hm : Move free ep (view s ep) (view s' ep))
    (hother : ∀ ep', ep'.isValid = true → ep' ≠ ep → view s' ep' = view s ep')
    (hbits : ∀ j, endptBit ep ≠ j → s'.endptcomplete.getLsbD j = s.endptcomplete.getLsbD j)
    (hs : Single s') (hu : s'.inner.usedDqhs = s.inner.usedDqhs)
    (hd : s'.inner.dtds = s.inner.dtds) : Effect free s s' := by
  refine ⟨fun ep' hv' => ?_, fun j hj => ?_, hs, hu, hd⟩
  · by_cases he : ep' = ep
    · rw [he]
      exact .single hm
    · rw [hother ep' hv' he]
  · by_cases he : endptBit ep = j
    · exact Or.inr ⟨ep, hv, he⟩
    · rw [hbits j he] at hj
      exact Or.inl hj

theorem Effect.same {s s' : Usbd} (hv : ∀ ep, view s' ep = view s ep) (hs : Single s')
    (hu : s'.inner.usedDqhs = s.inner.usedDqhs) (hd : s'.inner.dtds = s.inner.dtds) :
    Effect free s s' := by
  refine ⟨fun ep _ => ?_, fun j hj => ?_, hs, hu, hd⟩
  · rw [hv]
  · have hview : s'.endptcomplete.getLsbD j = s.endptcomplete.getLsbD j :=
      congrArg View.complete (hv ⟨j, .out⟩)
    rw [hview] at hj
    exact Or.inl hj

theorem Effect.refl {s : Usbd} (hs : Single s) : Effect free s s := .same (fun _ => rfl) hs rfl rfl

end UsbArmory.Usb.Endpoint
