import UsbArmory.Usb.SetupCopy

/-!
# The SETUP packet that a read takes

The setup bytes are copied until no packet comes meanwhile, so a read takes the
last one.
-/

set_option autoImplicit false

namespace UsbArmory.Usb.Tripwire
open UsbArmory.Library.Bits UsbArmory.Usb.Descriptors UsbArmory.Usb.Controller UsbArmory.Usb.Bus
open UsbArmory.Usb.Endpoint UsbArmory.Usb.Effects UsbArmory.Usb.Read UsbArmory.Usb.SetupPackets
open UsbArmory.Usb.SetupCopy

def isSetup : HwEvent → Bool
  | .setup _ _ => true
  | _ => false

def nextSetup (setup : List UInt8) : HwEvent → List UInt8
  | .setup 0 bytes => bytes
  | _ => setup

/-- The SETUP packet in the queue head of endpoint 0 after these events. -/
def lastSetup (setup : List UInt8) (es : List HwEvent) : List UInt8 := es.foldl nextSetup setup

/-- What happens before the setup bytes are copied for the last time. -/
def disturbed : List (List HwEvent) → List HwEvent
  | [] => []
  | es::rounds => if es.any isSetup then es ++ disturbed rounds else []

def packet (s : Usbd) (hw : During) : List UInt8 :=
  lastSetup (s.dqhs 0).setup (hw.before ++ disturbed hw.rounds)

variable {s : Usbd}

theorem arriving_orderly {used : BitVec 8} (hu : used.getLsbD 0 = true) {e : HwEvent}
    (he : orderly e = true) : (arriving used e).isSome = isSetup e ∧
      ∀ setup, nextPacket used 0 setup e = nextSetup setup e := by
  cases e with
  | setup index bytes =>
    rw [orderly, Bool.and_eq_true, decide_eq_true_eq, supported, Bool.and_eq_true,
      decide_eq_true_eq] at he
    obtain ⟨rfl, hlen, -⟩ := he
    have hq : epaddr2dqhidx ⟨0, .out⟩ = 0 := rfl
    simp [arriving, nextPacket, nextSetup, isSetup, hq, hu, hlen]
  | _ => exact ⟨rfl, fun _ => rfl⟩

theorem lastSetup_eq {used : BitVec 8} (hu : used.getLsbD 0 = true) {es : List HwEvent}
    (he : ∀ e ∈ es, orderly e = true) (setup : List UInt8) :
    es.foldl (nextPacket used 0) setup = lastSetup setup es := by
  induction es generalizing setup with
  | nil => rfl
  | cons e es ih =>
    rw [List.forall_mem_cons] at he
    rw [List.foldl_cons, (arriving_orderly hu he.1).2, ih he.2]
    rfl

theorem disturbed_eq {used : BitVec 8} (hu : used.getLsbD 0 = true)
    {rounds : List (List HwEvent)} (he : ∀ e ∈ rounds.flatten, orderly e = true) :
    repeated used rounds = disturbed rounds := by
  induction rounds with
  | nil => rfl
  | cons es rounds ih =>
    rw [List.flatten_cons] at he
    have hany : (es.any fun e => (arriving used e).isSome) = es.any isSetup := by
      rw [Bool.eq_iff_iff, List.any_eq_true, List.any_eq_true]
      refine exists_congr fun e => and_congr_right fun hmem => ?_
      rw [(arriving_orderly hu (he e (List.mem_append_left _ hmem))).1]
    rw [repeated, disturbed, hany, ih fun e hmem => he e (List.mem_append_right _ hmem)]

theorem lastSetup_supported {setup : List UInt8} {es : List HwEvent}
    (he : ∀ e ∈ es, orderly e = true) (h : supported setup = true) :
    supported (lastSetup setup es) = true := by
  induction es generalizing setup with
  | nil => exact h
  | cons e es ih =>
    rw [List.forall_mem_cons] at he
    apply ih he.2
    have hhere := he.1
    cases e with
    | setup index bytes =>
      rw [orderly, Bool.and_eq_true, decide_eq_true_eq] at hhere
      obtain ⟨rfl, hsup⟩ := hhere
      exact hsup
    | _ => exact h

theorem mem_disturbed {rounds : List (List HwEvent)} {e : HwEvent} (h : e ∈ disturbed rounds) :
    e ∈ rounds.flatten := by
  induction rounds with
  | nil => exact h
  | cons es rounds ih =>
    rw [List.flatten_cons, List.mem_append]
    unfold disturbed at h
    split at h
    · rcases List.mem_append.mp h with h | h
      · exact .inl h
      · exact .inr (ih h)
    · cases h

theorem taken_packet {hw : During} (hhw : ∀ e ∈ hw.before ++ hw.rounds.flatten, orderly e = true)
    (hu : s.inner.usedDqhs.getLsbD 0 = true) :
    (tripwire (acknowledged s ⟨0, .out⟩ hw) 0 hw.rounds).2 = packet s hw ∧
      Follows s (tripwire (acknowledged s ⟨0, .out⟩ hw) 0 hw.rounds).1 := by
  have hbefore : ∀ e ∈ hw.before, orderly e = true :=
    fun e he => hhw e (List.mem_append_left _ he)
  have hrounds : ∀ e ∈ hw.rounds.flatten, orderly e = true :=
    fun e he => hhw e (List.mem_append_right _ he)
  have hack : Follows s (acknowledged s ⟨0, .out⟩ hw) :=
    ((follows_takeSetup s ⟨0, .out⟩).trans (follows_acknowledge _ _)).trans
      (follows_hardware hbefore)
  have hlatest : latest s ⟨0, .out⟩ hw = packet s hw := by
    rw [latest, disturbed_eq hu hrounds, packet]
    refine lastSetup_eq hu (fun e he => ?_) _
    exact (List.mem_append.mp he).elim (hbefore e) fun hmem => hrounds e (mem_disturbed hmem)
  exact ⟨(latest_taken s 0 hw).1.trans hlatest, hack.trans (follows_tripwire 0 hrounds)⟩

end UsbArmory.Usb.Tripwire
