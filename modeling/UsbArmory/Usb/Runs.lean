import UsbArmory.Library.Run
import UsbArmory.Usb.Bus

/-!
# Runs of the driver

The calls that a USB stack makes, with the events of the controller between
them, and the log of the calls that have returned. The stack reads OUT
endpoints into memory of its own and writes to IN endpoints.
-/

set_option autoImplicit false

namespace UsbArmory.Usb.Runs
open UsbArmory.Library.Run UsbArmory.Usb.Controller UsbArmory.Usb.Bus

inductive Call where
  | allocEp (dir : UsbDirection) (addr : Option EndpointAddress) (ty : EndpointType)
      (maxPacketSize : ℕ)
  | enable
  | setDeviceAddress (addr : BitVec 8) (gaps : EndpointAddress → List HwEvent)
  | reset (wait : List (List HwEvent))
  | poll (h₁ h₂ : List HwEvent)
  | read (ep : EndpointAddress) (buf : Lent) (hw : During)
  | startWrite (ep : EndpointAddress) (bytes : List UInt8) (gap : List HwEvent)

inductive Response where
  | done
  | allocated (r : Except UsbError EndpointAddress)
  | polled (r : PollResult)
  | read (r : Except UsbError (List UInt8))
  | written (r : Except UsbError ℕ)

def call (s : Usbd) : Call → Except Halt (Usbd × Response)
  | .allocEp dir addr ty n => (allocEp s dir addr ty n).map fun p => (p.1, .allocated p.2)
  | .enable => .ok (Bus.enable s, .done)
  | .setDeviceAddress addr gaps => .ok (Bus.setDeviceAddress s addr gaps, .done)
  | .reset wait => (Bus.reset s wait).map fun t => (t, .done)
  | .poll h₁ h₂ => (Bus.poll s h₁ h₂).map fun p => (p.1, .polled p.2)
  | .read ep buf hw => (Bus.read s ep buf hw).map fun p => (p.1, .read p.2)
  | .startWrite ep bytes gap => (Bus.startWrite s ep bytes gap).map fun p => (p.1, .written p.2)

def Allowed (l : Layout) : Call → Prop
  | .read ep buf _ => ep.isOut = true ∧ buf.addr ∉ l.b64s ++ l.b512s
  | .startWrite ep _ _ => ep.isOut = false
  | _ => True

instance (l : Layout) : (c : Call) → Decidable (Allowed l c)
  | .read ep buf _ => inferInstanceAs (Decidable (ep.isOut = true ∧ buf.addr ∉ l.b64s ++ l.b512s))
  | .startWrite ep _ _ => inferInstanceAs (Decidable (ep.isOut = false))
  | .allocEp _ _ _ _ => isTrue trivial
  | .enable => isTrue trivial
  | .setDeviceAddress _ _ => isTrue trivial
  | .reset _ => isTrue trivial
  | .poll _ _ => isTrue trivial

def Call.isReset : Call → Bool
  | .reset _ => true
  | _ => false

inductive Event where
  | hw (e : HwEvent)
  | call (c : Call)

def Event.isReset : Event → Bool
  | .hw _ => false
  | .call c => c.isReset

structure Session where
  usbd : Usbd
  log : List (Call × Response)

def start (l : Layout) : Session := ⟨l.start, []⟩

def step (l : Layout) (x : Session) : Event → Option Session
  | .hw e => (hwStep x.usbd e).map fun t => ⟨t, x.log⟩
  | .call c =>
    if Allowed l c then
      match call x.usbd c with
      | .error _ => none
      | .ok (t, r) => some ⟨t, x.log ++ [(c, r)]⟩
    else none

variable {l : Layout} {x y : Session}

theorem step_hw {e : HwEvent} (h : step l x (.hw e) = some y) :
    hwStep x.usbd e = some y.usbd ∧ y.log = x.log := by
  obtain ⟨t, ht, rfl⟩ := Option.map_eq_some_iff.mp h
  exact ⟨ht, rfl⟩

theorem step_call {c : Call} (h : step l x (.call c) = some y) :
    Allowed l c ∧ ∃ r, call x.usbd c = .ok (y.usbd, r) ∧ y.log = x.log ++ [(c, r)] := by
  unfold step at h
  simp only at h
  split at h
  next ha =>
    split at h
    next => cases h
    next t r hcall =>
      cases h
      exact ⟨ha, r, hcall, rfl⟩
  next => cases h

/-- Memory for endpoint 0 and a pair of others, for runs on fixed inputs. -/
def smallLayout : Layout :=
  ⟨[0, 32, 64, 96], [128, 192, 256], [512], by decide, by decide, by decide⟩

theorem map_ok {ε α β : Type} {a : Except ε α} {f : α → β} {b : β} (h : a.map f = .ok b) :
    ∃ x, a = .ok x ∧ b = f x := by
  cases a with
  | error e => cases h
  | ok x =>
    cases h
    exact ⟨x, rfl, rfl⟩

end UsbArmory.Usb.Runs
