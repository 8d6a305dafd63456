import UsbArmory.Library.Registers

/-!
# UART2

Its registers, and the initialization that configures them before the program
starts. Control registers keep what is written to them; what the others read as
is up to the hardware.
-/

set_option autoImplicit false

namespace UsbArmory.Serial.Uart
open UsbArmory.Library.Binary UsbArmory.Library.Trace UsbArmory.Library.Registers

/-- The registers of UART2, and those outside that the initialization accesses. -/
inductive Register where
  | urxd
  | utxd
  | ucr1
  | ucr2
  | ucr3
  | ucr4
  | ufcr
  | usr1
  | usr2
  | ubir
  | ubmr
  | uts
  | umcr
  | ccgr0
  | pad (address : UInt32)
  deriving DecidableEq, Repr

abbrev Act := Access Register UInt32

abbrev Io (α : Type) := Bus Register UInt32 Empty α

structure Hardware where
  before : Register → UInt32
  reads : List Act → Register → UInt32

def Hardware.control (hw : Hardware) (acts : List Act) (r : Register) : UInt32 :=
  stored r (hw.before r) acts

/-- Bit 0 of `UCR2` is also set while no reset is under way. -/
def Hardware.device (hw : Hardware) : Device Register UInt32 := fun acts r =>
  match r with
  | .ucr1 | .ucr3 | .ucr4 | .ufcr | .umcr => hw.control acts r
  | .ucr2 => hw.control acts r ||| (hw.reads acts r &&& 1)
  | _ => hw.reads acts r

section Init
variable (hw : Hardware)

def pins : Io Unit := do
  store (.pad 0x20E0094) 0
  store (.pad 0x20E0320) 0x0001b0b1
  store (.pad 0x20E0098) 0
  store (.pad 0x20E0324) 0x0001b0b1
  store (.pad 0x20E062C) 0b01

def baudRate (hostIsMacos : Bool) : Io Unit :=
  if hostIsMacos then do
    store .ubir 2
    store .ubmr 4
  else do
    store .ubir 0xf
    store .ubmr (20-1)

/-- The clock is ungated, and UART2 is disabled and reset when nothing is left to transmit. -/
def softwareReset (fuel : ℕ) : Io Unit := do
  let ccgr ← load hw.device .ccgr0
  store .ccgr0 (ccgr ||| (0b11 : UInt32) <<< 28)
  poll hw.device .uts (fun uts => uts &&& (1 : UInt32) <<< 6 != 0) fuel
  store .ucr1 0
  store .ucr2 0
  poll hw.device .ucr2 (fun ucr2 => ucr2 &&& 1 != 0) fuel

/-- 8 bits of data, 1 stop bit, no parity and no flow control. -/
def configure (hostIsMacos : Bool) : Io Unit := do
  store .ucr2 0x4027
  store .ucr3 0x0784
  store .ucr4 0x8000
  store .ufcr 0x0a81
  baudRate hostIsMacos
  store .umcr 0
  store .ucr1 1

def init (hostIsMacos : Bool) (fuel : ℕ) : Io Unit := do
  pins
  softwareReset hw fuel
  configure hostIsMacos

end Init

theorem sparing_store_empty (r : Register) (v : UInt32) : Sparing ∅ (store r v : Io Unit) :=
  sparing_store (Set.notMem_empty r) v

theorem sparing_pins : Sparing ∅ pins :=
  sparing_bind (sparing_store_empty _ _) fun _ => sparing_bind (sparing_store_empty _ _) fun _ =>
    sparing_bind (sparing_store_empty _ _) fun _ => sparing_bind (sparing_store_empty _ _) fun _ =>
      sparing_store_empty _ _

theorem sparing_softwareReset (hw : Hardware) (fuel : ℕ) : Sparing ∅ (softwareReset hw fuel) := by
  refine sparing_bind (sparing_load _ _) fun _ => sparing_bind (sparing_store_empty _ _) fun _ => ?_
  refine sparing_bind (sparing_poll _ _ _ _) fun _ => ?_
  refine sparing_bind (sparing_store_empty _ _) fun _ => ?_
  exact sparing_bind (sparing_store_empty _ _) fun _ => sparing_poll _ _ _ _

theorem sparing_baudRate {R : Set Register} (hubir : .ubir ∉ R) (hubmr : .ubmr ∉ R)
    (hostIsMacos : Bool) : Sparing R (baudRate hostIsMacos) := by
  unfold baudRate
  split
  · exact sparing_bind (sparing_store hubir _) fun _ => sparing_store hubmr _
  · exact sparing_bind (sparing_store hubir _) fun _ => sparing_store hubmr _

theorem configure_ucr1 (hostIsMacos : Bool) : Leaves .ucr1 1 (configure hostIsMacos) := by
  have hbaud : Sparing ∅ (baudRate hostIsMacos) :=
    sparing_baudRate (Set.notMem_empty _) (Set.notMem_empty _) hostIsMacos
  refine leaves_after (sparing_store_empty _ _) fun _ => ?_
  refine leaves_after (sparing_store_empty _ _) fun _ => ?_
  refine leaves_after (sparing_store_empty _ _) fun _ => ?_
  refine leaves_after (sparing_store_empty _ _) fun _ => leaves_after hbaud fun _ => ?_
  exact leaves_after (sparing_store_empty _ _) fun _ => leaves_store Register.ucr1 1

theorem configure_ucr2 (hostIsMacos : Bool) : Leaves .ucr2 0x4027 (configure hostIsMacos) := by
  have hother : ∀ r : Register, r ≠ .ucr2 → ∀ v, Sparing {.ucr2} (store r v : Io Unit) :=
    fun r hr => sparing_store hr
  have hubir : Register.ubir ≠ .ucr2 := by decide
  have hubmr : Register.ubmr ≠ .ucr2 := by decide
  refine leaves_before (leaves_store Register.ucr2 0x4027) fun _ => ?_
  refine sparing_bind (hother .ucr3 (by decide) _) fun _ => ?_
  refine sparing_bind (hother .ucr4 (by decide) _) fun _ => ?_
  refine sparing_bind (hother .ufcr (by decide) _) fun _ => ?_
  refine sparing_bind (sparing_baudRate hubir hubmr hostIsMacos) fun _ => ?_
  exact sparing_bind (hother .umcr (by decide) _) fun _ => hother .ucr1 (by decide) _

theorem init_leaves (hw : Hardware) (fuel : ℕ) {hostIsMacos : Bool} {r : Register} {v : UInt32}
    (h : Leaves r v (configure hostIsMacos)) : Leaves r v (init hw hostIsMacos fuel) :=
  leaves_after sparing_pins fun _ => leaves_after (sparing_softwareReset hw fuel) fun _ => h

end UsbArmory.Serial.Uart
