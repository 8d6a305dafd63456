import UsbArmory.Library.Monitor
import UsbArmory.Storage.EmmcBlocks

/-!
# Bringing up the eMMC

`eMMC::take` over any board: what a register or a command answers may depend on
all that has been done before. The commands and the block transfer are those of
the driver.
-/

set_option autoImplicit false

namespace UsbArmory.Storage.EmmcTake
open UsbArmory.Library.Binary UsbArmory.Library.Trace UsbArmory.Library.Monitor
open UsbArmory.Storage.EmmcCommand UsbArmory.Storage.EmmcBlocks

inductive Register
  | intStatus
  | protCtrl
  | presState
  | vendSpec
  | sysCtrl
deriving DecidableEq

/-- `ocr` is history: the response to `SEND_OP_COND`. -/
inductive InitOp
  | card (op : Op)
  | ocr (word : UInt32)
  | bootMode (sbmr1 : UInt32)
  | load (register : Register) (value : UInt32)
  | store (register : Register) (value : UInt32)
  | elapsed (late : Bool)
  | wait (ms : ℕ)
  | extCsd (bytes : ℕ → UInt8)

abbrev Init (α : Type) := Traced InitOp (Fault Error) α

/-- `extCsd` is what the DMA has written to the buffer, which is at `addr`. -/
structure Board where
  controller : List InitOp → Controller
  register : List InitOp → Register → UInt32
  bootMode : List InitOp → UInt32
  late : List InitOp → Bool
  addr : UInt32
  extCsd : List InitOp → ℕ → UInt8

inductive Width
  | b1
  | b8
deriving DecidableEq

def Width.dtw : Width → UInt8
  | .b1 => 0b00
  | .b8 => 0b10

inductive Frequency
  | k400
  | m20

def Frequency.dividers : Frequency → UInt32 × UInt32
  | .k400 => (0x20, 8)
  | .m20 => (0x01, 4)

def cihb : UInt32 := 1
def cdihb : UInt32 := (1 : UInt32) <<< 1
def cken : UInt32 := (1 : UInt32) <<< 14
def sdstb : UInt32 := (1 : UInt32) <<< 3
def rsta : UInt32 := (1 : UInt32) <<< 24
def inita : UInt32 := (1 : UInt32) <<< 27
def ocrRdy : UInt32 := (1 : UInt32) <<< 31
def dtwOffset : UInt32 := 1
def dtwMask : UInt32 := (0b11 : UInt32) <<< dtwOffset
def dvsOffset : UInt32 := 4
def dvsMask : UInt32 := (0b1111 : UInt32) <<< dvsOffset
def sdclkfsOffset : UInt32 := 8
def sdclkfsMask : UInt32 := (0xff : UInt32) <<< sdclkfsOffset

def targetOcr : UInt32 := 0x00FF8000

/-- The closure of the update of `SYS_CTRL`. -/
def setDividers (f : Frequency) (r : UInt32) : UInt32 :=
  let r := r &&& ~~~dvsMask
  let r := r ||| f.dividers.2 <<< dvsOffset
  let r := r &&& ~~~sdclkfsMask
  r ||| f.dividers.1 <<< sdclkfsOffset

section Driver
variable (debug : Bool) (b : Board) (fuel : ℕ)

def send (cmd : Command) : Init UInt32 :=
  within .card fun before => sendCommand debug (b.controller before) cmd

def load (r : Register) : Init UInt32 :=
  operation fun before => (.load r (b.register before r), .ok (b.register before r))

def store (r : Register) (v : UInt32) : Init Unit := operation fun _ => (.store r v, .ok ())

def rmw (r : Register) (f : UInt32 → UInt32) : Init Unit := do
  let v ← load b r
  store r (f v)

def poll (r : Register) (done : UInt32 → Bool) : ℕ → Init Unit
  | 0 => throw .endless
  | fuel+1 => do
    let v ← load b r
    if done v then pure () else poll r done fuel

def wait (ms : ℕ) : Init Unit := operation fun _ => (.wait ms, .ok ())

def changeBusWidth (width : Width) (switch : Bool) : Init Unit := do
  if switch then
    let _ ← send debug b (.switch (match width with | .b1 => 0x03B70000 | .b8 => 0x03B70200))
  rmw b .protCtrl fun r => (r &&& ~~~dtwMask) ||| width.dtw.toUInt32 <<< dtwOffset

def changeFrequency (f : Frequency) : Init Unit := do
  poll b .presState (fun v => v &&& sdstb ≠ 0) fuel
  rmw b .vendSpec fun vendSpec => vendSpec &&& ~~~cken
  rmw b .sysCtrl (setDividers f)
  poll b .presState (fun v => v &&& sdstb ≠ 0) fuel
  rmw b .vendSpec fun vendSpec => vendSpec ||| cken

def softwareReset : Init Unit := do
  poll b .presState (fun v => v &&& (cdihb ||| cihb) = 0) fuel
  rmw b .vendSpec fun vendSpec => vendSpec &&& ~~~cken
  rmw b .sysCtrl fun r => r ||| rsta
  poll b .sysCtrl (fun v => v &&& rsta = 0) fuel
  changeBusWidth debug b .b1 false
  changeFrequency b fuel .k400
  wait 1
  rmw b .sysCtrl fun r => r ||| inita

def resetCards : Init Unit := do
  let _ ← send debug b .goIdleState

/-- The loop of `voltage_validation`. -/
def validate : ℕ → Init Unit
  | 0 => throw .endless
  | fuel+1 => do
    let ocr ← send debug b (.sendOpCond targetOcr)
    operation fun _ => (.ocr ocr, .ok ())
    if ocr &&& ocrRdy ≠ 0 then pure ()
    else do
      let late ← operation fun before => (.elapsed (b.late before), .ok (b.late before))
      if late then throw (.error .reset)
      else do
        wait 1
        validate fuel

def voltageValidation : Init Unit := validate debug b fuel

def registerCards : Init Unit := do
  let _ ← send debug b .allSendCid
  let _ ← send debug b (.setRelativeAddr rca)

def selectCard (emmc : Emmc) (card : Rca) : Init Emmc := do
  ensure (card = rca) "assertion failed: rca == RCA"
  let _ ← send debug b (.selectCard (some card))
  let _ ← send debug b (.setBlockLen 512)
  pure ⟨some card, emmc.blocks, rfl⟩

/-- `.expect("fatal")` -/
def expect {α : Type} (x : Init α) : Init α := mapStop (fun
  | .error (Fault.err _) => .panic "fatal"
  | stop => stop) x

def u32FromLe (b0 b1 b2 b3 : UInt8) : UInt32 :=
  b0.toUInt32 ||| b1.toUInt32 <<< 8 ||| b2.toUInt32 <<< 16 ||| b3.toUInt32 <<< 24

theorem rca_selected : (some rca).isSome = true := rfl

def fresh : Emmc := ⟨some rca, 0, rca_selected⟩

/-- The body of the closure of `take`. -/
def bringUp : Init Emmc := do
  let sbmr1 ← operation fun before => (.bootMode (b.bootMode before), .ok (b.bootMode before))
  ensure (sbmr1 &&& 0b11100000 ≠ 0b01000000) "the eMMC HAL doesn't work when booting from the uSD"
  store .intStatus (~~~0)
  rmw b .protCtrl fun r => r &&& ~~~((0b11 : UInt32) <<< 8)
  softwareReset debug b fuel
  expect (resetCards debug b)
  expect (voltageValidation debug b fuel)
  expect (registerCards debug b)
  let emmc ← expect (selectCard debug b fresh rca)
  expect (changeBusWidth debug b .b8 true)
  changeFrequency b fuel .m20
  expect (within .card fun before =>
    readSingleBlock debug (b.controller before) fuel emmc none b.addr)
  let extCsd ← operation fun before => (.extCsd (b.extCsd before), .ok (b.extCsd before))
  pure { emmc with blocks := u32FromLe (extCsd 212) (extCsd 213) (extCsd 214) (extCsd 215) }

/-- `available` is whether nobody has taken `uSDHC2` before. -/
def take (available : Bool) : Init (Option (Except Error Emmc)) :=
  if available then do
    let emmc ← bringUp debug b fuel
    pure (some (.ok emmc))
  else pure none

end Driver

end UsbArmory.Storage.EmmcTake
