import UsbArmory.Library.Trace
import UsbArmory.Storage.EmmcDriver
import UsbArmory.Storage.MbrPartition

/-!
# Single blocks of the eMMC

`read` and `write` of the eMMC and of a partition on it, over any controller:
what it answers may depend on all that has been done before. A command runs as
a call of the driver, which may also wait for ever.
-/

set_option autoImplicit false

namespace UsbArmory.Storage.EmmcBlocks
open UsbArmory.Library.Binary UsbArmory.Library.Trace UsbArmory.Storage.EmmcCommand
open UsbArmory.Storage.EmmcDriver UsbArmory.Storage.MbrDisk UsbArmory.Storage.MbrPartition

inductive Register
  | mixCtrl
  | dsAddr
  | blkAtt
deriving DecidableEq

/-- What the driver does, with the readings of `CC`, `DLA` and the clock. -/
inductive Op
  | intStatus (cc : Bool)
  | command (cmd : Command)
  | presState (dla : Bool)
  | clearTc
  | write (register : Register) (value : UInt32)
  | resetWtmkLvl
  | now (late : Bool)

/-- An error is returned; `memlog_flush_and_reset!` does not return. -/
inductive Fault (E : Type)
  | err (e : E)
  | reset

def Fault.map {E F : Type} (f : E → F) : Fault E → Fault F
  | .err e => .err (f e)
  | .reset => .reset

abbrev Io (E α : Type) := Traced Op (Fault E) α

structure Controller where
  cc : List Op → Bool
  responds : List Op → Command → Option Outcome
  dla : List Op → Bool
  late : List Op → Bool

/-- `repr(align(4))` -/
abbrev BlockPtr := {addr : UInt32 // addr%4 = 0}

/-- `take` makes the only one, and with its card selected. -/
structure Emmc where
  selected : Option Rca
  blocks : UInt32
  ready : selected.isSome = true

def rca : Rca := ⟨2, by simp⟩

def Status.readyForData (s : Status) : Bool := s.bits &&& ((1 : UInt32) <<< 8) ≠ 0

/-- Bits that must always be ones, a single block, and the DMA. -/
def mixCtrlSingle : UInt32 := (1 : UInt32) <<< 31 ||| (0 : UInt32) <<< 5 ||| 1

def dtdselRead : UInt32 := (1 : UInt32) <<< 4
def dtdselWrite : UInt32 := (0 : UInt32) <<< 4

def answer : Option Outcome → Except (Stop (Fault Error)) UInt32
  | none => .error .endless
  | some (.ok rsp _ _) => .ok rsp.word
  | some (.err e) => .error (.error (.err e))

section Driver
variable (debug : Bool) (c : Controller) (fuel : ℕ)

def sendCommand (cmd : Command) : Io Error UInt32 := do
  if debug then
    let cc ← operation fun before => (.intStatus (c.cc before), .ok (c.cc before))
    ensure (cc = false) "INT_STATUS.CC bit was not cleared"
  operation fun before => (.command cmd, answer (c.responds before cmd))

def statusOf (rsp : UInt32) : Io Error Status :=
  match Status.ofBits rsp with
  | .ok status => pure status
  | .error status => throw (.error (.err (.card status)))

def getCardStatus (rca : Rca) : Io Error Status := do
  let rsp ← sendCommand debug c (.sendStatus rca)
  statusOf rsp

/-- `while self.usdhc.PRES_STATE.read() & PRES_STATE_DLA != 0` -/
def waitDla : ℕ → Io Error Unit
  | 0 => throw .endless
  | fuel+1 => do
    let dla ← operation fun before => (.presState (c.dla before), .ok (c.dla before))
    if dla then waitDla fuel

def step (op : Op) : Io Error Unit := operation fun _ => (op, .ok ())

def prepare (dtdsel : UInt32) (addr : UInt32) : Io Error Unit := do
  step (.write .mixCtrl (mixCtrlSingle ||| dtdsel))
  waitDla c fuel
  step .clearTc
  step (.write .dsAddr addr)
  step (.write .blkAtt ((1 : UInt32) <<< 16 ||| 512))
  step .resetWtmkLvl

variable (emmc : Emmc)

def selectedRca : Io Error Rca :=
  match emmc.selected with
  | some rca => pure rca
  | none => throw (.error .reset)

/-- The head of both: the card is selected and in the transfer state. -/
def transferState (addr : UInt32) : Io Error Rca := do
  let rca ← selectedRca emmc
  if debug then ensure (addr%4 = 0) "assertion failed: addr as usize % 4 == 0"
  let status ← getCardStatus debug c rca
  if !Status.readyForData status || status.state ≠ .transfer then
    throw (.error (.err .notInTransferState))
  pure rca

def readSingleBlock (blockNr : Option UInt32) (addr : UInt32) : Io Error Unit := do
  let _ ← transferState debug c emmc addr
  prepare c fuel dtdselRead addr
  let rsp ← sendCommand debug c ((blockNr.map .readSingleBlock).getD .sendExtCsd)
  let _ ← statusOf rsp

def programmed (rca : Rca) : ℕ → Io Error Unit
  | 0 => throw .endless
  | fuel+1 => do
    let status ← getCardStatus debug c rca
    if status.state ≠ .transfer then
      let late ← operation fun before => (.now (c.late before), .ok (c.late before))
      if late then throw (.error .reset) else programmed rca fuel

def writeSingleBlock (blockNr : UInt32) (addr : UInt32) : Io Error Unit := do
  let rca ← transferState debug c emmc addr
  prepare c fuel dtdselWrite addr
  let rsp ← sendCommand debug c (.writeSingleBlock blockNr)
  let status ← statusOf rsp
  if status.state = .programming then programmed debug c rca fuel

def Emmc.read (blockNr : UInt32) (block : BlockPtr) : Io Error Unit := do
  ensure (blockNr < emmc.blocks) "block doesn't exist"
  readSingleBlock debug c fuel emmc (some blockNr) block.val

def Emmc.write (blockNr : UInt32) (block : BlockPtr) : Io Error Unit := do
  ensure (blockNr < emmc.blocks) "block doesn't exist"
  writeSingleBlock debug c fuel emmc blockNr block.val

/-! `ManagedBlockDevice for eMMC` -/

def totalBlocks : UInt64 := emmc.blocks.toUInt64

def readLba (block : BlockPtr) (lba : UInt64) : Io Error Unit := do
  if lba > totalBlocks emmc then throw (.error (.err .other))
  emmc.read debug c fuel lba.toUInt32 block

def writeLba (block : BlockPtr) (lba : UInt64) : Io Error Unit := do
  if lba > totalBlocks emmc then throw (.error (.err .other))
  emmc.write debug c fuel lba.toUInt32 block

end Driver

/-! `ManagedBlockDevice for MbrPartitionRef` -/

def mapErr {E F α : Type} (f : E → F) (x : Io E α) : Io F α := ExceptT.mk fun before =>
  ((perform x before).1.mapError (Stop.mapError (Fault.map f)), (perform x before).2)

section Partition
variable (debug : Bool) (c : Controller) (fuel : ℕ) (p : MbrPartitionRef Emmc)

def readPart (block : BlockPtr) (lba : UInt64) : Io (MbrError Error) Unit := do
  if p.outside lba then throw (.error (.err .outOfRangeAccess))
  mapErr .device (readLba debug c fuel p.raw block (p.address lba))

def writePart (block : BlockPtr) (lba : UInt64) : Io (MbrError Error) Unit := do
  if p.outside lba then throw (.error (.err .outOfRangeAccess))
  mapErr .device (writeLba debug c fuel p.raw block (p.address lba))

end Partition

end UsbArmory.Storage.EmmcBlocks
