import Mathlib.Tactic.Common

/-!
# The commands of the eMMC driver

The command table of `emmc/cmd.rs`, the word that `send_command` writes to
`CMD_XFR_TYP`, and the card status that an `R1` response carries.
-/

set_option autoImplicit false

namespace UsbArmory.Storage.EmmcCommand

abbrev Rca := {n : UInt16 // n ≠ 0}

inductive Command
  | goIdleState
  | sendOpCond (ocr : UInt32)
  | allSendCid
  | setRelativeAddr (rca : Rca)
  | switch (data : UInt32)
  | selectCard (rca : Option Rca)
  | sendExtCsd
  | sendCsd (rca : Rca)
  | sendStatus (rca : Rca)
  | setBlockLen (len : UInt32)
  | readSingleBlock (blockNr : UInt32)
  | writeSingleBlock (blockNr : UInt32)

/-- The type of a command: broadcast without and with a response, addressed,
and addressed with a data transfer. -/
inductive Kind
  | bc
  | bcr
  | ac
  | adtc
deriving DecidableEq

inductive Response
  | none
  | r1
  | r1b
  | r2
  | r3
  | r4
  | r5
  | r6
deriving DecidableEq

namespace Command

def ocrBusy : UInt32 := (1 : UInt32) <<< 31

def indexTypeArgResp : Command → UInt8 × Kind × UInt32 × Response
  | goIdleState => (0, .bc, 0, .none)
  | sendOpCond ocr => (1, .bcr, ocr &&& ~~~ocrBusy, .r3)
  | allSendCid => (2, .bcr, 0, .r2)
  | setRelativeAddr rca => (3, .ac, rca.val.toUInt32 <<< 16, .r1)
  | switch data => (6, .ac, data, .r1b)
  | selectCard rca => (7, .ac, ((rca.map Subtype.val).getD 0).toUInt32 <<< 16, .r1)
  | sendExtCsd => (8, .adtc, 0, .r1)
  | sendCsd rca => (9, .ac, rca.val.toUInt32 <<< 16, .r2)
  | sendStatus rca => (13, .ac, rca.val.toUInt32 <<< 16, .r1)
  | setBlockLen len => (16, .ac, len, .r1)
  | readSingleBlock blockNr => (17, .adtc, blockNr, .r1)
  | writeSingleBlock blockNr => (24, .adtc, blockNr, .r1)

def index (cmd : Command) : UInt8 := cmd.indexTypeArgResp.1
def kind (cmd : Command) : Kind := cmd.indexTypeArgResp.2.1
def arg (cmd : Command) : UInt32 := cmd.indexTypeArgResp.2.2.1
def response (cmd : Command) : Response := cmd.indexTypeArgResp.2.2.2

/-- The assertion on the index stops the driver. -/
def cmdtyp (cmd : Command) : Option UInt8 :=
  if cmd.index ≠ 52 then some (if cmd.index = 12 then 0b11 else 0b00) else none

def dataPresent (cmd : Command) : Bool := cmd.kind == .adtc

def respCicenCccen (cmd : Command) : UInt8 × UInt8 × UInt8 :=
  match cmd.response with
  | .none => (0b00, 0, 0)
  | .r2 => (0b01, 0, 1)
  | .r3 | .r4 => (0b10, 0, 0)
  | .r1 | .r5 | .r6 => (0b10, 1, 1)
  | .r1b => (0b11, 1, 1)

def responseType (cmd : Command) : UInt8 := cmd.respCicenCccen.1
def cicen (cmd : Command) : Bool := cmd.respCicenCccen.2.1 == 1
def cccen (cmd : Command) : Bool := cmd.respCicenCccen.2.2 == 1

def rstypOffset : UInt32 := 16
def cicenBit : UInt32 := (1 : UInt32) <<< 20
def cccenBit : UInt32 := (1 : UInt32) <<< 19
def dpsel : UInt32 := (1 : UInt32) <<< 21
def cmdtypOffset : UInt32 := 22
def cmdinxOffset : UInt32 := 24

/-- The local `w_cmd` of `send_command`. -/
def wCmd (cmd : Command) : Option UInt32 :=
  cmd.cmdtyp.map fun cmdtyp =>
    cmd.index.toUInt32 <<< cmdinxOffset ||| cmdtyp.toUInt32 <<< cmdtypOffset |||
      (if cmd.dataPresent then dpsel else 0) ||| (if cmd.cicen then cicenBit else 0) |||
      (if cmd.cccen then cccenBit else 0) ||| cmd.responseType.toUInt32 <<< rstypOffset

theorem cmdtyp_eq (cmd : Command) : cmd.cmdtyp = some 0 := by
  cases cmd <;> rfl

theorem wCmd_fields (cmd : Command) : ∃ w, cmd.wCmd = some w ∧
    w >>> cmdinxOffset = cmd.index.toUInt32 ∧
    w &&& dpsel = if cmd.dataPresent then dpsel else 0 := by
  rw [wCmd, cmdtyp_eq]
  refine ⟨_, rfl, ?_⟩
  simp only [index, dataPresent, kind, cicen, cccen, responseType, respCicenCccen, response]
  cases cmd <;> simp +decide [indexTypeArgResp]

end Command

inductive CardState
  | idle
  | ready
  | identification
  | standby
  | transfer
  | sendingData
  | receiveData
  | programming
  | other
deriving DecidableEq

structure Status where
  bits : UInt32
  state : CardState
deriving DecidableEq

namespace Status

def errorBits : List UInt32 :=
  [31, 30, 29, 28, 27, 26, 24, 23, 22, 21, 20, 19, 18, 17, 16, 15, 13, 7]

def errorMask : UInt32 := errorBits.foldl (fun mask epos => mask ||| (1 : UInt32) <<< epos) 0

def stateOf (bits : UInt32) : CardState :=
  match (bits >>> 9) &&& 0b1111 with
  | 0 => .idle
  | 1 => .ready
  | 2 => .identification
  | 3 => .standby
  | 4 => .transfer
  | 5 => .sendingData
  | 6 => .receiveData
  | 7 => .programming
  | _ => .other

/-- `Status::from`. -/
def ofBits (bits : UInt32) : Except Status Status :=
  if bits &&& errorMask ≠ 0 then .error ⟨bits, stateOf bits⟩ else .ok ⟨bits, stateOf bits⟩

end Status

/-- `emmc::Error`. -/
inductive Error
  | timeout
  | notInTransferState
  | other
  | card (status : Status)
deriving DecidableEq

end UsbArmory.Storage.EmmcCommand
