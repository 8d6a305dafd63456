import UsbArmory.Library.Latch
import UsbArmory.Storage.EmmcCommand

/-!
# `eMMC::send_command` against the controller

The driver runs one call at a time, from one access of the registers to the
next, and the controller raises flags in between. A flag carries the number of
the command that raised it, and so does the word in `CMD_RSP0`; the driver
reads neither number.
-/

set_option autoImplicit false

namespace UsbArmory.Storage.EmmcDriver
open UsbArmory.Library.Latch UsbArmory.Storage.EmmcCommand

/-- The bits of `INT_STATUS` that the driver looks at. -/
inductive Flag
  | cc
  | tc
  | dint
  | ctoe
  | cce
  | cebe
  | cie
  | dtoe
  | dce
  | debe
  | dmae
deriving DecidableEq

/-- `INT_STATUS_ANY_ERROR`. -/
def anyErrorFlags : List Flag := [.ctoe, .cce, .cebe, .cie, .dtoe, .dce, .debe, .dmae]

def anyError (f : Flag) : Bool := anyErrorFlags.contains f

def transferDone : Flag → Bool
  | .tc | .dint => true
  | _ => false

abbrev IntStatus := Latches Flag ℕ

def hasError (int : IntStatus) : Bool := anyErrorFlags.any (isSet int)

structure Reply where
  word : UInt32
  sender : ℕ

/-- Where a call stands: before the bus wait, before a poll of `INT_STATUS`,
after one that found nothing, after the one that ended the wait, and after
`CC` is cleared. The same again for the data transfer. -/
inductive Pc
  | idle
  | entered (cmd : Command)
  | waiting (cmd : Command)
  | missed (cmd : Command)
  | completed (cmd : Command) (seen : IntStatus)
  | acknowledged (cmd : Command) (seen : IntStatus)
  | transferring (cmd : Command) (seen : IntStatus) (rsp : Reply)
  | stalled (cmd : Command) (seen : IntStatus) (rsp : Reply)
  | transferred (cmd : Command) (seen : IntStatus) (rsp : Reply) (done : IntStatus)

/-- How a call ended, with the readings of `INT_STATUS` that ended its waits. -/
inductive Outcome
  | ok (rsp : Reply) (seen : IntStatus) (done : Option IntStatus)
  | err (e : Error)

structure State where
  pc : Pc
  intStatus : IntStatus
  cmdRsp0 : Reply
  cmdArg : UInt32
  cmdXfrTyp : UInt32
  /-- The number of commands issued, which is the number of the last one. -/
  issued : ℕ
  /-- The last call that returned, by the number of its command. -/
  last : Option (ℕ × Outcome)

inductive Event
  /-- `read_single_block` and `write_single_block` clear `TC`. -/
  | clearTc
  | call (cmd : Command)
  /-- The call takes its next step. The reading is whether the bus is idle, or
  whether the time of a wait is over, where the step looks at that. -/
  | advance (reading : Bool)
  /-- The controller raises a flag for a command that has been issued. -/
  | raise (id : ℕ) (f : Flag) (word : UInt32)

/-- What both waits do with the errors that they read: the bits to clear and
the error to return. -/
def waitError (seen : IntStatus) : Option ((Flag → Bool) × Error) :=
  if isSet seen .ctoe then some ((· == .ctoe), .timeout)
  else if hasError seen then some (fun f => anyError f && isSet seen f, .other)
  else none

/-- The card error of a response that carries the card status. -/
def cardError (cmd : Command) (rsp : Reply) : Option Error :=
  if cmd.response = .r1 ∨ cmd.response = .r1b then
    match Status.ofBits rsp.word with
    | .error status => some (.card status)
    | .ok _ => none
  else none

namespace State

variable (s : State)

def clear (mask : Flag → Bool) : State :=
  { s with intStatus := Library.Latch.clear s.intStatus mask }

def goto (pc : Pc) : State := { s with pc := pc }

def ret (o : Outcome) : State := { s with pc := .idle, last := some (s.issued, o) }

def fail (mask : Flag → Bool) (e : Error) : State := (s.clear mask).ret (.err e)

def issue (cmd : Command) (w : UInt32) : State :=
  { s with pc := .waiting cmd, cmdArg := cmd.arg, cmdXfrTyp := w, issued := s.issued+1 }

def hasCommandCompleted : Bool := hasError s.intStatus || isSet s.intStatus .cc

def hasTransferCompleted : Bool :=
  hasError s.intStatus || (isSet s.intStatus .tc && isSet s.intStatus .dint)

/-- The head of `send_command`: in a debug build the assertion stops the driver. -/
def enter (debug : Bool) (cmd : Command) : Option State :=
  if debug && isSet s.intStatus .cc then none else some (s.goto (.entered cmd))

def advance (reading : Bool) : Option State :=
  match s.pc with
  | .idle => none
  | .entered cmd => if reading then cmd.wCmd.map (s.issue cmd) else some s
  | .waiting cmd =>
    some (s.goto (if s.hasCommandCompleted then .completed cmd s.intStatus else .missed cmd))
  | .missed cmd =>
    some (if reading then s.fail (fun _ => false) .timeout else s.goto (.waiting cmd))
  | .completed cmd seen =>
    match waitError seen with
    | some (mask, e) => some (s.fail mask e)
    | none => some ((s.clear (· == .cc)).goto (.acknowledged cmd seen))
  | .acknowledged cmd seen =>
    match cardError cmd s.cmdRsp0 with
    | some e => some (s.fail (fun _ => false) e)
    | none =>
      if cmd.dataPresent then some (s.goto (.transferring cmd seen s.cmdRsp0))
      else some (s.ret (.ok s.cmdRsp0 seen none))
  | .transferring cmd seen rsp =>
    some (s.goto (if s.hasTransferCompleted then .transferred cmd seen rsp s.intStatus
      else .stalled cmd seen rsp))
  | .stalled cmd seen rsp =>
    some (if reading then s.fail (fun _ => false) .timeout
      else s.goto (.transferring cmd seen rsp))
  | .transferred _ seen rsp done =>
    match waitError done with
    | some (mask, e) => some (s.fail mask e)
    | none => some ((s.clear transferDone).ret (.ok rsp seen (some done)))

/-- `CMD_RSP0` takes the response when `CC` is raised. -/
def raise (id : ℕ) (f : Flag) (word : UInt32) : State :=
  { s with
    intStatus := Library.Latch.raise s.intStatus f id
    cmdRsp0 := if f = .cc then ⟨word, id⟩ else s.cmdRsp0 }

end State

def step (debug : Bool) (s : State) : Event → Option State
  | .clearTc => match s.pc with
    | .idle => some (s.clear (· == .tc))
    | _ => none
  | .call cmd => match s.pc with
    | .idle => s.enter debug cmd
    | _ => none
  | .advance reading => s.advance reading
  | .raise id f word => if 1 ≤ id ∧ id ≤ s.issued then some (s.raise id f word) else none

/-- `INT_STATUS` is cleared when the driver is taken. -/
def start (rsp : Reply) (arg xfrTyp : UInt32) : State :=
  ⟨.idle, fun _ => [], rsp, arg, xfrTyp, 0, none⟩

end UsbArmory.Storage.EmmcDriver
