import Mathlib.Logic.Function.Basic
import UsbArmory.Dcp.Command
import UsbArmory.Library.Run

/-!
# Two AES-128 handles on one channel

`xcrypt` of `dcp/aes128.rs`, step by step, with calls on the other handle that
preempt it. Both kinds of handle write to the registers of channel 3: the
pointer register names a command, and a write to the semaphore has the engine
execute the command that is named then. The frames of calls that have returned
stay in memory as they were. Numbers of calls, and the lists of calls that have
started the engine and that have returned, are history for the proofs.
-/

set_option autoImplicit false

namespace UsbArmory.Dcp.Aes
open UsbArmory.Library.Run UsbArmory.Dcp.Command

abbrev Bytes := List UInt8

/-- A call of `xcrypt`: the key of its handle, the addresses of `cmd` and of the
block, and what is in the block. -/
structure Call where
  id : ℕ
  key : KeySelect
  encrypt : Bool
  frame : ℕ
  block : ℕ
  data : Bytes

/-- The command that `xcrypt` sets up. -/
def Call.cmd (c : Call) : Cmd ℕ :=
  { Cmd.new ℕ with
    control0 := (((Control0.new.decrSemaphore true).enableCipher true).cipherEncrypt
      c.encrypt).otpKey (decide (c.key = .otpKey))
    control1 := ((Control1.new.cipherSelect .aes128).cipherMode .ecb).keySelect c.key
    srcBufferAddr := some c.block
    destBufferAddr := some c.block
    bufferSize := 16 }

/-- The handle that a call is made on, of the two that can be live. -/
def KeySelect.ram : KeySelect → Bool
  | .key0 => true
  | .uniqueKey => false
  | .otpKey => false

structure Frame where
  id : ℕ
  cmd : Cmd ℕ

def Call.own (c : Call) : Frame := ⟨c.id, c.cmd⟩

def Frame.finished (f : Frame) : Frame :=
  { f with cmd := { f.cmd with status := f.cmd.status ||| 1 } }

def Frame.isDone (f : Frame) : Bool := f.cmd.status.getLsbD 0

structure Channel where
  ch3cmdptr : Option ℕ
  frames : ℕ → Option Frame
  blocks : ℕ → Bytes
  executed : List Frame

/-- What AES makes of a block, for the key that a command selects and a direction. -/
abbrev Cipher := BitVec 32 → Bool → Bytes → Bytes

def encrypts (c : Cmd ℕ) : Bool := c.control0.bits.getLsbD 8

def crypt (aes : Cipher) (c : Cmd ℕ) (blocks : ℕ → Bytes) : ℕ → Bytes :=
  match c.srcBufferAddr, c.destBufferAddr with
  | some src, some dest => Function.update blocks dest (aes c.key (encrypts c) (blocks src))
  | _, _ => blocks

/-- `CH3SEMA.write(1)` -/
def Channel.ch3sema (aes : Cipher) (ch : Channel) : Channel :=
  match ch.ch3cmdptr with
  | none => ch
  | some a =>
    match ch.frames a with
    | none => ch
    | some f =>
      { ch with
        frames := Function.update ch.frames a (some f.finished)
        blocks := crypt aes f.cmd ch.blocks
        executed := ch.executed ++ [f] }

/-- The steps of a call before it takes effect on the engine. -/
def Channel.load (ch : Channel) (c : Call) : Channel :=
  { ch with blocks := Function.update ch.blocks c.block c.data }

def Channel.build (ch : Channel) (c : Call) : Channel :=
  { ch with frames := Function.update ch.frames c.frame (some c.own) }

def Channel.point (ch : Channel) (c : Call) : Channel := { ch with ch3cmdptr := some c.frame }

def Channel.done (ch : Channel) (c : Call) : Bool :=
  ((ch.frames c.frame).map Frame.isDone).getD false

/-- What is next in a call. After the pointer write it is remembered whether
the call has been preempted there. -/
inductive Pc where
  | called
  | built
  | pointed (struck : Bool)
  | started

def Pc.strike : Pc → Pc
  | .pointed _ => .pointed true
  | pc => pc

structure Machine where
  channel : Channel
  cur : Option (Call × Pc)
  begun : List ℕ
  started : List Call
  returned : List (Call × Bytes)

inductive Event where
  | begin (c : Call)
  | resume
  | preempt (c : Call)

def resume (aes : Cipher) (m : Machine) (c : Call) : Pc → Machine
  | .called => { m with channel := m.channel.build c, cur := some (c, .built) }
  | .built => { m with channel := m.channel.point c, cur := some (c, .pointed false) }
  | .pointed _ => { m with channel := m.channel.ch3sema aes, cur := some (c, .started),
                           started := m.started ++ [c] }
  | .started =>
    if m.channel.done c then
      { m with cur := none, returned := m.returned ++ [(c, m.channel.blocks c.block)] }
    else m

def whole (aes : Cipher) (ch : Channel) (c : Call) : Channel :=
  Channel.ch3sema aes (((ch.load c).build c).point c)

/-- The call that preempts is on the other handle, and in memory of its own. -/
def Apart (c o : Call) : Prop :=
  KeySelect.ram c.key ≠ KeySelect.ram o.key ∧ c.frame ≠ o.frame ∧ c.block ≠ o.block

instance (c o : Call) : Decidable (Apart c o) :=
  inferInstanceAs (Decidable (_ ∧ _ ∧ _))

/-- A call that preempts is done when the other goes on; the run ends where it
would wait forever. -/
def step (aes : Cipher) (m : Machine) : Event → Option Machine
  | .begin c =>
    if m.cur.isNone ∧ c.id ∉ m.begun then
      some { m with
        channel := m.channel.load c, cur := some (c, .called), begun := m.begun ++ [c.id] }
    else none
  | .resume => m.cur.map fun x => resume aes m x.1 x.2
  | .preempt c =>
    match m.cur with
    | none => none
    | some (o, pc) =>
      if c.id ∉ m.begun ∧ Apart c o ∧ (whole aes m.channel c).done c = true then
        some { channel := whole aes m.channel c, cur := some (o, pc.strike),
               begun := m.begun ++ [c.id], started := m.started ++ [c],
               returned := m.returned ++ [(c, (whole aes m.channel c).blocks c.block)] }
      else none

def start : Machine :=
  { channel :=
      { ch3cmdptr := none, frames := fun _ => none, blocks := fun _ => [], executed := [] },
    cur := none, begun := [], started := [], returned := [] }

def Call.result (aes : Cipher) (c : Call) : Bytes := aes c.key.bits c.encrypt c.data

/-- Every semaphore write has had the engine execute the command of the call
that made it, and the calls that have returned have their blocks done. -/
structure Sound (aes : Cipher) (m : Machine) : Prop where
  executed : m.channel.executed = m.started.map Call.own
  once : (m.started.map Call.id).Nodup
  returned : ∀ r ∈ m.returned, r.1 ∈ m.started ∧ r.2 = r.1.result aes

/-- No call goes on from its pointer write after it has been preempted there. -/
def Undisturbed (m : Machine) : Event → Prop
  | .resume => ∀ o, m.cur ≠ some (o, .pointed true)
  | _ => True

theorem cmd_key (c : Call) : c.cmd.key = c.key.bits := by
  show (((Control1.new.cipherSelect .aes128).cipherMode .ecb).keySelect c.key).bits >>> 8
      &&& 0xff = _
  cases c.key <;> decide

theorem cmd_encrypts (c : Call) : encrypts c.cmd = c.encrypt := by
  show ((((Control0.new.decrSemaphore true).enableCipher true).cipherEncrypt c.encrypt).otpKey
    (decide (c.key = .otpKey))).bits.getLsbD 8 = _
  cases c.encrypt <;> cases c.key <;> decide

end UsbArmory.Dcp.Aes
