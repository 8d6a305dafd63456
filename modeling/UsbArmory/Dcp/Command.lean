import Mathlib.Tactic.Common

/-!
# Commands of the data co-processor

The work packet of `dcp.rs` with its two control words. The type of the
pointers is a parameter: what a pointer stands for depends on what is proved.
-/

set_option autoImplicit false

namespace UsbArmory.Dcp.Command

structure Control0 where
  bits : BitVec 32
  deriving DecidableEq

structure Control1 where
  bits : BitVec 32
  deriving DecidableEq

def Control0.new : Control0 := ⟨0⟩

/-- A member of `setters0!`. -/
def Control0.put (offset : ℕ) (c : Control0) (on : Bool) : Control0 :=
  if on then ⟨c.bits ||| BitVec.twoPow 32 offset⟩ else ⟨c.bits &&& ~~~BitVec.twoPow 32 offset⟩

def Control0.decrSemaphore : Control0 → Bool → Control0 := Control0.put 1
def Control0.enableCipher : Control0 → Bool → Control0 := Control0.put 5
def Control0.enableHash : Control0 → Bool → Control0 := Control0.put 6
def Control0.cipherEncrypt : Control0 → Bool → Control0 := Control0.put 8
def Control0.otpKey : Control0 → Bool → Control0 := Control0.put 10
def Control0.hashInit : Control0 → Bool → Control0 := Control0.put 12
def Control0.hashTerm : Control0 → Bool → Control0 := Control0.put 13
def Control0.hashOutput : Control0 → Bool → Control0 := Control0.put 15

def Control1.new : Control1 := ⟨0⟩

/-- A member of `setters1!`. -/
def Control1.put (mask : BitVec 32) (offset : ℕ) (c : Control1) (val : BitVec 32) : Control1 :=
  ⟨c.bits &&& ~~~(mask <<< offset) ||| val <<< offset⟩

inductive CipherSelect where
  | aes128

def CipherSelect.bits : CipherSelect → BitVec 32
  | .aes128 => 0

inductive CipherMode where
  | ecb
  | cbc

def CipherMode.bits : CipherMode → BitVec 32
  | .ecb => 0
  | .cbc => 1

inductive KeySelect where
  | key0
  | uniqueKey
  | otpKey
  deriving DecidableEq

def KeySelect.bits : KeySelect → BitVec 32
  | .key0 => 0
  | .uniqueKey => 0xfe
  | .otpKey => 0xff

inductive HashSelect where
  | sha256

def HashSelect.bits : HashSelect → BitVec 32
  | .sha256 => 2

def Control1.cipherSelect (c : Control1) (val : CipherSelect) : Control1 :=
  c.put 0xf 0 val.bits
def Control1.cipherMode (c : Control1) (val : CipherMode) : Control1 :=
  c.put 0xf 4 val.bits
def Control1.keySelect (c : Control1) (val : KeySelect) : Control1 :=
  c.put 0xff 8 val.bits
def Control1.hashSelect (c : Control1) (val : HashSelect) : Control1 :=
  c.put 0xf 16 val.bits

structure Cmd (Ptr : Type) where
  nextCmdAddr : Option ℕ
  control0 : Control0
  control1 : Control1
  srcBufferAddr : Option Ptr
  destBufferAddr : Option Ptr
  bufferSize : ℕ
  payloadPointer : Option Ptr
  status : BitVec 32

def Cmd.new (Ptr : Type) : Cmd Ptr :=
  { nextCmdAddr := none, control0 := .new, control1 := .new, srcBufferAddr := none,
    destBufferAddr := none, bufferSize := 0, payloadPointer := none, status := 0 }

def Cmd.key {Ptr : Type} (c : Cmd Ptr) : BitVec 32 := c.control1.bits >>> 8 &&& 0xff

end UsbArmory.Dcp.Command
