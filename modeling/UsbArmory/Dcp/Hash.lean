import Mathlib.Algebra.Ring.Nat
import UsbArmory.Dcp.Command

/-!
# The SHA-256 channel

`Sha256` of `dcp/sha256.rs` over an engine that answers each command. A
pointer into a slice stands for the bytes from there to the end of the slice.
What the engine hashes is the stream from the command with `hash_init` to the
one with `hash_term`; the hash function itself is a parameter.
-/

set_option autoImplicit false

namespace UsbArmory.Dcp.Hash
open UsbArmory.Dcp.Command

abbrev Bytes := List UInt8

def maxCount : ℕ := 512*1024*1024

def blockSize : ℕ := 64

/-- `util::round_down` -/
def roundDown (n m : ℕ) : ℕ := n-n%m

/-- `heapless::Vec`, with a count of the extensions that it has refused. -/
structure Vec (cap : ℕ) where
  bytes : Bytes
  fits : bytes.length ≤ cap
  refused : ℕ

def Vec.new (cap : ℕ) : Vec cap := ⟨[], Nat.zero_le _, 0⟩

def Vec.isEmpty {cap : ℕ} (v : Vec cap) : Bool := v.bytes.isEmpty

def Vec.clear {cap : ℕ} (v : Vec cap) : Vec cap := ⟨[], Nat.zero_le _, v.refused⟩

def Vec.extendFromSlice {cap : ℕ} (v : Vec cap) (other : Bytes) : Vec cap :=
  if h : v.bytes.length+other.length ≤ cap then ⟨v.bytes ++ other, by simpa using h, v.refused⟩
  else { v with refused := v.refused+1 }

/-- How the engine ends a command. -/
inductive Answer where
  | done
  | timeout
  | error

structure Engine where
  answer : ℕ → Answer
  issued : List (Cmd Bytes)
  stream : Bytes

inductive Cause where
  | capacity
  | assertion
  | timeout
  | error

/-- The program has stopped, by a panic or by a reset, and left this behind. -/
structure Stop where
  cause : Cause
  engine : Engine

def payload (c : Cmd Bytes) : Bytes := (c.srcBufferAddr.getD []).take c.bufferSize

def isInit (c : Cmd Bytes) : Bool := c.control0.bits.getLsbD 12

def isTerm (c : Cmd Bytes) : Bool := c.control0.bits.getLsbD 13

def Engine.execute (d : Engine) (c : Cmd Bytes) : Engine :=
  { d with issued := d.issued ++ [c],
           stream := (if isInit c then [] else d.stream) ++ payload c }

/-- A command is written to channel 2, and the channel is waited for. -/
def issue (d : Engine) (c : Cmd Bytes) : Except Stop Engine :=
  match d.answer d.issued.length with
  | .done => .ok (d.execute c)
  | .timeout => .error ⟨.timeout, d.execute c⟩
  | .error => .error ⟨.error, d.execute c⟩

def require (p : Prop) [Decidable p] (d : Engine) : Except Stop Unit :=
  if p then .ok () else .error ⟨.assertion, d⟩

structure Sha256 where
  nextIsFirstBlock : Bool
  buffer : Vec blockSize
  count : ℕ

/-- What `take` makes of a free channel. -/
def Sha256.new : Sha256 := ⟨true, .new blockSize, 0⟩

/-- The command that `process_blocks` sets up. -/
def blocksCmd (nextIsFirstBlock : Bool) (blocks : Bytes) : Cmd Bytes :=
  { Cmd.new Bytes with
    control0 := ((((Control0.new.decrSemaphore true).enableHash true).hashOutput false).hashInit
      nextIsFirstBlock).hashTerm false
    control1 := Control1.new.hashSelect .sha256
    srcBufferAddr := some blocks
    bufferSize := blocks.length }

def processBlocks (blocks : Bytes) (nextIsFirstBlock : Bool) (d : Engine) :
    Except Stop (Bool × Engine) := do
  require (blocks ≠ []) d
  require (blocks.length % blockSize = 0) d
  let d ← issue d (blocksCmd nextIsFirstBlock blocks)
  return (false, d)

def processAndPush (nextIsFirstBlock : Bool) (buffer : Vec blockSize) (input : Bytes) (d : Engine) :
    Except Stop (Bool × Vec blockSize × Engine) := do
  require (buffer.isEmpty = true) d
  if blockSize ≤ input.length then
    let blocks := input.take (roundDown input.length blockSize)
    let leftover := input.drop (roundDown input.length blockSize)
    let (nextIsFirstBlock, d) ← processBlocks blocks nextIsFirstBlock d
    return (nextIsFirstBlock, buffer.extendFromSlice leftover, d)
  else return (nextIsFirstBlock, buffer.extendFromSlice input, d)

def pushAndProcess (nextIsFirstBlock : Bool) (buffer : Vec blockSize) (input : Bytes) (d : Engine) :
    Except Stop (Bool × Vec blockSize × Engine) := do
  require (buffer.isEmpty = false) d
  -- `split_at` panics where the head is longer than the input
  require (blockSize-buffer.bytes.length ≤ input.length) d
  let head := input.take (blockSize-buffer.bytes.length)
  let tail := input.drop (blockSize-buffer.bytes.length)
  let buffer := buffer.extendFromSlice head
  let (nextIsFirstBlock, d) ← processBlocks buffer.bytes nextIsFirstBlock d
  processAndPush nextIsFirstBlock buffer.clear tail d

/-- `usize::checked_add` -/
def checkedAdd (a b : ℕ) : Option ℕ := if a+b < 2^32 then some (a+b) else none

/-- The three ways of `input_slice` to take in bytes. -/
def takeIn (nextIsFirstBlock : Bool) (buffer : Vec blockSize) (input : Bytes) (d : Engine) :
    Except Stop (Bool × Vec blockSize × Engine) :=
  if buffer.isEmpty then processAndPush nextIsFirstBlock buffer input d
  else if buffer.bytes.length+input.length < blockSize then
    .ok (nextIsFirstBlock, buffer.extendFromSlice input, d)
  else pushAndProcess nextIsFirstBlock buffer input d

def Sha256.inputSlice (s : Sha256) (input : Bytes) (d : Engine) : Except Stop (Sha256 × Engine) :=
  if input.isEmpty then .ok (s, d)
  else if ((checkedAdd s.count input.length).map fun total => decide (maxCount < total)).getD
    true then
    .error ⟨.capacity, d⟩
  else do
    let (nextIsFirstBlock, buffer, d) ← takeIn s.nextIsFirstBlock s.buffer input d
    return (⟨nextIsFirstBlock, buffer, s.count+input.length⟩, d)

/-- The command that `fixed_result` sets up. -/
def resultCmd (s : Sha256) (output : Bytes) : Cmd Bytes :=
  let cmd : Cmd Bytes :=
    { Cmd.new Bytes with
      control0 := ((((Control0.new.decrSemaphore true).enableHash true).hashOutput false).hashInit
        s.nextIsFirstBlock).hashTerm true
      control1 := Control1.new.hashSelect .sha256
      payloadPointer := some output }
  if s.buffer.isEmpty then cmd
  else { cmd with srcBufferAddr := some s.buffer.bytes, bufferSize := s.buffer.bytes.length }

/-- `core` is the hash function of the engine, which leaves its result at the
payload pointer, last byte first. -/
def Sha256.fixedResult (core : Bytes → Vector UInt8 32) (s : Sha256) (d : Engine) :
    Except Stop (Bytes × Engine) := do
  let d ← issue d (resultCmd s (List.replicate 32 0))
  let output := (core d.stream).toList
  return (output.reverse, d)

def Sha256.reset (s : Sha256) : Sha256 :=
  { s with buffer := s.buffer.clear, nextIsFirstBlock := true }

def Sha256.inputs : Sha256 → List Bytes → Engine → Except Stop (Sha256 × Engine)
  | s, [], d => .ok (s, d)
  | s, call::calls, d => do
    let (s, d) ← s.inputSlice call d
    s.inputs calls d

/-- A list of `input` calls and `fixed_result`. -/
def Sha256.hash (core : Bytes → Vector UInt8 32) (s : Sha256) (calls : List Bytes) (d : Engine) :
    Except Stop (Bytes × Engine) := do
  let (s, d) ← s.inputs calls d
  s.fixedResult core d

end UsbArmory.Dcp.Hash
