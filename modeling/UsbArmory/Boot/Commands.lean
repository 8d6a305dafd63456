import UsbArmory.Library.Binary

/-!
# Device configuration data

The parser of the DCD. The subtractions on `u16` go through the build's
overflow mode; the loop over the commands has fuel for one command a byte.
-/

set_option autoImplicit false

namespace UsbArmory.Boot.Commands
open UsbArmory.Library.Word UsbArmory.Library.Binary

def maxLength : UInt16 := 1768

def headerSize : UInt16 := 4

def headerTag : UInt8 := 0xD2

def version : UInt8 := 0x40

structure Header where
  tag : UInt8
  length : UInt16
  version : UInt8
  deriving DecidableEq, Repr

def Header.parse : Parser Header := do
  let tag ← tagBytes [headerTag]
  let length ← beU16
  ensure (length ≤ maxLength) "not yet implemented: bubble up error"
  let version ← tagBytes [Commands.version]
  pure ⟨tag.headD 0, length, version.headD 0⟩

inductive Bytes where
  | b1
  | b2
  | b4
  deriving DecidableEq, Repr

def Bytes.toU8 : Bytes → UInt8
  | .b1 => 1
  | .b2 => 2
  | .b4 => 4

def Bytes.parse : BitParser Bytes := do
  let bits ← takeBits 3
  if bits = 1 then pure .b1
  else if bits = 2 then pure .b2
  else if bits = 4 then pure .b4
  else throw (.panic "TODO")

inductive Flags where
  | writeValue
  | clearBitmask
  | setBitmask
  deriving DecidableEq, Repr

def Flags.toU8 : Flags → UInt8
  | .writeValue => 0b00
  | .clearBitmask => 0b10
  | .setBitmask => 0b11

def Flags.parse : BitParser Flags := do
  let _ ← tagBits 0b000 3
  let flags ← takeBits 2
  if flags &&& 0b01 ≠ 0 then
    if flags &&& 0b10 ≠ 0 then pure .setBitmask else pure .clearBitmask
  else pure .writeValue

structure WriteDataCommandParameter where
  bytes : Bytes
  flags : Flags
  deriving DecidableEq, Repr

def WriteDataCommandParameter.parse : BitParser WriteDataCommandParameter := do
  let flags ← Flags.parse
  let bytes ← Bytes.parse
  pure ⟨bytes, flags⟩

structure WriteDataCommandHeader where
  tag : UInt8
  length : UInt16
  parameter : WriteDataCommandParameter
  deriving DecidableEq, Repr

def commandSize : UInt16 := 4

def commandTag : UInt8 := 0xCC

def WriteDataCommandHeader.parse : Parser WriteDataCommandHeader := do
  let tag ← tagBytes [commandTag]
  let length ← beU16
  let parameter ← bits WriteDataCommandParameter.parse
  pure ⟨tag.headD 0, length, parameter⟩

structure AddressValue where
  address : UInt32
  value : UInt32
  deriving DecidableEq, Repr

def Bytes.value : Bytes → Parser UInt32
  | .b1 => UInt8.toUInt32 <$> beU8
  | .b2 => UInt16.toUInt32 <$> beU16
  | .b4 => beU32

def AddressValue.parseOne (bytes : Bytes) : Parser AddressValue := do
  let address ← beU32
  let value ← bytes.value
  pure ⟨address, value⟩

def AddressValue.parse (length : UInt16) (bytes : Bytes) : Parser (List AddressValue) :=
  count (parseOne bytes) (length/(4+bytes.toU8.toUInt16)).toNat

structure WriteDataCommand where
  header : WriteDataCommandHeader
  addressValue : List AddressValue
  deriving DecidableEq, Repr

/-- `u16::try_from` -/
def toU16 (n : ℕ) : Option UInt16 := if n < 2^16 then some (UInt16.ofNat n) else none

def WriteDataCommand.writes (o : Overflow) (addressValue : List AddressValue) :
    Except (Stop Empty) WriteDataCommand := do
  let pairs ← expect "TODO" (toU16 (8*addressValue.length))
  let length ← expect "attempt to add with overflow" (o.add16 commandSize pairs)
  pure ⟨⟨commandTag, length, ⟨.b4, .writeValue⟩⟩, addressValue⟩

inductive Command where
  | writeData (command : WriteDataCommand)
  deriving DecidableEq, Repr

/-- `u16::checked_sub` -/
def checkedSub (a b : UInt16) : Option UInt16 := if b ≤ a then some (a-b) else none

def WriteDataCommand.parse (o : Overflow) (length : UInt16) : Parser (Command × UInt16) := do
  let header ← WriteDataCommandHeader.parse
  let length ← expect "attempt to subtract with overflow" (o.sub16 length header.length)
  let size ← expect "TODO" (checkedSub header.length commandSize)
  let addressValue ← AddressValue.parse size header.parameter.bytes
  pure (.writeData ⟨header, addressValue⟩, length)

def Command.parseLoop (o : Overflow) : ℕ → UInt16 → Parser (List Command)
  | fuel, length =>
    if length = 0 then pure []
    else match fuel with
      | 0 => throw .endless
      | fuel+1 => do
        let (cmd, length) ← WriteDataCommand.parse o length
        let list ← parseLoop o fuel length
        pure (cmd::list)

def Command.parse (o : Overflow) (length : UInt16) : Parser (List Command) := do
  let input ← get
  parseLoop o (input.length+1) length

structure Dcd where
  header : Header
  commands : List Command
  bytes : ByteString
  deriving DecidableEq, Repr

def Dcd.parse (o : Overflow) : Parser Dcd := do
  let input ← get
  let header ← Header.parse
  let length ← expect "TODO" (checkedSub header.length headerSize)
  let commands ← Command.parse o length
  ensure (header.length.toNat ≤ input.length) "range end index out of range"
  pure ⟨header, commands, input.take header.length.toNat⟩

def Dcd.asBytes (dcd : Dcd) : ByteString := dcd.bytes

end UsbArmory.Boot.Commands
