import UsbArmory.Boot.Reader

/-!
# Writing a program image

The writers of the image and of its sections. What is written goes to a
buffer that takes everything.
-/

set_option autoImplicit false

namespace UsbArmory.Boot.Writer
open UsbArmory.Library.Word UsbArmory.Library.Binary UsbArmory.Boot.Commands
open UsbArmory.Boot.Reader (Ivt BootData checkedSub32)

def maxImageSize : UInt32 := 32*1024*1024

def dramStart : UInt32 := 0x80000000

def reserved : UInt32 := 1024

def padding : UInt32 := 1024

structure Dcd where
  writes : List AddressValue
  deriving DecidableEq, Repr

structure Image where
  app : ByteString
  dcd : Option Dcd
  entry : UInt32
  deriving DecidableEq, Repr

def Dcd.size (o : Overflow) (dcd : Dcd) : Except (Stop Empty) UInt16 := do
  let pairs ← expect "attempt to multiply with overflow"
    (o.mul16 8 (UInt16.ofNat dcd.writes.length))
  expect "attempt to add with overflow" (o.add16 (headerSize+commandSize) pairs)

def Header.write (header : Header) : Writer Unit := do
  writeAll [header.tag]
  writeAll (toBe16 header.length)
  writeAll [header.version]

def WriteDataCommandHeader.write (header : WriteDataCommandHeader) : Writer Unit := do
  writeAll [header.tag]
  writeAll (toBe16 header.length)
  writeAll [header.parameter.bytes.toU8 ||| header.parameter.flags.toU8 <<< 3]

def AddressValue.write (av : AddressValue) : Writer Unit := do
  writeAll (toBe32 av.address)
  writeAll (toBe32 av.value)

def WriteDataCommand.write (command : WriteDataCommand) : Writer Unit := do
  WriteDataCommandHeader.write command.header
  ensure (command.header.parameter.bytes = .b4) "unimplemented"
  command.addressValue.forM AddressValue.write

def Dcd.write (o : Overflow) (dcd : Dcd) : Writer Unit := do
  let length ← dcd.size o
  Header.write ⟨headerTag, length, version⟩
  let command ← WriteDataCommand.writes o dcd.writes
  WriteDataCommand.write command

def Dcd.intoBytes (o : Overflow) (dcd : Dcd) : Except (Stop Empty) ByteString := do
  let (_, bytes) ← (dcd.write o).run []
  pure bytes

def Ivt.Header.write (header : Ivt.Header) : Writer Unit := do
  writeAll [header.tag]
  writeAll (toBe16 header.length)
  writeAll [header.version]

def Ivt.write (ivt : Ivt) : Writer Unit := do
  Ivt.Header.write ivt.header
  writeAll (toLe32 ivt.entry)
  writeAll [0, 0, 0, 0]
  writeAll (toLe32 ivt.dcd)
  writeAll (toLe32 ivt.boot)
  writeAll (toLe32 ivt.self_)
  writeAll (toLe32 ivt.csf)
  writeAll [0, 0, 0, 0]

def BootData.write (bootData : BootData) : Writer Unit := do
  writeAll (toLe32 bootData.start)
  writeAll (toLe32 bootData.len)
  writeAll (toLe32 bootData.plugin)

def Image.selfAddress (_ : Image) : UInt32 := dramStart+padding

/-- The table that the image is written with; it has no CSF. -/
def Image.ivt (image : Image) : Ivt :=
  { header := .default
    self_ := image.selfAddress
    boot := dramStart+padding+UInt32.ofNat Ivt.size
    dcd :=
      if image.dcd.isSome then dramStart+padding+UInt32.ofNat (Ivt.size+BootData.size) else 0
    csf := 0
    entry := image.entry }

/-- Writes the DCD, if any, after the first `pos` bytes, and returns its end. -/
def writeDcd (o : Overflow) (pos : UInt32) : Option Dcd → Writer UInt32
  | some dcd => do
    let size ← dcd.size o
    let pos ← expect "attempt to add with overflow" (o.add32 pos size.toUInt32)
    dcd.write o
    pure pos
  | none => pure pos

def Image.write (o : Overflow) (image : Image) : Writer Unit := do
  let len ← expect "attempt to add with overflow"
    (o.add32 (padding+reserved) (UInt32.ofNat image.app.length))
  ensure (len ≤ maxImageSize)
    ("the ROM bootloader supports image sizes up to 32 MB (got " ++ toString len ++ "B)")
  Ivt.write image.ivt
  BootData.write ⟨dramStart, len, 0⟩
  let pos ← writeDcd o (UInt32.ofNat (Ivt.size+BootData.size)) image.dcd
  let rest ← expect "TODO" (checkedSub32 reserved pos)
  writeAll (List.replicate rest.toNat 0)
  writeAll image.app

def Image.intoBytes (o : Overflow) (image : Image) : Except (Stop Empty) ByteString := do
  let (_, bytes) ← (image.write o).run []
  pure bytes

end UsbArmory.Boot.Writer
