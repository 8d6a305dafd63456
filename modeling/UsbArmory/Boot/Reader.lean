import UsbArmory.Boot.Commands

/-!
# Reading a program image

The image vector table, the boot data and the parser of the image.
-/

set_option autoImplicit false

namespace UsbArmory.Boot.Reader
open UsbArmory.Library.Word UsbArmory.Library.Binary UsbArmory.Boot.Commands

def ivtTag : UInt8 := 0xD1

def ivtLength : UInt16 := 32

def version0 : UInt8 := 0x40

def version1 : UInt8 := 0x41

structure Ivt.Header where
  tag : UInt8
  length : UInt16
  version : UInt8
  deriving DecidableEq, Repr

def Ivt.Header.parse : Parser Ivt.Header := do
  let tag ← tagBytes [ivtTag]
  let length ← beU16
  ensure (length = ivtLength) "not yet implemented"
  let version ← alt (tagBytes [version0]) (tagBytes [version1])
  pure ⟨tag.headD 0, length, version.headD 0⟩

/-- `Default for Header` -/
def Ivt.Header.default : Ivt.Header := ⟨ivtTag, ivtLength, version0⟩

structure Ivt where
  header : Ivt.Header
  entry : UInt32
  dcd : UInt32
  boot : UInt32
  self_ : UInt32
  csf : UInt32
  deriving DecidableEq, Repr

def Ivt.size : ℕ := 32

def Ivt.parse : Parser Ivt := do
  let header ← Ivt.Header.parse
  let entry ← leU32
  let _ ← tagBytes [0, 0, 0, 0]
  let dcd ← leU32
  let boot ← leU32
  let self_ ← leU32
  let csf ← leU32
  let _ ← tagBytes [0, 0, 0, 0]
  pure ⟨header, entry, dcd, boot, self_, csf⟩

structure BootData where
  start : UInt32
  len : UInt32
  plugin : UInt32
  deriving DecidableEq, Repr

def BootData.size : ℕ := 12

def BootData.parse : Parser BootData := do
  let start ← leU32
  let len ← leU32
  let plugin ← leU32
  pure ⟨start, len, plugin⟩

structure Image where
  ivt : Ivt
  bootData : BootData
  dcd : Option Dcd
  deriving DecidableEq, Repr

/-- `u32::checked_sub` -/
def checkedSub32 (a b : UInt32) : Option UInt32 := if b ≤ a then some (a-b) else none

/-- `input.get(start..stop)` -/
def getRange (input : ByteString) (start stop : ℕ) : Option ByteString :=
  if start ≤ stop ∧ stop ≤ input.length then some ((input.take stop).drop start) else none

/-- The parser's value; its error becomes one with the text. -/
def parsed {α : Type} (text : String) (p : Parser α) (input : ByteString) :
    Except (Stop String) α :=
  match p.run input with
  | .ok (a, _) => .ok a
  | .error stop => .error (stop.mapError fun _ => text)

def Image.parse (o : Overflow) (input : ByteString) : Except (Stop String) Image := do
  let ivt ← parsed "error parsing the IVT" Ivt.parse input
  let bootDataOffset ← expect "TODO" (checkedSub32 ivt.boot ivt.self_)
  let bootDataInput ← expect "TODO"
    (getRange input bootDataOffset.toNat (bootDataOffset.toNat+BootData.size))
  let bootData ← parsed "error parsing Boot Data" BootData.parse bootDataInput
  if ivt.dcd ≠ 0 then
    let dcdOffset ← expect "TODO" (checkedSub32 ivt.dcd ivt.self_)
    let dcdInput ← expect "TODO" (getRange input dcdOffset.toNat input.length)
    let dcd ← parsed "error parsing DCD" (Dcd.parse o) dcdInput
    pure ⟨ivt, bootData, some dcd⟩
  else pure ⟨ivt, bootData, none⟩

end UsbArmory.Boot.Reader
