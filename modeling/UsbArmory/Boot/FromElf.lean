import UsbArmory.Boot.Ddr

/-!
# Making an image of an ELF file

The file is what the ELF library decodes of it: a section's or a segment's
data is `none` where reading it runs out of the file, which panics. The
library gives a 32-bit symbol table for a file of 32-bit headers only.
-/

set_option autoImplicit false

namespace UsbArmory.Boot.FromElf
open UsbArmory.Library.Word UsbArmory.Library.Binary UsbArmory.Boot.Writer UsbArmory.Boot.Ddr

structure SymbolEntry where
  name : Except String String
  value : UInt64

inductive SectionData where
  | symbolTable32 (entries : List SymbolEntry)
  | other

structure SectionHeader where
  name : Except String String
  address : UInt64
  size : UInt64
  rawData : Option ByteString
  data : Option (Except String SectionData)

inductive SegmentType where
  | load
  | other
  deriving DecidableEq

inductive SegmentData where
  | undefined (bytes : ByteString)
  | other

structure ProgramHeader where
  type : Except String SegmentType
  physicalAddr : UInt64
  virtualAddr : UInt64
  memSize : UInt64
  data : Option (Except String SegmentData)

inductive Class where
  | thirtyTwo
  | sixtyFour

structure ElfFile where
  class_ : Class
  sections : List SectionHeader
  programs : List ProgramHeader
  narrow : class_ = .thirtyTwo → (∀ sh ∈ sections, sh.address.toNat < 2^32) ∧
    ∀ ph ∈ programs, ph.physicalAddr.toNat < 2^32
  tables : ∀ sh ∈ sections, ∀ entries, sh.data = some (.ok (.symbolTable32 entries)) →
    class_ = .thirtyTwo

def ocramStart : UInt32 := 0x00900000

def ocramSize : UInt32 := 128*1024

def dramSize : UInt32 := 512*1024*1024

/-- `OCRAM.contains` -/
def inOcram (a : UInt32) : Bool := decide (ocramStart ≤ a ∧ a < ocramStart+ocramSize)

/-- `DRAM.contains` -/
def inDram (a : UInt32) : Bool := decide (dramStart ≤ a ∧ a < dramStart+dramSize)

/-- The names of the sections to include, if they are in DRAM. -/
def sectionNames : List String := [".text", ".rodata", ".start"]

def SectionHeader.addr (sh : SectionHeader) : UInt32 := sh.address.toUInt32

def ProgramHeader.addr (ph : ProgramHeader) : UInt32 := ph.physicalAddr.toUInt32

def SectionHeader.included (sh : SectionHeader) : Bool :=
  match sh.name with
  | .ok name => sectionNames.contains name && inDram sh.addr
  | .error _ => false

def ProgramHeader.included (ph : ProgramHeader) : Bool :=
  match ph.type with
  | .ok .load => inOcram ph.virtualAddr.toUInt32 && inDram ph.addr
  | _ => false

structure Bounds where
  start : Option UInt32
  stop : Option UInt32

/-- The bounds with what starts at `sectStart` and has `size` bytes. -/
def Bounds.grow (o : Overflow) (bounds : Bounds) (sectStart size : UInt32) :
    Except (Stop String) Bounds := do
  let sectEnd ← expect "attempt to add with overflow" (o.add32 sectStart size)
  let start := match bounds.start with
    | some start => min start sectStart
    | none => sectStart
  let stop := match bounds.stop with
    | some stop => max stop sectEnd
    | none => sectEnd
  pure ⟨some start, some stop⟩

def sizeSection (o : Overflow) (bounds : Bounds) (sh : SectionHeader) :
    Except (Stop String) Bounds :=
  if sh.included then bounds.grow o sh.addr sh.size.toUInt32 else pure bounds

def sizeSegment (o : Overflow) (bounds : Bounds) (ph : ProgramHeader) :
    Except (Stop String) Bounds :=
  if ph.included then bounds.grow o ph.addr ph.memSize.toUInt32 else pure bounds

/-- `app[off..(off + size)].copy_from_slice(data)` -/
def copyInto (app : ByteString) (off size : ℕ) (data : ByteString) :
    Except (Stop String) ByteString := do
  ensure (off+size ≤ app.length) "range end index out of range"
  ensure (data.length = size) "source slice length does not match destination slice length"
  pure (app.take off ++ (data ++ app.drop (off+data.length)))

def fillSection (o : Overflow) (start : UInt32) (app : ByteString) (sh : SectionHeader) :
    Except (Stop String) ByteString :=
  if sh.included then do
    let off ← expect "attempt to subtract with overflow" (o.sub32 sh.addr start)
    let data ← expect "range end index out of range" sh.rawData
    copyInto app off.toNat sh.size.toNat data
  else pure app

/-- `ph.get_data(&elf).expect("TODO")`, which is to be undefined data. -/
def ProgramHeader.bytes (ph : ProgramHeader) : Except (Stop String) ByteString :=
  match ph.data with
  | some (.ok (.undefined bytes)) => .ok bytes
  | some (.ok .other) => .error (.panic "TODO")
  | some (.error message) => .error (.panic ("TODO: " ++ message))
  | none => .error (.panic "range end index out of range")

def fillSegment (o : Overflow) (start : UInt32) (app : ByteString) (ph : ProgramHeader) :
    Except (Stop String) ByteString :=
  if ph.included then do
    let data ← ph.bytes
    let off ← expect "attempt to subtract with overflow" (o.sub32 ph.addr start)
    copyInto app off.toNat ph.memSize.toNat data
  else pure app

/-- `ElfFile::find_section_by_name` -/
def ElfFile.findSectionByName (elf : ElfFile) (name : String) : Option SectionHeader :=
  elf.sections.find? fun sh => match sh.name with
    | .ok found => found == name
    | .error _ => false

/-- The value of the last symbol `_start`. -/
def startSymbol (entries : List SymbolEntry) : Option UInt32 :=
  entries.foldl (fun start entry => match entry.name with
    | .ok "_start" => some entry.value.toUInt32
    | _ => start) none

def SectionData.start : SectionData → Option UInt32
  | .symbolTable32 entries => startSymbol entries
  | .other => none

def ElfFile.entry (elf : ElfFile) : Except (Stop String) UInt32 :=
  match elf.findSectionByName ".symtab" with
  | none => .error (.error "`.symtab`\nsection not found in ELF file")
  | some symtab =>
    match symtab.data with
    | none => .error (.panic "range end index out of range")
    | some (.error message) => .error (.error message)
    | some (.ok data) =>
      match data.start with
      | some start => .ok start
      | none => .error (.error "symbol `_start` was not found")

/-- The bytes between the bounds; a difference below zero is no size for a
buffer, also where it wraps. -/
def Bounds.size (start stop : UInt32) : Option ℕ :=
  if start ≤ stop then some (stop.toNat-start.toNat) else none

def Image.fromElf (o : Overflow) (elf : ElfFile) (skipDcd : Bool) :
    Except (Stop String) Image := do
  let bounds ← elf.sections.foldlM (sizeSection o) ⟨none, none⟩
  let bounds ← elf.programs.foldlM (sizeSegment o) bounds
  let start ← expect "TODO" bounds.start
  let stop ← expect "TODO" bounds.stop
  let size ← expect "attempt to subtract with overflow" (Bounds.size start stop)
  let app ← elf.sections.foldlM (fillSection o start) (List.replicate size 0)
  let app ← elf.programs.foldlM (fillSegment o start) app
  let entry ← elf.entry
  pure ⟨app, if skipDcd then none else some initDdr, entry⟩

end UsbArmory.Boot.FromElf
