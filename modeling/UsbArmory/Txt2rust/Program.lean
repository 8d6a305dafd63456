import UsbArmory.Txt2rust.Crate

/-!
# From the manual to the generated crate

The whole program: the register tables of its files, with the steps that two of
them need, and the registers of the interrupt controller, which have no table.
-/

set_option autoImplicit false

namespace UsbArmory.Txt2rust.Program
open UsbArmory.Library.Word UsbArmory.Library.Binary UsbArmory.Library.Strings
open UsbArmory.Library.Trace UsbArmory.Library.Traversal UsbArmory.Library.Confinement
open UsbArmory.Library.Registers (Device)
open UsbArmory.Txt2rust.Compress UsbArmory.Txt2rust.Codegen UsbArmory.Txt2rust.Calls
open UsbArmory.Txt2rust.Crate UsbArmory.Txt2rust.Compression
open UsbArmory.Txt2rust.Parse (registerTable)

namespace Gic

def base : UInt32 := 0xa00000

/-- Each bit of an `ISENABLER` register corresponds to an interrupt. -/
def interrupts : UInt16 := 128

def gicc : Peripheral where
  name := "GICC".toList
  instances := .single (base+0x2000)
  registers :=
    [⟨0x0, "CPU Interface Control Register".toList, "CTLR".toList, 32, .readWrite, some 0, 1,
      false⟩,
      ⟨0x4, "Interrupt Priority Mask Register".toList, "PMR".toList, 32, .readWrite, some 0, 1,
        true⟩,
      ⟨0xc, "Interrupt Acknowledge Register".toList, "IAR".toList, 32, .readOnly, some 0x3ff, 1,
        false⟩,
      ⟨0x10, "End of Interrupt Register".toList, "EOIR".toList, 32, .writeOnly, none, 1, false⟩,
      ⟨0x14, "Running Priority Register".toList, "RPR".toList, 32, .readOnly, some 0xff, 1, false⟩]

def gicd : Peripheral where
  name := "GICD".toList
  instances := .single (base+0x1000)
  registers :=
    [⟨0x0, "Distributor Control Register".toList, "CTLR".toList, 32, .readWrite, some 0, 1, false⟩,
      ⟨0x100, "Interrupt Set-Enable Registers".toList, "ISENABLER".toList, 32, .readWrite, none,
        interrupts/32, true⟩,
      ⟨0x400, "Interrupt Priority Registers".toList, "IPRIORITYR".toList, 8, .readWrite, none,
        interrupts, true⟩,
      ⟨0xf00, "Software Generated Interrupt Register".toList, "SGIR".toList, 32, .writeOnly, none,
        1,
        false⟩]

end Gic

/-- `anyhow::Error` is its message. -/
abbrev Result (α : Type) := Except (Stop String) α

def lift {α : Type} (x : Except (Stop Empty) α) : Result α := x.mapError (Stop.mapError Empty.elim)

def lp : Text := "SNVS_LP".toList

def hp : Text := "SNVS_HP".toList

def underscored (pre : Text) (register : Parse.Register) : Parse.Register :=
  { register with name := pre ++ '_' :: register.name.drop pre.length }

/-- The registers of the low-power domain, and those of the high-power domain. -/
def splitSnvs : List Parse.Register → Result (List Parse.Register × List Parse.Register)
  | [] => pure ([], [])
  | register::rest =>
    if startsWith lp register.name then do
      let (ls, hs) ← splitSnvs rest
      pure (underscored lp register::ls, hs)
    else if startsWith hp register.name then do
      let (ls, hs) ← splitSnvs rest
      pure (ls, underscored hp register::hs)
    else throw (.panic ("unexpected SNVS register: " ++ String.ofList register.name))

section Dcp
variable (o : Overflow)

/-- The base address of the DCP on the IMX6ULZ is not the one on the IMX28. -/
def moved (register : Parse.Register) : Result Parse.Register := do
  let offset ← expect "attempt to subtract with overflow" (o.sub32 register.absAddr 0x80028000)
  let absAddr ← expect "attempt to add with overflow" (o.add32 offset 0x02280000)
  pure { register with absAddr := absAddr }

/-- A register that is only written to, with another address and a longer name. -/
def writeOnlyCopy (register : Parse.Register) (absAddr : UInt32) (suffix : Text) : Parse.Register :=
  { register with
    absAddr := absAddr
    name := register.name ++ suffix
    access := .writeOnly
    resetValue := 0 }

def setClr (register : Parse.Register) : Result (List Parse.Register) :=
  if ["HW_DCP_CHANNELCTRL".toList].contains register.name then do
    let setAddr ← expect "attempt to add with overflow" (o.add32 register.absAddr 4)
    let clrAddr ← expect "attempt to add with overflow" (o.add32 register.absAddr 8)
    pure [writeOnlyCopy register setAddr "_SET".toList,
      writeOnlyCopy register clrAddr "_CLR".toList]
  else pure []

def dcp (registers : List Parse.Register) : Result (List Parse.Register) := do
  let registers ← registers.mapM (moved o)
  let newRegisters ← registers.mapM (setClr o)
  pure (registers ++ newRegisters.flatten)

/-- The tables that are compressed, each by itself. -/
def adHoc (path : String) : List Parse.Register → Result (List (List Parse.Register))
  | [] => throw (.error ("\"" ++ path ++ "\" appears to contain no register table"))
  | first::rest =>
    if startsWith "SNVS_".toList first.name then do
      let (ls, hs) ← splitSnvs (first::rest)
      pure [ls, hs]
    else if startsWith "HW_DCP_".toList first.name then do
      let registers ← dcp o (first::rest)
      pure [registers]
    else pure [first::rest]

/-- A file, or why it cannot be read. -/
structure File where
  path : String
  contents : Except String Text

def tablesOf (file : File) : Result (List (List Parse.Register)) :=
  match file.contents with
  | .error e => throw (.error e)
  | .ok txt => do
    let registers ← lift (registerTable txt)
    adHoc o file.path registers

def peripheralsOf (file : File) : Result (List Peripheral) := do
  let tables ← tablesOf o file
  let peripherals ← tables.mapM fun t => lift (registers t)
  pure peripherals.flatten

def main (n : Naming) (files : List File) : Result (List Module) := do
  let peripherals ← files.mapM (peripheralsOf o)
  lift (krate n (peripherals.flatten ++ [Gic.gicc, Gic.gicd]))

end Dcp

section Rows
variable {o : Overflow} {first row : Parse.Register} {regs ls hs : List Parse.Register}

end Rows

section Tables
variable {o : Overflow} {n : Naming} {files : List File} {modules : List Module}
variable {peripherals : List (List Peripheral)} {act : Act}

theorem lift_ok {α : Type} {x : Except (Stop Empty) α} {a : α} (h : lift x = .ok a) :
    x = .ok a := by
  cases x with
  | error stop => cases h
  | ok b =>
    cases h
    rfl

/-- The tables of all files. -/
def Table (o : Overflow) (files : List File) (t : List Parse.Register) : Prop :=
  ∃ file ∈ files, ∃ ts, tablesOf o file = .ok ts ∧ t ∈ ts

end Tables

end UsbArmory.Txt2rust.Program
