import Mathlib.Data.List.Sort
import UsbArmory.Library.SortedMap
import UsbArmory.Txt2rust.Parse

/-!
# Peripherals from registers

The registers of a peripheral share a prefix of their names. A number behind
the prefix tells its instances apart, and instances with the same registers
become one peripheral.
-/

set_option autoImplicit false

namespace UsbArmory.Txt2rust.Compress
open UsbArmory.Library UsbArmory.Library.Binary UsbArmory.Library.Strings
open UsbArmory.Library.Numerals
open UsbArmory.Txt2rust.Parse (Access)

structure Register where
  offset : UInt32
  description : Text
  name : Text
  width : UInt8
  access : Access
  resetValue : Option UInt32
  instances : UInt16
  unsafeWrite : Bool
  deriving Repr

/-- `PartialEq for Register`: everything but these is ignored. -/
def Register.key (r : Register) : UInt32 × Text × Access × Option UInt32 :=
  (r.offset, r.name, r.access, r.resetValue)

instance : BEq Register := ⟨fun r r' => r.key == r'.key⟩

inductive Instances where
  | single (baseAddr : UInt32)
  | many (map : List (ℕ × UInt32))
  deriving Repr

structure Peripheral where
  name : Text
  instances : Instances
  registers : List Register
  deriving Repr

/-- `split_instance`: the number in front of the first underscore. -/
def extractInstance (s : Text) : Except (Stop Empty) ℕ :=
  expect "split_instance: string doesn't start with a u8 integer"
    (fromStrRadix 10 256 (splitOnce '_' s).1)

/-- What is left in front of the digits at the end, and whether there are any. -/
def stripDigits (s : Text) : Text × Bool :=
  ((s.reverse.dropWhile Char.isDigit).reverse, s.getLast?.any Char.isDigit)

/-- The loop of `find_common_prefix`, from what stands before the last underscore on. -/
def prefixLoop (first second : Text) (regs : List Text) :
    ℕ → Text → Except (Stop Empty) (Text × Bool)
  | fuel, s => match (rsplitOnce '_' s).2 with
    | none => .error (.panic ("no common prefix between `" ++ String.ofList first ++ "` and `" ++
        String.ofList second ++ "`"))
    | some maybePrefix => match fuel with
      | 0 => .error .endless
      | fuel+1 =>
        if startsWith maybePrefix second then
          let (stripped, numbered) := stripDigits maybePrefix
          if regs.all (startsWith stripped) then .ok (stripped, numbered)
          else prefixLoop first second regs fuel stripped
        else prefixLoop first second regs fuel maybePrefix

/-- The prefix of all names, and whether it is numbered; fewer than two names are a panic. -/
def findCommonPrefix : List Text → Except (Stop Empty) (Text × Bool)
  | first::second::rest =>
    prefixLoop first second (first::second::rest) (first.length+1) first
  | _ => .error (.panic "index out of bounds")

def compress (baseAddr : UInt32) (name : Text) (reg : Parse.Register) : Register where
  offset := reg.absAddr-baseAddr
  description := reg.description
  name := name
  width := reg.width
  access := reg.access
  resetValue := some reg.resetValue
  instances := 1
  unsafeWrite := false

/-- `UART7_` -/
def instancePrefix (name : Text) (i : ℕ) : Text := name ++ decimal i ++ ['_']

/-- Adds an instance to the peripheral that has its registers already, or a new peripheral. -/
def addInstance (name : Text) (i : ℕ) (baseAddr : UInt32) (registers : List Register)
    (peripherals : List Peripheral) : Except (Stop Empty) (List Peripheral) :=
  match peripherals.findIdx? (fun periph => periph.registers == registers) with
  | some idx =>
    match peripherals[idx]? with
    | some ⟨periphName, .many map, periphRegisters⟩ =>
      .ok (peripherals.set idx ⟨periphName, .many (SortedMap.insert i baseAddr map),
        periphRegisters⟩)
    | _ => .error (.panic "internal error: entered unreachable code")
  | none => .ok (peripherals ++ [⟨name, .many (SortedMap.insert i baseAddr []), registers⟩])

def instancesLoop (name : Text) :
    ℕ → List Parse.Register → List Peripheral → Except (Stop Empty) (List Peripheral)
  | _, [], peripherals => .ok peripherals
  | 0, _::_, _ => .error .endless
  | fuel+1, first::others, peripherals => do
    let i ← extractInstance (trimStartMatches name first.name)
    let pre := instancePrefix name i
    -- the registers of an instance stand next to each other
    let same := fun reg : Parse.Register => startsWith pre reg.name
    let registers := ((first::others).takeWhile same).map fun reg =>
      compress first.absAddr (trimStartMatches pre reg.name) reg
    let peripherals ← addInstance name i first.absAddr registers peripherals
    instancesLoop name fuel ((first::others).dropWhile same) peripherals

def sortByAddress (regs : List Parse.Register) : List Parse.Register :=
  regs.insertionSort fun a b => a.absAddr ≤ b.absAddr

def registers (allRegisters : List Parse.Register) : Except (Stop Empty) (List Peripheral) := do
  let sorted := sortByAddress allRegisters
  let (name, numbered) ← findCommonPrefix (sorted.map (·.name))
  if numbered then instancesLoop name sorted.length sorted []
  else match sorted with
    | [] => .error (.panic "index out of bounds")
    | first::_ =>
      pure [⟨name, .single first.absAddr, sorted.map fun reg =>
        compress first.absAddr (trimStartMatches ['_'] (trimStartMatches name reg.name)) reg⟩]

end UsbArmory.Txt2rust.Compress
