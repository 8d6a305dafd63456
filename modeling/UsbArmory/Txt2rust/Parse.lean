import UsbArmory.Library.Binary
import UsbArmory.Library.Numerals

/-!
# The register tables of the manual

A row is one line, or three: the row without its description and its name,
which stand in the lines above and below.
-/

set_option autoImplicit false

namespace UsbArmory.Txt2rust.Parse
open UsbArmory.Library.Binary UsbArmory.Library.Strings UsbArmory.Library.Numerals

inductive Access where
  | readOnly
  | readWrite
  | writeOnly
  | writeOneToClear
  deriving DecidableEq, Repr

structure Register where
  absAddr : UInt32
  description : Text
  name : Text
  width : UInt8
  access : Access
  resetValue : UInt32
  deriving DecidableEq, Repr

/-- `None`, a value, or a panic. -/
abbrev Found (α : Type) := OptionT (Except (Stop Empty)) α

/-- The `?` operator. -/
def found {α : Type} (v : Option α) : Found α := OptionT.mk (pure v)

def halves (upper lower : ℕ) : UInt32 := (UInt32.ofNat upper <<< 16) ||| UInt32.ofNat lower

def absAddr (txt : Text) : Option UInt32 :=
  match fromStrRadix 16 65536 (splitOnce '_' txt).1, (splitOnce '_' txt).2 with
  | none, _ => none
  | some upper, some rest => (fromStrRadix 16 65536 rest).map (halves upper)
  | some halfword, none => some (UInt32.ofNat halfword)

def width (txt : Text) : Option UInt8 :=
  if txt = ['8'] then some 8 else if txt = ['1', '6'] then some 16
  else if txt = ['3', '2'] then some 32 else none

def access (txt : Text) : Option Access :=
  if txt = ['R'] then some .readOnly else if txt = ['R', '/', 'W'] then some .readWrite
  else if txt = ['W'] then some .writeOnly else if txt = ['w', '1', 'c'] then some .writeOneToClear
  else none

def resetValue (txt : Text) : Option UInt32 :=
  if txt.getLast? = some 'h' then
    match splitOnce '_' txt.dropLast with
    | (higher, some lower) =>
      match fromStrRadix 16 65536 higher with
      | some higher => (fromStrRadix 16 65536 lower).map (halves higher)
      | none => none
    | (txt, none) => (fromStrRadix 16 65536 txt).map UInt32.ofNat
  else none

def isSection (last : Text) : Bool := last.head?.any Char.isDigit && last.contains '.'

/-- The line above a split row without the section information at its end. -/
def withoutSection (prev : Text) : Except (Stop Empty) Text :=
  let parts := rsplitOnce ' ' prev
  if isSection parts.1 then trim <$> expect "UNREACHABLE" parts.2 else pure prev

/-- The description and the name from the lines around a split row. -/
def aroundRow (line prev next : Text) : Except (Stop Empty) (Text × Text) :=
  if next.contains '(' && next.contains ')' then do
    let nextParts := rsplitOnce '(' next
    let name := (splitOnce ')' nextParts.1).1
    let before ← expect "UNREACHABLE" nextParts.2
    let moreDescription := trim before
    let description ← withoutSection prev
    pure (if moreDescription = [] then description else description ++ ' '::moreDescription, name)
  else throw (.panic ("not implemented: \n" ++ String.ofList prev ++ "\n" ++ String.ofList line ++
    "\n" ++ String.ofList next))

def lastColumns (rest : Text) : Found (Access × UInt32) := do
  let parts := splitOnce ' ' rest
  let acc ← found (access parts.1)
  let rest := trim (← found parts.2)
  let value ← found (resetValue (splitOnce ' ' rest).1)
  pure (acc, value)

/-- A row whose description and name stand around it, from what follows the width on. -/
def splitRow (line : Text) (address : UInt32) (bits : UInt8) (rest prev next : Option Text) :
    Found Register := do
  let prev ← (expect "found split row; previous line is required" prev : Except (Stop Empty) Text)
  let next ← (expect "found split row; next line is required" next : Except (Stop Empty) Text)
  let (description, name) ← aroundRow line (trim prev) (trim next)
  let rest := trim (← found rest)
  let (acc, value) ← lastColumns rest
  pure ⟨address, description, name, bits, acc, value⟩

def oneRow (address : UInt32) (rest : Text) : Found Register := do
  let parts := rsplitOnce '(' rest
  let description := trim (← found parts.2)
  let parts := splitOnce ')' parts.1
  let name := parts.1
  if name.contains ' ' || !name.contains '_' then failure
  let rest := trim (← found parts.2)
  let parts := splitOnce ' ' rest
  let bits ← found (width parts.1)
  let rest := trim (← found parts.2)
  let (acc, value) ← lastColumns rest
  pure ⟨address, description, name, bits, acc, value⟩

def line (line : Text) (prev next : Option Text) : Found Register := do
  let line := trim line
  let parts := splitOnce ' ' line
  let address ← found (absAddr parts.1)
  let rest := trim (← found parts.2)
  let parts := splitOnce ' ' rest
  match width parts.1 with
  | some bits => splitRow line address bits parts.2 prev next
  | none => oneRow address rest

def rowsFrom : Option Text → List Text → Except (Stop Empty) (List Register)
  | _, [] => pure []
  | prev, row::rest => do
    let register ← (line row prev rest.head?).run
    let registers ← rowsFrom (some row) rest
    pure (register.toList ++ registers)

def registerTable (txt : Text) : Except (Stop Empty) (List Register) := rowsFrom none (lines txt)

example : registerTable
    "  201_8000   UART Receiver Register (UART7_URXD)    32   R   0000_0000h\n".toList =
    .ok [⟨0x2018000, "UART Receiver Register".toList, "UART7_URXD".toList, 32, .readOnly, 0⟩] := by
  decide +kernel

end UsbArmory.Txt2rust.Parse
