import UsbArmory.Library.Whitespace
import UsbArmory.Txt2rust.Parse

/-!
# Rows of the register tables

A register as a row of the manual, in one line or in three, and what the
parser makes of the columns behind the name.
-/

set_option autoImplicit false

namespace UsbArmory.Txt2rust.Rows
open UsbArmory.Library.Binary UsbArmory.Library.Strings UsbArmory.Library.Numerals
open UsbArmory.Library.Whitespace UsbArmory.Txt2rust.Parse

variable {tail : Text}

/-- `201_8000`, with the given number of digits in front of the underscore. -/
def addressText (k : ℕ) (a : UInt32) : Text := hex k (a.toNat/65536) ++ '_'::hex 4 (a.toNat%65536)

def valueText (v : UInt32) : Text := addressText 4 v ++ ['h']

def widthText (w : UInt8) : Text := decimal w.toNat

def accessText : Access → Text
  | .readOnly => ['R']
  | .readWrite => ['R', '/', 'W']
  | .writeOnly => ['W']
  | .writeOneToClear => ['w', '1', 'c']

/-- The gaps between the columns are these numbers of spaces, and one more where
there has to be one. -/
inductive Form where
  | single (afterDescription afterName : ℕ)
  | split (above : ℕ) (heading : Option (ℕ × Text)) (aboveEnd below : ℕ) (belowTail : Text)

structure Row where
  register : Register
  digits : ℕ
  indent : ℕ
  afterAddress : ℕ
  afterWidth : ℕ
  afterAccess : ℕ
  tail : Text
  form : Form

/-- The end of a line: nothing, or spaces and a section reference. -/
structure Tail (t : Text) : Prop where
  gap : ∀ c ∈ t.head?, c = ' '
  plain : '(' ∉ t ∧ ')' ∉ t ∧ '\n' ∉ t ∧ '\r' ∉ t

structure Heading (w : Text) : Prop where
  found : isSection w = true
  solid : ∀ c ∈ w, isWhitespace c = false
  plain : '(' ∉ w ∧ ')' ∉ w

def Form.Valid : Form → Prop
  | .single _ _ => True
  | .split _ heading _ _ belowTail => (∀ w ∈ heading, Heading w.2) ∧ Tail belowTail

structure Row.Valid (row : Row) : Prop where
  name : '_' ∈ row.register.name ∧ ' ' ∉ row.register.name ∧ '(' ∉ row.register.name ∧
    ')' ∉ row.register.name ∧ '\n' ∉ row.register.name
  description : Begins row.register.description ∧ Ends row.register.description ∧
    '(' ∉ row.register.description ∧ ')' ∉ row.register.description ∧
    '\n' ∉ row.register.description
  width : row.register.width = 8 ∨ row.register.width = 16 ∨ row.register.width = 32
  digits : 0 < row.digits ∧ row.digits ≤ 4 ∧ row.register.absAddr.toNat/65536 < 16^row.digits
  tail : Tail row.tail
  form : row.form.Valid

def Row.accessColumns (row : Row) (tail : Text) : Text := accessText row.register.access ++
  ' '::(spaces row.afterAccess ++ (valueText row.register.resetValue ++ tail))

def Row.widthColumns (row : Row) (tail : Text) : Text := widthText row.register.width ++
  ' '::(spaces row.afterWidth ++ row.accessColumns tail)

def Row.nameColumns (row : Row) (afterName : ℕ) (tail : Text) : Text := row.register.name ++
  ')' :: ' '::(spaces afterName ++ row.widthColumns tail)

def Row.descriptionColumns (row : Row) (afterDescription afterName : ℕ) (tail : Text) : Text :=
  row.register.description ++ ' '::(spaces afterDescription ++ '('::row.nameColumns afterName tail)

def Row.addressColumns (row : Row) (rest : Text) : Text :=
  addressText row.digits row.register.absAddr ++ ' '::(spaces row.afterAddress ++ rest)

def headingText (aboveEnd : ℕ) : Option (ℕ × Text) → Text
  | none => spaces aboveEnd
  | some (gap, w) => ' '::(spaces gap ++ (w ++ spaces aboveEnd))

def Row.lines (row : Row) : List Text :=
  match row.form with
  | .single afterDescription afterName => [spaces row.indent ++
      row.addressColumns (row.descriptionColumns afterDescription afterName row.tail)]
  | .split above heading aboveEnd below belowTail =>
    [spaces above ++ (row.register.description ++ headingText aboveEnd heading),
      spaces row.indent ++ row.addressColumns (row.widthColumns row.tail),
      spaces below ++ ('('::(row.register.name ++ [')']) ++ belowTail)]

/-- What the parser would take for an address and a width. -/
def LooksSplit (description : Text) : Prop :=
  (absAddr (splitOnce ' ' description).1).isSome = true ∧
    ∃ rest, (splitOnce ' ' description).2 = some rest ∧
      (width (splitOnce ' ' (trim rest)).1).isSome = true

/-- A row in one line does not begin with a width; a description on its own does
not look like a row and does not end with a section. -/
def Row.Clear (row : Row) : Prop :=
  match row.form with
  | .single _ _ => width (splitOnce ' ' row.register.description).1 = none
  | .split _ heading _ _ _ => ¬LooksSplit row.register.description ∧
      (heading = none → isSection (rsplitOnce ' ' row.register.description).1 = false)

theorem halves_split (a : UInt32) : halves (a.toNat/65536) (a.toNat%65536) = a := by
  have ha : a.toNat < 2^32 := a.toNat_lt
  have hlower : a.toNat%65536 < 2^16 := Nat.mod_lt _ (by decide)
  have hshift : (a.toNat/65536) <<< 16 = a.toNat/65536*65536 := Nat.shiftLeft_eq _ _
  have hor := Nat.shiftLeft_add_eq_or_of_lt hlower (a.toNat/65536)
  have hupper : (UInt32.ofNat (a.toNat/65536) <<< 16).toNat = (a.toNat/65536) <<< 16 := by
    simp only [UInt32.toNat_shiftLeft, UInt32.toNat_ofNat', UInt32.reduceToNat, Nat.reduceMod,
      Nat.reducePow, hshift, Nat.shiftLeft_eq]
    omega
  have hsmall : (UInt32.ofNat (a.toNat%65536)).toNat = a.toNat%65536 := by
    simp only [UInt32.toNat_ofNat', Nat.reducePow]
    omega
  apply UInt32.toNat.inj
  rw [halves, UInt32.toNat_or, hupper, hsmall, ← hor, hshift]
  exact Nat.div_add_mod' a.toNat 65536

theorem absAddr_text {k : ℕ} {a : UInt32} (hk : 0 < k) (ha : a.toNat/65536 < 16^k) :
    absAddr (addressText k a) = some a := by
  have hupper : a.toNat/65536 < 65536 := by have := a.toNat_lt; omega
  have hlower : a.toNat%65536 < 16^4 := Nat.mod_lt _ (by decide)
  unfold absAddr addressText
  rw [splitOnce_append (notMem_hex (by decide) _ _)]
  dsimp only
  rw [parse_hex hk ha hupper]
  dsimp only
  rw [parse_hex (by decide) hlower hlower]
  exact congrArg some (halves_split a)

theorem resetValue_text (v : UInt32) : resetValue (valueText v) = some v := by
  have hupper : v.toNat/65536 < 16^4 := by have := v.toNat_lt; omega
  have hlower : v.toNat%65536 < 16^4 := Nat.mod_lt _ (by decide)
  unfold resetValue valueText
  rw [if_pos (by simp), List.dropLast_concat, addressText,
    splitOnce_append (notMem_hex (by decide) _ _)]
  dsimp only
  rw [parse_hex (by decide) hupper hupper]
  dsimp only
  rw [parse_hex (by decide) hlower hlower]
  exact congrArg some (halves_split v)

theorem access_text (acc : Access) : access (accessText acc) = some acc := by
  cases acc <;> rfl

theorem width_text {w : UInt8} (h : w = 8 ∨ w = 16 ∨ w = 32) : width (widthText w) = some w := by
  rcases h with rfl | rfl | rfl <;> rfl

end UsbArmory.Txt2rust.Rows
