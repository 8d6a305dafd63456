import UsbArmory.Txt2rust.Compress

/-!
# The generated crate

`codegen::krate` makes one module of each peripheral. Only what varies between
the modules is kept of their text; the numbers stay literals.
-/

set_option autoImplicit false

namespace UsbArmory.Txt2rust.Codegen
open UsbArmory.Library.Binary UsbArmory.Library.Strings UsbArmory.Library.Numerals
open UsbArmory.Txt2rust.Compress

/-- Which texts `format_ident!` takes, and `str::to_lowercase`. -/
structure Naming where
  isIdent : Text → Bool
  toLowercase : Text → Text

def Naming.formatIdent (n : Naming) (s : Text) : Except (Stop Empty) Text :=
  if n.isIdent s then .ok s
  else .error (.panic ("\"" ++ String.ofList s ++ "\" is not a valid Ident"))

/-- `{:x}` of a number that has at most `w` digits, padded with zeros. -/
def lowerHex (w n : ℕ) : Text := (hex w n).map Char.toLower

def unsuffixedHex (val : UInt32) (compact : Bool) : Text :=
  if compact ∧ val ≤ 0xff then '0' :: 'x' :: lowerHex 2 val.toNat
  else if compact ∧ val ≤ 0xffff then '0' :: 'x' :: lowerHex 4 val.toNat
  else '0' :: 'x' :: (lowerHex 4 (val >>> 16).toNat ++ '_' :: lowerHex 4 (val &&& 0xffff).toNat)

/-- The bodies of methods. An address is computed with a method of pointers that
is unsafe where there is an index; not all bodies say so. -/
inductive Body where
  | read
  | write
  | rmw
  | reset
  | address (inUnsafe : Bool)
  deriving DecidableEq, Repr

structure Method where
  unsafety : Bool
  name : Text
  body : Body
  deriving DecidableEq, Repr

/-- `idx: u{width}`, and `assert!(idx < max as u{width})`. -/
structure Index where
  width : UInt8
  max : UInt16
  deriving DecidableEq, Repr

/-- The structure of a register; a field of `Registers` has its name and its documentation. -/
structure RegisterStruct where
  doc : Text
  name : Text
  uxx : UInt8
  index : Option Index
  offset : Text
  resetValue : Option Text
  methods : List Method
  deriving DecidableEq, Repr

/-- An instance of `Registers` with its own `take` and `borrow_unchecked`. -/
structure Handle where
  name : Text
  marker : Option Text
  baseAddress : Text
  deriving DecidableEq, Repr

/-- Each handle is exported under the feature, too. -/
structure Module where
  name : Text
  feature : Text
  doc : Text
  structs : List RegisterStruct
  handles : List Handle
  deriving DecidableEq, Repr

def docOf (reg : Register) : Text :=
  if reg.instances = 1 then reg.description
  else reg.description ++ " (".toList ++ decimal reg.instances.toNat ++ " instances)".toList

def indexOf (reg : Register) : Option Index :=
  if reg.instances = 1 then none
  else some ⟨if reg.instances ≤ (1 : UInt16) <<< 8 then 8 else 16, reg.instances⟩

def readMethods (reg : Register) : List Method :=
  if reg.access ≠ .writeOnly then [⟨false, "read".toList, .read⟩] else []

def writeMethods (reg : Register) : List Method :=
  if reg.access ≠ .readOnly then
    ⟨reg.unsafeWrite, if reg.access = .writeOneToClear then "clear".toList else "write".toList,
      .write⟩::if reg.access = .readWrite then [⟨reg.unsafeWrite, "rmw".toList, .rmw⟩] else []
  else []

def resetMethods (reg : Register) : List Method :=
  if reg.resetValue.isSome ∧ (reg.access = .readWrite ∨ reg.access = .writeOnly) then
    [⟨reg.unsafeWrite, "reset".toList, .reset⟩]
  else []

/-- The structure; in a generic one the instance is a parameter. -/
def registerStruct (n : Naming) (generic : Bool) (reg : Register) :
    Except (Stop Empty) RegisterStruct := do
  let name ← n.formatIdent reg.name
  pure
    { doc := docOf reg
      name := name
      uxx := reg.width
      index := indexOf reg
      offset := unsuffixedHex reg.offset true
      resetValue := reg.resetValue.map fun rv => unsuffixedHex rv false
      methods := readMethods reg ++ writeMethods reg ++ resetMethods reg ++
        [⟨false, "address".toList, .address !generic⟩] }

def handleOf (n : Naming) (pname : Text) (instance_ : ℕ × UInt32) : Except (Stop Empty) Handle := do
  let name ← n.formatIdent (pname ++ decimal instance_.1)
  let marker ← n.formatIdent ('_' :: decimal instance_.1)
  pure ⟨name, some marker, unsuffixedHex instance_.2 false⟩

def moduleOf (n : Naming) (p : Peripheral) : Except (Stop Empty) Module := do
  let pname ← n.formatIdent p.name
  match p.instances with
  | .single baseAddr => do
    let structs ← p.registers.mapM (registerStruct n false)
    let name ← n.formatIdent (n.toLowercase p.name)
    pure ⟨name, n.toLowercase p.name, p.name, structs,
      [⟨pname, none, unsuffixedHex baseAddr false⟩]⟩
  | .many map => do
    let structs ← p.registers.mapM (registerStruct n true)
    let name ← n.formatIdent (n.toLowercase p.name)
    let handles ← map.mapM (handleOf n p.name)
    pure ⟨name, n.toLowercase p.name, p.name, structs, handles⟩

def krate (n : Naming) (peripherals : List Peripheral) : Except (Stop Empty) (List Module) :=
  peripherals.mapM (moduleOf n)

/-- The value of a hexadecimal literal; underscores do not count. -/
def literalValue : Text → Option ℕ
  | '0' :: 'x' :: cs =>
    let ds := cs.filter (· ≠ '_')
    if ds = [] then none else digits 16 (2^128) ds 0
  | _ => none

theorem toLower_upperDigit {d : ℕ} (h : d < 16) :
    toDigit 16 (upperDigit d).toLower = some d ∧ (upperDigit d).toLower ≠ '_' := by
  refine forall_below (n := 16) (P := fun d => toDigit 16 (upperDigit d).toLower = some d ∧
    (upperDigit d).toLower ≠ '_') ?_ d h
  decide

theorem mem_lowerHex {w n : ℕ} {c : Char} (h : c ∈ lowerHex w n) : c ≠ '_' := by
  obtain ⟨x, hx, rfl⟩ := List.mem_map.mp h
  obtain ⟨d, hd, rfl⟩ := mem_hex hx
  exact (toLower_upperDigit hd).2

theorem digits_toLower {s : Text} (h : ∀ c ∈ s, ∃ d < 16, c = upperDigit d) (bound n : ℕ) :
    digits 16 bound (s.map Char.toLower) n = digits 16 bound s n := by
  induction s generalizing n with
  | nil => rfl
  | cons c s ih =>
    obtain ⟨d, hd, rfl⟩ := h c List.mem_cons_self
    have htail := ih fun c hc => h c (List.mem_cons_of_mem _ hc)
    rw [List.map_cons, digits, digits, (toLower_upperDigit hd).1, toDigit_upper hd]
    split
    · split
      · exact htail _
      · rfl
    · rfl

theorem digits_lowerHex {bound w n m : ℕ} (hn : n < 16^w) (hm : m*16^w+n < bound) :
    digits 16 bound (lowerHex w n) m = some (m*16^w+n) := by
  rw [lowerHex, digits_toLower (fun c hc => mem_hex hc), digits_hex hn hm]

theorem filter_lowerHex (w n : ℕ) (cs : Text) :
    (lowerHex w n ++ cs).filter (· ≠ '_') = lowerHex w n ++ cs.filter (· ≠ '_') := by
  rw [List.filter_append]
  congr 1
  exact List.filter_eq_self.mpr fun c hc => decide_eq_true (mem_lowerHex hc)

theorem lowerHex_ne_nil {w : ℕ} (hw : 0 < w) (n : ℕ) (cs : Text) : lowerHex w n ++ cs ≠ [] := by
  obtain ⟨k, rfl⟩ : ∃ k, w = k+1 := ⟨w-1, by omega⟩
  simp [lowerHex, hex]

theorem literal_lowerHex {w n : ℕ} (hw : 0 < w) (hn : n < 16^w) (hbound : n < 2^128) :
    literalValue ('0' :: 'x' :: lowerHex w n) = some n := by
  have hdigits := filter_lowerHex w n []
  rw [List.append_nil, List.filter_nil, List.append_nil] at hdigits
  have hne := lowerHex_ne_nil hw n []
  rw [List.append_nil] at hne
  rw [literalValue, hdigits]
  show (if lowerHex w n = [] then none else digits 16 (2^128) (lowerHex w n) 0) = some n
  rw [if_neg hne, digits_lowerHex hn (by omega), Nat.zero_mul, Nat.zero_add]

theorem halves_value (val : UInt32) :
    (val >>> 16).toNat*16^4+(val &&& 0xffff).toNat = val.toNat ∧
      (val >>> 16).toNat < 16^4 ∧ (val &&& 0xffff).toNat < 16^4 := by
  have hlow : (val &&& 0xffff).toNat = val.toNat%2^16 := by
    rw [UInt32.toNat_and]
    exact Nat.and_two_pow_sub_one_eq_mod val.toNat 16
  have hhigh : (val >>> 16).toNat = val.toNat/2^16 := by
    rw [UInt32.toNat_shiftRight]
    exact Nat.shiftRight_eq_div_pow _ _
  have hlt := val.toNat_lt
  rw [hlow, hhigh]
  omega

theorem literal_unsuffixedHex (val : UInt32) (compact : Bool) :
    literalValue (unsuffixedHex val compact) = some val.toNat := by
  have hlt := val.toNat_lt
  rw [unsuffixedHex]
  split
  next h =>
    have hval : val.toNat ≤ 0xff := UInt32.le_iff_toNat_le.mp h.2
    exact literal_lowerHex (by decide) (by omega) (by omega)
  split
  next h =>
    have hval : val.toNat ≤ 0xffff := UInt32.le_iff_toNat_le.mp h.2
    exact literal_lowerHex (by decide) (by omega) (by omega)
  next =>
    obtain ⟨hsum, hhigh, hlow⟩ := halves_value val
    have hrest := filter_lowerHex 4 (val &&& 0xffff).toNat []
    rw [List.append_nil, List.filter_nil, List.append_nil] at hrest
    have hunderscore : ('_' :: lowerHex 4 (val &&& 0xffff).toNat).filter (· ≠ '_') =
        lowerHex 4 (val &&& 0xffff).toNat := by
      rw [List.filter_cons_of_neg (by decide), hrest]
    rw [literalValue, filter_lowerHex, hunderscore]
    show (if _ = [] then none else digits 16 (2^128) _ 0) = _
    rw [if_neg (lowerHex_ne_nil (by decide) _ _), digits_append,
      digits_lowerHex hhigh (by omega), Option.bind_some, Nat.zero_mul, Nat.zero_add,
      digits_lowerHex hlow (by omega), hsum]

end UsbArmory.Txt2rust.Codegen
