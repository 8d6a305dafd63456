import UsbArmory.Library.Registers
import UsbArmory.Library.Traversal
import UsbArmory.Txt2rust.Codegen

/-!
# Calls of the generated methods

What the methods of the generated crate do on the bus, and what they are to do
by the description of the register that they are made of.
-/

set_option autoImplicit false

namespace UsbArmory.Txt2rust.Calls
open UsbArmory.Library.Word UsbArmory.Library.Binary UsbArmory.Library.Strings
open UsbArmory.Library.Numerals UsbArmory.Library.Trace UsbArmory.Library.Traversal
open UsbArmory.Library.Registers (Bus Device load store)
open UsbArmory.Txt2rust.Compress UsbArmory.Txt2rust.Codegen

/-- An address, and the number of bits that are accessed there at once. -/
abbrev Cell := UInt32 × UInt8

abbrev Act := Library.Registers.Access Cell ℕ

abbrev Io (α : Type) := Bus Cell ℕ Empty α

structure Accessor where
  handle : Handle
  struct : RegisterStruct

def Module.accessors (m : Module) : List Accessor :=
  m.handles.flatMap fun h => m.structs.map (Accessor.mk h)

def accessors (modules : List Module) : List Accessor := modules.flatMap Module.accessors

inductive Call where
  | read
  | write (bits : ℕ)
  | rmw (f : ℕ → ℕ)
  | reset
  | address

def Call.runs : Call → Body → Bool
  | .read, .read | .write _, .write | .rmw _, .rmw | .reset, .reset | .address, .address _ => true
  | _, _ => false

def Call.Offered (call : Call) (s : RegisterStruct) : Prop :=
  ∃ m ∈ s.methods, call.runs m.body = true

section Meaning
variable (o : Overflow) (d : Device Cell ℕ)

def literal (s : Text) : Io ℕ := expect "invalid integer literal" (literalValue s)

def RegisterStruct.assertIndex (s : RegisterStruct) (idx : ℕ) : Io Unit :=
  match s.index with
  | none => pure ()
  | some i => ensure (idx < i.max.toNat%2^i.width.toNat) ("assertion failed: idx < " ++
      toString i.max ++ "u16 as u" ++ toString i.width)

/-- `((BASE_ADDRESS + Self::OFFSET) as *mut uxx) .add(idx)` -/
def Accessor.pointer (a : Accessor) (idx : ℕ) : Io UInt32 := do
  let base ← literal a.handle.baseAddress
  let offset ← literal a.struct.offset
  let ptr ← expect "attempt to add with overflow"
    (o.add32 (UInt32.ofNat base) (UInt32.ofNat offset))
  match a.struct.index with
  | none => pure ptr
  | some _ => pure (ptr+UInt32.ofNat (idx*(a.struct.uxx.toNat/8)))

def Accessor.read (a : Accessor) (idx : ℕ) : Io ℕ := do
  RegisterStruct.assertIndex a.struct idx
  let ptr ← a.pointer o idx
  load d (ptr, a.struct.uxx)

/-- The body of `write` and of `clear`. -/
def Accessor.write (a : Accessor) (idx bits : ℕ) : Io Unit := do
  RegisterStruct.assertIndex a.struct idx
  let ptr ← a.pointer o idx
  store (ptr, a.struct.uxx) bits

def Accessor.invoke (a : Accessor) (idx : ℕ) : Call → Io Unit
  | .read => do
    let _ ← a.read o d idx
  | .write bits => a.write o idx bits
  | .rmw f => do
    let old ← a.read o d idx
    a.write o idx (f old)
  | .reset => do
    let rv ← literal (a.struct.resetValue.getD [])
    a.write o idx rv
  | .address => do
    let _ ← a.pointer o idx

/-- How many indices the assertion admits, where the number is cast. -/
def indices (reg : Register) : ℕ :=
  if reg.instances = 1 then 1
  else if reg.instances ≤ 256 then reg.instances.toNat%256 else reg.instances.toNat

def cellOf (base : UInt32) (reg : Register) (idx : ℕ) : Cell :=
  (if reg.instances = 1 then base+reg.offset
    else base+reg.offset+UInt32.ofNat (idx*(reg.width.toNat/8)), reg.width)

end Meaning

structure Describes (place : Text × UInt32) (reg : Register) (a : Accessor) : Prop where
  handle : a.handle.name = place.1
  base : a.handle.baseAddress = unsuffixedHex place.2 false
  name : a.struct.name = reg.name
  uxx : a.struct.uxx = reg.width
  index : a.struct.index = indexOf reg
  offset : a.struct.offset = unsuffixedHex reg.offset true
  resetValue : a.struct.resetValue = reg.resetValue.map fun rv => unsuffixedHex rv false
  methods : ∃ inUnsafe, a.struct.methods = readMethods reg ++ writeMethods reg ++
    resetMethods reg ++ [⟨false, "address".toList, .address inUnsafe⟩]

/-- The handles of a peripheral and their base addresses. -/
def places (p : Peripheral) : List (Text × UInt32) := match p.instances with
  | .single baseAddr => [(p.name, baseAddr)]
  | .many map => map.map fun e => (p.name ++ decimal e.1, e.2)

section Modules
variable {n : Naming} {p : Peripheral} {m : Module} {reg : Register} {s : RegisterStruct}
variable {ps : List Peripheral} {modules : List Module}

theorem formatIdent_ok {t ident : Text} (h : n.formatIdent t = .ok ident) : ident = t := by
  unfold Naming.formatIdent at h
  split at h
  · exact (Except.ok.inj h).symm
  · cases h

theorem registerStruct_ok {generic : Bool} (h : registerStruct n generic reg = .ok s) :
    s = ⟨docOf reg, reg.name, reg.width, indexOf reg, unsuffixedHex reg.offset true,
      reg.resetValue.map fun rv => unsuffixedHex rv false, readMethods reg ++ writeMethods reg ++
        resetMethods reg ++ [⟨false, "address".toList, .address !generic⟩]⟩ := by
  obtain ⟨name, hname, h⟩ := ok_of_bind h
  cases h
  rw [formatIdent_ok hname]

theorem handleOf_ok {pname : Text} {e : ℕ × UInt32} {h : Handle}
    (hok : handleOf n pname e = .ok h) :
    h = ⟨pname ++ decimal e.1, some ('_'::decimal e.1), unsuffixedHex e.2 false⟩ := by
  obtain ⟨name, hname, hok⟩ := ok_of_bind hok
  obtain ⟨marker, hmarker, hok⟩ := ok_of_bind hok
  cases hok
  rw [formatIdent_ok hname, formatIdent_ok hmarker]

theorem moduleOf_ok (h : moduleOf n p = .ok m) :
    (∃ generic, List.Forall₂ (fun reg s => registerStruct n generic reg = .ok s) p.registers
      m.structs) ∧
      List.Forall₂ (fun (pl : Text × UInt32) h => h.name = pl.1 ∧
        h.baseAddress = unsuffixedHex pl.2 false) (places p) m.handles := by
  obtain ⟨pname, hpname, h⟩ := ok_of_bind h
  obtain ⟨periphName, instances, regs⟩ := p
  cases instances with
  | single baseAddr =>
    obtain ⟨structs, hstructs, h⟩ := ok_of_bind h
    obtain ⟨name, -, h⟩ := ok_of_bind h
    cases h
    exact ⟨⟨false, mapM_ok hstructs⟩, .cons ⟨formatIdent_ok hpname, rfl⟩ .nil⟩
  | many map =>
    obtain ⟨structs, hstructs, h⟩ := ok_of_bind h
    obtain ⟨name, -, h⟩ := ok_of_bind h
    obtain ⟨handles, hhandles, h⟩ := ok_of_bind h
    cases h
    refine ⟨⟨true, mapM_ok hstructs⟩, ?_⟩
    show List.Forall₂ _ (map.map _) handles
    rw [List.forall₂_map_left_iff]
    refine (mapM_ok hhandles).imp fun e h hok => ?_
    rw [handleOf_ok hok]
    exact ⟨rfl, rfl⟩

theorem describes_of {generic : Bool} {pl : Text × UInt32} {h : Handle}
    (hs : registerStruct n generic reg = .ok s)
    (hh : h.name = pl.1 ∧ h.baseAddress = unsuffixedHex pl.2 false) : Describes pl reg ⟨h, s⟩ := by
  rw [registerStruct_ok hs]
  exact ⟨hh.1, hh.2, rfl, rfl, rfl, rfl, rfl, _, rfl⟩

theorem accessor_exists (h : krate n ps = .ok modules) (hp : p ∈ ps) {pl : Text × UInt32}
    (hpl : pl ∈ places p) (hreg : reg ∈ p.registers) :
    ∃ a ∈ accessors modules, Describes pl reg a := by
  obtain ⟨m, hm, hmodule⟩ := mem_of_forall₂ (mapM_ok h) p hp
  obtain ⟨⟨generic, hstructs⟩, hhandles⟩ := moduleOf_ok hmodule
  obtain ⟨handle, hhandle, hh⟩ := mem_of_forall₂ hhandles pl hpl
  obtain ⟨s, hs, hstruct⟩ := mem_of_forall₂ hstructs reg hreg
  refine ⟨⟨handle, s⟩, ?_, describes_of hstruct hh⟩
  exact List.mem_flatMap.mpr ⟨m, hm, List.mem_flatMap.mpr ⟨handle, hhandle,
    List.mem_map_of_mem hs⟩⟩

end Modules

section Behaviour
variable {o : Overflow} {d : Device Cell ℕ} {pl : Text × UInt32} {reg : Register} {a : Accessor}
variable {idx : ℕ} {before : List Act} {addr : UInt32}

theorem literal_eq (val : UInt32) (compact : Bool) :
    literal (unsuffixedHex val compact) = pure val.toNat := by
  rw [literal, literal_unsuffixedHex]
  rfl

def Admitted (reg : Register) (idx : ℕ) : Prop := reg.instances = 1 ∨ idx < indices reg

instance (reg : Register) (idx : ℕ) : Decidable (Admitted reg idx) :=
  inferInstanceAs (Decidable (_ ∨ _))

theorem index_bound (h : reg.instances ≠ 1) : ∃ i, indexOf reg = some i ∧
    i.max.toNat%2^i.width.toNat = indices reg := by
  rw [indexOf, if_neg h]
  refine ⟨_, rfl, ?_⟩
  have hlt := reg.instances.toNat_lt
  rw [indices, if_neg h]
  show reg.instances.toNat%2^UInt8.toNat (if reg.instances ≤ 256 then 8 else 16) = _
  split
  · rfl
  · exact Nat.mod_eq_of_lt hlt

theorem assertIndex_admitted (h : Describes pl reg a) (hidx : Admitted reg idx) :
    RegisterStruct.assertIndex a.struct idx = pure () := by
  rw [RegisterStruct.assertIndex, h.index]
  by_cases hone : reg.instances = 1
  · rw [indexOf, if_pos hone]
  · obtain ⟨i, hi, hbound⟩ := index_bound hone
    rw [hi]
    exact if_pos (hbound ▸ hidx.resolve_left hone)

theorem assertIndex_refused (h : Describes pl reg a) (hidx : ¬Admitted reg idx) :
    ∃ message, RegisterStruct.assertIndex a.struct idx = throw (.panic message) := by
  obtain ⟨hone, hge⟩ := not_or.mp hidx
  obtain ⟨i, hi, hbound⟩ := index_bound hone
  rw [RegisterStruct.assertIndex, h.index, hi]
  exact ⟨_, if_neg (hbound ▸ hge)⟩

theorem pointer_eq (h : Describes pl reg a) (hadd : o.add32 pl.2 reg.offset = some addr) :
    a.pointer o idx = pure (if reg.instances = 1 then addr
      else addr+UInt32.ofNat (idx*(reg.width.toNat/8))) := by
  have hexpect : (expect "attempt to add with overflow" (o.add32 (UInt32.ofNat pl.2.toNat)
      (UInt32.ofNat reg.offset.toNat)) : Io UInt32) = pure addr := by
    rw [UInt32.ofNat_toNat, UInt32.ofNat_toNat, hadd]
    rfl
  rw [Accessor.pointer, h.base, h.offset, literal_eq, literal_eq, pure_bind, pure_bind, hexpect,
    pure_bind, h.index, h.uxx, indexOf]
  split
  next hnone =>
    split at hnone
    next hone => rw [if_pos hone]
    next => cases hnone
  next hsome =>
    split at hsome
    next => cases hsome
    next hone => rw [if_neg hone]

theorem pointer_cell (h : Describes pl reg a) (hadd : o.add32 pl.2 reg.offset = some addr) :
    a.pointer o idx = pure (cellOf pl.2 reg idx).1 := by
  rw [pointer_eq h hadd, add32_value hadd]
  rfl

theorem pointer_overflow (h : Describes pl reg a) (hadd : o.add32 pl.2 reg.offset = none) :
    a.pointer o idx = throw (.panic "attempt to add with overflow") := by
  rw [Accessor.pointer, h.base, h.offset, literal_eq, literal_eq, pure_bind, pure_bind,
    UInt32.ofNat_toNat, UInt32.ofNat_toNat, hadd]
  rfl

theorem throw_bind {α β : Type} (stop : Stop Empty) (f : α → Io β) :
    (throw stop >>= f : Io β) = throw stop := rfl

theorem read_eq (h : Describes pl reg a) (hadd : o.add32 pl.2 reg.offset = some addr)
    (hidx : Admitted reg idx) : a.read o d idx = load d (cellOf pl.2 reg idx) := by
  rw [Accessor.read, assertIndex_admitted h hidx, pure_bind, pointer_cell h hadd, pure_bind, h.uxx]
  rfl

theorem write_eq (h : Describes pl reg a) (hadd : o.add32 pl.2 reg.offset = some addr)
    (hidx : Admitted reg idx) (bits : ℕ) :
    a.write o idx bits = store (cellOf pl.2 reg idx) bits := by
  rw [Accessor.write, assertIndex_admitted h hidx, pure_bind, pointer_cell h hadd, pure_bind, h.uxx]
  rfl

theorem read_fails (h : Describes pl reg a)
    (hidx : ¬Admitted reg idx ∨ o.add32 pl.2 reg.offset = none) :
    ∃ message, a.read o d idx = throw (.panic message) := by
  by_cases hadmitted : Admitted reg idx
  · refine ⟨"attempt to add with overflow", ?_⟩
    rw [Accessor.read, assertIndex_admitted h hadmitted, pure_bind,
      pointer_overflow h (hidx.resolve_left (not_not.mpr hadmitted)), throw_bind]
  · obtain ⟨message, hassert⟩ := assertIndex_refused h hadmitted
    refine ⟨message, ?_⟩
    rw [Accessor.read, hassert, throw_bind]

theorem write_fails (h : Describes pl reg a)
    (hidx : ¬Admitted reg idx ∨ o.add32 pl.2 reg.offset = none) (bits : ℕ) :
    ∃ message, a.write o idx bits = throw (.panic message) := by
  by_cases hadmitted : Admitted reg idx
  · refine ⟨"attempt to add with overflow", ?_⟩
    rw [Accessor.write, assertIndex_admitted h hadmitted, pure_bind,
      pointer_overflow h (hidx.resolve_left (not_not.mpr hadmitted)), throw_bind]
  · obtain ⟨message, hassert⟩ := assertIndex_refused h hadmitted
    refine ⟨message, ?_⟩
    rw [Accessor.write, hassert, throw_bind]

theorem mem_methods (h : Describes pl reg a) {call : Call} (hoffered : call.Offered a.struct) :
    (∃ m ∈ readMethods reg, call.runs m.body = true) ∨
    (∃ m ∈ writeMethods reg, call.runs m.body = true) ∨
    (∃ m ∈ resetMethods reg, call.runs m.body = true) ∨ call = .address := by
  obtain ⟨m, hm, hruns⟩ := hoffered
  obtain ⟨inUnsafe, hmethods⟩ := h.methods
  rw [hmethods] at hm
  simp only [List.mem_append, List.mem_singleton, or_assoc] at hm
  rcases hm with hm | hm | hm | rfl
  · exact .inl ⟨m, hm, hruns⟩
  · exact .inr (.inl ⟨m, hm, hruns⟩)
  · exact .inr (.inr (.inl ⟨m, hm, hruns⟩))
  · refine .inr (.inr (.inr ?_))
    cases call <;> first | rfl | cases hruns

theorem offered_iff (h : Describes pl reg a) (call : Call) : call.Offered a.struct ↔
    match call with
    | .read => reg.access ≠ .writeOnly
    | .write _ => reg.access ≠ .readOnly
    | .rmw _ => reg.access = .readWrite
    | .reset => reg.resetValue.isSome ∧ (reg.access = .readWrite ∨ reg.access = .writeOnly)
    | .address => True := by
  obtain ⟨inUnsafe, hmethods⟩ := h.methods
  rw [Call.Offered, hmethods]
  simp only [readMethods, writeMethods, resetMethods]
  generalize reg.access = access
  generalize reg.resetValue.isSome = isSome
  cases call <;> cases access <;> cases isSome <;> simp [Call.runs]

end Behaviour

end UsbArmory.Txt2rust.Calls
