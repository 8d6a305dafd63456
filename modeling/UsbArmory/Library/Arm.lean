import Mathlib.Algebra.Ring.Nat
import Mathlib.Logic.Function.Basic
import Mathlib.Tactic.Common

/-!
# A part of the ARM instruction set

Moves, arithmetic, loads and stores, branches, and what an exception handler
needs: registers of which every mode has its own copy, and the instructions that
leave one mode with the state of another. An access that is not aligned faults.
What a device answers to a load may depend on all accesses before; the stack
instructions are about memory.
-/

set_option autoImplicit false

namespace UsbArmory.Library.Arm

abbrev Word := BitVec 32

abbrev Mode := BitVec 5

def svc : Mode := 19#5

def irqMode : Mode := 18#5

/-- The general registers have numbers. -/
instance neZeroRegs : NeZero (13 : ℕ) := ⟨by decide⟩

inductive Reg where
  | r (i : Fin 13)
  | sp
  | lr
  deriving DecidableEq

inductive Access where
  | load (addr value : Word)
  | store (addr value : Word)
  | loadHalf (addr : Word) (value : BitVec 16)
  | storeHalf (addr : Word) (value : BitVec 16)
  deriving DecidableEq

structure Bus where
  device : Word → Bool
  read : List Access → Word → Word

structure Machine where
  r : Fin 13 → Word
  sp : Mode → Word
  lr : Mode → Word
  spsr : Mode → Word
  pc : Word
  cpsr : Word
  vbar : Word
  /-- The words at the multiples of four. -/
  mem : Word → Word
  log : List Access

inductive Operand where
  | imm (value : Word)
  | reg (rm : Reg)

inductive Cond where
  | always
  | eq
  | ne
  | cs

inductive Instr where
  /-- `ldr rt, =value` -/
  | ldrConst (rt : Reg) (value : Word)
  /-- `ldr pc, =target` -/
  | ldrPc (target : Word)
  | movw (rd : Reg) (value : BitVec 16)
  | movt (rd : Reg) (value : BitVec 16)
  | mov (rd rm : Reg)
  | add (rd rn : Reg) (op : Operand)
  | sub (rd rn : Reg) (op : Operand)
  | subs (rd rn : Reg) (op : Operand)
  | and (rd rn : Reg) (op : Operand)
  | bic (rd rn : Reg) (op : Operand)
  | lsr (rd rn : Reg) (shift : ℕ)
  | cmp (rn : Reg) (op : Operand)
  | tst (rn : Reg) (op : Operand)
  | nop
  /-- `ldr rt, [rn, #offset]` -/
  | ldr (rt rn : Reg) (offset : Word)
  /-- `ldr rt, [rn], #offset` -/
  | ldrPost (rt rn : Reg) (offset : Word)
  | str (rt rn : Reg) (offset : Word)
  | strPost (rt rn : Reg) (offset : Word)
  | ldrb (rt rn : Reg)
  | ldrh (rt rn : Reg)
  | strh (rt rn : Reg)
  | push (regs : List Reg)
  | pop (regs : List Reg)
  /-- `srsdb sp!, #mode` -/
  | srsdb (mode : Mode)
  /-- `rfeia sp!` -/
  | rfeia
  | cps (mode : Mode)
  | b (cond : Cond) (target : Word)
  | bl (target : Word)
  | bx (cond : Cond) (rm : Reg)
  /-- `mcr p15, 0, rt, c12, c0, 0` -/
  | mcrVbar (rt : Reg)

namespace Machine
variable (m : Machine)

def mode : Mode := m.cpsr.setWidth 5

def reg : Reg → Word
  | .r i => m.r i
  | .sp => m.sp m.mode
  | .lr => m.lr m.mode

def setReg (rd : Reg) (v : Word) : Machine :=
  match rd with
  | .r i => { m with r := Function.update m.r i v }
  | .sp => { m with sp := Function.update m.sp m.mode v }
  | .lr => { m with lr := Function.update m.lr m.mode v }

def value : Operand → Word
  | .imm v => v
  | .reg rm => m.reg rm

def advance : Machine := { m with pc := m.pc+4 }

def goto (target : Word) : Machine := { m with pc := target }

def zero : Bool := m.cpsr.getLsbD 30

def carry : Bool := m.cpsr.getLsbD 29

def holds : Cond → Bool
  | .always => true
  | .eq => m.zero
  | .ne => !m.zero
  | .cs => m.carry

def branch (cond : Cond) (target : Word) : Machine :=
  if m.holds cond then m.goto target else m.advance

/-- The flags `N`, `Z`, `C` and `V`. -/
def setFlags (n z c v : Bool) : Machine :=
  { m with cpsr := (BitVec.ofBool n ++ BitVec.ofBool z ++ BitVec.ofBool c ++ BitVec.ofBool v) ++
      (m.cpsr.setWidth 28 : BitVec 28) }

def compare (a b : Word) : Machine :=
  m.setFlags (a-b).msb (a == b) (b ≤ a) (a.msb != b.msb && (a-b).msb != a.msb)

def setMode (mode : Mode) : Machine :=
  { m with cpsr := m.cpsr &&& ~~~0x1f#32 ||| mode.setWidth 32 }

def record (a : Access) : Machine := { m with log := m.log ++ [a] }

def load (bus : Bus) (a : Word) : Option (Word × Machine) :=
  if a.toNat%4 = 0 then
    if bus.device a then some (bus.read m.log a, m.record (.load a (bus.read m.log a)))
    else some (m.mem a, m)
  else none

def store (bus : Bus) (a v : Word) : Option Machine :=
  if a.toNat%4 = 0 then
    if bus.device a then some (m.record (.store a v))
    else some { m with mem := Function.update m.mem a v }
  else none

/-- The word around an address, and where the address is in it. -/
def around (a : Word) : Word × ℕ := (m.mem (a &&& ~~~3#32), 8*(a.toNat%4))

def loadHalf (bus : Bus) (a : Word) : Option (BitVec 16 × Machine) :=
  if a.toNat%2 = 0 then
    if bus.device a then
      let v := (bus.read m.log a).setWidth 16
      some (v, m.record (.loadHalf a v))
    else some (((m.around a).1 >>> (m.around a).2).setWidth 16, m)
  else none

def storeHalf (bus : Bus) (a : Word) (v : BitVec 16) : Option Machine :=
  if a.toNat%2 = 0 then
    if bus.device a then some (m.record (.storeHalf a v))
    else
      let (w, shift) := m.around a
      let w := w &&& ~~~(0xffff#32 <<< shift) ||| v.setWidth 32 <<< shift
      some { m with mem := Function.update m.mem (a &&& ~~~3#32) w }
  else none

/-- The registers from this address on, the first one lowest. -/
def storeMany (a : Word) : List Word → (Word → Word) → Word → Word
  | [], mem => mem
  | v::vs, mem => storeMany (a+4) vs (Function.update mem a v)

def loadMany (a : Word) : List Reg → Machine → Machine
  | [], m => m
  | rt::regs, m => loadMany (a+4) regs (m.setReg rt (m.mem a))

def push (regs : List Reg) : Machine :=
  let a := m.reg .sp - BitVec.ofNat 32 (4*regs.length)
  { m.setReg .sp a with mem := storeMany a (regs.map m.reg) m.mem }

def pop (regs : List Reg) : Machine :=
  (loadMany (m.reg .sp) regs m).setReg .sp (m.reg .sp + BitVec.ofNat 32 (4*regs.length))

/-- The return state goes to the stack of another mode. -/
def srsdb (mode : Mode) : Machine :=
  let a := m.sp mode - 8
  { m with
    sp := Function.update m.sp mode a
    mem := storeMany a [m.lr m.mode, m.spsr m.mode] m.mem }

def rfeia : Machine :=
  let a := m.reg .sp
  { m.setReg .sp (a+8) with pc := m.mem a, cpsr := m.mem (a+4) }

def aligned : Bool := (m.reg .sp).toNat%4 == 0

end Machine

open Machine

/-- `none` where the instruction faults. -/
def exec (bus : Bus) (i : Instr) (m : Machine) : Option Machine :=
  match i with
  | .ldrConst rt v => some (m.setReg rt v).advance
  | .ldrPc target => some (m.goto target)
  | .movw rd v => some (m.setReg rd (v.setWidth 32)).advance
  | .movt rd v => some (m.setReg rd (v ++ ((m.reg rd).setWidth 16 : BitVec 16))).advance
  | .mov rd rm => some (m.setReg rd (m.reg rm)).advance
  | .add rd rn op => some (m.setReg rd (m.reg rn + m.value op)).advance
  | .sub rd rn op => some (m.setReg rd (m.reg rn - m.value op)).advance
  | .subs rd rn op =>
    some ((m.compare (m.reg rn) (m.value op)).setReg rd (m.reg rn - m.value op)).advance
  | .and rd rn op => some (m.setReg rd (m.reg rn &&& m.value op)).advance
  | .bic rd rn op => some (m.setReg rd (m.reg rn &&& ~~~m.value op)).advance
  | .lsr rd rn shift => some (m.setReg rd (m.reg rn >>> shift)).advance
  | .cmp rn op => some (m.compare (m.reg rn) (m.value op)).advance
  | .tst rn op =>
    let v := m.reg rn &&& m.value op
    some (m.setFlags v.msb (v == 0) m.carry (m.cpsr.getLsbD 28)).advance
  | .nop => some m.advance
  | .ldr rt rn offset => (m.load bus (m.reg rn + offset)).map fun (v, m) => (m.setReg rt v).advance
  | .ldrPost rt rn offset => (m.load bus (m.reg rn)).map fun (v, m) =>
    ((m.setReg rn (m.reg rn + offset)).setReg rt v).advance
  | .str rt rn offset => (m.store bus (m.reg rn + offset) (m.reg rt)).map advance
  | .strPost rt rn offset => (m.store bus (m.reg rn) (m.reg rt)).map fun m =>
    (m.setReg rn (m.reg rn + offset)).advance
  | .ldrb rt rn =>
    let (w, shift) := m.around (m.reg rn)
    if bus.device (m.reg rn) then none
    else some (m.setReg rt ((w >>> shift).setWidth 8 |>.setWidth 32)).advance
  | .ldrh rt rn => (m.loadHalf bus (m.reg rn)).map fun (v, m) =>
      (m.setReg rt (v.setWidth 32)).advance
  | .strh rt rn => (m.storeHalf bus (m.reg rn) ((m.reg rt).setWidth 16)).map advance
  | .push regs => if m.aligned then some (m.push regs).advance else none
  | .pop regs => if m.aligned then some (m.pop regs).advance else none
  | .srsdb mode => if (m.sp mode).toNat%4 = 0 then some (m.srsdb mode).advance else none
  | .rfeia => if m.aligned then some m.rfeia else none
  | .cps mode => some (m.setMode mode).advance
  | .b cond target => some (m.branch cond target)
  | .bl target => some ((m.setReg .lr (m.pc+4)).goto target)
  | .bx cond rm => some (m.branch cond (m.reg rm))
  | .mcrVbar rt => some { m with vbar := m.reg rt }.advance

/-- An interrupt: the mode is changed, and further ones are masked. -/
def takeIrq (m : Machine) : Machine :=
  { m with
    lr := Function.update m.lr irqMode (m.pc+4)
    spsr := Function.update m.spsr irqMode m.cpsr
    cpsr := m.cpsr &&& ~~~0x3f#32 ||| 0x92#32
    pc := m.vbar+0x18 }

def Machine.irqMasked (m : Machine) : Bool := m.cpsr.getLsbD 7

/-! Code in memory -/

abbrev Code := Word → Option Instr

def codeAt (base : Word) (instrs : List Instr) : Code := fun pc =>
  if (pc-base).toNat%4 = 0 then instrs[(pc-base).toNat/4]? else none

def addr (base : Word) (i : ℕ) : Word := base + BitVec.ofNat 32 (4*i)

section Runs
variable (code : Code) (bus : Bus)

def next (m : Machine) : Option Machine := (code m.pc).bind fun i => exec bus i m

def steps : ℕ → Machine → Option Machine
  | 0, m => some m
  | n+1, m => (next code bus m).bind (steps n)

/-- So many instructions with interrupts masked, up to the end of the code. -/
def uninterrupted : ℕ → Machine → Option Machine
  | 0, m => if code m.pc = none then some m else none
  | n+1, m => if m.irqMasked then (next code bus m).bind (uninterrupted n) else none

def Runs (m m' : Machine) : Prop := ∃ n, uninterrupted code bus n m = some m'

end Runs

/-! Lemmas on the parts of a machine -/

section Parts
variable {m : Machine}

@[simp] theorem advance_pc : m.advance.pc = m.pc+4 := rfl
@[simp] theorem advance_reg (rt : Reg) : m.advance.reg rt = m.reg rt := by cases rt <;> rfl
@[simp] theorem advance_mem : m.advance.mem = m.mem := rfl
@[simp] theorem advance_cpsr : m.advance.cpsr = m.cpsr := rfl
@[simp] theorem advance_r : m.advance.r = m.r := rfl
@[simp] theorem advance_sp : m.advance.sp = m.sp := rfl
@[simp] theorem advance_lr : m.advance.lr = m.lr := rfl
@[simp] theorem advance_spsr : m.advance.spsr = m.spsr := rfl
@[simp] theorem advance_vbar : m.advance.vbar = m.vbar := rfl
@[simp] theorem advance_mode : m.advance.mode = m.mode := rfl

@[simp] theorem goto_pc (target : Word) : (m.goto target).pc = target := rfl
@[simp] theorem goto_reg (target : Word) (rt : Reg) : (m.goto target).reg rt = m.reg rt := by
  cases rt <;> rfl
@[simp] theorem goto_mem (target : Word) : (m.goto target).mem = m.mem := rfl
@[simp] theorem goto_cpsr (target : Word) : (m.goto target).cpsr = m.cpsr := rfl
@[simp] theorem goto_mode (target : Word) : (m.goto target).mode = m.mode := rfl
@[simp] theorem goto_r (target : Word) : (m.goto target).r = m.r := rfl
@[simp] theorem goto_sp (target : Word) : (m.goto target).sp = m.sp := rfl
@[simp] theorem goto_lr (target : Word) : (m.goto target).lr = m.lr := rfl
@[simp] theorem goto_spsr (target : Word) : (m.goto target).spsr = m.spsr := rfl
@[simp] theorem goto_vbar (target : Word) : (m.goto target).vbar = m.vbar := rfl

variable (rt : Reg) (v : Word)

@[simp] theorem setReg_pc : (m.setReg rt v).pc = m.pc := by cases rt <;> rfl
@[simp] theorem setReg_mem : (m.setReg rt v).mem = m.mem := by cases rt <;> rfl
@[simp] theorem setReg_cpsr : (m.setReg rt v).cpsr = m.cpsr := by cases rt <;> rfl
@[simp] theorem setReg_spsr : (m.setReg rt v).spsr = m.spsr := by cases rt <;> rfl
@[simp] theorem setReg_vbar : (m.setReg rt v).vbar = m.vbar := by cases rt <;> rfl
@[simp] theorem setReg_log : (m.setReg rt v).log = m.log := by cases rt <;> rfl
@[simp] theorem setReg_mode : (m.setReg rt v).mode = m.mode := by cases rt <;> rfl

@[simp] theorem reg_setReg (rd : Reg) :
    (m.setReg rt v).reg rd = if rd = rt then v else m.reg rd := by
  cases rt <;> cases rd <;> simp [reg, setReg, mode, Function.update_apply]

theorem setReg_r (i : Fin 13) : (m.setReg rt v).r i = if rt = .r i then v else m.r i := by
  cases rt <;> simp [setReg, Function.update_apply, eq_comm]

theorem setReg_sp (mode : Mode) :
    (m.setReg rt v).sp mode = if rt = .sp ∧ mode = m.mode then v else m.sp mode := by
  cases rt <;> simp [setReg, Function.update_apply]

theorem setReg_lr (mode : Mode) :
    (m.setReg rt v).lr mode = if rt = .lr ∧ mode = m.mode then v else m.lr mode := by
  cases rt <;> simp [setReg, Function.update_apply]

theorem setMode_mode (mode : Mode) : (m.setMode mode).mode = mode := by
  simp [setMode, Machine.mode]

theorem takeIrq_mode : (takeIrq m).mode = irqMode := by
  simp [takeIrq, Machine.mode, irqMode]

theorem takeIrq_masked : (takeIrq m).irqMasked = true := by
  simp [takeIrq, irqMasked]

@[simp] theorem srsdb_pc (mode : Mode) : (m.srsdb mode).pc = m.pc := rfl
@[simp] theorem srsdb_cpsr (mode : Mode) : (m.srsdb mode).cpsr = m.cpsr := rfl
@[simp] theorem srsdb_vbar (mode : Mode) : (m.srsdb mode).vbar = m.vbar := rfl
@[simp] theorem setMode_pc (mode : Mode) : (m.setMode mode).pc = m.pc := rfl
@[simp] theorem setMode_vbar (mode : Mode) : (m.setMode mode).vbar = m.vbar := rfl

@[simp] theorem rfeia_r : m.rfeia.r = m.r := rfl
@[simp] theorem rfeia_lr : m.rfeia.lr = m.lr := rfl
@[simp] theorem rfeia_mem : m.rfeia.mem = m.mem := rfl
@[simp] theorem rfeia_vbar : m.rfeia.vbar = m.vbar := rfl

theorem rfeia_sp : m.rfeia.sp m.mode = m.reg .sp + 8 := by
  show Function.update m.sp m.mode (m.reg .sp + 8) m.mode = _
  rw [Function.update_apply, if_pos rfl]

theorem branch_always (target : Word) : m.branch .always target = m.goto target := if_pos rfl

theorem setFlags_zero (n z c v : Bool) : (m.setFlags n z c v).zero = z := by
  simp only [setFlags, zero, BitVec.getLsbD_append]
  simp

theorem setFlags_carry (n z c v : Bool) : (m.setFlags n z c v).carry = c := by
  simp only [setFlags, carry, BitVec.getLsbD_append]
  simp

theorem setFlags_mode (n z c v : Bool) : (m.setFlags n z c v).mode = m.mode := by
  apply BitVec.eq_of_getLsbD_eq
  intro i hi
  have hlow : i < 28 := by omega
  simp only [setFlags, mode, BitVec.getLsbD_setWidth, BitVec.getLsbD_append, hlow, if_true,
    decide_true, Bool.true_and]

theorem setMode_masked (mode : Mode) : (m.setMode mode).irqMasked = m.irqMasked := by
  simp [setMode, irqMasked]

end Parts

theorem load_mem {bus : Bus} {m : Machine} {a : Word} (ha : a.toNat%4 = 0)
    (hdevice : bus.device a = false) : m.load bus a = some (m.mem a, m) := by
  rw [load, if_pos ha, hdevice]
  rfl

theorem store_mem {bus : Bus} {m : Machine} {a v : Word} (ha : a.toNat%4 = 0)
    (hdevice : bus.device a = false) :
    m.store bus a v = some { m with mem := Function.update m.mem a v } := by
  rw [store, if_pos ha, hdevice]
  rfl

theorem load_device {bus : Bus} {m : Machine} {a : Word} (ha : a.toNat%4 = 0)
    (hdevice : bus.device a = true) :
    m.load bus a = some (bus.read m.log a, m.record (.load a (bus.read m.log a))) := by
  rw [load, if_pos ha, if_pos hdevice]

theorem store_device {bus : Bus} {m : Machine} {a v : Word} (ha : a.toNat%4 = 0)
    (hdevice : bus.device a = true) : m.store bus a v = some (m.record (.store a v)) := by
  rw [store, if_pos ha, if_pos hdevice]

theorem loadHalf_device {bus : Bus} {m : Machine} {a : Word} (ha : a.toNat%2 = 0)
    (hdevice : bus.device a = true) : m.loadHalf bus a = some ((bus.read m.log a).setWidth 16,
      m.record (.loadHalf a ((bus.read m.log a).setWidth 16))) := by
  rw [loadHalf, if_pos ha, if_pos hdevice]

theorem storeHalf_device {bus : Bus} {m : Machine} {a : Word} {v : BitVec 16}
    (ha : a.toNat%2 = 0) (hdevice : bus.device a = true) :
    m.storeHalf bus a v = some (m.record (.storeHalf a v)) := by
  rw [storeHalf, if_pos ha, if_pos hdevice]

/-! Words one after another -/

def Stored (mem : Word → Word) : Word → List Word → Prop
  | _, [] => True
  | a, v::vs => mem a = v ∧ Stored mem (a+4) vs

theorem storeMany_other {a x : Word} {vs : List Word} {mem : Word → Word}
    (h : 4*vs.length ≤ (x-a).toNat) : storeMany a vs mem x = mem x := by
  induction vs generalizing a mem with
  | nil => rfl
  | cons v vs ih =>
    rw [List.length_cons] at h
    rw [storeMany, ih (by bv_omega)]
    exact Function.update_of_ne (by bv_omega) _ _

theorem stored_storeMany {a : Word} {vs : List Word} {mem : Word → Word}
    (h : 4*vs.length ≤ 2^32) : Stored (storeMany a vs mem) a vs := by
  induction vs generalizing a mem with
  | nil => trivial
  | cons v vs ih =>
    rw [List.length_cons] at h
    refine ⟨?_, ih (by omega)⟩
    rw [storeMany, storeMany_other (by bv_omega)]
    exact Function.update_self _ _ _

theorem Stored.congr {a : Word} {vs : List Word} {mem mem' : Word → Word} (h : Stored mem a vs)
    (hlen : 4*vs.length ≤ 2^32)
    (heq : ∀ x, (x-a).toNat < 4*vs.length → mem' x = mem x) : Stored mem' a vs := by
  induction vs generalizing a with
  | nil => trivial
  | cons v vs ih =>
    rw [List.length_cons] at hlen heq
    refine ⟨(heq a (by simp)).trans h.1, ih h.2 (by omega) fun x hx => ?_⟩
    exact heq x (by bv_omega)

@[simp] theorem loadMany_mem (a : Word) (regs : List Reg) (m : Machine) :
    (loadMany a regs m).mem = m.mem := by
  induction regs generalizing a m with
  | nil => rfl
  | cons rt regs ih => rw [loadMany, ih, setReg_mem]

@[simp] theorem loadMany_pc (a : Word) (regs : List Reg) (m : Machine) :
    (loadMany a regs m).pc = m.pc := by
  induction regs generalizing a m with
  | nil => rfl
  | cons rt regs ih => rw [loadMany, ih, setReg_pc]

@[simp] theorem loadMany_cpsr (a : Word) (regs : List Reg) (m : Machine) :
    (loadMany a regs m).cpsr = m.cpsr := by
  induction regs generalizing a m with
  | nil => rfl
  | cons rt regs ih => rw [loadMany, ih, setReg_cpsr]

@[simp] theorem loadMany_vbar (a : Word) (regs : List Reg) (m : Machine) :
    (loadMany a regs m).vbar = m.vbar := by
  induction regs generalizing a m with
  | nil => rfl
  | cons rt regs ih => rw [loadMany, ih, setReg_vbar]

@[simp] theorem loadMany_mode (a : Word) (regs : List Reg) (m : Machine) :
    (loadMany a regs m).mode = m.mode := by
  rw [mode, loadMany_cpsr, mode]

theorem reg_loadMany {a : Word} {regs : List Reg} {m : Machine} {f : Reg → Word}
    (h : Stored m.mem a (regs.map f)) (rt : Reg) :
    (loadMany a regs m).reg rt = if rt ∈ regs then f rt else m.reg rt := by
  induction regs generalizing a m with
  | nil => rfl
  | cons rd regs ih =>
    obtain ⟨hv, hrest⟩ := h
    rw [loadMany, ih (by rw [setReg_mem]; exact hrest), reg_setReg, hv]
    by_cases hmem : rt ∈ regs
    · rw [if_pos hmem, if_pos (List.mem_cons_of_mem _ hmem)]
    · rw [if_neg hmem]
      by_cases heq : rt = rd
      · subst heq
        rw [if_pos rfl, if_pos List.mem_cons_self]
      · rw [if_neg heq, if_neg (by simp [heq, hmem])]

section Stack
variable {m : Machine} (regs : List Reg)

@[simp] theorem push_pc : (m.push regs).pc = m.pc := rfl
@[simp] theorem push_cpsr : (m.push regs).cpsr = m.cpsr := rfl
@[simp] theorem push_mode : (m.push regs).mode = m.mode := rfl
@[simp] theorem push_vbar : (m.push regs).vbar = m.vbar := rfl

theorem push_mem : (m.push regs).mem =
    storeMany (m.reg .sp - BitVec.ofNat 32 (4*regs.length)) (regs.map m.reg) m.mem := rfl

theorem push_reg (rt : Reg) : (m.push regs).reg rt =
    if rt = .sp then m.reg .sp - BitVec.ofNat 32 (4*regs.length) else m.reg rt := by
  have hset := reg_setReg (m := m) .sp (m.reg .sp - BitVec.ofNat 32 (4*regs.length)) rt
  cases rt <;> exact hset

@[simp] theorem pop_mem : (m.pop regs).mem = m.mem := by
  rw [pop, setReg_mem, loadMany_mem]

@[simp] theorem pop_pc : (m.pop regs).pc = m.pc := by
  rw [pop, setReg_pc, loadMany_pc]

@[simp] theorem pop_cpsr : (m.pop regs).cpsr = m.cpsr := by
  rw [pop, setReg_cpsr, loadMany_cpsr]

@[simp] theorem pop_vbar : (m.pop regs).vbar = m.vbar := by
  rw [pop, setReg_vbar, loadMany_vbar]

@[simp] theorem pop_mode : (m.pop regs).mode = m.mode := by
  rw [pop, setReg_mode, loadMany_mode]

theorem pop_reg {f : Reg → Word} (h : Stored m.mem (m.reg .sp) (regs.map f)) (rt : Reg) :
    (m.pop regs).reg rt = if rt = .sp then m.reg .sp + BitVec.ofNat 32 (4*regs.length)
      else if rt ∈ regs then f rt else m.reg rt := by
  rw [pop, reg_setReg, reg_loadMany h]

end Stack

/-! Code -/

theorem addr_succ (base : Word) (i : ℕ) : addr base i + 4 = addr base (i+1) := by
  rw [addr, addr, BitVec.add_assoc, Nat.mul_add, BitVec.ofNat_add]
  rfl

theorem codeAt_addr {base : Word} {instrs : List Instr} {i : ℕ} (hi : 4*i < 2^32) :
    codeAt base instrs (addr base i) = instrs[i]? := by
  have hoff : (addr base i - base).toNat = 4*i := by
    rw [addr]
    bv_omega
  rw [codeAt, hoff, if_pos (Nat.mul_mod_right 4 i), Nat.mul_div_cancel_left i (by decide)]

theorem codeAt_none {base pc : Word} {instrs : List Instr}
    (h : 4*instrs.length ≤ (pc-base).toNat) : codeAt base instrs pc = none := by
  rw [codeAt]
  split
  · exact List.getElem?_eq_none (by omega)
  · rfl

section Runs
variable {code : Code} {bus : Bus} {m m' : Machine} {i : Instr} {n : ℕ}

theorem next_exec (hi : code m.pc = some i) : next code bus m = exec bus i m := by
  rw [next, hi, Option.bind_some]

theorem steps_exec (hi : code m.pc = some i) (hexec : exec bus i m = some m') :
    steps code bus (n+1) m = steps code bus n m' := by
  rw [steps, next_exec hi, hexec, Option.bind_some]

theorem steps_add (n k : ℕ) (m : Machine) :
    steps code bus (n+k) m = (steps code bus n m).bind (steps code bus k) := by
  induction n generalizing m with
  | zero =>
    rw [Nat.zero_add]
    rfl
  | succ n ih =>
    rw [Nat.succ_add, steps, steps, Option.bind_assoc]
    congr 1
    funext t
    exact ih t

theorem uninterrupted_exec (hi : code m.pc = some i) (hmasked : m.irqMasked = true)
    (hexec : exec bus i m = some m') :
    uninterrupted code bus (n+1) m = uninterrupted code bus n m' := by
  rw [uninterrupted, if_pos hmasked, next_exec hi, hexec, Option.bind_some]

theorem uninterrupted_out (hi : code m.pc = none) : uninterrupted code bus 0 m = some m :=
  if_pos hi

theorem Runs.unique {a b : Machine} (ha : Runs code bus m a) (hb : Runs code bus m b) : a = b := by
  obtain ⟨n, hn⟩ := ha
  obtain ⟨k, hk⟩ := hb
  induction n generalizing m k with
  | zero =>
    rw [uninterrupted] at hn
    split at hn
    · rename_i hout
      cases k with
      | zero => exact Option.some.inj (hn.symm.trans ((uninterrupted_out hout).symm.trans hk))
      | succ k =>
        rw [uninterrupted, next, hout] at hk
        split at hk <;> cases hk
    · cases hn
  | succ n ih =>
    rw [uninterrupted] at hn
    split at hn
    · rename_i hmasked
      obtain ⟨t, ht, hrest⟩ := Option.bind_eq_some_iff.mp hn
      cases k with
      | zero =>
        rw [uninterrupted] at hk
        split at hk
        · rename_i hout
          rw [next, hout] at ht
          cases ht
        · cases hk
      | succ k =>
        rw [uninterrupted, if_pos hmasked, ht, Option.bind_some] at hk
        exact ih hrest k hk
    · cases hn

end Runs

end UsbArmory.Library.Arm
