import UsbArmory.Library.Arm

/-!
# The exception vector

`_exceptions` and `_IRQ` of the assembly part of the runtime. Interrupts arrive
in a mode without a stack, and the Rust part of the handler has to run on the
stack of the context that is preempted.
-/

set_option autoImplicit false

namespace UsbArmory.Runtime.Exceptions
open UsbArmory.Library.Arm UsbArmory.Library.Arm.Machine

structure Symbols where
  defaultHandler : Word
  undefinedInstruction : Word
  supervisorCall : Word
  prefetchAbort : Word
  dataAbort : Word
  hypervisorCall : Word
  fiq : Word

def exceptions (symbols : Symbols) (irqEntry : Word) : List Instr :=
  [.ldrPc symbols.defaultHandler, .ldrPc symbols.undefinedInstruction,
    .ldrPc symbols.supervisorCall, .ldrPc symbols.prefetchAbort, .ldrPc symbols.dataAbort,
    .ldrPc symbols.hypervisorCall, .ldrPc irqEntry, .ldrPc symbols.fiq]

/-- `{r0-r3, ip}` -/
def scratch : List Reg := [.r 0, .r 1, .r 2, .r 3, .r 12]

/-- `_IRQ` -/
def irqStub (irq : Word) : List Instr :=
  [.sub .lr .lr (.imm 4), .srsdb 19, .cps 19, .push scratch,
    .and (.r 0) .sp (.imm 4), .sub .sp .sp (.reg (.r 0)), .push [.r 0, .lr], .bl irq,
    .pop [.r 0, .lr], .add .sp .sp (.reg (.r 0)), .pop scratch, .rfeia]

/-- Where the linker has put the vector, `_IRQ` and the Rust function. -/
structure Layout where
  symbols : Symbols
  vector : Word
  irqEntry : Word
  irq : Word
  entry_outside : 32 ≤ (irqEntry-vector).toNat
  vector_outside : 48 ≤ (vector-irqEntry).toNat
  irq_outside : 32 ≤ (irq-vector).toNat ∧ 48 ≤ (irq-irqEntry).toNat

namespace Layout
variable (l : Layout)

def code : Code := fun pc =>
  (codeAt l.vector (exceptions l.symbols l.irqEntry) pc).or (codeAt l.irqEntry (irqStub l.irq) pc)

def returnAddress : Word := addr l.irqEntry 8

theorem code_irq : l.code l.irq = none := by
  have hvector : codeAt l.vector (exceptions l.symbols l.irqEntry) l.irq = none :=
    codeAt_none l.irq_outside.1
  have hstub : codeAt l.irqEntry (irqStub l.irq) l.irq = none := codeAt_none l.irq_outside.2
  rw [code, hvector, hstub]
  rfl

theorem code_vector : l.code (l.vector+0x18) = some (.ldrPc l.irqEntry) := by
  have hentry : codeAt l.vector (exceptions l.symbols l.irqEntry) (addr l.vector 6) =
      some (.ldrPc l.irqEntry) := codeAt_addr (by decide)
  rw [code, show l.vector+0x18 = addr l.vector 6 from rfl, hentry]
  rfl

theorem code_stub {i : ℕ} (hi : i < 12) : l.code (addr l.irqEntry i) = (irqStub l.irq)[i]? := by
  have hvector : codeAt l.vector (exceptions l.symbols l.irqEntry) (addr l.irqEntry i) = none := by
    have hentry := l.entry_outside
    have hapart := l.vector_outside
    apply codeAt_none
    show 32 ≤ (addr l.irqEntry i - l.vector).toNat
    rw [addr]
    bv_omega
  rw [code, hvector, codeAt_addr (by omega)]
  rfl

end Layout

end UsbArmory.Runtime.Exceptions
