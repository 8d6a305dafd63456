import Mathlib.Data.Nat.Bitwise
import Mathlib.Logic.Relation
import UsbArmory.Runtime.Exceptions

/-!
# A context that is preempted

What `_IRQ` has on the stack while the Rust part of the handler runs.
-/

set_option autoImplicit false

namespace UsbArmory.Runtime.Preempted
open UsbArmory.Library.Arm UsbArmory.Library.Arm.Machine UsbArmory.Runtime.Exceptions

@[ext] structure Core where
  r : Fin 13 → Word
  sp : Word
  lr : Word
  pc : Word
  cpsr : Word

def Core.reg (c : Core) : Reg → Word
  | .r i => c.r i
  | .sp => c.sp
  | .lr => c.lr

def coreOf (m : Machine) : Core := ⟨m.r, m.sp svc, m.lr svc, m.pc, m.cpsr⟩

/-- The preempted context, and the stack pointer that the handler gets. -/
structure Frame where
  core : Core
  entry : Word

def padding (sp : Word) : Word := sp &&& 4

def entryOf (sp : Word) : Word := sp-28-padding (sp-28)-8

theorem padding_toNat (sp : Word) : (padding sp).toNat = sp.toNat/4%2*4 := by
  have hand := Nat.and_two_pow sp.toNat 2
  rw [Nat.testBit_eq_decide_div_mod_eq] at hand
  rw [padding, BitVec.toNat_and]
  refine hand.trans ?_
  rcases Nat.mod_two_eq_zero_or_one (sp.toNat/4) with h | h <;> simp [h]

theorem padded {sp : Word} (h : sp.toNat%4 = 0) :
    (sp-padding sp).toNat = sp.toNat/8*8 := by
  have hpadding := padding_toNat sp
  bv_omega

theorem entryOf_toNat {sp : Word} (h : sp.toNat%4 = 0) (hroom : 40 ≤ sp.toNat) :
    (entryOf sp).toNat = (sp.toNat-28)/8*8-8 := by
  have hsub : (sp-28).toNat = sp.toNat-28 := by bv_omega
  have hpadded : (sp-28-padding (sp-28)).toNat = (sp-28).toNat/8*8 := padded (by omega)
  rw [hsub] at hpadded
  rw [entryOf]
  bv_omega

structure Saved (mem : Word → Word) (f : Frame) : Prop where
  entry : f.entry = entryOf f.core.sp
  aligned : f.core.sp.toNat%4 = 0
  room : 40 ≤ f.core.sp.toNat
  state : Stored mem (f.core.sp-8) [f.core.pc, f.core.cpsr]
  scratch : Stored mem (f.core.sp-28) (scratch.map f.core.reg)
  last : Stored mem f.entry [padding (f.core.sp-28), f.core.lr]

section Stub
variable (l : Layout) (bus : Bus) (m : Machine)

/-- At `_IRQ`, in the mode of interrupts. -/
def vectored : Machine := (takeIrq m).goto l.irqEntry

/-- The return state is on the stack of the preempted context, whose mode is back. -/
def stateSaved : Machine :=
  let m := ((vectored l m).setReg .lr ((vectored l m).reg .lr - 4)).advance
  ((m.srsdb 19).advance.setMode 19).advance

/-- The scratch registers are on the stack, which is aligned to eight bytes. -/
def scratchSaved : Machine :=
  let m := ((stateSaved l m).push scratch).advance
  let m := (m.setReg (.r 0) (m.reg .sp &&& 4)).advance
  (m.setReg .sp (m.reg .sp - m.reg (.r 0))).advance

def entered : Machine :=
  let m := ((scratchSaved l m).push [.r 0, .lr]).advance
  (m.setReg .lr (m.pc+4)).goto l.irq

theorem vectored_mode : (vectored l m).mode = irqMode := takeIrq_mode

theorem vectored_lr : (vectored l m).reg .lr - 4 = m.pc := by
  have hlr : (vectored l m).reg .lr = m.pc+4 := by
    rw [reg, vectored_mode]
    simp [vectored, takeIrq]
  rw [hlr, BitVec.add_sub_cancel]

theorem stateSaved_mode : (stateSaved l m).mode = svc := setMode_mode 19

theorem stateSaved_r : (stateSaved l m).r = m.r := by
  funext i
  simp [stateSaved, setMode, srsdb, setReg_r, vectored, takeIrq]

theorem stateSaved_sp : (stateSaved l m).sp svc = m.sp svc - 8 := by
  simp [stateSaved, setMode, srsdb, setReg_sp, vectored, takeIrq, svc]

theorem stateSaved_lr : (stateSaved l m).lr svc = m.lr svc := by
  simp [stateSaved, setMode, srsdb, setReg_lr, vectored_mode]
  simp [vectored, takeIrq, svc, irqMode]

theorem stateSaved_mem :
    (stateSaved l m).mem = storeMany (m.sp svc - 8) [m.pc, m.cpsr] m.mem := by
  have hspsr : (vectored l m).spsr irqMode = m.cpsr := by simp [vectored, takeIrq]
  simp only [stateSaved, setMode, srsdb, advance_mem, advance_sp, advance_lr, advance_spsr,
    advance_mode, setReg_lr, setReg_sp, setReg_mode, setReg_spsr, vectored_mode, vectored_lr,
    hspsr, setReg_mem]
  rfl

theorem stateSaved_masked : (stateSaved l m).irqMasked = true := by
  have htaken : (vectored l m).irqMasked = true := takeIrq_masked
  show (((vectored l m).setReg .lr _).advance.srsdb 19 |>.advance.setMode 19).irqMasked = true
  rw [setMode_masked]
  simpa only [irqMasked, srsdb, advance_cpsr, setReg_cpsr] using htaken

/-! The push of the scratch registers, and the stack pointer behind it -/

theorem scratchSaved_mode : (scratchSaved l m).mode = svc := by
  simp only [scratchSaved, advance_mode, setReg_mode, push_mode, stateSaved_mode]

theorem scratchSaved_reg (rt : Reg) (hrt : rt ≠ .r 0) (hsp : rt ≠ .sp) :
    (scratchSaved l m).reg rt = (stateSaved l m).reg rt := by
  simp only [scratchSaved, advance_reg, reg_setReg, push_reg, hrt, hsp, if_false]

theorem scratchSaved_sp : (scratchSaved l m).reg .sp =
    (stateSaved l m).reg .sp - 20 - padding ((stateSaved l m).reg .sp - 20) := by
  simp [scratchSaved, reg_setReg, push_reg, scratch, padding]

theorem scratchSaved_r0 : (scratchSaved l m).reg (.r 0) =
    padding ((stateSaved l m).reg .sp - 20) := by
  simp [scratchSaved, reg_setReg, push_reg, scratch, padding]

theorem scratchSaved_mem : (scratchSaved l m).mem =
    storeMany ((stateSaved l m).reg .sp - 20) (scratch.map (stateSaved l m).reg)
      (stateSaved l m).mem := by
  simp only [scratchSaved, advance_mem, setReg_mem, push_mem]
  rfl

theorem entered_mode : (entered l m).mode = svc := by
  simp only [entered, goto_mode, setReg_mode, advance_mode, push_mode, scratchSaved_mode]

theorem entered_vbar : (entered l m).vbar = m.vbar := by
  simp only [entered, goto_vbar, setReg_vbar, advance_vbar, push_vbar, scratchSaved, stateSaved,
    setMode_vbar, srsdb_vbar, vectored, takeIrq]

theorem entered_sp : (entered l m).reg .sp = entryOf (m.sp svc) := by
  have hsp : (stateSaved l m).reg .sp - 20 = m.sp svc - 28 := by
    rw [reg, stateSaved_mode, stateSaved_sp]
    bv_omega
  have hpushed : (entered l m).reg .sp = (scratchSaved l m).reg .sp - 8 := by
    simp [entered, push_reg]
  rw [hpushed, scratchSaved_sp, hsp, entryOf]

theorem entered_reg {rt : Reg} (h0 : rt ≠ .r 0) (hsp : rt ≠ .sp) (hlr : rt ≠ .lr) :
    (entered l m).reg rt = (stateSaved l m).reg rt := by
  simp [entered, reg_setReg, push_reg, hsp, hlr, scratchSaved_reg l m rt h0 hsp]

theorem stateSaved_pc : (stateSaved l m).pc = addr l.irqEntry 3 := by
  have hentry : addr l.irqEntry 0 = l.irqEntry := BitVec.add_zero _
  simp only [stateSaved, advance_pc, setMode_pc, srsdb_pc, setReg_pc, vectored, goto_pc]
  rw [← hentry, addr_succ, addr_succ, addr_succ]
  rw [hentry]

theorem scratchSaved_pc : (scratchSaved l m).pc = addr l.irqEntry 6 := by
  simp only [scratchSaved, advance_pc, setReg_pc, push_pc, stateSaved_pc, addr_succ]

theorem scratchSaved_masked : (scratchSaved l m).irqMasked = true := by
  simpa only [irqMasked, scratchSaved, advance_cpsr, setReg_cpsr, push_cpsr]
    using stateSaved_masked l m

theorem entered_lr : (entered l m).reg .lr = l.returnAddress := by
  simp only [entered, goto_reg, reg_setReg, if_true, advance_pc, push_pc, scratchSaved_pc,
    addr_succ, Layout.returnAddress]

theorem entered_sp_svc : (entered l m).sp svc = entryOf (m.sp svc) := by
  rw [← entered_sp l m, reg, entered_mode]

theorem entered_masked : (entered l m).irqMasked = true := by
  simpa only [irqMasked, entered, goto_cpsr, setReg_cpsr, advance_cpsr, push_cpsr]
    using scratchSaved_masked l m

variable {l bus m}

theorem stub_exec {n k : ℕ} {i : Instr} {m m' : Machine} (hpc : m.pc = addr l.irqEntry k)
    (hi : (irqStub l.irq)[k]? = some i) (hk : k < 12) (hmasked : m.irqMasked = true)
    (hexec : exec bus i m = some m') :
    uninterrupted l.code bus (n+1) m = uninterrupted l.code bus n m' :=
  uninterrupted_exec (by rw [hpc, l.code_stub hk, hi]) hmasked hexec

theorem vectored_pc : (vectored l m).pc = addr l.irqEntry 0 := (BitVec.add_zero _).symm

theorem vectored_masked : (vectored l m).irqMasked = true := takeIrq_masked (m := m)

theorem runs_entered (hvbar : m.vbar = l.vector) (hsp : (m.sp svc).toNat%4 = 0) :
    Runs l.code bus (takeIrq m) (entered l m) := by
  have hcode : l.code (takeIrq m).pc = some (.ldrPc l.irqEntry) :=
    (congrArg (fun vbar => l.code (vbar+0x18)) hvbar).trans l.code_vector
  refine ⟨9, (uninterrupted_exec hcode takeIrq_masked rfl).trans ?_⟩
  refine (stub_exec vectored_pc rfl (by decide) vectored_masked rfl).trans ?_
  refine (stub_exec (k := 1) ?_ rfl (by decide) ?_ (if_pos ?_)).trans ?_
  · simp only [advance_pc, setReg_pc, vectored_pc, addr_succ]
  · simpa only [irqMasked, advance_cpsr, setReg_cpsr] using vectored_masked (l := l) (m := m)
  · simpa [setReg_sp, vectored, takeIrq, svc] using hsp
  refine (stub_exec (k := 2) ?_ rfl (by decide) ?_ rfl).trans ?_
  · simp only [advance_pc, srsdb_pc, setReg_pc, vectored_pc, addr_succ]
  · simpa only [irqMasked, advance_cpsr, srsdb_cpsr, setReg_cpsr] using
      vectored_masked (l := l) (m := m)
  show uninterrupted l.code bus 5 (stateSaved l m) = _
  have hpushed : (stateSaved l m).aligned = true := by
    rw [aligned, beq_iff_eq, reg, stateSaved_mode, stateSaved_sp]
    bv_omega
  refine (stub_exec (stateSaved_pc l m) rfl (by decide) (stateSaved_masked l m)
    (if_pos hpushed)).trans ?_
  refine (stub_exec (k := 4) ?_ rfl (by decide) ?_ rfl).trans ?_
  · simp only [advance_pc, push_pc, stateSaved_pc, addr_succ]
  · simpa only [irqMasked, advance_cpsr, push_cpsr] using stateSaved_masked l m
  refine (stub_exec (k := 5) ?_ rfl (by decide) ?_ rfl).trans ?_
  · simp only [advance_pc, setReg_pc, push_pc, stateSaved_pc, addr_succ]
  · simpa only [irqMasked, advance_cpsr, setReg_cpsr, push_cpsr] using stateSaved_masked l m
  show uninterrupted l.code bus 2 (scratchSaved l m) = _
  have hpadded : (scratchSaved l m).aligned = true := by
    have hmult : ((stateSaved l m).reg .sp - 20).toNat%4 = 0 := by
      rw [reg, stateSaved_mode, stateSaved_sp]
      bv_omega
    rw [aligned, beq_iff_eq, scratchSaved_sp, padded hmult]
    omega
  refine (stub_exec (scratchSaved_pc l m) rfl (by decide) (scratchSaved_masked l m)
    (if_pos hpadded)).trans ?_
  refine (stub_exec (k := 7) ?_ rfl (by decide) ?_ rfl).trans ?_
  · simp only [advance_pc, push_pc, scratchSaved_pc, addr_succ]
  · simpa only [irqMasked, advance_cpsr, push_cpsr] using scratchSaved_masked l m
  exact uninterrupted_out l.code_irq

theorem entered_mem : (entered l m).mem =
    storeMany (entryOf (m.sp svc)) [padding (m.sp svc - 28), m.lr svc] (storeMany (m.sp svc - 28)
      (scratch.map (coreOf m).reg) (storeMany (m.sp svc - 8) [m.pc, m.cpsr] m.mem)) := by
  have hsp : (stateSaved l m).reg .sp - 20 = m.sp svc - 28 := by
    rw [reg, stateSaved_mode, stateSaved_sp]
    bv_omega
  have hlr : (scratchSaved l m).reg .lr = m.lr svc := by
    rw [scratchSaved_reg l m .lr (by decide) (by decide), reg, stateSaved_mode, stateSaved_lr]
  have hregs : scratch.map (stateSaved l m).reg = scratch.map (coreOf m).reg := by
    simp only [scratch, List.map_cons, List.map_nil, reg, Core.reg, coreOf, stateSaved_r]
  have hpush : (entered l m).mem = storeMany ((scratchSaved l m).reg .sp - 8)
      [(scratchSaved l m).reg (.r 0), (scratchSaved l m).reg .lr] (scratchSaved l m).mem := by
    simp only [entered, goto_mem, setReg_mem, advance_mem, push_mem]
    rfl
  rw [hpush, scratchSaved_sp, scratchSaved_r0, hlr, scratchSaved_mem, hsp, hregs, stateSaved_mem,
    entryOf]

theorem entered_kept (hsp : (m.sp svc).toNat%4 = 0) (hroom : 40 ≤ (m.sp svc).toNat) {a : Word}
    (ha : a.toNat < (entryOf (m.sp svc)).toNat ∨ (m.sp svc).toNat ≤ a.toNat) :
    (entered l m).mem a = m.mem a := by
  have hentry := entryOf_toNat hsp hroom
  rw [entered_mem, storeMany_other, storeMany_other, storeMany_other]
  · show 8 ≤ _
    bv_omega
  · show 20 ≤ _
    bv_omega
  · show 8 ≤ _
    bv_omega

theorem entered_saved (hsp : (m.sp svc).toNat%4 = 0) (hroom : 40 ≤ (m.sp svc).toNat) :
    Saved (entered l m).mem ⟨coreOf m, entryOf (m.sp svc)⟩ := by
  have hentry := entryOf_toNat hsp hroom
  have hlast : ∀ x mem, 8 ≤ (x - entryOf (m.sp svc)).toNat →
      storeMany (entryOf (m.sp svc)) [padding (m.sp svc - 28), m.lr svc] mem x = mem x := by
    intro x mem hx
    apply storeMany_other
    exact hx
  have hscratch : ∀ x mem, 20 ≤ (x - (m.sp svc - 28)).toNat →
      storeMany (m.sp svc - 28) (scratch.map (coreOf m).reg) mem x = mem x := by
    intro x mem hx
    apply storeMany_other
    exact hx
  have hstate : Stored (storeMany (m.sp svc - 8) [m.pc, m.cpsr] m.mem) (m.sp svc - 8)
      [m.pc, m.cpsr] := stored_storeMany (by simp)
  have hregs : Stored (storeMany (m.sp svc - 28) (scratch.map (coreOf m).reg)
      (storeMany (m.sp svc - 8) [m.pc, m.cpsr] m.mem)) (m.sp svc - 28)
      (scratch.map (coreOf m).reg) := stored_storeMany (by simp [scratch])
  refine ⟨rfl, hsp, hroom, hstate.congr (by simp) ?_, hregs.congr (by simp [scratch]) ?_, ?_⟩
  · intro x hx
    have hlt : (x - (m.sp svc - 8)).toNat < 8 := hx
    rw [entered_mem, hlast x _ (by bv_omega), hscratch x _ (by bv_omega)]
  · intro x hx
    have hlt : (x - (m.sp svc - 28)).toNat < 20 := hx
    rw [entered_mem, hlast x _ (by bv_omega)]
  · rw [entered_mem]
    exact stored_storeMany (by simp)

end Stub

section Return
variable (m : Machine)

/-- The padding is off the stack again, and the link register is back. -/
def unpadded : Machine :=
  let m := (m.pop [.r 0, .lr]).advance
  (m.setReg .sp (m.reg .sp + m.reg (.r 0))).advance

def resumed : Machine := ((unpadded m).pop scratch).advance.rfeia

variable {l : Layout} {bus : Bus} {m} {f : Frame}

/-- The Rust part of the handler returns as the procedure call standard has it. -/
structure Returned (l : Layout) (f : Frame) (m : Machine) : Prop where
  pc : m.pc = l.returnAddress
  mode : m.mode = svc
  masked : m.irqMasked = true
  sp : m.sp svc = f.entry
  callee : ∀ i, .r i ∉ scratch → m.r i = f.core.r i

theorem Returned.reg_sp (h : Returned l f m) : m.reg .sp = f.entry := by
  rw [reg, h.mode, h.sp]

theorem unpadded_mode (h : Returned l f m) : (unpadded m).mode = svc := by
  simp only [unpadded, advance_mode, setReg_mode, pop_mode, h.mode]

theorem unpadded_mem : (unpadded m).mem = m.mem := by
  simp only [unpadded, advance_mem, setReg_mem, pop_mem]

def lastWords (f : Frame) : Reg → Word
  | .lr => f.core.lr
  | _ => padding (f.core.sp-28)

theorem popped_reg (h : Returned l f m) (hsaved : Saved m.mem f) (rt : Reg) :
    (m.pop [.r 0, .lr]).reg rt = if rt = .sp then f.entry+8
      else if rt ∈ [.r 0, .lr] then lastWords f rt else m.reg rt := by
  have hlast : Stored m.mem (m.reg .sp) ([.r 0, .lr].map (lastWords f)) := by
    rw [h.reg_sp]
    exact hsaved.last
  rw [pop_reg _ hlast, h.reg_sp]
  rfl

theorem unpadded_sp (h : Returned l f m) (hsaved : Saved m.mem f) :
    (unpadded m).reg .sp = f.core.sp-28 := by
  have hsum : f.entry+8+padding (f.core.sp-28) = f.core.sp-28 := by
    rw [hsaved.entry, entryOf]
    bv_omega
  have hsp : (m.pop [.r 0, .lr]).reg .sp = f.entry+8 := by
    rw [popped_reg h hsaved, if_pos rfl]
  have hr0 : (m.pop [.r 0, .lr]).reg (.r 0) = padding (f.core.sp-28) := by
    rw [popped_reg h hsaved, if_neg nofun, if_pos (by simp)]
    rfl
  rw [← hsum, ← hsp, ← hr0]
  simp only [unpadded, advance_reg, reg_setReg, if_true]

theorem unpadded_reg (h : Returned l f m) (hsaved : Saved m.mem f) {rt : Reg} (h0 : rt ≠ .r 0)
    (hsp : rt ≠ .sp) : (unpadded m).reg rt = if rt = .lr then f.core.lr else m.reg rt := by
  have hset : (unpadded m).reg rt = (m.pop [.r 0, .lr]).reg rt := by
    simp only [unpadded, advance_reg, reg_setReg, hsp, if_false]
  rw [hset, popped_reg h hsaved, if_neg hsp]
  by_cases hlr : rt = .lr
  · subst hlr
    rfl
  · rw [if_neg (by simp [h0, hlr]), if_neg hlr]

theorem scratch_stored (h : Returned l f m) (hsaved : Saved m.mem f) :
    Stored (unpadded m).mem ((unpadded m).reg .sp) (scratch.map f.core.reg) := by
  rw [unpadded_sp h hsaved, unpadded_mem]
  exact hsaved.scratch

theorem restored_reg (h : Returned l f m) (hsaved : Saved m.mem f) {rt : Reg} (hsp : rt ≠ .sp) :
    ((unpadded m).pop scratch).reg rt = f.core.reg rt := by
  rw [pop_reg _ (scratch_stored h hsaved), if_neg hsp]
  split
  next => rfl
  next hrt =>
    rw [unpadded_reg h hsaved (by rintro rfl; exact hrt (by simp [scratch])) hsp]
    cases rt with
    | r i => exact h.callee i hrt
    | sp => exact absurd rfl hsp
    | lr => rfl

theorem restored_sp (h : Returned l f m) (hsaved : Saved m.mem f) :
    ((unpadded m).pop scratch).reg .sp = f.core.sp-8 := by
  rw [pop_reg _ (scratch_stored h hsaved), if_pos rfl, unpadded_sp h hsaved]
  show f.core.sp-28+20 = f.core.sp-8
  bv_omega

theorem resumed_core (h : Returned l f m) (hsaved : Saved m.mem f) :
    coreOf (resumed m) = f.core := by
  have hmode : ((unpadded m).pop scratch).advance.mode = svc := by
    rw [advance_mode, pop_mode, unpadded_mode h]
  have hsp : ((unpadded m).pop scratch).advance.reg .sp = f.core.sp-8 := by
    rw [advance_reg, restored_sp h hsaved]
  have hmem : ((unpadded m).pop scratch).advance.mem = m.mem := by
    rw [advance_mem, pop_mem, unpadded_mem]
  have hr : ∀ i, ((unpadded m).pop scratch).reg (.r i) = f.core.r i := fun i =>
    restored_reg h hsaved nofun
  have hlr : ((unpadded m).pop scratch).reg .lr = f.core.lr := restored_reg h hsaved nofun
  rw [reg, pop_mode, unpadded_mode h] at hlr
  apply Core.ext
  · exact funext hr
  · show ((unpadded m).pop scratch).advance.rfeia.sp svc = _
    rw [← hmode, rfeia_sp, hsp]
    bv_omega
  · exact hlr
  · show ((unpadded m).pop scratch).advance.mem (((unpadded m).pop scratch).advance.reg .sp) = _
    rw [hmem, hsp]
    exact hsaved.state.1
  · show ((unpadded m).pop scratch).advance.mem
      (((unpadded m).pop scratch).advance.reg .sp + 4) = _
    rw [hmem, hsp]
    exact hsaved.state.2.1

theorem resumed_mem : (resumed m).mem = m.mem := by
  rw [resumed, rfeia_mem, advance_mem, pop_mem, unpadded_mem]

theorem resumed_vbar : (resumed m).vbar = m.vbar := by
  simp only [resumed, rfeia_vbar, advance_vbar, pop_vbar, unpadded, setReg_vbar]

theorem runs_resumed (h : Returned l f m) (hsaved : Saved m.mem f)
    (hout : l.code f.core.pc = none) : Runs l.code bus m (resumed m) := by
  have hpc : (unpadded m).pc = addr l.irqEntry 10 := by
    simp only [unpadded, advance_pc, setReg_pc, pop_pc, h.pc, Layout.returnAddress, addr_succ]
  have hmasked : (unpadded m).irqMasked = true := by
    simpa only [irqMasked, unpadded, advance_cpsr, setReg_cpsr, pop_cpsr] using h.masked
  have hentry := entryOf_toNat hsaved.aligned hsaved.room
  refine ⟨4, ?_⟩
  refine (stub_exec h.pc rfl (by decide) h.masked (if_pos ?_)).trans ?_
  · rw [aligned, beq_iff_eq, h.reg_sp, hsaved.entry, hentry]
    omega
  refine (stub_exec (k := 9) ?_ rfl (by decide) ?_ rfl).trans ?_
  · simp only [advance_pc, pop_pc, h.pc, Layout.returnAddress, addr_succ]
  · simpa only [irqMasked, advance_cpsr, pop_cpsr] using h.masked
  have hrest : 28 ≤ f.core.sp.toNat := Nat.le_trans (by decide) hsaved.room
  have haligned := hsaved.aligned
  refine (stub_exec hpc rfl (by decide) hmasked (if_pos ?_)).trans ?_
  · rw [aligned, beq_iff_eq]
    rw [unpadded_sp h hsaved]
    bv_omega
  refine (stub_exec (k := 11) ?_ rfl (by decide) ?_ (if_pos ?_)).trans ?_
  · simp only [advance_pc, pop_pc, hpc, addr_succ]
  · simpa only [irqMasked, advance_cpsr, pop_cpsr] using hmasked
  · rw [aligned, beq_iff_eq, advance_reg, restored_sp h hsaved]
    bv_omega
  refine uninterrupted_out ?_
  have hcore : (resumed m).pc = f.core.pc := congrArg Core.pc (resumed_core h hsaved)
  rw [← hout, ← hcore]
  rfl

end Return

end UsbArmory.Runtime.Preempted
