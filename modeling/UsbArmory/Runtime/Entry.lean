import UsbArmory.Library.Arm

/-!
# The entry point

`_start` of a program that runs from the on-chip memory. The boot ROM has left the
program in the DRAM, and uses the on-chip memory itself; what the linker wants
there is copied word by word before the Rust part is entered.
-/

set_option autoImplicit false

namespace UsbArmory.Runtime.Entry
open UsbArmory.Library.Arm UsbArmory.Library.Arm.Machine

/-- Words from one place to another, the first one first. -/
def copyWords : ℕ → Word → Word → (Word → Word) → Word → Word
  | 0, _, _, mem => mem
  | n+1, d, s, mem => copyWords n (d+4) (s+4) (Function.update mem d (mem s))

/-- The loop of `_start` from this instruction on. -/
def copyLoop (base : Word) (k : ℕ) : List Instr :=
  [.cmp (.r 0) (.reg (.r 1)), .b .cs (addr base (k+5)), .ldrPost (.r 3) (.r 2) 4,
    .strPost (.r 3) (.r 0) 4, .b .always (addr base k)]

theorem copyWords_other {n : ℕ} {d s x : Word} {mem : Word → Word} (h : 4*n ≤ (x-d).toNat) :
    copyWords n d s mem x = mem x := by
  induction n generalizing d s mem with
  | zero => rfl
  | succ n ih =>
    rw [copyWords, ih (by bv_omega)]
    exact Function.update_of_ne (by bv_omega) _ _

theorem copyWords_at {n : ℕ} {d s : Word} {mem : Word → Word} (hn : 4*n ≤ 2^32)
    (hapart : ∀ j < n, 4*n ≤ (addr s j - d).toNat) {i : ℕ} (hi : i < n) :
    copyWords n d s mem (addr d i) = mem (addr s i) := by
  induction n generalizing d s mem i with
  | zero => omega
  | succ n ih =>
    have hnext : ∀ a : Word, ∀ j, addr (a+4) j = addr a (j+1) := fun a j => by
      rw [addr, addr]
      bv_omega
    cases i with
    | zero =>
      have hzero : ∀ a : Word, addr a 0 = a := fun a => BitVec.add_zero a
      rw [copyWords, hzero, hzero, copyWords_other (by bv_omega)]
      exact Function.update_self _ _ _
    | succ i =>
      have hafter : ∀ j < n, 4*n ≤ (addr (s+4) j - (d+4)).toNat := fun j hj => by
        have hj' := hapart (j+1) (by omega)
        rw [hnext]
        bv_omega
      rw [copyWords, ← hnext, ih (by omega) hafter (by omega), hnext]
      have hother := hapart (i+1) hi
      exact Function.update_of_ne (by bv_omega) _ _

structure Same (m m' : Machine) : Prop where
  sp : m'.sp = m.sp
  mode : m'.mode = m.mode
  vbar : m'.vbar = m.vbar
  log : m'.log = m.log

theorem Same.trans {a b c : Machine} (hab : Same a b) (hbc : Same b c) : Same a c :=
  ⟨hbc.sp.trans hab.sp, hbc.mode.trans hab.mode, hbc.vbar.trans hab.vbar, hbc.log.trans hab.log⟩

theorem goto_same {m : Machine} (target : Word) : Same m (m.goto target) := ⟨rfl, rfl, rfl, rfl⟩

section Loop
variable {code : Code} {bus : Bus} {base : Word} {k : ℕ} {m : Machine}

/-- The machine behind the comparison, the load and the store of a round. -/
def compared (m : Machine) : Machine := (m.compare (m.r 0) (m.r 1)).advance.advance

def loaded (m : Machine) : Machine :=
  (((compared m).setReg (.r 2) (m.r 2 + 4)).setReg (.r 3) (m.mem (m.r 2))).advance

def stored (m : Machine) : Machine :=
  ({ loaded m with mem := Function.update m.mem (m.r 0) (m.mem (m.r 2)) }.setReg (.r 0)
    (m.r 0 + 4)).advance

theorem stored_same : Same m (stored m) := ⟨rfl, setFlags_mode _ _ _ _, rfl, rfl⟩

theorem loaded_r : (loaded m).r 0 = m.r 0 ∧ (loaded m).r 3 = m.mem (m.r 2) := by
  refine ⟨?_, ?_⟩ <;>
    simp [loaded, compared, setReg, advance, Machine.compare, setFlags]

theorem stored_r : (stored m).r 0 = m.r 0 + 4 ∧ (stored m).r 1 = m.r 1 ∧
    (stored m).r 2 = m.r 2 + 4 := by
  refine ⟨?_, ?_, ?_⟩ <;>
    simp [stored, loaded, compared, setReg, advance, Machine.compare, setFlags]

theorem copy_round (hcode : ∀ j < 5, code (addr base (k+j)) = (copyLoop base k)[j]?)
    (hpc : m.pc = addr base k) (hlt : (m.r 0).toNat < (m.r 1).toNat)
    (haligned : (m.r 0).toNat%4 = 0 ∧ (m.r 2).toNat%4 = 0)
    (hdevice : bus.device (m.r 0) = false ∧ bus.device (m.r 2) = false) :
    steps code bus 5 m = some ((stored m).goto (addr base k)) := by
  have hmore : (m.compare (m.r 0) (m.r 1)).advance.holds .cs ≠ true := by
    show (m.compare (m.r 0) (m.r 1)).carry ≠ true
    rw [Machine.compare, setFlags_carry, decide_eq_false (by bv_omega)]
    nofun
  have hcompared : exec bus (.b .cs (addr base (k+5))) (m.compare (m.r 0) (m.r 1)).advance =
      some (compared m) := congrArg some (if_neg hmore)
  have hloaded : exec bus (.ldrPost (.r 3) (.r 2) 4) (compared m) = some (loaded m) := by
    show Option.map _ ((compared m).load bus (m.r 2)) = _
    rw [load_mem haligned.2 hdevice.2]
    rfl
  have hstored : exec bus (.strPost (.r 3) (.r 0) 4) (loaded m) = some (stored m) := by
    show Option.map _ ((loaded m).store bus ((loaded m).r 0) ((loaded m).r 3)) = _
    rw [loaded_r.1, loaded_r.2, store_mem haligned.1 hdevice.1]
    show some (Machine.advance (Machine.setReg _ (.r 0) ((loaded m).r 0 + 4))) = _
    rw [loaded_r.1]
    rfl
  have hat : ∀ j < 5, ∀ a, a = addr base (k+j) → code a = (copyLoop base k)[j]? := by
    rintro j hj a rfl
    exact hcode j hj
  have hpc1 : m.pc+4 = addr base (k+1) := by rw [hpc, addr_succ]
  have hpc2 : m.pc+4+4 = addr base (k+2) := by rw [hpc1, addr_succ]
  have hpc3 : m.pc+4+4+4 = addr base (k+3) := by rw [hpc2, addr_succ]
  have hpc4 : m.pc+4+4+4+4 = addr base (k+4) := by rw [hpc3, addr_succ]
  refine (steps_exec (hat 0 (by decide) m.pc hpc) rfl).trans ?_
  refine (steps_exec (hat 1 (by decide) _ hpc1) hcompared).trans ?_
  refine (steps_exec (hat 2 (by decide) _ hpc2) hloaded).trans ?_
  refine (steps_exec (hat 3 (by decide) _ hpc3) hstored).trans ?_
  exact steps_exec (hat 4 (by decide) _ hpc4) rfl

theorem copy_exit (hcode : ∀ j < 5, code (addr base (k+j)) = (copyLoop base k)[j]?)
    (hpc : m.pc = addr base k) (hle : (m.r 1).toNat ≤ (m.r 0).toNat) :
    steps code bus 2 m = some ((m.compare (m.r 0) (m.r 1)).advance.goto (addr base (k+5))) := by
  have hdone : (m.compare (m.r 0) (m.r 1)).advance.holds .cs = true := by
    show (m.compare (m.r 0) (m.r 1)).carry = true
    rw [Machine.compare, setFlags_carry]
    exact decide_eq_true (by bv_omega)
  have hcmp : code m.pc = (copyLoop base k)[0]? := by
    rw [hpc]
    exact hcode 0 (by decide)
  have hb : code (m.compare (m.r 0) (m.r 1)).advance.pc = (copyLoop base k)[1]? := by
    show code (m.pc+4) = _
    rw [hpc, addr_succ]
    exact hcode 1 (by decide)
  refine (steps_exec hcmp rfl).trans ?_
  exact steps_exec hb (congrArg some (if_pos hdone))

theorem copy_loop (hcode : ∀ j < 5, code (addr base (k+j)) = (copyLoop base k)[j]?) {n : ℕ}
    (hpc : m.pc = addr base k) (hend : (m.r 1).toNat = (m.r 0).toNat+4*n)
    (haligned : (m.r 0).toNat%4 = 0 ∧ (m.r 2).toNat%4 = 0)
    (hdevice : ∀ i < n, bus.device (addr (m.r 0) i) = false ∧
      bus.device (addr (m.r 2) i) = false) :
    ∃ m', steps code bus (5*n+2) m = some m' ∧ m'.pc = addr base (k+5) ∧
      m'.mem = copyWords n (m.r 0) (m.r 2) m.mem ∧ Same m m' := by
  induction n generalizing m with
  | zero =>
    refine ⟨_, copy_exit hcode hpc (by omega), rfl, rfl, rfl, ?_, rfl, rfl⟩
    exact setFlags_mode _ _ _ _
  | succ n ih =>
    have hfirst := hdevice 0 (by omega)
    rw [addr, addr, Nat.mul_zero, BitVec.add_zero, BitVec.add_zero] at hfirst
    have hround := copy_round hcode hpc (by omega) haligned hfirst
    obtain ⟨h0, h1, h2⟩ := stored_r (m := m)
    have hnext : ∀ a : Word, ∀ j, addr (a+4) j = addr a (j+1) := fun a j => by
      rw [addr, addr]
      bv_omega
    obtain ⟨m', hrun, hpc', hmem, hsame⟩ := ih (m := (stored m).goto (addr base k)) rfl
      (by
        show ((stored m).r 1).toNat = ((stored m).r 0).toNat+4*n
        rw [h0, h1]
        bv_omega)
      (by
        show ((stored m).r 0).toNat%4 = 0 ∧ ((stored m).r 2).toNat%4 = 0
        rw [h0, h2]
        exact ⟨by bv_omega, by bv_omega⟩)
      (fun i hi => by
        show bus.device (addr ((stored m).r 0) i) = false ∧
          bus.device (addr ((stored m).r 2) i) = false
        rw [h0, h2, hnext, hnext]
        exact hdevice (i+1) (by omega))
    refine ⟨m', ?_, hpc', ?_, (stored_same.trans (goto_same _)).trans hsame⟩
    · rw [show 5*(n+1)+2 = 5+(5*n+2) by omega, steps_add, hround, Option.bind_some, hrun]
    · rw [hmem]
      show copyWords n ((stored m).r 0) ((stored m).r 2) _ = _
      rw [h0, h2]
      rfl

end Loop

/-! The sections, by the linker script -/

/-- A section in the on-chip memory, with its image in the DRAM. -/
structure Section where
  start : Word
  stop : Word
  load : Word
  words : ℕ
  stop_eq : stop.toNat = start.toNat+4*words
  aligned : start.toNat%4 = 0 ∧ load.toNat%4 = 0
  ocram : 0x00900000 ≤ start.toNat ∧ stop.toNat ≤ 0x00920000
  dram : 0x80000800 ≤ load.toNat ∧ load.toNat+4*words ≤ 0xa0000800

namespace Section
variable (s : Section)

def Covers (a : Word) : Prop := s.start.toNat ≤ a.toNat ∧ a.toNat < s.stop.toNat

def copy (mem : Word → Word) : Word → Word := copyWords s.words s.start s.load mem

theorem copy_at (mem : Word → Word) {i : ℕ} (hi : i < s.words) :
    s.copy mem (addr s.start i) = mem (addr s.load i) := by
  have hstop := s.stop_eq
  have hocram := s.ocram
  have hdram := s.dram
  refine copyWords_at (by omega) (fun j hj => ?_) hi
  rw [addr]
  bv_omega

theorem copy_other (mem : Word → Word) {a : Word} (h : ¬s.Covers a) : s.copy mem a = mem a := by
  have hstop := s.stop_eq
  have hocram := s.ocram
  rw [Covers] at h
  apply copyWords_other
  bv_omega

end Section

structure Program where
  stackTop : Word
  text : Section
  rodata : Section
  data : Section
  sbss : Word
  ebss : Word
  bssWords : ℕ
  exceptions : Word
  start : Word
  rodata_above : text.stop.toNat ≤ rodata.start.toNat
  data_above : rodata.stop.toNat ≤ data.start.toNat
  bss_above : data.stop.toNat ≤ sbss.toNat
  bss_eq : ebss.toNat = sbss.toNat+4*bssWords
  bss_aligned : sbss.toNat%4 = 0
  bss_ocram : ebss.toNat ≤ 0x00920000

/-- `_start` of `asm-ocram.s`. -/
def entryCode (base : Word) (p : Program) : List Instr :=
  [.ldrConst .sp p.stackTop, .ldrConst (.r 0) p.text.start, .ldrConst (.r 1) p.text.stop,
    .ldrConst (.r 2) p.text.load] ++ copyLoop base 4 ++
  [.ldrConst (.r 0) p.rodata.start, .ldrConst (.r 1) p.rodata.stop,
    .ldrConst (.r 2) p.rodata.load] ++ copyLoop base 12 ++
  [.ldrConst (.r 0) p.exceptions, .mcrVbar (.r 0), .ldrConst (.r 0) p.start, .bx .always (.r 0)]

section Run
variable {bus : Bus} {base : Word} {p : Program} {m : Machine}

/-- Neither memory is a device. -/
def InMemory (bus : Bus) : Prop := ∀ a : Word,
  (0x00900000 ≤ a.toNat ∧ a.toNat < 0x00920000) ∨ (0x80000800 ≤ a.toNat ∧ a.toNat < 0xa0000800) →
    bus.device a = false

theorem entryCode_at {i : ℕ} (hi : i < 21) :
    codeAt base (entryCode base p) (addr base i) = (entryCode base p)[i]? :=
  codeAt_addr (by omega)

/-- The machine behind the three addresses of a section. -/
def addressed (s : Section) (m : Machine) : Machine :=
  let m := (m.setReg (.r 0) s.start).advance
  let m := (m.setReg (.r 1) s.stop).advance
  (m.setReg (.r 2) s.load).advance

theorem addressed_r (s : Section) : (addressed s m).r 0 = s.start ∧
    (addressed s m).r 1 = s.stop ∧ (addressed s m).r 2 = s.load := by
  refine ⟨?_, ?_, ?_⟩ <;> simp [addressed, setReg, advance]

theorem addressed_same (s : Section) : Same m (addressed s m) := ⟨rfl, rfl, rfl, rfl⟩

theorem section_run (s : Section) (hmem : InMemory bus) {k : ℕ} (hk : k+8 ≤ 21)
    (hload : ∀ j < 3, (entryCode base p)[k+j]? = [Instr.ldrConst (.r 0) s.start,
      .ldrConst (.r 1) s.stop, .ldrConst (.r 2) s.load][j]?)
    (hloop : ∀ j < 5, (entryCode base p)[k+3+j]? = (copyLoop base (k+3))[j]?)
    (hpc : m.pc = addr base k) :
    ∃ n m', steps (codeAt base (entryCode base p)) bus n m = some m' ∧
      m'.pc = addr base (k+8) ∧ m'.mem = s.copy m.mem ∧ Same m m' := by
  have hat : ∀ j < 3, ∀ a, a = addr base (k+j) → codeAt base (entryCode base p) a =
      [Instr.ldrConst (.r 0) s.start, .ldrConst (.r 1) s.stop, .ldrConst (.r 2) s.load][j]? := by
    rintro j hj a rfl
    rw [entryCode_at (by omega), hload j hj]
  have hpc1 : m.pc+4 = addr base (k+1) := by rw [hpc, addr_succ]
  have hpc2 : m.pc+4+4 = addr base (k+2) := by rw [hpc1, addr_succ]
  have haddressed : steps (codeAt base (entryCode base p)) bus 3 m = some (addressed s m) := by
    refine (steps_exec (hat 0 (by decide) m.pc hpc) rfl).trans ?_
    refine (steps_exec (hat 1 (by decide) _ hpc1) rfl).trans ?_
    exact steps_exec (hat 2 (by decide) _ hpc2) rfl
  have hcode : ∀ j < 5, codeAt base (entryCode base p) (addr base (k+3+j)) =
      (copyLoop base (k+3))[j]? := fun j hj => by
    rw [entryCode_at (by omega), hloop j hj]
  obtain ⟨h0, h1, h2⟩ := addressed_r (m := m) s
  have hocram := s.ocram
  have hdram := s.dram
  have hstop := s.stop_eq
  obtain ⟨m', hrun, hpc', hmem', hsame⟩ := copy_loop (n := s.words) hcode (m := addressed s m)
    (by
      show m.pc+4+4+4 = _
      rw [hpc2, addr_succ])
    (by rw [h0, h1, hstop]) (by rw [h0, h2]; exact s.aligned) fun i hi => by
      rw [h0, h2, addr, addr]
      exact ⟨hmem _ (.inl (by bv_omega)), hmem _ (.inr (by bv_omega))⟩
  refine ⟨3+(5*s.words+2), m', ?_, hpc', ?_, (addressed_same s).trans hsame⟩
  · rw [steps_add, haddressed, Option.bind_some, hrun]
  · rw [hmem', h0, h2]
    rfl

theorem entry_run (hmem : InMemory bus) (hpc : m.pc = base) :
    ∃ n m', steps (codeAt base (entryCode base p)) bus n m = some m' ∧ m'.pc = p.start ∧
      m'.sp m.mode = p.stackTop ∧ m'.vbar = p.exceptions ∧ m'.log = m.log ∧
      m'.mem = p.rodata.copy (p.text.copy m.mem) := by
  have hat : ∀ i < 21, ∀ a, a = addr base i →
      codeAt base (entryCode base p) a = (entryCode base p)[i]? := by
    rintro i hi a rfl
    exact entryCode_at hi
  have hbase : base = addr base 0 := (BitVec.add_zero base).symm
  have hstack : steps (codeAt base (entryCode base p)) bus 1 m =
      some (m.setReg .sp p.stackTop).advance :=
    steps_exec (hat 0 (by decide) m.pc (hpc.trans hbase)) rfl
  have hpc1 : (m.setReg .sp p.stackTop).advance.pc = addr base 1 := by
    rw [advance_pc, setReg_pc, hpc]
    rfl
  -- the text and the constants are copied from the DRAM
  obtain ⟨n, a, hn, hapc, hamem, hasame⟩ := section_run p.text hmem (by decide)
    (by rintro (_ | _ | _ | j) hj <;> first | rfl | omega)
    (by rintro (_ | _ | _ | _ | _ | j) hj <;> first | rfl | omega) hpc1
  obtain ⟨k, b, hk, hbpc, hbmem, hbsame⟩ := section_run p.rodata hmem (by decide)
    (by rintro (_ | _ | _ | j) hj <;> first | rfl | omega)
    (by rintro (_ | _ | _ | _ | _ | j) hj <;> first | rfl | omega) hapc
  have hpc18 : b.pc+4 = addr base 18 := by rw [hbpc, addr_succ]
  have hpc19 : b.pc+4+4 = addr base 19 := by rw [hpc18, addr_succ]
  have hpc20 : b.pc+4+4+4 = addr base 20 := by rw [hpc19, addr_succ]
  let c := { (b.setReg (.r 0) p.exceptions).advance with vbar := p.exceptions }
  have hvbar : exec bus (.mcrVbar (.r 0)) (b.setReg (.r 0) p.exceptions).advance =
      some c.advance := by
    rw [exec, advance_reg, reg_setReg, if_pos rfl]
  have hbx : exec bus (.bx .always (.r 0)) (c.advance.setReg (.r 0) p.start).advance =
      some ((c.advance.setReg (.r 0) p.start).advance.goto p.start) := by
    rw [exec, branch_always, advance_reg, reg_setReg, if_pos rfl]
  have hlast : steps (codeAt base (entryCode base p)) bus 4 b =
      some ((c.advance.setReg (.r 0) p.start).advance.goto p.start) := by
    refine (steps_exec (hat 17 (by decide) b.pc hbpc) rfl).trans ?_
    refine (steps_exec (hat 18 (by decide) _ hpc18) hvbar).trans ?_
    refine (steps_exec (hat 19 (by decide) _ hpc19) rfl).trans ?_
    exact steps_exec (hat 20 (by decide) _ hpc20) hbx
  have hsame := hasame.trans hbsame
  refine ⟨1+(n+(k+4)), (c.advance.setReg (.r 0) p.start).advance.goto p.start, ?_, rfl, ?_, rfl,
    hsame.log, ?_⟩
  · rw [steps_add, hstack, Option.bind_some, steps_add, hn, Option.bind_some, steps_add, hk,
      Option.bind_some, hlast]
  · show b.sp m.mode = _
    rw [hsame.sp]
    show (m.setReg .sp p.stackTop).sp m.mode = _
    rw [setReg_sp, if_pos ⟨rfl, rfl⟩]
  · show b.mem = _
    rw [hbmem, hamem]
    rfl

end Run

/-! The Rust part: `.bss` and `.data` -/

/-- The crate `r0`: `zero_bss` and `init_data`, of words from one pointer up to another one. -/
structure R0 where
  zeroBss : Word → Word → (Word → Word) → Word → Word
  initData : Word → Word → Word → (Word → Word) → Word → Word
  zero_at : ∀ (sbss ebss : Word) (n : ℕ) (mem : Word → Word), ebss.toNat = sbss.toNat+4*n →
    ∀ i < n, zeroBss sbss ebss mem (addr sbss i) = 0
  zero_other : ∀ (sbss ebss : Word) (n : ℕ) (mem : Word → Word), ebss.toNat = sbss.toNat+4*n →
    ∀ a : Word, ¬(sbss.toNat ≤ a.toNat ∧ a.toNat < ebss.toNat) → zeroBss sbss ebss mem a = mem a
  init_at : ∀ (s : Section) (mem : Word → Word),
    ∀ i < s.words, initData s.start s.stop s.load mem (addr s.start i) = mem (addr s.load i)
  init_other : ∀ (s : Section) (mem : Word → Word) (a : Word), ¬s.Covers a →
    initData s.start s.stop s.load mem a = mem a

/-- The head of `start`. -/
def startMemory (r0 : R0) (p : Program) (mem : Word → Word) : Word → Word :=
  r0.initData p.data.start p.data.stop p.data.load (r0.zeroBss p.sbss p.ebss mem)

/-- Memory as the linker wants it, from what the boot ROM has loaded. -/
structure Loaded (p : Program) (mem mem' : Word → Word) : Prop where
  text : ∀ i < p.text.words, mem' (addr p.text.start i) = mem (addr p.text.load i)
  rodata : ∀ i < p.rodata.words, mem' (addr p.rodata.start i) = mem (addr p.rodata.load i)
  data : ∀ i < p.data.words, mem' (addr p.data.start i) = mem (addr p.data.load i)
  bss : ∀ i < p.bssWords, mem' (addr p.sbss i) = 0
  rest : ∀ a : Word, ¬p.text.Covers a → ¬p.rodata.Covers a → ¬p.data.Covers a →
    ¬(p.sbss.toNat ≤ a.toNat ∧ a.toNat < p.ebss.toNat) → mem' a = mem a

theorem Section.places (s : Section) {i : ℕ} (hi : i < s.words) :
    (addr s.start i).toNat = s.start.toNat+4*i ∧ (addr s.load i).toNat = s.load.toNat+4*i := by
  have hstop := s.stop_eq
  have hocram := s.ocram
  have hdram := s.dram
  rw [addr, addr]
  exact ⟨by bv_omega, by bv_omega⟩

theorem startMemory_loaded (r0 : R0) (p : Program) (mem : Word → Word) :
    Loaded p mem (startMemory r0 p (p.rodata.copy (p.text.copy mem))) := by
  have htext := p.text.ocram
  have hrodata := p.rodata.ocram
  have hdata := p.data.ocram
  have hrodata_above := p.rodata_above
  have hdata_above := p.data_above
  have hbss_above := p.bss_above
  have hbss := p.bss_eq
  have hebss := p.bss_ocram
  have htext_stop := p.text.stop_eq
  have hrodata_stop := p.rodata.stop_eq
  have hdata_stop := p.data.stop_eq
  -- what is neither data nor zeroed is as the assembly part has left it
  have hkept : ∀ (a : Word) (mem : Word → Word), ¬p.data.Covers a →
      ¬(p.sbss.toNat ≤ a.toNat ∧ a.toNat < p.ebss.toNat) → startMemory r0 p mem a = mem a :=
    fun a mem hd hb => by
      rw [startMemory, r0.init_other p.data _ a hd, r0.zero_other _ _ p.bssWords _ hbss a hb]
  refine ⟨fun i hi => ?_, fun i hi => ?_, fun i hi => ?_, fun i hi => ?_, fun a ht hr hd hb => ?_⟩
  · have hplace := (p.text.places hi).1
    rw [hkept _ _ (by rw [Section.Covers]; omega) (by omega), p.rodata.copy_other _
      (by rw [Section.Covers]; omega), p.text.copy_at _ hi]
  · obtain ⟨hplace, himage⟩ := p.rodata.places hi
    have hdram := p.rodata.dram
    rw [hkept _ _ (by rw [Section.Covers]; omega) (by omega), p.rodata.copy_at _ hi,
      p.text.copy_other _ (by rw [Section.Covers]; omega)]
  · have himage := (p.data.places hi).2
    have hdram := p.data.dram
    rw [startMemory, r0.init_at p.data _ i hi, r0.zero_other _ _ p.bssWords _ hbss _ (by omega),
      p.rodata.copy_other _ (by rw [Section.Covers]; omega),
      p.text.copy_other _ (by rw [Section.Covers]; omega)]
  · have hplace : (addr p.sbss i).toNat = p.sbss.toNat+4*i := by
      rw [addr]
      bv_omega
    rw [startMemory, r0.init_other p.data _ _ (by rw [Section.Covers]; omega),
      r0.zero_at _ _ p.bssWords _ hbss i hi]
  · rw [hkept a _ hd hb, p.rodata.copy_other _ hr, p.text.copy_other _ ht]

/-- From the entry point, with any contents of the memories: the Rust part is reached, on its stack
and with the vector set; and when it has gone through `.bss` and `.data`, every section is in the
on-chip memory as it was linked, and nothing else has changed. -/
theorem entry_loads (r0 : R0) (p : Program) (bus : Bus) (hmem : InMemory bus) (m : Machine) :
    ∃ n m', steps (codeAt m.pc (entryCode m.pc p)) bus n m = some m' ∧ m'.pc = p.start ∧
      m'.sp m.mode = p.stackTop ∧ m'.vbar = p.exceptions ∧ m'.log = m.log ∧
      Loaded p m.mem (startMemory r0 p m'.mem) := by
  obtain ⟨n, m', hrun, hpc, hsp, hvbar, hlog, hmem'⟩ := entry_run (p := p) hmem (m := m) rfl
  refine ⟨n, m', hrun, hpc, hsp, hvbar, hlog, ?_⟩
  rw [hmem']
  exact startMemory_loaded r0 p m.mem

def zeroBss (sbss ebss : Word) (mem : Word → Word) (a : Word) : Word :=
  if sbss.toNat ≤ a.toNat ∧ a.toNat < ebss.toNat then 0 else mem a

def initData (sdata edata sidata : Word) (mem : Word → Word) (a : Word) : Word :=
  if sdata.toNat ≤ a.toNat ∧ a.toNat < edata.toNat then mem (a-sdata+sidata) else mem a

theorem zeroBss_at (sbss ebss : Word) (n : ℕ) (mem : Word → Word)
    (h : ebss.toNat = sbss.toNat+4*n) : ∀ i < n, zeroBss sbss ebss mem (addr sbss i) = 0 := by
  intro i hi
  apply if_pos
  rw [addr]
  bv_omega

theorem zeroBss_other (sbss ebss : Word) (n : ℕ) (mem : Word → Word)
    (_ : ebss.toNat = sbss.toNat+4*n) (a : Word)
    (ha : ¬(sbss.toNat ≤ a.toNat ∧ a.toNat < ebss.toNat)) : zeroBss sbss ebss mem a = mem a :=
  if_neg ha

theorem initData_at (s : Section) (mem : Word → Word) : ∀ i < s.words,
    initData s.start s.stop s.load mem (addr s.start i) = mem (addr s.load i) := by
  intro i hi
  have hplace := (s.places hi).1
  have hstop := s.stop_eq
  rw [initData, if_pos (by omega)]
  congr 1
  rw [addr, addr]
  bv_omega

theorem initData_other (s : Section) (mem : Word → Word) (a : Word) (ha : ¬s.Covers a) :
    initData s.start s.stop s.load mem a = mem a := if_neg ha

def wordwise : R0 where
  zeroBss := zeroBss
  initData := initData
  zero_at := zeroBss_at
  zero_other := zeroBss_other
  init_at := initData_at
  init_other := initData_other

/-- A program of 20 words and two words of `.bss`. -/
def small : Program where
  stackTop := 0x00920000
  text := ⟨0x00900000, 0x00900040, 0x80001000, 16, by decide, by decide, by decide, by decide⟩
  rodata := ⟨0x00900040, 0x00900048, 0x80001040, 2, by decide, by decide, by decide, by decide⟩
  data := ⟨0x00900048, 0x00900050, 0x80001048, 2, by decide, by decide, by decide, by decide⟩
  sbss := 0x00900050
  ebss := 0x00900058
  bssWords := 2
  exceptions := 0x00900020
  start := 0x00900000
  rodata_above := by decide
  data_above := by decide
  bss_above := by decide
  bss_eq := by decide
  bss_aligned := by decide
  bss_ocram := by decide

def booted : Machine where
  r _ := 0
  sp _ := 0
  lr _ := 0
  spsr _ := 0
  pc := 0x80000f00
  cpsr := 0xd3
  vbar := 0
  mem a := a
  log := []

theorem entry_loads_small : ∃ n m', steps (codeAt booted.pc (entryCode booted.pc small))
    ⟨fun a => a.toNat/2^21 == 16, fun _ _ => 0⟩ n booted = some m' ∧
      m'.pc = 0x00900000 ∧ startMemory wordwise small m'.mem 0x00900048 = 0x80001048 ∧
      startMemory wordwise small m'.mem 0x00900054 = 0 := by
  obtain ⟨n, m', hrun, hpc, -, -, -, hloaded⟩ := entry_loads wordwise small
    ⟨fun a => a.toNat/2^21 == 16, fun _ _ => 0⟩
    (fun a ha => by simp only [beq_eq_false_iff_ne]; omega) booted
  exact ⟨n, m', hrun, hpc, hloaded.data 0 (by decide), hloaded.bss 1 (by decide)⟩

end UsbArmory.Runtime.Entry
