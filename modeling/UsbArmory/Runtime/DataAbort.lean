import UsbArmory.Library.Arm

/-!
# Data aborts

The handler of a data abort, which may be due to a stack overflow. It is written
in assembly so that it never touches the stack; what it stands for is to write a
message to the serial interface, to flush it and to reset.
-/

set_option autoImplicit false

namespace UsbArmory.Runtime.DataAbort
open UsbArmory.Library.Arm UsbArmory.Library.Arm.Machine

def utxd : Word := 0x021e8040
def usr1 : Word := 0x021e8094
def usr2 : Word := 0x021e8098
def wcr : Word := 0x020bc000

/-- `DataAbortMsg` -/
def message : List (BitVec 8) :=
  ("\ndata abort exception (it could indicate a stack overflow)\n".toList).map fun c =>
    BitVec.ofNat 8 c.toNat

/-- `DataAbort`, where the message is at `msg`. -/
def handler (base msg : Word) : List Instr :=
  [.movw (.r 12) (msg.setWidth 16), .movw (.r 0) 0x8040, .movt (.r 12) (msg.extractLsb' 16 16),
    .movt (.r 0) 0x021e, .mov (.r 2) (.r 12),
    .ldrb (.r 3) (.r 2),
    .ldr (.r 1) (.r 0) 0x54, .tst (.r 1) (.imm 0x2000), .b .eq (addr base 6),
    .add (.r 2) (.r 2) (.imm 1), .add (.r 1) (.r 12) (.imm (BitVec.ofNat 32 message.length)),
    .cmp (.r 2) (.reg (.r 1)), .str (.r 3) (.r 0) 0, .b .ne (addr base 5),
    .ldr (.r 1) (.r 0) 0x58, .tst (.r 1) (.imm 8), .b .eq (addr base 14),
    .movw (.r 0) 0xc000, .movt (.r 0) 0x20b, .ldrh (.r 1) (.r 0), .bic (.r 1) (.r 1) (.imm 16),
    .strh (.r 1) (.r 0), .b .always (addr base 22)]

/-! What the handler stands for: `Serial::write_all`, `Serial::flush` and `reset` -/

inductive Stage where
  | sending (k : ℕ)
  | ready (k : ℕ)
  | flushing
  | resetting
  | restarting (old : BitVec 16)
  | halted

structure Report where
  stage : Stage
  log : List Access

def byte (k : ℕ) : BitVec 8 := message.getD k 0

section Stages
variable (v : Word) (k : ℕ)

/-- Behind a reading of `USR1`, of `USR2`, and behind a byte. -/
def polled : Stage := if v &&& 0x2000 = 0 then .sending k else .ready k
def flushed : Stage := if v &&& 8 = 0 then .flushing else .resetting
def sent : Stage := if k+1 = message.length then .flushing else .sending (k+1)

end Stages

def Report.next (bus : Bus) (s : Report) : Report :=
  match s.stage with
  | .sending k =>
    let v := bus.read s.log usr1
    ⟨polled v k, s.log ++ [.load usr1 v]⟩
  | .ready k => ⟨sent k, s.log ++ [.store utxd ((byte k).setWidth 32)]⟩
  | .flushing =>
    let v := bus.read s.log usr2
    ⟨flushed v, s.log ++ [.load usr2 v]⟩
  | .resetting =>
    let v := (bus.read s.log wcr).setWidth 16
    ⟨.restarting v, s.log ++ [.loadHalf wcr v]⟩
  | .restarting v => ⟨.halted, s.log ++ [.storeHalf wcr (v &&& ~~~16#16)]⟩
  | .halted => s

def Report.after (bus : Bus) : ℕ → Report → Report
  | 0, s => s
  | n+1, s => after bus n (s.next bus)

/-! The points of the handler -/

section Points
variable (msg : Word) (m : Machine)

structure Sending (k : ℕ) : Prop where
  lt : k < message.length
  r0 : m.r 0 = utxd
  ip : m.r 12 = msg

def Point : ℕ → Stage → Prop
  | 0, .sending k => k = 0
  | 1, .sending k => k = 0 ∧ m.r 12 = (msg.setWidth 16).setWidth 32
  | 2, .sending k => k = 0 ∧ m.r 12 = (msg.setWidth 16).setWidth 32 ∧ m.r 0 = 0x8040
  | 3, .sending k => k = 0 ∧ m.r 12 = msg ∧ m.r 0 = 0x8040
  | 4, .sending k => k = 0 ∧ Sending msg m 0
  | 5, .sending k => Sending msg m k ∧ m.r 2 = msg + BitVec.ofNat 32 k
  | 6, .sending k => Sending msg m k ∧ m.r 2 = msg + BitVec.ofNat 32 k ∧
      m.r 3 = (byte k).setWidth 32
  | 7, stage => ∃ k, stage = polled (m.r 1) k ∧ Sending msg m k ∧
      m.r 2 = msg + BitVec.ofNat 32 k ∧ m.r 3 = (byte k).setWidth 32
  | 8, stage => ∃ k, stage = (if m.zero then .sending k else .ready k) ∧ Sending msg m k ∧
      m.r 2 = msg + BitVec.ofNat 32 k ∧ m.r 3 = (byte k).setWidth 32
  | 9, .ready k => Sending msg m k ∧ m.r 2 = msg + BitVec.ofNat 32 k ∧
      m.r 3 = (byte k).setWidth 32
  | 10, .ready k => Sending msg m k ∧ m.r 2 = msg + BitVec.ofNat 32 (k+1) ∧
      m.r 3 = (byte k).setWidth 32
  | 11, .ready k => Sending msg m k ∧ m.r 2 = msg + BitVec.ofNat 32 (k+1) ∧
      m.r 3 = (byte k).setWidth 32 ∧ m.r 1 = msg + BitVec.ofNat 32 message.length
  | 12, .ready k => Sending msg m k ∧ m.r 2 = msg + BitVec.ofNat 32 (k+1) ∧
      m.r 3 = (byte k).setWidth 32 ∧ m.zero = decide (k+1 = message.length)
  | 13, stage => ∃ k, stage = sent k ∧ Sending msg m k ∧ m.r 2 = msg + BitVec.ofNat 32 (k+1) ∧
      m.zero = decide (k+1 = message.length)
  | 14, .flushing => m.r 0 = utxd
  | 15, stage => stage = flushed (m.r 1) ∧ m.r 0 = utxd
  | 16, stage => stage = (if m.zero then .flushing else .resetting) ∧ m.r 0 = utxd
  | 17, .resetting => True
  | 18, .resetting => m.r 0 = 0xc000
  | 19, .resetting => m.r 0 = wcr
  | 20, .restarting v => m.r 0 = wcr ∧ m.r 1 = v.setWidth 32
  | 21, .restarting v => m.r 0 = wcr ∧ m.r 1 = (v &&& ~~~16#16).setWidth 32
  | 22, .halted => True
  | _, _ => False

end Points

/-- Neither a stack pointer nor memory, and the link registers and the mode as they were. -/
structure Keeps (m m' : Machine) : Prop where
  sp : m'.sp = m.sp
  lr : m'.lr = m.lr
  spsr : m'.spsr = m.spsr
  mode : m'.mode = m.mode
  mem : m'.mem = m.mem

theorem Keeps.trans {a b c : Machine} (hab : Keeps a b) (hbc : Keeps b c) : Keeps a c :=
  ⟨hbc.sp.trans hab.sp, hbc.lr.trans hab.lr, hbc.spsr.trans hab.spsr, hbc.mode.trans hab.mode,
    hbc.mem.trans hab.mem⟩

/-- The message is in memory, and the registers are those of devices. -/
structure Placed (bus : Bus) (msg : Word) (m : Machine) : Prop where
  devices : bus.device utxd = true ∧ bus.device usr1 = true ∧ bus.device usr2 = true ∧
    bus.device wcr = true
  memory : ∀ k < message.length, bus.device (msg + BitVec.ofNat 32 k) = false
  bytes : ∀ k < message.length, ((m.around (msg + BitVec.ofNat 32 k)).1 >>>
    (m.around (msg + BitVec.ofNat 32 k)).2).setWidth 8 = byte k

structure At (base msg : Word) (m₀ : Machine) (i : ℕ) (s : Report) (m : Machine) : Prop where
  pc : m.pc = addr base i
  keeps : Keeps m₀ m
  log : m.log = s.log
  point : Point msg m i s.stage

section Steps
variable {bus : Bus} {base msg : Word} {m₀ m m' : Machine} {s : Report} {i : ℕ}

theorem next_at {instr : Instr} (hpc : m.pc = addr base i) (hi : i < 23)
    (hinstr : (handler base msg)[i]? = some instr) (hexec : exec bus instr m = some m') :
    next (codeAt base (handler base msg)) bus m = some m' := by
  have hcode : codeAt base (handler base msg) m.pc = some instr := by
    rw [hpc, codeAt_addr (by omega), hinstr]
  rw [next_exec hcode, hexec]

theorem keeps_setReg (d : Fin 13) (v : Word) : Keeps m (m.setReg (.r d) v).advance :=
  ⟨rfl, rfl, rfl, rfl, rfl⟩

theorem keeps_setFlags (n z c v : Bool) : Keeps m (m.setFlags n z c v).advance :=
  ⟨rfl, rfl, rfl, setFlags_mode n z c v, rfl⟩

theorem at_setReg {instr : Instr} {d : Fin 13} {v : Word} (h : At base msg m₀ i s m) (hi : i < 23)
    (hinstr : (handler base msg)[i]? = some instr)
    (hexec : exec bus instr m = some (m.setReg (.r d) v).advance)
    (hpoint : Point msg (m.setReg (.r d) v).advance (i+1) s.stage) :
    ∃ m', next (codeAt base (handler base msg)) bus m = some m' ∧ At base msg m₀ (i+1) s m' := by
  refine ⟨_, next_at h.pc hi hinstr hexec, ?_, h.keeps.trans (keeps_setReg d v), h.log, hpoint⟩
  rw [advance_pc, setReg_pc, h.pc, addr_succ]

theorem halves (msg : Word) : (msg.extractLsb' 16 16 ++
    (((msg.setWidth 16).setWidth 32 : Word).setWidth 16 : BitVec 16) : Word) = msg := by
  apply BitVec.eq_of_getLsbD_eq
  intro i hi
  rw [BitVec.getLsbD_append]
  split
  next hlow => simp [hlow, hi]
  next hhigh =>
    rw [BitVec.getLsbD_extractLsb', decide_eq_true (by omega), Bool.true_and]
    congr 1
    omega

/-- How many instructions it takes at most to the next access. -/
def rank (i : ℕ) : ℕ :=
  [6, 5, 4, 3, 2, 1, 0, 5, 4, 3, 2, 1, 0, 2, 0, 4, 3, 2, 1, 0, 1, 0, 0].getD i 0

def Steps (bus : Bus) (base msg : Word) (m₀ : Machine) (i : ℕ) (s : Report) (m : Machine) : Prop :=
  ∃ m', next (codeAt base (handler base msg)) bus m = some m' ∧
    ((∃ j, At base msg m₀ j s m' ∧ rank j < rank i) ∨ ∃ j, At base msg m₀ j (s.next bus) m')

theorem steps_setReg {instr : Instr} {d : Fin 13} {v : Word} (h : At base msg m₀ i s m)
    (hi : i < 23) (hinstr : (handler base msg)[i]? = some instr)
    (hexec : exec bus instr m = some (m.setReg (.r d) v).advance)
    (hpoint : Point msg (m.setReg (.r d) v).advance (i+1) s.stage) (hrank : rank (i+1) < rank i) :
    Steps bus base msg m₀ i s m := by
  obtain ⟨m', hnext, hat⟩ := at_setReg h hi hinstr hexec hpoint
  exact ⟨m', hnext, .inl ⟨i+1, hat, hrank⟩⟩

theorem setup_steps {k : ℕ} {log : List Access} (hi : i < 5)
    (h : At base msg m₀ i ⟨.sending k, log⟩ m) : Steps bus base msg m₀ i ⟨.sending k, log⟩ m := by
  have hpoint := h.point
  match i, hi with
  | 0, _ =>
    refine steps_setReg h (by decide) rfl rfl ⟨hpoint, ?_⟩ (by decide)
    simp [setReg_r]
  | 1, _ =>
    obtain ⟨hk, hip⟩ := hpoint
    refine steps_setReg h (by decide) rfl rfl ⟨hk, ?_, ?_⟩ (by decide)
    · simpa [setReg_r] using hip
    · simp [setReg_r]
  | 2, _ =>
    obtain ⟨hk, hip, hr0⟩ := hpoint
    refine steps_setReg h (by decide) rfl rfl ⟨hk, ?_, ?_⟩ (by decide)
    · rw [advance_r, setReg_r, if_pos rfl]
      show (msg.extractLsb' 16 16 ++ ((m.r 12).setWidth 16 : BitVec 16) : Word) = msg
      rw [hip, halves]
    · simpa [setReg_r] using hr0
  | 3, _ =>
    obtain ⟨hk, hip, hr0⟩ := hpoint
    refine steps_setReg h (by decide) rfl rfl ⟨hk, by decide, ?_, ?_⟩ (by decide)
    · rw [advance_r, setReg_r, if_pos rfl]
      show ((0x021e : BitVec 16) ++ ((m.r 0).setWidth 16 : BitVec 16) : Word) = utxd
      rw [hr0]
      decide
    · simpa [setReg_r] using hip
  | 4, _ =>
    obtain ⟨rfl, hsending⟩ := hpoint
    refine steps_setReg h (by decide) rfl rfl ⟨⟨hsending.lt, ?_, ?_⟩, ?_⟩ (by decide)
    · simpa [setReg_r] using hsending.r0
    · simpa [setReg_r] using hsending.ip
    · rw [advance_r, setReg_r, if_pos rfl]
      exact hsending.ip.trans (BitVec.add_zero msg).symm

theorem byte_steps {k : ℕ} {log : List Access} (hplaced : Placed bus msg m₀)
    (h : At base msg m₀ 5 ⟨.sending k, log⟩ m) : Steps bus base msg m₀ 5 ⟨.sending k, log⟩ m := by
  obtain ⟨hsending, hr2⟩ := h.point
  have hbyte : exec bus (.ldrb (.r 3) (.r 2)) m =
      some (m.setReg (.r 3) ((byte k).setWidth 32)).advance := by
    rw [← hplaced.bytes k hsending.lt, ← hr2]
    show (if bus.device (m.r 2) then none else _) = _
    rw [hr2, hplaced.memory k hsending.lt, ← hr2]
    show some _ = some _
    simp only [around, h.keeps.mem]
    rfl
  refine steps_setReg h (by decide) rfl hbyte ⟨⟨hsending.lt, ?_, ?_⟩, ?_, ?_⟩ (by decide)
  · simpa [setReg_r] using hsending.r0
  · simpa [setReg_r] using hsending.ip
  · simpa [setReg_r] using hr2
  · simp [setReg_r]

theorem steps_load {a offset : Word} {d : Fin 13} (h : At base msg m₀ i s m) (hi : i < 23)
    (hinstr : (handler base msg)[i]? = some (.ldr (.r d) (.r 0) offset))
    (ha : m.r 0 + offset = a) (haligned : a.toNat%4 = 0) (hdevice : bus.device a = true)
    (hlog : (s.next bus).log = s.log ++ [.load a (bus.read s.log a)])
    (hpoint : Point msg ((m.record (.load a (bus.read s.log a))).setReg (.r d)
      (bus.read s.log a)).advance (i+1) (s.next bus).stage) : Steps bus base msg m₀ i s m := by
  have hexec : exec bus (.ldr (.r d) (.r 0) offset) m =
      some ((m.record (.load a (bus.read s.log a))).setReg (.r d) (bus.read s.log a)).advance := by
    show Option.map _ (m.load bus (m.r 0 + offset)) = _
    rw [ha, load_device haligned hdevice, h.log]
    rfl
  refine ⟨_, next_at h.pc hi hinstr hexec, .inr ⟨i+1, ?_, h.keeps.trans ⟨rfl, rfl, rfl, rfl, rfl⟩,
    ?_, hpoint⟩⟩
  · show m.pc+4 = _
    rw [h.pc, addr_succ]
  · rw [hlog, ← h.log]
    rfl

theorem usr1_steps {k : ℕ} {log : List Access} (hplaced : Placed bus msg m₀)
    (h : At base msg m₀ 6 ⟨.sending k, log⟩ m) : Steps bus base msg m₀ 6 ⟨.sending k, log⟩ m := by
  obtain ⟨hsending, hr2, hr3⟩ := h.point
  refine steps_load (a := usr1) h (by decide) rfl ?_ (by decide) hplaced.devices.2.1 rfl ?_
  · rw [hsending.r0]
    decide
  · refine ⟨k, ?_, ⟨hsending.lt, ?_, ?_⟩, ?_, ?_⟩
    · rw [advance_r, setReg_r, if_pos rfl]
      rfl
    · simpa [setReg_r, record] using hsending.r0
    · simpa [setReg_r, record] using hsending.ip
    · simpa [setReg_r, record] using hr2
    · simpa [setReg_r, record] using hr3

theorem steps_tst {bits : Word} (h : At base msg m₀ i s m) (hi : i < 23)
    (hinstr : (handler base msg)[i]? = some (.tst (.r 1) (.imm bits)))
    (hpoint : Point msg (m.setFlags (m.r 1 &&& bits).msb (m.r 1 &&& bits == 0) m.carry
      (m.cpsr.getLsbD 28)).advance (i+1) s.stage) (hrank : rank (i+1) < rank i) :
    Steps bus base msg m₀ i s m := by
  refine ⟨_, next_at h.pc hi hinstr rfl, .inl ⟨i+1, ⟨?_, h.keeps.trans (keeps_setFlags _ _ _ _),
    h.log, hpoint⟩, hrank⟩⟩
  show m.pc+4 = _
  rw [h.pc, addr_succ]

theorem test_steps {stage : Stage} {log : List Access} (h : At base msg m₀ 7 ⟨stage, log⟩ m) :
    Steps bus base msg m₀ 7 ⟨stage, log⟩ m := by
  obtain ⟨k, rfl, hsending, hr2, hr3⟩ := h.point
  refine steps_tst h (by decide) rfl ⟨k, ?_, ⟨hsending.lt, hsending.r0, hsending.ip⟩, hr2, hr3⟩
    (by decide)
  show polled (m.r 1) k = if (m.setFlags _ _ _ _).zero then _ else _
  rw [setFlags_zero, polled]
  simp only [beq_iff_eq]

theorem steps_branch {cond : Cond} {j : ℕ} (h : At base msg m₀ i s m) (hi : i < 23)
    (hinstr : (handler base msg)[i]? = some (.b cond (addr base j)))
    (htaken : m.holds cond = true → Point msg (m.goto (addr base j)) j s.stage ∧ rank j < rank i)
    (hnot : m.holds cond = false → Point msg m.advance (i+1) s.stage ∧ rank (i+1) < rank i) :
    Steps bus base msg m₀ i s m := by
  refine ⟨_, next_at h.pc hi hinstr rfl, .inl ?_⟩
  cases hholds : m.holds cond with
  | true =>
    obtain ⟨hpoint, hrank⟩ := htaken hholds
    rw [branch, if_pos hholds]
    exact ⟨j, ⟨rfl, h.keeps.trans ⟨rfl, rfl, rfl, rfl, rfl⟩, h.log, hpoint⟩, hrank⟩
  | false =>
    obtain ⟨hpoint, hrank⟩ := hnot hholds
    rw [branch, if_neg (by rw [hholds]; nofun)]
    refine ⟨i+1, ⟨?_, h.keeps.trans ⟨rfl, rfl, rfl, rfl, rfl⟩, h.log, hpoint⟩, hrank⟩
    rw [advance_pc, h.pc, addr_succ]

theorem busy_steps {stage : Stage} {log : List Access} (h : At base msg m₀ 8 ⟨stage, log⟩ m) :
    Steps bus base msg m₀ 8 ⟨stage, log⟩ m := by
  obtain ⟨k, rfl, hsending, hr2, hr3⟩ := h.point
  refine steps_branch (j := 6) h (by decide) rfl (fun hbusy => ?_) fun hready => ?_
  · have hzero : m.zero = true := hbusy
    rw [hzero]
    exact ⟨⟨⟨hsending.lt, hsending.r0, hsending.ip⟩, hr2, hr3⟩, by decide⟩
  · have hzero : m.zero = false := hready
    rw [hzero]
    exact ⟨⟨⟨hsending.lt, hsending.r0, hsending.ip⟩, hr2, hr3⟩, by decide⟩

theorem count_steps {k : ℕ} {log : List Access} (hi : 9 ≤ i ∧ i < 11)
    (h : At base msg m₀ i ⟨.ready k, log⟩ m) : Steps bus base msg m₀ i ⟨.ready k, log⟩ m := by
  have hpoint := h.point
  match i, hi with
  | 9, _ =>
    obtain ⟨hsending, hr2, hr3⟩ := hpoint
    refine steps_setReg h (by decide) rfl rfl ⟨⟨hsending.lt, ?_, ?_⟩, ?_, ?_⟩ (by decide)
    · simpa [setReg_r] using hsending.r0
    · simpa [setReg_r] using hsending.ip
    · rw [advance_r, setReg_r, if_pos rfl]
      show m.r 2 + 1 = _
      rw [hr2, BitVec.add_assoc, BitVec.ofNat_add]
      rfl
    · simpa [setReg_r] using hr3
  | 10, _ =>
    obtain ⟨hsending, hr2, hr3⟩ := hpoint
    refine steps_setReg h (by decide) rfl rfl ⟨⟨hsending.lt, ?_, ?_⟩, ?_, ?_, ?_⟩ (by decide)
    · simpa [setReg_r] using hsending.r0
    · simpa [setReg_r] using hsending.ip
    · simpa [setReg_r] using hr2
    · simpa [setReg_r] using hr3
    · rw [advance_r, setReg_r, if_pos rfl]
      exact congrArg (· + BitVec.ofNat 32 message.length) hsending.ip

theorem compare_steps {k : ℕ} {log : List Access} (h : At base msg m₀ 11 ⟨.ready k, log⟩ m) :
    Steps bus base msg m₀ 11 ⟨.ready k, log⟩ m := by
  obtain ⟨hsending, hr2, hr3, hr1⟩ := h.point
  refine ⟨_, next_at h.pc (by decide) rfl rfl, .inl ⟨12, ⟨?_, h.keeps.trans
    (keeps_setFlags _ _ _ _), h.log, ⟨hsending.lt, hsending.r0, hsending.ip⟩, hr2, hr3, ?_⟩,
    by decide⟩⟩
  · show m.pc+4 = _
    rw [h.pc, addr_succ]
  · show (m.compare (m.r 2) (m.r 1)).zero = _
    have hlength : message.length = 59 := by decide
    have hlt := hsending.lt
    rw [Machine.compare, setFlags_zero, hr2, hr1, Bool.eq_iff_iff, beq_iff_eq, decide_eq_true_iff,
      hlength]
    rw [hlength] at hlt
    constructor
    · intro heq
      bv_omega
    · rintro heq
      rw [heq]

theorem send_steps {k : ℕ} {log : List Access} (hplaced : Placed bus msg m₀)
    (h : At base msg m₀ 12 ⟨.ready k, log⟩ m) : Steps bus base msg m₀ 12 ⟨.ready k, log⟩ m := by
  obtain ⟨hsending, hr2, hr3, hzero⟩ := h.point
  have hexec : exec bus (.str (.r 3) (.r 0) 0) m =
      some (m.record (.store utxd ((byte k).setWidth 32))).advance := by
    show Option.map _ (m.store bus (m.r 0 + 0) (m.r 3)) = _
    rw [show m.r 0 + 0 = utxd from (BitVec.add_zero _).trans hsending.r0,
      store_device (by decide) hplaced.devices.1, hr3]
    rfl
  refine ⟨_, next_at h.pc (by decide) rfl hexec, .inr ⟨13, ⟨?_, h.keeps.trans
    ⟨rfl, rfl, rfl, rfl, rfl⟩, ?_, k, rfl, ⟨hsending.lt, hsending.r0, hsending.ip⟩, hr2, hzero⟩⟩⟩
  · show m.pc+4 = _
    rw [h.pc, addr_succ]
  · show m.log ++ _ = log ++ _
    rw [h.log]

theorem more_steps {stage : Stage} {log : List Access} (h : At base msg m₀ 13 ⟨stage, log⟩ m) :
    Steps bus base msg m₀ 13 ⟨stage, log⟩ m := by
  obtain ⟨k, rfl, hsending, hr2, hzero⟩ := h.point
  have hlt := hsending.lt
  refine steps_branch (j := 5) h (by decide) rfl (fun hmore => ?_) fun hlast => ?_
  · have hne : ¬k+1 = message.length := by
      have hnot : (!m.zero) = true := hmore
      rw [hzero] at hnot
      simpa using hnot
    rw [show sent k = .sending (k+1) from if_neg hne]
    exact ⟨⟨⟨by omega, hsending.r0, hsending.ip⟩, hr2⟩, by decide⟩
  · have heq : k+1 = message.length := by
      have hnot : (!m.zero) = false := hlast
      rw [hzero] at hnot
      simpa using hnot
    rw [show sent k = .flushing from if_pos heq]
    exact ⟨hsending.r0, by decide⟩

theorem usr2_steps {log : List Access} (hplaced : Placed bus msg m₀)
    (h : At base msg m₀ 14 ⟨.flushing, log⟩ m) : Steps bus base msg m₀ 14 ⟨.flushing, log⟩ m := by
  have hr0 : m.r 0 = utxd := h.point
  refine steps_load (a := usr2) h (by decide) rfl ?_ (by decide) hplaced.devices.2.2.1 rfl
    ⟨?_, ?_⟩
  · rw [hr0]
    decide
  · rw [advance_r, setReg_r, if_pos rfl]
    rfl
  · simpa [setReg_r, record] using hr0

theorem complete_steps {stage : Stage} {log : List Access} (h : At base msg m₀ 15 ⟨stage, log⟩ m) :
    Steps bus base msg m₀ 15 ⟨stage, log⟩ m := by
  obtain ⟨rfl, hr0⟩ := h.point
  refine steps_tst h (by decide) rfl ⟨?_, hr0⟩ (by decide)
  show flushed (m.r 1) = if (m.setFlags _ _ _ _).zero then _ else _
  rw [setFlags_zero, flushed]
  simp only [beq_iff_eq]

theorem flush_steps {stage : Stage} {log : List Access} (h : At base msg m₀ 16 ⟨stage, log⟩ m) :
    Steps bus base msg m₀ 16 ⟨stage, log⟩ m := by
  obtain ⟨rfl, hr0⟩ := h.point
  refine steps_branch (j := 14) h (by decide) rfl (fun hbusy => ?_) fun hdone => ?_
  · have hzero : m.zero = true := hbusy
    rw [hzero]
    exact ⟨hr0, by decide⟩
  · have hzero : m.zero = false := hdone
    rw [hzero]
    exact ⟨trivial, by decide⟩

theorem low_steps {log : List Access} (h : At base msg m₀ 17 ⟨.resetting, log⟩ m) :
    Steps bus base msg m₀ 17 ⟨.resetting, log⟩ m := by
  refine steps_setReg h (by decide) rfl rfl ?_ (by decide)
  show (m.setReg (.r 0) _).advance.r 0 = _
  rw [advance_r, setReg_r, if_pos rfl]
  decide

theorem high_steps {log : List Access} (h : At base msg m₀ 18 ⟨.resetting, log⟩ m) :
    Steps bus base msg m₀ 18 ⟨.resetting, log⟩ m := by
  have hr0 : m.r 0 = 0xc000 := h.point
  refine steps_setReg h (by decide) rfl rfl ?_ (by decide)
  show (m.setReg (.r 0) _).advance.r 0 = _
  rw [advance_r, setReg_r, if_pos rfl]
  show ((0x20b : BitVec 16) ++ ((m.r 0).setWidth 16 : BitVec 16) : Word) = wcr
  rw [hr0]
  decide

theorem read_steps {log : List Access} (hplaced : Placed bus msg m₀)
    (h : At base msg m₀ 19 ⟨.resetting, log⟩ m) : Steps bus base msg m₀ 19 ⟨.resetting, log⟩ m := by
  have hr0 : m.r 0 = wcr := h.point
  let v := (bus.read log wcr).setWidth 16
  have hexec : exec bus (.ldrh (.r 1) (.r 0)) m =
      some ((m.record (.loadHalf wcr v)).setReg (.r 1) (v.setWidth 32)).advance := by
    show Option.map _ (m.loadHalf bus (m.r 0)) = _
    rw [hr0, loadHalf_device (by decide) hplaced.devices.2.2.2, h.log]
    rfl
  refine ⟨_, next_at h.pc (by decide) rfl hexec, .inr ⟨20, ⟨?_, h.keeps.trans
    ⟨rfl, rfl, rfl, rfl, rfl⟩, ?_, ?_, ?_⟩⟩⟩
  · show m.pc+4 = _
    rw [h.pc, addr_succ]
  · show m.log ++ _ = log ++ _
    rw [h.log]
  · simpa [setReg_r, record] using hr0
  · rw [advance_r, setReg_r, if_pos rfl]

theorem clear_bit (v : BitVec 16) :
    v.setWidth 32 &&& ~~~(16 : Word) = (v &&& ~~~16#16).setWidth 32 := by
  have hbit : ∀ j < 16, (~~~(16 : Word)).getLsbD j = (~~~16#16).getLsbD j := by decide
  apply BitVec.eq_of_getLsbD_eq
  intro j hj
  rw [BitVec.getLsbD_and, BitVec.getLsbD_setWidth, BitVec.getLsbD_setWidth, BitVec.getLsbD_and]
  by_cases hlow : j < 16
  · rw [hbit j hlow]
    simp [hj]
  · rw [BitVec.getLsbD_of_ge v j (Nat.le_of_not_lt hlow)]
    simp

theorem clear_steps {v : BitVec 16} {log : List Access}
    (h : At base msg m₀ 20 ⟨.restarting v, log⟩ m) :
    Steps bus base msg m₀ 20 ⟨.restarting v, log⟩ m := by
  obtain ⟨hr0, hr1⟩ := h.point
  refine steps_setReg h (by decide) rfl rfl ⟨?_, ?_⟩ (by decide)
  · simpa [setReg_r] using hr0
  · rw [advance_r, setReg_r, if_pos rfl]
    show m.r 1 &&& ~~~16 = _
    rw [hr1, clear_bit]

theorem reset_steps {v : BitVec 16} {log : List Access} (hplaced : Placed bus msg m₀)
    (h : At base msg m₀ 21 ⟨.restarting v, log⟩ m) :
    Steps bus base msg m₀ 21 ⟨.restarting v, log⟩ m := by
  obtain ⟨hr0, hr1⟩ := h.point
  have hexec : exec bus (.strh (.r 1) (.r 0)) m =
      some (m.record (.storeHalf wcr (v &&& ~~~16#16))).advance := by
    show Option.map _ (m.storeHalf bus (m.r 0) ((m.r 1).setWidth 16)) = _
    rw [hr0, storeHalf_device (by decide) hplaced.devices.2.2.2, hr1,
      BitVec.setWidth_setWidth_of_le _ (by decide), BitVec.setWidth_eq]
    rfl
  refine ⟨_, next_at h.pc (by decide) rfl hexec, .inr ⟨22, ⟨?_, h.keeps.trans
    ⟨rfl, rfl, rfl, rfl, rfl⟩, ?_, trivial⟩⟩⟩
  · show m.pc+4 = _
    rw [h.pc, addr_succ]
  · show m.log ++ _ = log ++ _
    rw [h.log]

theorem halt_steps {log : List Access} (h : At base msg m₀ 22 ⟨.halted, log⟩ m) :
    Steps bus base msg m₀ 22 ⟨.halted, log⟩ m := by
  refine ⟨_, next_at h.pc (by decide) rfl rfl, .inr ⟨22, ⟨?_, h.keeps.trans
    ⟨rfl, rfl, rfl, rfl, rfl⟩, h.log, trivial⟩⟩⟩
  rfl

theorem steps_at (hplaced : Placed bus msg m₀) (h : At base msg m₀ i s m) :
    Steps bus base msg m₀ i s m := by
  obtain ⟨stage, log⟩ := s
  have hpoint : Point msg m i stage := h.point
  unfold Point at hpoint
  split at hpoint
  · exact setup_steps (i := 0) (by decide) h
  · exact setup_steps (i := 1) (by decide) h
  · exact setup_steps (i := 2) (by decide) h
  · exact setup_steps (i := 3) (by decide) h
  · exact setup_steps (i := 4) (by decide) h
  · exact byte_steps hplaced h
  · exact usr1_steps hplaced h
  · exact test_steps h
  · exact busy_steps h
  · exact count_steps (i := 9) (by decide) h
  · exact count_steps (i := 10) (by decide) h
  · exact compare_steps h
  · exact send_steps hplaced h
  · exact more_steps h
  · exact usr2_steps hplaced h
  · exact complete_steps h
  · exact flush_steps h
  · exact low_steps h
  · exact high_steps h
  · exact read_steps hplaced h
  · exact clear_steps h
  · exact reset_steps hplaced h
  · exact halt_steps h
  · exact hpoint.elim

end Steps

/-! Whole runs -/

section Runs
variable {bus : Bus} {base msg : Word} {m₀ m : Machine} {s : Report} {i : ℕ}

theorem runs_report (hplaced : Placed bus msg m₀) (h : At base msg m₀ i s m) (n : ℕ) :
    ∃ m' j k, steps (codeAt base (handler base msg)) bus n m = some m' ∧
      At base msg m₀ j (Report.after bus k s) m' := by
  induction n generalizing i s m with
  | zero => exact ⟨m, i, 0, rfl, h⟩
  | succ n ih =>
    obtain ⟨t, ht, ⟨j, hat, -⟩ | ⟨j, hat⟩⟩ := steps_at hplaced h
    · obtain ⟨m', j', k, hrun, hend⟩ := ih hat
      refine ⟨m', j', k, ?_, hend⟩
      rw [steps, ht, Option.bind_some, hrun]
    · obtain ⟨m', j', k, hrun, hend⟩ := ih hat
      refine ⟨m', j', k+1, ?_, hend⟩
      rw [steps, ht, Option.bind_some, hrun]

theorem reaches_next (hplaced : Placed bus msg m₀) (h : At base msg m₀ i s m) :
    ∃ n m' j, steps (codeAt base (handler base msg)) bus n m = some m' ∧
      At base msg m₀ j (s.next bus) m' := by
  induction hr : rank i using Nat.strongRecOn generalizing i m with
  | ind r ih =>
    obtain ⟨t, ht, ⟨j, hat, hless⟩ | ⟨j, hat⟩⟩ := steps_at hplaced h
    · obtain ⟨n, m', j', hrun, hend⟩ := ih (rank j) (by omega) hat rfl
      refine ⟨n+1, m', j', ?_, hend⟩
      rw [steps, ht, Option.bind_some, hrun]
    · refine ⟨1, t, j, ?_, hat⟩
      rw [steps, ht]
      rfl

theorem reaches_report (hplaced : Placed bus msg m₀) (h : At base msg m₀ i s m) (k : ℕ) :
    ∃ n m' j, steps (codeAt base (handler base msg)) bus n m = some m' ∧
      At base msg m₀ j (Report.after bus k s) m' := by
  induction k generalizing i s m with
  | zero => exact ⟨0, m, i, rfl, h⟩
  | succ k ih =>
    obtain ⟨n, t, j, hrun, hat⟩ := reaches_next hplaced h
    obtain ⟨n', m', j', hrun', hend⟩ := ih hat
    refine ⟨n+n', m', j', ?_, hend⟩
    rw [steps_add, hrun, Option.bind_some, hrun']

def written (a : Word) (log : List Access) : List Word :=
  log.filterMap fun
    | .store b v => if b = a then some v else none
    | _ => none

def Stage.Done (acts : List Access) : Stage → Prop
  | .sending k | .ready k => k < message.length ∧
      written utxd acts = (message.take k).map (·.setWidth 32)
  | .flushing | .resetting => written utxd acts = message.map (·.setWidth 32)
  | .restarting v => written utxd acts = message.map (·.setWidth 32) ∧
      acts.getLast? = some (.loadHalf wcr v)
  | .halted => written utxd acts = message.map (·.setWidth 32) ∧
      ∃ v, acts.getLast? = some (.storeHalf wcr (v &&& ~~~16#16))

def Report.Done (before : List Access) (s : Report) : Prop :=
  ∃ acts, s.log = before ++ acts ∧ s.stage.Done acts

theorem written_append (a : Word) (acts : List Access) (act : Access) :
    written a (acts ++ [act]) = written a acts ++ written a [act] := List.filterMap_append

theorem take_byte {k : ℕ} (h : k < message.length) :
    (message.take (k+1)).map (·.setWidth 32) =
      (message.take k).map (·.setWidth 32) ++ [((byte k).setWidth 32 : Word)] := by
  have hbyte : byte k = message[k] := by
    rw [byte, List.getD_eq_getElem?_getD, List.getElem?_eq_getElem h, Option.getD_some]
  rw [List.take_add_one, List.map_append, List.getElem?_eq_getElem h, hbyte]
  rfl

theorem Report.Done.next {before : List Access} (h : s.Done before) :
    (s.next bus).Done before := by
  obtain ⟨stage, log⟩ := s
  obtain ⟨acts, rfl, hdone⟩ := h
  have hsame : ∀ act, written utxd [act] = [] → written utxd (acts ++ [act]) = written utxd acts :=
    fun act hact => by rw [written_append, hact, List.append_nil]
  cases stage with
  | sending k =>
    refine ⟨_, List.append_assoc _ _ _, ?_⟩
    show (polled (bus.read (before ++ acts) usr1) k).Done _
    have hkept : k < message.length ∧ written utxd (acts ++ [.load usr1 (bus.read (before ++ acts)
      usr1)]) = (message.take k).map (·.setWidth 32) := ⟨hdone.1, (hsame _ rfl).trans hdone.2⟩
    unfold polled
    split <;> exact hkept
  | ready k =>
    refine ⟨_, List.append_assoc _ _ _, ?_⟩
    show (sent k).Done _
    have hwritten : written utxd (acts ++ [.store utxd ((byte k).setWidth 32)]) =
        (message.take (k+1)).map (·.setWidth 32) := by
      rw [written_append, hdone.2, take_byte hdone.1]
      rfl
    have hlt := hdone.1
    unfold sent
    split
    next hlast =>
      rw [hlast, List.take_length] at hwritten
      exact hwritten
    next hmore => exact ⟨by omega, hwritten⟩
  | flushing =>
    refine ⟨_, List.append_assoc _ _ _, ?_⟩
    show (flushed (bus.read (before ++ acts) usr2)).Done _
    unfold flushed
    split <;> exact (hsame _ rfl).trans hdone
  | resetting =>
    exact ⟨_, List.append_assoc _ _ _, (hsame _ rfl).trans hdone, List.getLast?_concat⟩
  | restarting v =>
    exact ⟨_, List.append_assoc _ _ _, (hsame _ rfl).trans hdone.1, v, List.getLast?_concat⟩
  | halted => exact ⟨acts, rfl, hdone⟩

theorem Report.Done.after {before : List Access} (h : s.Done before) (k : ℕ) :
    (Report.after bus k s).Done before := by
  induction k generalizing s with
  | zero => exact h
  | succ k ih => exact ih h.next

def polls (bus : Bus) (a : Word) : ℕ → List Access → List Access
  | 0, log => log
  | n+1, log => polls bus a n (log ++ [.load a (bus.read log a)])

/-- A serial interface that is ready again, and done, behind finitely many readings. -/
structure Patient (bus : Bus) : Prop where
  ready : ∀ log, ∃ n, bus.read (polls bus usr1 n log) usr1 &&& 0x2000 ≠ 0
  done : ∀ log, ∃ n, bus.read (polls bus usr2 n log) usr2 &&& 8 ≠ 0

theorem after_add (n k : ℕ) (s : Report) :
    Report.after bus (n+k) s = Report.after bus k (Report.after bus n s) := by
  induction n generalizing s with
  | zero => rw [Nat.zero_add]; rfl
  | succ n ih => rw [Nat.succ_add]; exact ih _

/-- A loop on a register ends. -/
theorem after_polled {a bits : Word} {busy free : Stage} {n : ℕ} {log : List Access}
    (hnext : ∀ log, Report.next bus ⟨busy, log⟩ =
      ⟨if bus.read log a &&& bits = 0 then busy else free, log ++ [.load a (bus.read log a)]⟩)
    (h : bus.read (polls bus a n log) a &&& bits ≠ 0) :
    ∃ j log', Report.after bus j ⟨busy, log⟩ = ⟨free, log'⟩ := by
  induction n generalizing log with
  | zero =>
    refine ⟨1, log ++ [.load a (bus.read log a)], ?_⟩
    show Report.next bus ⟨busy, log⟩ = _
    have hfree : bus.read log a &&& bits ≠ 0 := h
    rw [hnext, if_neg hfree]
  | succ n ih =>
    by_cases hnow : bus.read log a &&& bits = 0
    · obtain ⟨j, log', hj⟩ := ih h
      refine ⟨j+1, log', ?_⟩
      rw [Report.after, hnext, if_pos hnow]
      exact hj
    · refine ⟨1, log ++ [.load a (bus.read log a)], ?_⟩
      show Report.next bus ⟨busy, log⟩ = _
      rw [hnext, if_neg hnow]

theorem after_sent (hpatient : Patient bus) {k : ℕ} (hk : k < message.length) (log : List Access) :
    ∃ j log', Report.after bus j ⟨.sending k, log⟩ = ⟨.flushing, log'⟩ := by
  induction hr : message.length-k using Nat.strongRecOn generalizing k log with
  | ind r ih =>
    obtain ⟨n, hn⟩ := hpatient.ready log
    have hloop : ∃ j log', Report.after bus j ⟨.sending k, log⟩ = ⟨.ready k, log'⟩ :=
      after_polled (fun _ => rfl) hn
    obtain ⟨j, log₁, hj⟩ := hloop
    by_cases hlast : k+1 = message.length
    · refine ⟨j+1, log₁ ++ [.store utxd ((byte k).setWidth 32)], ?_⟩
      rw [after_add, hj]
      show (⟨sent k, _⟩ : Report) = _
      rw [sent, if_pos hlast]
    · obtain ⟨j', log', hj'⟩ := ih (message.length-(k+1)) (by omega) (by omega)
        (log₁ ++ [.store utxd ((byte k).setWidth 32)]) rfl
      refine ⟨j+(1+j'), log', ?_⟩
      rw [after_add, hj, after_add]
      show Report.after bus j' ⟨sent k, _⟩ = _
      rw [sent, if_neg hlast, hj']

theorem after_halted (hpatient : Patient bus) (log : List Access) :
    ∃ j log', Report.after bus j ⟨.sending 0, log⟩ = ⟨.halted, log'⟩ := by
  obtain ⟨j, log₁, hj⟩ := after_sent (k := 0) hpatient (by decide) log
  obtain ⟨n, hn⟩ := hpatient.done log₁
  have hloop : ∃ j log', Report.after bus j ⟨.flushing, log₁⟩ = ⟨.resetting, log'⟩ :=
    after_polled (fun _ => rfl) hn
  obtain ⟨k, log₂, hk⟩ := hloop
  refine ⟨j+(k+2), (Report.after bus 2 ⟨.resetting, log₂⟩).log, ?_⟩
  rw [after_add, hj, after_add, hk]
  rfl

end Runs

/-- The handler does exactly the accesses of the report that it stands for, one after another, and
never touches a stack or any other memory. If the serial interface gets ready again and again,
the whole message is written, and behind it the reset is requested. -/
theorem aborts_report {bus : Bus} {msg : Word} {m : Machine} (hplaced : Placed bus msg m) :
    (∀ n, ∃ m' k, steps (codeAt m.pc (handler m.pc msg)) bus n m = some m' ∧ Keeps m m' ∧
      m'.log = (Report.after bus k ⟨.sending 0, m.log⟩).log) ∧
    (∀ k, ∃ n m', steps (codeAt m.pc (handler m.pc msg)) bus n m = some m' ∧ Keeps m m' ∧
      m'.log = (Report.after bus k ⟨.sending 0, m.log⟩).log) ∧
    (Patient bus → ∃ n m' acts, steps (codeAt m.pc (handler m.pc msg)) bus n m = some m' ∧
      m'.log = m.log ++ acts ∧ written utxd acts = message.map (·.setWidth 32) ∧
      ∃ v, acts.getLast? = some (.storeHalf wcr (v &&& ~~~16#16))) := by
  have hstart : At m.pc msg m 0 ⟨.sending 0, m.log⟩ m :=
    ⟨(BitVec.add_zero m.pc).symm, ⟨rfl, rfl, rfl, rfl, rfl⟩, rfl, rfl⟩
  refine ⟨fun n => ?_, fun k => ?_, fun hpatient => ?_⟩
  · obtain ⟨m', j, k, hrun, hat⟩ := runs_report hplaced hstart n
    exact ⟨m', k, hrun, hat.keeps, hat.log⟩
  · obtain ⟨n, m', j, hrun, hat⟩ := reaches_report hplaced hstart k
    exact ⟨n, m', hrun, hat.keeps, hat.log⟩
  · obtain ⟨k, log, hk⟩ := after_halted hpatient m.log
    obtain ⟨n, m', j, hrun, hat⟩ := reaches_report hplaced hstart k
    have hdone : (⟨.sending 0, m.log⟩ : Report).Done m.log :=
      ⟨[], (List.append_nil _).symm, by decide, rfl⟩
    obtain ⟨acts, hacts, hwritten, v, hlast⟩ := hk ▸ hdone.after k
    exact ⟨n, m', acts, hrun, by rw [hat.log, hk, hacts], hwritten, v, hlast⟩

/-- A serial interface that is always ready, and the message at the start of the memory. -/
def idleBus : Bus where
  device a := a.toNat/2^21 == 16
  read _ _ := 0x2008

def aborted : Machine where
  r _ := 0
  sp _ := 0
  lr _ := 0
  spsr _ := 0
  pc := 0x00901000
  cpsr := 0x400001d7
  vbar := 0x00900000
  mem a :=
    let k := (a - 0x00900000).toNat
    byte (k+3) ++ byte (k+2) ++ byte (k+1) ++ byte k
  log := []

theorem aborts_report_idle : ∃ n m' acts,
    steps (codeAt 0x00901000 (handler 0x00901000 0x00900000)) idleBus n aborted = some m' ∧
      m'.log = acts ∧ written utxd acts = message.map (·.setWidth 32) ∧
      ∃ v, acts.getLast? = some (.storeHalf wcr (v &&& ~~~16#16)) := by
  have hplaced : Placed idleBus 0x00900000 aborted :=
    ⟨by decide, by decide +kernel, by decide +kernel⟩
  have hready : (0x2008 : Word) &&& 0x2000 ≠ 0 := by decide
  have hdone : (0x2008 : Word) &&& 8 ≠ 0 := by decide
  exact (aborts_report hplaced).2.2 ⟨fun _ => ⟨0, hready⟩, fun _ => ⟨0, hdone⟩⟩

end UsbArmory.Runtime.DataAbort
