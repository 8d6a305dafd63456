import UsbArmory.Storage.EmmcCalls

/-!
# The range check of the eMMC

The two range checks disagree on the block behind the last one: the trait lets
it through and the assertion of the inherent method stops the program.
-/

set_option autoImplicit false

namespace UsbArmory.Storage.EmmcRange
open UsbArmory.Library.Binary UsbArmory.Library.Trace UsbArmory.Storage.EmmcCommand
open UsbArmory.Storage.MbrTable UsbArmory.Storage.MbrDisk UsbArmory.Storage.MbrPartition
open UsbArmory.Storage.EmmcBlocks UsbArmory.Storage.EmmcCalls

variable {E F α β : Type}

theorem panics_bind {x : Io E α} {f : α → Io E β} {before : List Op}
    (h : Panics (perform x before).1) : Panics (perform (x >>= f) before).1 := by
  obtain ⟨message, hpanic⟩ := h
  have hx : perform x before = (.error (.panic message), (perform x before).2) :=
    Prod.ext hpanic rfl
  exact ⟨message, congrArg Prod.fst (perform_bind_error hx)⟩

theorem transferState_latched {c : Controller} {before : List Op} (emmc : Emmc) (block : BlockPtr)
    (h : c.cc before = true) : Panics (perform (transferState true c emmc block.val) before).1 := by
  obtain ⟨rca, hrca⟩ := Option.isSome_iff_exists.mp emmc.ready
  have hsend : Panics (perform (sendCommand true c (.sendStatus rca)) before).1 := by
    have hread : perform (operation fun before => (Op.intStatus (c.cc before),
        (.ok (c.cc before) : Except (Stop (Fault Error)) Bool))) before =
        (.ok true, before ++ [.intStatus true]) := by
      rw [← h]
      rfl
    refine ⟨"INT_STATUS.CC bit was not cleared", ?_⟩
    show (perform (operation _ >>= _) before).1 = _
    rw [perform_bind_ok hread]
    rfl
  rw [transferState, selectedRca, hrca]
  show Panics (perform (ensure _ _ >>= _) before).1
  rw [show (ensure (block.val%4 = 0) "assertion failed: addr as usize % 4 == 0" : Io Error Unit) =
    pure () from if_pos block.property]
  rw [pure_bind]
  exact panics_bind (panics_bind hsend)

/-- One access of the eMMC, by what the two range checks say. -/
structure Checked (debug : Bool) (c : Controller) (emmc : Emmc) (lba : UInt64) (cmd : Command)
    (x : Io Error Unit) : Prop where
  error : totalBlocks emmc < lba → x = throw (.error (.err .other))
  panic : lba = totalBlocks emmc → x = throw (.panic "block doesn't exist")
  issues : lba < totalBlocks emmc → Quiet debug c → Does x (AtMost [cmd])
  latched : lba < totalBlocks emmc → debug = true → ∀ before, c.cc before = true →
    Panics (perform x before).1

section Access
variable {debug : Bool} {c : Controller} {emmc : Emmc} {lba : UInt64}

theorem narrowed (h : lba ≤ totalBlocks emmc) : lba.toUInt32.toNat = lba.toNat := by
  have hle : lba.toNat ≤ emmc.blocks.toNat := by
    rw [← UInt32.toNat_toUInt64]
    exact UInt64.le_iff_toNat_le.mp h
  have hsmall := emmc.blocks.toNat_lt
  rw [UInt64.toNat_toUInt32, Nat.mod_eq_of_lt (by omega)]

theorem exists_iff (h : lba ≤ totalBlocks emmc) :
    lba.toUInt32 < emmc.blocks ↔ lba < totalBlocks emmc := by
  rw [UInt32.lt_iff_toNat_lt, UInt64.lt_iff_toNat_lt, narrowed h, totalBlocks,
    UInt32.toNat_toUInt64]

theorem checked {f : UInt32 → Io Error Unit} {x : Io Error Unit} {cmd : Command}
    (hx : x = do
      if lba > totalBlocks emmc then throw (.error (.err .other))
      ensure (lba.toUInt32 < emmc.blocks) "block doesn't exist"
      f lba.toUInt32)
    (hissues : Quiet debug c → Does (f lba.toUInt32) (AtMost [cmd]))
    (hlatched : debug = true → ∀ before, c.cc before = true →
      Panics (perform (f lba.toUInt32) before).1) : Checked debug c emmc lba cmd x := by
  have hle : lba ≤ totalBlocks emmc → x =
      (do ensure (lba.toUInt32 < emmc.blocks) "block doesn't exist"; f lba.toUInt32) := by
    intro hle
    rw [hx, if_neg (UInt64.not_lt.mpr hle)]
  constructor
  · intro hout
    rw [hx, if_pos hout]
    rfl
  · intro heq
    have hlast : lba ≤ totalBlocks emmc := UInt64.le_of_eq heq
    have hmissing : ¬lba.toUInt32 < emmc.blocks := by
      rw [exists_iff hlast, heq]
      exact UInt64.lt_irrefl _
    rw [hle hlast, ensure, if_neg hmissing]
    rfl
  · intro hlt hquiet
    have hlast : lba ≤ totalBlocks emmc := UInt64.le_of_lt hlt
    rw [hle hlast]
    exact does_ensure ((exists_iff hlast).mpr hlt) (hissues hquiet)
  · intro hlt hdebug before hcc
    have hlast : lba ≤ totalBlocks emmc := UInt64.le_of_lt hlt
    rw [hle hlast, ensure, if_pos ((exists_iff hlast).mpr hlt)]
    exact hlatched hdebug before hcc

theorem checked_readLba (debug : Bool) (c : Controller) (fuel : ℕ) (emmc : Emmc) (block : BlockPtr)
    (lba : UInt64) : Checked debug c emmc lba (.readSingleBlock lba.toUInt32)
      (readLba debug c fuel emmc block lba) := by
  refine checked (f := fun n => readSingleBlock debug c fuel emmc (some n) block.val) rfl
    (fun hquiet => atMost_readSingleBlock hquiet fuel emmc _ block) ?_
  rintro rfl before hcc
  exact panics_bind (transferState_latched emmc block hcc)

theorem checked_writeLba (debug : Bool) (c : Controller) (fuel : ℕ) (emmc : Emmc)
    (block : BlockPtr) (lba : UInt64) : Checked debug c emmc lba (.writeSingleBlock lba.toUInt32)
      (writeLba debug c fuel emmc block lba) := by
  refine checked (f := fun n => writeSingleBlock debug c fuel emmc n block.val) rfl
    (fun hquiet => atMost_writeSingleBlock hquiet fuel emmc _ block) ?_
  rintro rfl before hcc
  exact panics_bind (transferState_latched emmc block hcc)

end Access

/-- An access out of range issues no command and returns an error. Any other
one issues at most one block command, which is for the block. -/
structure Respects (valid : Prop) (kind : UInt32 → Command) (block : ℕ) (ops : List Op)
    (r : Except (Stop (Fault E)) Unit) : Prop where
  outside : ¬valid → (∀ cmd, Op.command cmd ∉ ops) ∧ ∃ e, r = .error (.error (.err e))
  inside : valid → (blockCommands ops).length ≤ 1 ∧
    ∀ cmd ∈ blockCommands ops, ∃ n, n.toNat = block ∧ cmd = kind n
  returns : ¬Panics r

/-- The block behind the last one, and a command that finds `CC` latched. -/
def Admitted (debug : Bool) (c : Controller) (emmc : Emmc) (lba : UInt64) : Prop :=
  lba ≠ totalBlocks emmc ∧ (lba < totalBlocks emmc → Quiet debug c)

section Range
variable {debug : Bool} {c : Controller} {emmc : Emmc} {lba : UInt64} {kind : UInt32 → Command}
variable {x : Io Error Unit}

theorem respects_of_atMost {block : ℕ} {n : UInt32} {ops : List Op}
    {r : Except (Stop (Fault E)) Unit} (hn : n.toNat = block) (h : AtMost [kind n] ops r) :
    Respects True kind block ops r := by
  refine ⟨fun hfalse => absurd trivial hfalse, fun _ => ⟨h.1.length_le, fun cmd hcmd => ?_⟩, h.2⟩
  exact ⟨n, hn, List.mem_singleton.mp (h.1.subset hcmd)⟩

theorem admitted_of_not_panics {cmd : Command} (h : Checked debug c emmc lba cmd x)
    (hx : ∀ before, ¬Panics (perform x before).1) : Admitted debug c emmc lba := by
  refine ⟨fun heq => ?_, fun hlt hdebug before => ?_⟩
  · rw [h.panic heq] at hx
    exact hx [] ⟨_, rfl⟩
  · by_contra hcc
    exact hx before (h.latched hlt hdebug before (eq_true_of_ne_false hcc))

theorem does_of_admitted {cmd : Command} (h : Checked debug c emmc lba cmd x)
    (ha : Admitted debug c emmc lba) : lba < totalBlocks emmc ∧ Does x (AtMost [cmd]) ∨
      ¬lba < totalBlocks emmc ∧ x = throw (.error (.err .other)) := by
  by_cases hlt : lba < totalBlocks emmc
  · exact .inl ⟨hlt, h.issues hlt (ha.2 hlt)⟩
  · refine .inr ⟨hlt, h.error ?_⟩
    have hne : lba.toNat ≠ (totalBlocks emmc).toNat := fun heq => ha.1 (UInt64.toNat_inj.mp heq)
    rw [UInt64.lt_iff_toNat_lt] at hlt ⊢
    omega

theorem respects_iff (h : Checked debug c emmc lba (kind lba.toUInt32) x) :
    Does x (Respects (lba < totalBlocks emmc) kind lba.toNat) ↔ Admitted debug c emmc lba := by
  constructor
  · intro hdoes
    refine admitted_of_not_panics h fun before => ?_
    obtain ⟨ops, -, hrespects⟩ := hdoes before
    exact hrespects.returns
  · intro ha
    rcases does_of_admitted h ha with ⟨hlt, hissues⟩ | ⟨hout, rfl⟩
    · refine hissues.imp fun ops r hops => ?_
      rw [eq_true hlt]
      exact respects_of_atMost (narrowed (UInt64.le_of_lt hlt)) hops
    · refine does_throw ⟨fun _ => ⟨fun cmd => List.not_mem_nil, .other, rfl⟩,
        fun hvalid => absurd hvalid hout, ?_⟩
      rintro ⟨message, hpanic⟩
      cases hpanic

theorem panics_mapErr (f : E → F) (r : Except (Stop (Fault E)) α) :
    Panics (r.mapError (Stop.mapError (Fault.map f))) ↔ Panics r := by
  rcases r with (e | message | _) | a
  · simp [Panics, Except.mapError, Stop.mapError]
  · simp [Panics, Except.mapError, Stop.mapError]
  · simp [Panics, Except.mapError, Stop.mapError]
  · simp [Panics, Except.mapError]

theorem does_mapErr {f : E → F} {y : Io E α} {cmds : List Command} (h : Does y (AtMost cmds)) :
    Does (mapErr f y) (AtMost cmds) := by
  intro before
  obtain ⟨ops, hops, hsub, hpanics⟩ := h before
  exact ⟨ops, hops, hsub, fun hp => hpanics ((panics_mapErr f _).mp hp)⟩

theorem respects_part_iff {p : MbrPartitionRef Emmc} {y : Io (MbrError Error) Unit}
    (h : Checked debug c p.raw (p.address lba) (kind (p.address lba).toUInt32) x)
    (hy : y = do
      if p.outside lba then throw (.error (.err .outOfRangeAccess))
      mapErr .device x) :
    Does y (Respects (lba.toNat < p.extent.sectors.toNat) kind
      (p.extent.start.toNat+lba.toNat)) ↔
      (lba.toNat < p.extent.sectors.toNat → Admitted debug c p.raw (p.address lba)) := by
  by_cases hout : p.outside lba = true
  · have hlt : ¬lba.toNat < p.extent.sectors.toNat := by
      have hle := UInt64.le_iff_toNat_le.mp (of_decide_eq_true hout)
      rw [UInt32.toNat_toUInt64] at hle
      omega
    refine iff_of_true ?_ fun hvalid => absurd hvalid hlt
    rw [hy, if_pos hout]
    refine does_throw ⟨fun _ => ⟨fun cmd => List.not_mem_nil, .outOfRangeAccess, rfl⟩,
      fun hvalid => absurd hvalid hlt, ?_⟩
    rintro ⟨message, hpanic⟩
    cases hpanic
  · obtain ⟨haddress, hlt⟩ := address_exact hout
    have hmap : y = mapErr .device x := by
      rw [hy, if_neg hout]
    rw [hmap, eq_true hlt, forall_const, ← haddress]
    constructor
    · intro hdoes
      refine admitted_of_not_panics h fun before hp => ?_
      obtain ⟨ops, -, hrespects⟩ := hdoes before
      exact hrespects.returns ((panics_mapErr _ _).mpr hp)
    · intro ha
      rcases does_of_admitted h ha with ⟨hin, hissues⟩ | ⟨hbeyond, rfl⟩
      · exact (does_mapErr hissues).imp fun ops r hops =>
          respects_of_atMost (narrowed (UInt64.le_of_lt hin)) hops
      · refine fun before => ⟨[], (List.append_nil before).symm, ?_⟩
        refine ⟨fun hfalse => absurd trivial hfalse, fun _ => ⟨Nat.zero_le _, ?_⟩, ?_⟩
        · intro cmd hcmd
          cases hcmd
        · rintro ⟨message, hpanic⟩
          cases hpanic

end Range

/-- The extent of a partition that `open` admits ends before the block behind the last one. -/
theorem opened_admitted {debug : Bool} {c : Controller} {p : MbrPartitionRef Emmc}
    {e : PartitionEntry} {lba : UInt64} (hquiet : Quiet debug c) (hextent : p.extent = e.extent)
    (hvalid : partValid (totalBlocks p.raw) e = true) (hlt : lba.toNat < p.extent.sectors.toNat) :
    Admitted debug c p.raw (p.address lba) := by
  obtain ⟨-, hend, -⟩ := (partValid_iff _ _).mp hvalid
  have hin : ¬p.outside lba = true := by
    intro hout
    have hle := UInt64.le_iff_toNat_le.mp (of_decide_eq_true hout)
    rw [UInt32.toNat_toUInt64] at hle
    omega
  obtain ⟨haddress, -⟩ := address_exact hin
  refine ⟨fun heq => ?_, fun _ => hquiet⟩
  have hnat := congrArg UInt64.toNat heq
  rw [haddress, hextent] at hnat
  rw [hextent] at hlt
  simp only [PartitionEntry.extent] at hnat hlt
  omega

/-- Every access of the eMMC, and every access through a partition on it. -/
theorem access_iff (debug : Bool) (c : Controller) (fuel : ℕ) (block : BlockPtr) (lba : UInt64) :
    (∀ emmc,
      (Does (readLba debug c fuel emmc block lba)
        (Respects (lba < totalBlocks emmc) .readSingleBlock lba.toNat) ↔
          Admitted debug c emmc lba) ∧
      (Does (writeLba debug c fuel emmc block lba)
        (Respects (lba < totalBlocks emmc) .writeSingleBlock lba.toNat) ↔
          Admitted debug c emmc lba)) ∧
    ∀ p : MbrPartitionRef Emmc,
      (Does (readPart debug c fuel p block lba)
        (Respects (lba.toNat < p.extent.sectors.toNat) .readSingleBlock
          (p.extent.start.toNat+lba.toNat)) ↔
          (lba.toNat < p.extent.sectors.toNat → Admitted debug c p.raw (p.address lba))) ∧
      (Does (writePart debug c fuel p block lba)
        (Respects (lba.toNat < p.extent.sectors.toNat) .writeSingleBlock
          (p.extent.start.toNat+lba.toNat)) ↔
          (lba.toNat < p.extent.sectors.toNat → Admitted debug c p.raw (p.address lba))) := by
  refine ⟨fun emmc => ⟨?_, ?_⟩, fun p => ⟨?_, ?_⟩⟩
  · exact respects_iff (checked_readLba debug c fuel emmc block lba)
  · exact respects_iff (checked_writeLba debug c fuel emmc block lba)
  · exact respects_part_iff (checked_readLba debug c fuel p.raw block _) rfl
  · exact respects_part_iff (checked_writeLba debug c fuel p.raw block _) rfl

/-- A card of eight blocks and a controller that answers every command. -/
def eight : Emmc := ⟨some rca, 8, rfl⟩

def answering : Controller where
  cc _ := false
  responds _ _ := some (.ok ⟨0x900, 0⟩ (fun _ => []) none)
  dla _ := false
  late _ := false

/-- The block behind the last one is no error but a panic. -/
theorem eight_panics : ¬Does (readLba false answering 1 eight ⟨0, by decide⟩ 8)
    (Respects ((8 : UInt64) < totalBlocks eight) .readSingleBlock 8) := by
  intro hdoes
  obtain ⟨ops, -, hrespects⟩ := hdoes []
  exact hrespects.returns ⟨_, rfl⟩

end UsbArmory.Storage.EmmcRange
