import UsbArmory.Storage.MbrDisk

/-!
# Accesses to a block device

What the documentation of `ManagedBlockDevice` says of a device, as laws over
the contents of its blocks. Any access may fail; a write that fails leaves the
block it was for undetermined and no other. Lists of accesses are what a user
of the device does over time.
-/

set_option autoImplicit false

namespace UsbArmory.Storage.Accesses
open UsbArmory.Storage.MbrDisk ManagedBlockDevice

inductive Access where
  | read (lba : UInt64)
  | write (block : Block) (lba : UInt64)
  | flush

inductive Answer (E : Type) where
  | read (r : Except E Block)
  | done (r : Except E Unit)

/-- A block device whose blocks have contents. -/
class BlockStore (D : Type) (E : outParam Type) extends ManagedBlockDevice D E where
  contents : D → UInt64 → Block
  read_contents : ∀ d lba block, read d lba = .ok block → block = contents d lba
  read_range : ∀ d lba, totalBlocks d ≤ lba → ∃ err, read d lba = .error err
  write_range : ∀ d block lba, totalBlocks d ≤ lba → ∃ err, (write d block lba).1 = .error err
  write_total : ∀ d block lba, totalBlocks (write d block lba).2 = totalBlocks d
  write_self : ∀ d block lba, (write d block lba).1 = .ok () →
    contents (write d block lba).2 lba = block
  write_other : ∀ d block lba a, a ≠ lba → contents (write d block lba).2 a = contents d a
  flush_total : ∀ d, totalBlocks (flush d).2 = totalBlocks d
  flush_contents : ∀ d, contents (flush d).2 = contents d

section Device
variable {D E : Type} [ManagedBlockDevice D E]

def perform (d : D) : Access → Answer E × D
  | .read lba => (.read (read d lba), d)
  | .write block lba => (.done (write d block lba).1, (write d block lba).2)
  | .flush => (.done (flush d).1, (flush d).2)

def performAll : D → List Access → List (Answer E) × D
  | d, [] => ([], d)
  | d, a::as => ((perform d a).1::(performAll (perform d a).2 as).1,
      (performAll (perform d a).2 as).2)

theorem performAll_cons (d : D) (a : Access) (as : List Access) :
    (performAll d (a::as)).2 = (performAll (perform d a).2 as).2 := rfl

theorem performAll_append (d : D) (as bs : List Access) :
    (performAll d (as++bs)).2 = (performAll (performAll d as).2 bs).2 := by
  induction as generalizing d with
  | nil => rfl
  | cons a as ih => exact ih _

/-- Accesses in the valid range succeed, now and after any accesses. -/
def Works (d : D) : Prop := ∀ as : List Access,
  (∀ lba, lba < totalBlocks (performAll d as).2 → ∃ block,
    read (performAll d as).2 lba = .ok block) ∧
  (∀ lba block, lba < totalBlocks (performAll d as).2 →
    (write (performAll d as).2 block lba).1 = .ok ()) ∧
  (flush (performAll d as).2).1 = .ok ()

theorem works_performAll {d : D} (h : Works d) (as : List Access) : Works (performAll d as).2 := by
  intro bs
  rw [← performAll_append]
  exact h (as++bs)

end Device

def Access.changes : Access → Option UInt64
  | .write _ lba => some lba
  | _ => none

section Store
variable {D E : Type} [BlockStore D E]
open BlockStore

theorem perform_total (d : D) (a : Access) : totalBlocks (perform d a).2 = totalBlocks d := by
  cases a with
  | read lba => rfl
  | write block lba => exact write_total d block lba
  | flush => exact flush_total d

theorem perform_contents (d : D) (a : Access) (lba : UInt64) (h : a.changes ≠ some lba) :
    contents (perform d a).2 lba = contents d lba := by
  cases a with
  | read lba' => rfl
  | write block lba' =>
    apply write_other d block lba' lba
    intro he
    exact h (congrArg some he.symm)
  | flush => exact congrFun (flush_contents d) lba

theorem performAll_total (d : D) (as : List Access) :
    totalBlocks (performAll d as).2 = totalBlocks d := by
  induction as generalizing d with
  | nil => rfl
  | cons a as ih => exact (ih _).trans (perform_total d a)

theorem performAll_contents (d : D) (as : List Access) (lba : UInt64)
    (h : ∀ a ∈ as, a.changes ≠ some lba) :
    contents (performAll d as).2 lba = contents d lba := by
  induction as generalizing d with
  | nil => rfl
  | cons a as ih =>
    have hrest := ih (perform d a).2 fun b hb => h b (List.mem_cons_of_mem _ hb)
    exact hrest.trans (perform_contents d a lba (h a List.mem_cons_self))

end Store

/-- A device in memory: it fails out of range, and where `bad` says so. -/
structure RamDisk where
  total : UInt64
  block : UInt64 → Block
  bad : UInt64 → Bool

def RamDisk.reaches (d : RamDisk) (lba : UInt64) : Bool := decide (lba < d.total) && !d.bad lba

def RamDisk.write (d : RamDisk) (block : Block) (lba : UInt64) : Except Unit Unit × RamDisk :=
  if d.reaches lba then (.ok (), { d with block := Function.update d.block lba block })
  else (.error (), d)

instance : ManagedBlockDevice RamDisk Unit where
  totalBlocks d := d.total
  read d lba := if d.reaches lba then .ok (d.block lba) else .error ()
  write := RamDisk.write
  flush d := (.ok (), d)

theorem ramDisk_unreached {d : RamDisk} {lba : UInt64} (h : totalBlocks d ≤ lba) :
    ¬d.reaches lba = true := by
  have hlt : ¬lba < d.total := UInt64.not_lt.mpr h
  simp [RamDisk.reaches, hlt]

theorem ramDisk_write_ok {d : RamDisk} {block : Block} {lba : UInt64} (h : d.reaches lba = true) :
    write d block lba = (.ok (), { d with block := Function.update d.block lba block }) :=
  if_pos h

theorem ramDisk_write_error {d : RamDisk} {block : Block} {lba : UInt64}
    (h : ¬d.reaches lba = true) : write d block lba = (.error (), d) :=
  if_neg h

instance : BlockStore RamDisk Unit where
  contents d := d.block
  read_contents d lba block h := by
    by_cases hr : d.reaches lba = true
    · have hread : read d lba = .ok (d.block lba) := if_pos hr
      rw [hread] at h
      cases h
      rfl
    · have hread : read d lba = .error () := if_neg hr
      rw [hread] at h
      cases h
  read_range d lba h := ⟨(), if_neg (ramDisk_unreached h)⟩
  write_range d block lba h := by
    rw [ramDisk_write_error (ramDisk_unreached h)]
    exact ⟨(), rfl⟩
  write_total d block lba := by
    by_cases hr : d.reaches lba = true
    · rw [ramDisk_write_ok hr]
      rfl
    · rw [ramDisk_write_error hr]
  write_self d block lba h := by
    by_cases hr : d.reaches lba = true
    · rw [ramDisk_write_ok hr]
      exact Function.update_self _ _ _
    · rw [ramDisk_write_error hr] at h
      cases h
  write_other d block lba a h := by
    by_cases hr : d.reaches lba = true
    · rw [ramDisk_write_ok hr]
      exact Function.update_of_ne h _ _
    · rw [ramDisk_write_error hr]
  flush_total d := rfl
  flush_contents d := rfl

theorem perform_bad (d : RamDisk) (a : Access) : (perform d a).2.bad = d.bad := by
  cases a with
  | read lba => rfl
  | write block lba =>
    show (write d block lba).2.bad = d.bad
    by_cases hr : d.reaches lba = true
    · rw [ramDisk_write_ok hr]
    · rw [ramDisk_write_error hr]
  | flush => rfl

theorem performAll_bad (d : RamDisk) (as : List Access) : (performAll d as).2.bad = d.bad := by
  induction as generalizing d with
  | nil => rfl
  | cons a as ih => exact (ih _).trans (perform_bad d a)

theorem ramDisk_works (d : RamDisk) (h : ∀ lba, d.bad lba = false) : Works d := by
  intro as
  have hreach : ∀ lba, lba < totalBlocks (performAll d as).2 →
      (performAll d as).2.reaches lba = true := by
    intro lba hlt
    have hbad : (performAll d as).2.bad lba = false := by
      rw [performAll_bad]
      exact h lba
    have hlt' : lba < (performAll d as).2.total := hlt
    simp [RamDisk.reaches, hlt', hbad]
  refine ⟨fun lba hlt => ⟨_, if_pos (hreach lba hlt)⟩, fun lba block hlt => ?_, rfl⟩
  rw [ramDisk_write_ok (hreach lba hlt)]

end UsbArmory.Storage.Accesses
