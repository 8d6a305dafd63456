import UsbArmory.Storage.Accesses

/-!
# Access to the partitions of an opened device

`MbrPartitionRef` moves every access into its extent. What `open` has checked
of an allocated entry keeps these accesses inside the device and off block 0.
It has not compared the entries with each other.
-/

set_option autoImplicit false

namespace UsbArmory.Storage.MbrPartition
open UsbArmory.Storage.MbrTable UsbArmory.Storage.MbrDisk UsbArmory.Storage.Accesses
open ManagedBlockDevice BlockStore

structure MbrPartitionRef (D : Type) where
  raw : D
  extent : PartExtent

def MbrDevice.partExtent {D : Type} (E : Type) (m : MbrDevice D) (part : UInt8) :
    Except (MbrError E) PartExtent :=
  if h : part.toNat < 4 then
    if m.partTable[part.toNat].partType = 0 then .error .noPartition
    else .ok m.partTable[part.toNat].extent
  else .error .noPartition

def MbrDevice.partition {D : Type} (E : Type) (m : MbrDevice D) (part : UInt8) :
    Except (MbrError E) (MbrPartitionRef D) := do
  let extent ← MbrDevice.partExtent E m part
  return ⟨m.raw, extent⟩

section Device
variable {D E : Type} [ManagedBlockDevice D E]

/-- `lba >= u64::from(self.extent.sectors)` -/
def MbrPartitionRef.outside (p : MbrPartitionRef D) (lba : UInt64) : Bool :=
  decide (p.extent.sectors.toUInt64 ≤ lba)

/-- `lba + u64::from(self.extent.start)` -/
def MbrPartitionRef.address (p : MbrPartitionRef D) (lba : UInt64) : UInt64 :=
  lba+p.extent.start.toUInt64

instance : ManagedBlockDevice (MbrPartitionRef D) (MbrError E) where
  totalBlocks p := p.extent.sectors.toUInt64
  read p lba :=
    if p.outside lba then .error .outOfRangeAccess
    else (read p.raw (p.address lba)).mapError .device
  write p block lba :=
    if p.outside lba then (.error .outOfRangeAccess, p)
    else ((write p.raw block (p.address lba)).1.mapError .device,
      { p with raw := (write p.raw block (p.address lba)).2 })
  flush p := ((flush p.raw).1.mapError .device, { p with raw := (flush p.raw).2 })

/-- The access of the raw device that an access of the partition becomes. -/
def translate (p : MbrPartitionRef D) : Access → Option Access
  | .read lba => if p.outside lba then none else some (.read (p.address lba))
  | .write block lba => if p.outside lba then none else some (.write block (p.address lba))
  | .flush => some .flush

theorem perform_extent (p : MbrPartitionRef D) (a : Access) :
    (perform p a).2.extent = p.extent := by
  cases a with
  | read lba => rfl
  | write block lba =>
    show (write p block lba).2.extent = p.extent
    by_cases h : p.outside lba
    · simp [write, h]
    · simp [write, h]
  | flush => rfl

theorem performAll_extent (p : MbrPartitionRef D) (as : List Access) :
    (performAll p as).2.extent = p.extent := by
  induction as generalizing p with
  | nil => rfl
  | cons a as ih => exact (ih _).trans (perform_extent p a)

theorem translate_congr {p q : MbrPartitionRef D} (h : p.extent = q.extent) (a : Access) :
    translate p a = translate q a := by
  cases a <;> simp [translate, MbrPartitionRef.outside, MbrPartitionRef.address, h]

theorem perform_raw (p : MbrPartitionRef D) (a : Access) :
    (perform p a).2.raw = (performAll p.raw (translate p a).toList).2 := by
  cases a with
  | read lba =>
    by_cases h : p.outside lba
    · simp [translate, h, perform, performAll]
    · simp [translate, h, perform, performAll]
  | write block lba =>
    by_cases h : p.outside lba
    · simp [translate, h, perform, performAll, write]
    · simp [translate, h, perform, performAll, write]
  | flush => rfl

theorem performAll_raw (p : MbrPartitionRef D) (as : List Access) :
    (performAll p as).2.raw = (performAll p.raw (as.filterMap (translate p))).2 := by
  induction as generalizing p with
  | nil => rfl
  | cons a as ih =>
    have hsame : translate (perform p a).2 = translate p :=
      funext fun b => translate_congr (perform_extent p a) b
    rw [performAll_cons, ih, perform_raw, hsame, ← performAll_append]
    congr 2
    cases h : translate p a <;> simp [h]

end Device

section Opened
variable {D E : Type} [ManagedBlockDevice D E] {raw : D} {m : MbrDevice D} {part : UInt8}
variable {p : MbrPartitionRef D}

theorem open_ok (h : MbrDevice.open raw = some (.ok m)) : m.raw = raw ∧
    ∀ e ∈ m.partTable.toList, e.partType ≠ 0 → partValid (totalBlocks raw) e = true := by
  unfold MbrDevice.open at h
  split at h
  next => cases h
  next mbr =>
    split at h
    next => cases h
    next =>
      obtain ⟨parts, -, hparts⟩ := Option.map_eq_some_iff.mp h
      split at hparts
      next => cases hparts
      next hcheck =>
        cases hparts
        exact ⟨rfl, (checkParts_ok _ _).mp hcheck⟩

omit [ManagedBlockDevice D E] in
theorem partExtent_ok {extent : PartExtent} (h : MbrDevice.partExtent E m part = .ok extent) :
    ∃ e ∈ m.partTable.toList, e.partType ≠ 0 ∧ extent = e.extent := by
  unfold MbrDevice.partExtent at h
  by_cases hpart : part.toNat < 4
  · rw [dif_pos hpart] at h
    by_cases hty : m.partTable[part.toNat].partType = 0
    · rw [if_pos hty] at h
      cases h
    · rw [if_neg hty] at h
      cases h
      exact ⟨m.partTable[part.toNat], by simp, hty, rfl⟩
  · rw [dif_neg hpart] at h
    cases h

omit [ManagedBlockDevice D E] in
theorem partition_ok (h : MbrDevice.partition E m part = .ok p) : p.raw = m.raw ∧
    ∃ e ∈ m.partTable.toList, e.partType ≠ 0 ∧ p.extent = e.extent := by
  unfold MbrDevice.partition at h
  cases hext : MbrDevice.partExtent E m part with
  | error err =>
    rw [hext] at h
    cases h
  | ok extent =>
    rw [hext] at h
    cases h
    exact ⟨rfl, partExtent_ok hext⟩

theorem extent_inside (hopen : MbrDevice.open raw = some (.ok m))
    (hpart : MbrDevice.partition E m part = .ok p) :
    p.raw = raw ∧ 0 < p.extent.start.toNat ∧
      p.extent.start.toNat+p.extent.sectors.toNat < (totalBlocks raw).toNat := by
  obtain ⟨hraw, hvalid⟩ := open_ok hopen
  obtain ⟨hp, e, he, hty, hext⟩ := partition_ok hpart
  obtain ⟨hstart, hend, -⟩ := (partValid_iff _ _).mp (hvalid e he hty)
  rw [hext]
  exact ⟨hp.trans hraw, hstart, hend⟩

theorem address_exact {lba : UInt64} (h : ¬p.outside lba) :
    (p.address lba).toNat = p.extent.start.toNat+lba.toNat ∧
      lba.toNat < p.extent.sectors.toNat := by
  have hlt : lba.toNat < p.extent.sectors.toNat := by
    have hnot : ¬p.extent.sectors.toUInt64 ≤ lba := of_decide_eq_false ((Bool.not_eq_true _).mp h)
    rw [UInt64.le_iff_toNat_le, UInt32.toNat_toUInt64] at hnot
    omega
  have hsectors := p.extent.sectors.toNat_lt
  have hstart := p.extent.start.toNat_lt
  refine ⟨?_, hlt⟩
  unfold MbrPartitionRef.address
  rw [UInt64.toNat_add, UInt32.toNat_toUInt64, Nat.mod_eq_of_lt (by omega)]
  omega

end Opened

def blocksOf (extent : PartExtent) : Set ℕ :=
  Set.Ico extent.start.toNat (extent.start.toNat+extent.sectors.toNat)

section Confined
variable {D E : Type} [BlockStore D E] {raw : D} {m : MbrDevice D} {part : UInt8}
variable {p : MbrPartitionRef D}

/-- One access of the partition, in whatever state its device is. -/
structure Confined (p : MbrPartitionRef D) : Prop where
  outside : ∀ lba, totalBlocks p ≤ lba → read p lba = .error .outOfRangeAccess ∧
    ∀ block, write p block lba = (.error .outOfRangeAccess, p)
  inside : ∀ lba, lba < totalBlocks p → ∃ a : UInt64,
    a.toNat = p.extent.start.toNat+lba.toNat ∧ 0 < a ∧ a < totalBlocks p.raw ∧
      read p lba = (read p.raw a).mapError .device ∧
      ∀ block, write p block lba = ((write p.raw block a).1.mapError .device,
        { p with raw := (write p.raw block a).2 })
  flush : flush p = ((ManagedBlockDevice.flush p.raw).1.mapError .device,
    { p with raw := (ManagedBlockDevice.flush p.raw).2 })

theorem confined (hstart : 0 < p.extent.start.toNat)
    (hend : p.extent.start.toNat+p.extent.sectors.toNat < (totalBlocks p.raw).toNat) :
    Confined p := by
  constructor
  · intro lba h
    have hout : p.outside lba = true := decide_eq_true h
    refine ⟨if_pos hout, fun block => if_pos hout⟩
  · intro lba h
    have hin : ¬p.outside lba = true := by
      have hnot : ¬p.extent.sectors.toUInt64 ≤ lba := UInt64.not_le.mpr h
      simp [MbrPartitionRef.outside, hnot]
    obtain ⟨haddr, hlt⟩ := address_exact hin
    refine ⟨p.address lba, haddr, ?_, ?_, if_neg hin, fun block => if_neg hin⟩
    · rw [UInt64.lt_iff_toNat_lt, haddr]
      exact Nat.lt_of_lt_of_le hstart (Nat.le_add_right _ _)
    · rw [UInt64.lt_iff_toNat_lt, haddr]
      omega
  · rfl

theorem translate_changes {a b : Access} (h : translate p a = some b) {lba : UInt64}
    (hb : b.changes = some lba) : lba.toNat ∈ blocksOf p.extent := by
  cases a with
  | read x =>
    simp only [translate] at h
    split at h
    next => cases h
    next =>
      cases h
      cases hb
  | write block x =>
    simp only [translate] at h
    split at h
    next => cases h
    next hin =>
      cases h
      cases hb
      obtain ⟨haddr, hlt⟩ := address_exact hin
      rw [haddr]
      exact ⟨Nat.le_add_right _ _, by omega⟩
  | flush =>
    cases h
    cases hb

theorem frame (p : MbrPartitionRef D) (as : List Access) (lba : UInt64)
    (h : lba.toNat ∉ blocksOf p.extent) :
    contents (performAll p as).2.raw lba = contents p.raw lba := by
  rw [performAll_raw]
  apply performAll_contents
  intro b hb hc
  obtain ⟨a, -, ha⟩ := List.mem_filterMap.mp hb
  exact h (translate_changes ha hc)

/-- Whatever has been done through a partition of an opened device: accesses
out of range reach no block, the others reach a block of the extent, which is
inside the device and not block 0, and all other blocks are as they were. -/
theorem partition_confined (raw : D) (m : MbrDevice D) (part : UInt8) (p : MbrPartitionRef D)
    (as : List Access) (hopen : MbrDevice.open raw = some (.ok m))
    (hpart : MbrDevice.partition E m part = .ok p) :
    Confined (performAll p as).2 ∧ totalBlocks (performAll p as).2 = totalBlocks p ∧
      totalBlocks (performAll p as).2.raw = totalBlocks raw ∧
      (performAll p as).2.raw = (performAll raw (as.filterMap (translate p))).2 ∧
      ∀ lba : UInt64, lba.toNat ∉ blocksOf p.extent →
        contents (performAll p as).2.raw lba = contents raw lba := by
  obtain ⟨hraw, hstart, hend⟩ := extent_inside hopen hpart
  have hext := performAll_extent p as
  have htotal : totalBlocks (performAll p as).2.raw = totalBlocks raw := by
    rw [performAll_raw, performAll_total, hraw]
  refine ⟨?_, ?_, htotal, ?_, ?_⟩
  · apply confined
    · rw [hext]
      exact hstart
    · rw [hext, htotal]
      exact hend
  · show (performAll p as).2.extent.sectors.toUInt64 = p.extent.sectors.toUInt64
    rw [hext]
  · rw [performAll_raw, hraw]
  · intro lba h
    rw [frame p as lba h, hraw]

end Confined

/-- A device whose block 0 holds this table, and whose other blocks are empty. -/
def tableDisk (total : UInt64) (t : PartitionTable) : RamDisk :=
  ⟨total, fun lba => if lba = 0 then PartitionTable.toBlock t else emptyBlock, fun _ => false⟩

theorem tableDisk_open (total : UInt64) (t : PartitionTable) (h : 0 < total)
    (hvalid : ∀ e ∈ t.entries.toList, e.partType ≠ 0 → partValid total e = true) :
    MbrDevice.open (tableDisk total t) = some (.ok ⟨tableDisk total t, t.entries⟩) := by
  have hreach : (tableDisk total t).reaches 0 = true := by
    simp [RamDisk.reaches, tableDisk, h]
  apply (open_ok_iff (tableDisk total t) t (if_pos hreach)).mpr
  exact hvalid

/-- One partition of blocks 1 to 6 on a device of eight. -/
theorem partition_confined_six :
    contents (performAll (⟨tableDisk 8 (kept [.new 1 6]), ⟨1, 6⟩⟩ : MbrPartitionRef RamDisk)
      [.write emptyBlock 0, .read 6, .flush]).2.raw 0 = PartitionTable.toBlock (kept [.new 1 6]) :=
  (partition_confined (tableDisk 8 (kept [.new 1 6])) _ 0
    ⟨tableDisk 8 (kept [.new 1 6]), ⟨1, 6⟩⟩ [.write emptyBlock 0, .read 6, .flush]
    (tableDisk_open 8 _ (by decide) (by
      rw [kept_entries]
      decide)) rfl).2.2.2.2 0 (by simp [blocksOf])

end UsbArmory.Storage.MbrPartition
