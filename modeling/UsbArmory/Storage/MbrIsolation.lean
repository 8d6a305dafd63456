import UsbArmory.Storage.MbrPartition

/-!
# Isolation of two partitions

`open` checks every entry alone. Two partitions of an opened device are
isolated from each other if and only if their extents are disjoint.
-/

set_option autoImplicit false

namespace UsbArmory.Storage.MbrIsolation
open UsbArmory.Storage.MbrTable UsbArmory.Storage.MbrDisk UsbArmory.Storage.Accesses
open UsbArmory.Storage.MbrPartition ManagedBlockDevice BlockStore

variable {D E : Type} [BlockStore D E] {p q : MbrPartitionRef D}

def writes (ws : List (Block × UInt64)) : List Access := ws.map fun w => .write w.1 w.2

/-- No writes through `p` change a block that is readable through `q`. -/
def Isolated (p q : MbrPartitionRef D) : Prop :=
  ∀ ws lba, lba < totalBlocks q →
    contents (performAll p (writes ws)).2.raw (q.address lba) = contents q.raw (q.address lba)

theorem address_mem {lba : UInt64} (h : lba < totalBlocks q) :
    (q.address lba).toNat ∈ blocksOf q.extent := by
  have hnot : ¬q.extent.sectors.toUInt64 ≤ lba := UInt64.not_le.mpr h
  have hin : ¬q.outside lba = true := by simp [MbrPartitionRef.outside, hnot]
  obtain ⟨haddr, hlt⟩ := address_exact hin
  rw [haddr]
  exact ⟨Nat.le_add_right _ _, by omega⟩

theorem isolated_of_disjoint (hraw : p.raw = q.raw)
    (h : Disjoint (blocksOf p.extent) (blocksOf q.extent)) : Isolated p q := by
  intro ws lba hlba
  rw [← hraw]
  apply frame
  exact Set.disjoint_right.mp h (address_mem hlba)

theorem address_surj {n : ℕ} (h : n ∈ blocksOf q.extent) :
    ∃ lba, lba < totalBlocks q ∧ (q.address lba).toNat = n := by
  obtain ⟨hlo, hhi⟩ := h
  have hsectors := q.extent.sectors.toNat_lt
  have hlt : n-q.extent.start.toNat < q.extent.sectors.toNat := by omega
  have htoNat : (UInt64.ofNat (n-q.extent.start.toNat)).toNat = n-q.extent.start.toNat := by
    rw [UInt64.toNat_ofNat']
    exact Nat.mod_eq_of_lt (by omega)
  have hblock : UInt64.ofNat (n-q.extent.start.toNat) < totalBlocks q := by
    show _ < q.extent.sectors.toUInt64
    rw [UInt64.lt_iff_toNat_lt, htoNat, UInt32.toNat_toUInt64]
    exact hlt
  refine ⟨_, hblock, ?_⟩
  have hnot : ¬q.extent.sectors.toUInt64 ≤ UInt64.ofNat (n-q.extent.start.toNat) :=
    UInt64.not_le.mpr hblock
  have hin : ¬q.outside (UInt64.ofNat (n-q.extent.start.toNat)) = true := by
    simp [MbrPartitionRef.outside, hnot]
  rw [(address_exact hin).1, htoNat]
  omega

def onesBlock : Block := ⟨List.replicate blockSize 1, List.length_replicate⟩

theorem onesBlock_ne : onesBlock ≠ emptyBlock := by
  intro h
  have hbytes := congrArg (fun b => b.bytes.head?) h
  revert hbytes
  decide

theorem exists_other (b : Block) : ∃ b', b' ≠ b := by
  by_cases h : onesBlock = b
  · rw [← h]
    exact ⟨emptyBlock, onesBlock_ne.symm⟩
  · exact ⟨onesBlock, h⟩

theorem disjoint_of_isolated (hworks : Works p.raw)
    (hend : p.extent.start.toNat+p.extent.sectors.toNat < (totalBlocks p.raw).toNat)
    (h : Isolated p q) : Disjoint (blocksOf p.extent) (blocksOf q.extent) := by
  apply Set.disjoint_left.mpr
  intro n hp hq
  obtain ⟨i, hi, hin⟩ := address_surj hp
  obtain ⟨j, hj, hjn⟩ := address_surj hq
  have hsame : p.address i = q.address j := UInt64.toNat.inj (hin.trans hjn.symm)
  obtain ⟨block, hne⟩ := exists_other (contents q.raw (q.address j))
  apply hne
  have hrange : p.address i < totalBlocks p.raw := by
    rw [UInt64.lt_iff_toNat_lt, hin]
    exact Nat.lt_trans hp.2 hend
  have hok : (write p.raw block (p.address i)).1 = .ok () := (hworks []).2.1 _ block hrange
  have hnot : ¬p.extent.sectors.toUInt64 ≤ i := UInt64.not_le.mpr hi
  have hinside : ¬p.outside i = true := by simp [MbrPartitionRef.outside, hnot]
  have hwrite : (performAll p (writes [(block, i)])).2.raw =
      (write p.raw block (p.address i)).2 := by
    simp [writes, performAll, perform, write, hinside]
  have hkept := h [(block, i)] j hj
  rw [hwrite, ← hsame, write_self _ _ _ hok] at hkept
  rw [hkept, hsame]

/-- Two partitions of an opened device with disjoint extents are isolated; on a
device whose accesses succeed, the others are not. -/
theorem isolated_iff_disjoint (raw : D) (m : MbrDevice D) (i j : UInt8) (p q : MbrPartitionRef D)
    (hopen : MbrDevice.open raw = some (.ok m)) (hp : MbrDevice.partition E m i = .ok p)
    (hq : MbrDevice.partition E m j = .ok q) :
    (Disjoint (blocksOf p.extent) (blocksOf q.extent) → Isolated p q) ∧
      (Works raw → (Isolated p q ↔ Disjoint (blocksOf p.extent) (blocksOf q.extent))) := by
  obtain ⟨hpraw, -, hend⟩ := extent_inside hopen hp
  obtain ⟨hqraw, -, -⟩ := extent_inside hopen hq
  have hraw : p.raw = q.raw := hpraw.trans hqraw.symm
  refine ⟨isolated_of_disjoint hraw, fun hworks => ?_⟩
  rw [← hpraw] at hend hworks
  exact ⟨disjoint_of_isolated hworks hend, isolated_of_disjoint hraw⟩

def twoEntries (a b : PartitionEntry) : PartitionTable :=
  { entries := #v[a, b, .zeroed, .zeroed], index := 2, index_le := by decide }

/-- Blocks 1 and 2, and blocks 3 to 6. -/
theorem isolated_iff_disjoint_apart :
    Isolated (⟨tableDisk 8 (twoEntries (.new 1 2) (.new 3 4)), ⟨1, 2⟩⟩ : MbrPartitionRef RamDisk)
      ⟨tableDisk 8 (twoEntries (.new 1 2) (.new 3 4)), ⟨3, 4⟩⟩ :=
  (isolated_iff_disjoint (tableDisk 8 (twoEntries (.new 1 2) (.new 3 4))) _ 0 1 _ _
    (tableDisk_open 8 _ (by decide) (by decide)) rfl rfl).1 (by
      apply Set.disjoint_left.mpr
      intro n hp hq
      have hone : 1 ≤ n ∧ n < 3 := hp
      have htwo : 3 ≤ n ∧ n < 7 := hq
      omega)

/-- Blocks 1 to 4, and blocks 2 to 5: `open` accepts the table. -/
theorem overlapping_not_isolated :
    MbrDevice.open (tableDisk 8 (twoEntries (.new 1 4) (.new 2 4))) =
        some (.ok ⟨tableDisk 8 (twoEntries (.new 1 4) (.new 2 4)),
          (twoEntries (.new 1 4) (.new 2 4)).entries⟩) ∧
      ∃ p q : MbrPartitionRef RamDisk,
        MbrDevice.partition Unit ⟨tableDisk 8 (twoEntries (.new 1 4) (.new 2 4)),
          (twoEntries (.new 1 4) (.new 2 4)).entries⟩ 0 = .ok p ∧
        MbrDevice.partition Unit ⟨tableDisk 8 (twoEntries (.new 1 4) (.new 2 4)),
          (twoEntries (.new 1 4) (.new 2 4)).entries⟩ 1 = .ok q ∧ ¬Isolated p q := by
  refine ⟨tableDisk_open 8 _ (by decide) (by decide), _, _, rfl, rfl, ?_⟩
  intro h
  have hdisjoint := disjoint_of_isolated (ramDisk_works _ fun _ => rfl) (by
    show 1+4 < 8
    decide) h
  have hone : 2 ∈ blocksOf ⟨1, 4⟩ := ⟨by decide, by decide⟩
  have htwo : 2 ∈ blocksOf ⟨2, 4⟩ := ⟨by decide, by decide⟩
  exact Set.disjoint_left.mp hdisjoint hone htwo

end UsbArmory.Storage.MbrIsolation
