import UsbArmory.Storage.MbrTable

/-!
# Writing and reading the MBR of a block device

`MbrDevice::create` and `MbrDevice::open` over any device that implements
`ManagedBlockDevice`. The device is a parameter: only that a block written
successfully reads back, and that its size stays, is assumed of it.
-/

set_option autoImplicit false

namespace UsbArmory.Storage.MbrDisk
open UsbArmory.Library.Word UsbArmory.Storage.MbrTable

def blockSize : ℕ := 512

/-- A copy of a device block. -/
structure Block where
  bytes : List UInt8
  size : bytes.length = blockSize

/-- The trait of the same name; `&mut self` methods return the device. -/
class ManagedBlockDevice (D : Type) (E : outParam Type) where
  totalBlocks : D → UInt64
  read : D → UInt64 → Except E Block
  write : D → Block → UInt64 → Except E Unit × D
  flush : D → Except E Unit × D

inductive MbrError (E : Type) where
  | device (err : E)
  | invalidMagic
  | invalidPartExtent
  | noPartition
  | outOfRangeAccess

structure MbrDevice (D : Type) where
  raw : D
  partTable : Vector PartitionEntry 4

/-! The byte form: `#[repr(C)]` fields in order, integers little-endian. -/

def PartitionEntry.asBytes (e : PartitionEntry) : List UInt8 :=
  [e.status, e.startChs[0], e.startChs[1], e.startChs[2],
    e.partType, e.endChs[0], e.endChs[1], e.endChs[2]] ++ toLe32 e.startLba ++ toLe32 e.numSectors

def PartitionEntry.ofBytes : List UInt8 → Option PartitionEntry
  | [st, s0, s1, s2, ty, e0, e1, e2, l0, l1, l2, l3, n0, n1, n2, n3] =>
    some { status := st, startChs := #v[s0, s1, s2], partType := ty, endChs := #v[e0, e1, e2],
           startLba := ofLe32 l0 l1 l2 l3, numSectors := ofLe32 n0 n1 n2 n3 }
  | _ => none

theorem vector3 (v : Vector UInt8 3) : #v[v[0], v[1], v[2]] = v := by
  ext i hi
  match i, hi with
  | 0, _ => rfl
  | 1, _ => rfl
  | 2, _ => rfl

theorem asBytes_length (e : PartitionEntry) : (PartitionEntry.asBytes e).length = 16 := rfl

theorem ofBytes_asBytes (e : PartitionEntry) :
    PartitionEntry.ofBytes (PartitionEntry.asBytes e) = some e := by
  simp [PartitionEntry.asBytes, PartitionEntry.ofBytes, toLe32, ofLe32_toLe32, vector3]

/-- `bytes[start..start + src.len()].copy_from_slice(src)` -/
def copyFromSlice (bytes : List UInt8) (start : ℕ) (src : List UInt8) : List UInt8 :=
  bytes.take start ++ src ++ bytes.drop (start+src.length)

def writeEntries : List PartitionEntry → ℕ → List UInt8 → List UInt8
  | [], _, bytes => bytes
  | e::es, start, bytes => writeEntries es (start+(PartitionEntry.asBytes e).length)
      (copyFromSlice bytes start (PartitionEntry.asBytes e))

def blockBytes (t : PartitionTable) : List UInt8 :=
  ((writeEntries t.entries.toList 446 (List.replicate blockSize 0)).set 510 0x55).set 511 0xAA

theorem copyFromSlice_append (pre mid post src : List UInt8) (h : mid.length = src.length) :
    copyFromSlice (pre ++ (mid ++ post)) pre.length src = pre ++ (src ++ post) := by
  simp [copyFromSlice, ← h, ← List.drop_drop]

theorem writeEntries_append (es : List PartitionEntry) (pre mid post : List UInt8)
    (h : mid.length = 16*es.length) :
    writeEntries es pre.length (pre ++ (mid ++ post)) =
      pre ++ (es.flatMap PartitionEntry.asBytes ++ post) := by
  induction es generalizing pre mid with
  | nil =>
    obtain rfl : mid = [] := List.eq_nil_of_length_eq_zero (by simpa using h)
    rfl
  | cons e es ih =>
    have hc := copyFromSlice_append pre (mid.take 16) (mid.drop 16 ++ post)
      (PartitionEntry.asBytes e) (by simp [asBytes_length] at h ⊢; omega)
    rw [← List.append_assoc (mid.take 16), List.take_append_drop] at hc
    have hi := ih (pre ++ PartitionEntry.asBytes e) (mid.drop 16) (by simp at h ⊢; omega)
    rw [writeEntries, hc, ← List.append_assoc pre, ← List.length_append, hi]
    simp

theorem entries_length (t : PartitionTable) :
    (t.entries.toList.flatMap PartitionEntry.asBytes).length = 64 := by
  simp only [List.length_flatMap, asBytes_length, List.map_const', List.sum_replicate_nat,
    Vector.length_toList]

theorem set_magic (pre : List UInt8) (h : pre.length = 510) :
    ((pre ++ [0, 0]).set 510 0x55).set 511 0xAA = pre ++ [0x55, 0xAA] := by
  rw [List.set_append_right _ _ (by omega), List.set_append_right _ _ (by omega), h]
  rfl

theorem blockBytes_layout (t : PartitionTable) :
    blockBytes t = List.replicate 446 0 ++ t.entries.toList.flatMap PartitionEntry.asBytes ++
      [0x55, 0xAA] := by
  have hz : List.replicate blockSize (0 : UInt8) =
      List.replicate 446 0 ++ (List.replicate 64 0 ++ List.replicate 2 0) := by
    rw [List.replicate_append_replicate, List.replicate_append_replicate]
    rfl
  have hw := writeEntries_append t.entries.toList (List.replicate 446 0) (List.replicate 64 0)
    (List.replicate 2 0) (by rw [List.length_replicate, Vector.length_toList])
  rw [List.length_replicate] at hw
  rw [blockBytes, hz, hw, ← List.append_assoc]
  exact set_magic _ (by rw [List.length_append, List.length_replicate, entries_length])

def PartitionTable.toBlock (t : PartitionTable) : Block where
  bytes := blockBytes t
  size := by
    rw [blockBytes_layout, List.length_append, List.length_append, List.length_replicate,
      entries_length]
    rfl

/-- `raw.total_blocks()` and the loop of `open` for one entry. The end is a
sum of two `u32` values in `u64`, so the natural-number sum is exact. -/
def partValid (totalBlocks : UInt64) (part : PartitionEntry) : Bool :=
  let start := part.extent.start.toNat
  let stop := part.extent.start.toNat+part.extent.sectors.toNat
  !(start == 0 || start ≥ totalBlocks.toNat) && !(stop == 0 || stop ≥ totalBlocks.toNat) &&
    !(stop > UInt32.size-1)

def checkParts {E : Type} (totalBlocks : UInt64) : List PartitionEntry → Except (MbrError E) Unit
  | [] => .ok ()
  | part::parts =>
    if part.partType ≠ 0 ∧ !partValid totalBlocks part then .error .invalidPartExtent
    else checkParts totalBlocks parts

/-- The four entries at the front of the block, `none` where the cast of the
slice would fail. -/
def readParts (bytes : List UInt8) : Option (Vector PartitionEntry 4) := do
  let p0 ← PartitionEntry.ofBytes (bytes.take 16)
  let p1 ← PartitionEntry.ofBytes ((bytes.drop 16).take 16)
  let p2 ← PartitionEntry.ofBytes ((bytes.drop 32).take 16)
  let p3 ← PartitionEntry.ofBytes ((bytes.drop 48).take 16)
  return #v[p0, p1, p2, p3]

section Device
variable {D E : Type} [ManagedBlockDevice D E]
open ManagedBlockDevice

/-- The result of `create` with the device it leaves; `none` is the overflow
panic of `extent.start + extent.sectors`. -/
def MbrDevice.create (o : Overflow) (raw : D) (partTable : PartitionTable) :
    Option (Except (MbrError E) (MbrDevice D) × D) := do
  let total := totalBlocks raw
  let stop ← match partTable.asSlice.getLast? with
    | some entry => o.add32 entry.extent.start entry.extent.sectors
    | none => some 0
  if stop.toNat > total.toNat then
    return (.error .invalidPartExtent, raw)
  match write raw (PartitionTable.toBlock partTable) 0 with
  | (.error err, raw) => return (.error (.device err), raw)
  | (.ok (), raw) => return (.ok ⟨raw, partTable.entries⟩, raw)

/-- `none` is the `unwrap` of the slice cast. -/
def MbrDevice.open (raw : D) : Option (Except (MbrError E) (MbrDevice D)) :=
  match read raw 0 with
  | .error err => some (.error (.device err))
  | .ok mbr =>
    if mbr.bytes.drop (blockSize-2) ≠ [0x55, 0xAA] then some (.error .invalidMagic)
    else
      let bytes := copyFromSlice mbr.bytes 0 ((mbr.bytes.drop 446).take (blockSize-2-446))
      (readParts (bytes.take (16*4))).map fun parts =>
        match checkParts (totalBlocks raw) parts.toList with
        | .error err => .error err
        | .ok () => .ok ⟨raw, parts⟩

end Device

theorem vector4 (v : Vector PartitionEntry 4) :
    v.toList = [v.get 0, v.get 1, v.get 2, v.get 3] := by
  apply List.ext_getElem
  · simp
  · intro i hi _
    have hi : i < 4 := by simpa using hi
    have hcases : i = 0 ∨ i = 1 ∨ i = 2 ∨ i = 3 := by omega
    rcases hcases with rfl | rfl | rfl | rfl <;> rfl

theorem take_entry (e : PartitionEntry) (rest : List UInt8) :
    (PartitionEntry.asBytes e ++ rest).take 16 = PartitionEntry.asBytes e :=
  List.take_left' (asBytes_length e)

theorem drop_entry (e : PartitionEntry) (rest : List UInt8) (n : ℕ) :
    (PartitionEntry.asBytes e ++ rest).drop (n+16) = rest.drop n := by
  rw [Nat.add_comm, ← List.drop_drop, List.drop_left' (asBytes_length e)]

theorem readParts_entries (v : Vector PartitionEntry 4) :
    readParts (v.toList.flatMap PartitionEntry.asBytes) = some v := by
  have hv : #v[v.get 0, v.get 1, v.get 2, v.get 3] = v :=
    Vector.toList_inj.mp ((vector4 _).trans (vector4 v).symm)
  simp only [vector4, List.flatMap_cons, List.flatMap_nil, readParts, take_entry, drop_entry _ _ 0,
    drop_entry _ _ 16, drop_entry _ _ 32, List.drop_zero, ofBytes_asBytes]
  simp [hv]

theorem checkParts_ok {E : Type} (total : UInt64) (parts : List PartitionEntry) :
    (checkParts total parts : Except (MbrError E) Unit) = .ok () ↔
      ∀ part ∈ parts, part.partType ≠ 0 → partValid total part = true := by
  induction parts with
  | nil => simp [checkParts]
  | cons part parts ih =>
    rw [checkParts, List.forall_mem_cons]
    split
    next h => simpa using fun hv => absurd (hv h.1) (by simpa using h.2)
    next h =>
      rw [ih]
      simp only [not_and, Bool.not_eq_true, Bool.not_eq_false'] at h
      exact ⟨fun hr => ⟨by simpa using h, hr⟩, And.right⟩

theorem partValid_iff (total : UInt64) (part : PartitionEntry) :
    partValid total part = true ↔ 0 < part.startLba.toNat ∧
      part.startLba.toNat+part.numSectors.toNat < total.toNat ∧
      part.startLba.toNat+part.numSectors.toNat < 2^32 := by
  simp [partValid, PartitionEntry.extent]
  omega

section Agreement
variable {D E : Type} [ManagedBlockDevice D E]
open ManagedBlockDevice

/-- A block written successfully reads back, and the device keeps its size. -/
def ReadsBack (D : Type) {E : Type} [ManagedBlockDevice D E] : Prop :=
  ∀ (raw raw' : D) (block : Block) (lba : UInt64), write raw block lba = (.ok (), raw') →
    totalBlocks raw' = totalBlocks raw ∧ read raw' lba = .ok block

/-- An allocated entry lies inside the device, without wrap-around. -/
def Inside (total : UInt64) (e : PartitionEntry) : Prop :=
  e.partType ≠ 0 → 0 < e.startLba.toNat ∧ e.startLba.toNat+e.numSectors.toNat ≤ total.toNat

/-- The last entry added, the one the table keeps, ends before the last block
of the device and below the `u32` limit. -/
def LastEndsBefore (total : UInt64) (es : List PartitionEntry) : Prop :=
  ∀ e, es.getLast? = some e → e.partType ≠ 0 → 0 < e.startLba.toNat ∧
    e.startLba.toNat+e.numSectors.toNat < total.toNat ∧
    e.startLba.toNat+e.numSectors.toNat < 2^32

theorem toBlock_magic (t : PartitionTable) :
    (PartitionTable.toBlock t).bytes.drop (blockSize-2) = [0x55, 0xAA] := by
  change (blockBytes t).drop 510 = _
  rw [blockBytes_layout]
  apply List.drop_left'
  rw [List.length_append, List.length_replicate, entries_length]

theorem toBlock_parts (t : PartitionTable) :
    readParts ((copyFromSlice (PartitionTable.toBlock t).bytes 0
      (((PartitionTable.toBlock t).bytes.drop 446).take (blockSize-2-446))).take (16*4)) =
      some t.entries := by
  have hd : ((blockBytes t).drop 446).take 64 =
      t.entries.toList.flatMap PartitionEntry.asBytes := by
    rw [blockBytes_layout, List.append_assoc, List.drop_left' List.length_replicate]
    exact List.take_left' (entries_length t)
  change readParts ((copyFromSlice (blockBytes t) 0
      (((blockBytes t).drop 446).take 64)).take 64) = _
  rw [hd, copyFromSlice, List.take_zero, List.nil_append, List.take_left' (entries_length t)]
  exact readParts_entries t.entries

theorem open_toBlock (raw : D) (t : PartitionTable)
    (h : read raw 0 = .ok (PartitionTable.toBlock t)) :
    MbrDevice.open raw = some (match checkParts (totalBlocks raw) t.entries.toList with
      | .error err => .error err
      | .ok () => .ok ⟨raw, t.entries⟩) := by
  simp only [MbrDevice.open, h, toBlock_magic, toBlock_parts]
  rfl

theorem open_ok_iff (raw : D) (t : PartitionTable)
    (h : read raw 0 = .ok (PartitionTable.toBlock t)) :
    MbrDevice.open raw = some (.ok ⟨raw, t.entries⟩) ↔
      ∀ e ∈ t.entries.toList, e.partType ≠ 0 → partValid (totalBlocks raw) e = true := by
  rw [open_toBlock raw t h, ← checkParts_ok (E := E)]
  cases checkParts (E := E) (totalBlocks raw) t.entries.toList <;> simp

/-- A table built by `add` has no entry below `index`, so `create` compares 0
with the device size and writes the block. -/
theorem create_kept (o : Overflow) (raw : D) (es : List PartitionEntry) :
    MbrDevice.create o raw (kept es) =
      some (match write raw (PartitionTable.toBlock (kept es)) 0 with
        | (.error err, raw) => (.error (.device err), raw)
        | (.ok (), raw) => (.ok ⟨raw, (kept es).entries⟩, raw)) := by
  simp [MbrDevice.create, asSlice_nil (kept es) rfl]
  split <;> rfl

theorem kept_forall (es : List PartitionEntry) (P : PartitionEntry → Prop) :
    (∀ e ∈ (kept es).entries.toList, e.partType ≠ 0 → P e) ↔
      ∀ e, es.getLast? = some e → e.partType ≠ 0 → P e := by
  rw [kept_entries]
  cases es.getLast? <;> simp [PartitionEntry.zeroed]

theorem create_ok (o : Overflow) (raw raw' : D) (es : List PartitionEntry) (mbr : MbrDevice D)
    (h : MbrDevice.create o raw (kept es) = some (.ok mbr, raw')) :
    write raw (PartitionTable.toBlock (kept es)) 0 = (.ok (), raw') := by
  rw [create_kept] at h
  split at h
  next => simp at h
  next hw =>
    simp only [Option.some.injEq, Prod.mk.injEq] at h
    rw [hw, h.2]

theorem create_never_invalid (o : Overflow) (raw raw' : D) (es : List PartitionEntry) :
    MbrDevice.create o raw (kept es) ≠ some (.error .invalidPartExtent, raw') := by
  rw [create_kept]
  split <;> simp

/-- For a table made by successful `add` calls, a created device opens again
with the same entries, all of them inside the device, exactly when the last
entry added keeps clear of block 0, of the device's last block and of the
`u32` limit. A refused extent leaves the device as it was. -/
theorem create_open_agree_iff (o : Overflow) (raw : D) (es : List PartitionEntry)
    (t : PartitionTable) (hadd : addAll o .new es = some (es.map fun _ => .ok (), t))
    (hrb : ReadsBack D) :
    (∀ mbr raw', MbrDevice.create o raw t = some (.ok mbr, raw') →
      (((∀ e ∈ t.entries.toList, Inside (totalBlocks raw) e) ∧
          MbrDevice.open raw' = some (.ok ⟨raw', t.entries⟩)) ↔
        LastEndsBefore (totalBlocks raw) es)) ∧
    ∀ raw', MbrDevice.create o raw t = some (.error .invalidPartExtent, raw') → raw' = raw := by
  obtain rfl : kept es = t := by simpa [addAll_new] using hadd
  refine ⟨fun mbr raw' hc => ?_, fun raw' hc => absurd hc (create_never_invalid o raw raw' es)⟩
  obtain ⟨htotal, hread⟩ := hrb raw raw' _ 0 (create_ok o raw raw' es mbr hc)
  rw [open_ok_iff raw' (kept es) hread, htotal]
  have hin : (∀ e ∈ (kept es).entries.toList, Inside (totalBlocks raw) e) ↔ _ :=
    kept_forall es fun e => 0 < e.startLba.toNat ∧
      e.startLba.toNat+e.numSectors.toNat ≤ (totalBlocks raw).toNat
  rw [hin, kept_forall]
  simp only [partValid_iff, LastEndsBefore]
  constructor
  · rintro ⟨_, h⟩
    exact h
  · intro h
    exact ⟨fun e he ha => ⟨(h e he ha).1, (h e he ha).2.1.le⟩, h⟩

end Agreement

/-- A device that keeps block 0 and has no other storage behind it. -/
structure BootSector where
  total : UInt64
  mbr : Block

instance : ManagedBlockDevice BootSector Unit where
  totalBlocks raw := raw.total
  read raw lba := if lba = 0 then .ok raw.mbr else .error ()
  write raw block lba := if lba = 0 then (.ok (), { raw with mbr := block }) else (.error (), raw)
  flush raw := (.ok (), raw)

theorem bootSector_readsBack : ReadsBack BootSector := by
  intro raw raw' block lba h
  simp only [ManagedBlockDevice.write] at h
  split at h
  next hl =>
    obtain rfl := (Prod.mk.inj h).2
    exact ⟨rfl, if_pos hl⟩
  next => simp at h

def emptyBlock : Block := ⟨List.replicate blockSize 0, List.length_replicate⟩

/-- One partition of blocks 1 to 6 on a device of eight. -/
theorem create_open_agree_six :
    MbrDevice.open (⟨8, PartitionTable.toBlock (kept [.new 1 6])⟩ : BootSector) =
      some (.ok ⟨⟨8, PartitionTable.toBlock (kept [.new 1 6])⟩, (kept [.new 1 6]).entries⟩) :=
  (((create_open_agree_iff .panics (⟨8, emptyBlock⟩ : BootSector) [.new 1 6] (kept [.new 1 6])
    (addAll_new .panics [.new 1 6]) bootSector_readsBack).1
      ⟨⟨8, PartitionTable.toBlock (kept [.new 1 6])⟩, (kept [.new 1 6]).entries⟩ _
      (create_kept .panics _ _)).mpr (by
        rintro e he -
        obtain rfl := Option.some.inj he
        decide)).2

/-- Blocks 1 to 7 of eight: `add` and `create` accept the partition, `open`
does not. -/
theorem create_open_disagree :
    ∃ t mbr raw', addAll .panics .new [.new 1 7] = some ([.ok ()], t) ∧
      MbrDevice.create .panics (⟨8, emptyBlock⟩ : BootSector) t = some (.ok mbr, raw') ∧
      MbrDevice.open raw' = some (.error .invalidPartExtent) := by
  refine ⟨kept [.new 1 7], _, ⟨8, PartitionTable.toBlock (kept [.new 1 7])⟩,
    addAll_new .panics [.new 1 7], create_kept .panics _ _, ?_⟩
  rw [open_toBlock _ (kept [.new 1 7]) rfl, kept_entries]
  rfl

end UsbArmory.Storage.MbrDisk
