import UsbArmory.Storage.LfsRefinement

/-!
# Formatting and mounting

littlefs2 is a program that calls the driver and goes on by what it replies.
`mount` looks at the size of the device before it hands the device over, and
`format` does not.
-/

set_option autoImplicit false

namespace UsbArmory.Storage.Formatting
open UsbArmory.Storage.MbrDisk UsbArmory.Storage.Accesses UsbArmory.Storage.LfsDriver
open UsbArmory.Storage.LfsCalls UsbArmory.Storage.LfsRefinement ManagedBlockDevice BlockStore

inductive Client (F : Type) where
  | done (r : Except IoError F)
  | call (c : Call) (next : Reply → Client F)

/-- It accesses the blocks below `BLOCK_COUNT`. -/
def Client.Legal {F : Type} : Client F → Prop
  | .done _ => True
  | .call c next => LfsCalls.Legal c ∧ ∀ r, (next r).Legal

section Entry
variable {D E F : Type} [ManagedBlockDevice D E]

/-- The result, the accesses of the device and the storage in the end. -/
def Client.run : Client F → LfsStorage D → Option (Except IoError F × List Io × LfsStorage D)
  | .done r, s => some (r, [], s)
  | .call c next, s => do
    let (reply, s) ← step s c
    let (r, issued, s) ← (next reply).run s
    return (r, reply.issued ++ issued, s)

theorem run_call {c : Call} {next : Reply → Client F} {s u t : LfsStorage D} {reply : Reply}
    {r : Except IoError F} {issued : List Io} (hstep : step s c = some (reply, u))
    (h : (next reply).run u = some (r, issued, t)) :
    (Client.call c next).run s = some (r, reply.issued ++ issued, t) := by
  rw [Client.run, hstep]
  show ((next reply).run u).bind _ = _
  rw [h]
  rfl

/-- `formatFs` is littlefs2's `Filesystem::format`. -/
def LittleFs.format (formatFs : Client Unit) (blockdev : D) :
    Option (Except IoError Unit × List Io × LfsStorage D) :=
  formatFs.run ⟨blockdev⟩

/-- `LittleFs::mount`, with the accesses of the device. -/
def LittleFs.mounting (mountFs : Client F) (blockdev : D) :
    Option (Except IoError (LittleFs D F) × List Io) :=
  if totalBlocks blockdev < UInt64.ofNat blockCount then some (.error .noSpace, [])
  else do
    let (r, issued, storage) ← mountFs.run ⟨blockdev⟩
    return (r.map fun fs => ⟨storage, fs⟩, issued)

theorem mounting_result {mountFs : Client F} {dev : D} {r : Except IoError F} {issued : List Io}
    {s : LfsStorage D} (h : mountFs.run ⟨dev⟩ = some (r, issued, s)) :
    ∃ ios, LittleFs.mounting mountFs dev = some (LittleFs.mount (fun _ => (r, s)) dev, ios) := by
  unfold LittleFs.mounting LittleFs.mount
  split
  next => exact ⟨[], rfl⟩
  next =>
    refine ⟨issued, ?_⟩
    rw [h]
    cases r <;> rfl

/-- The block is one of the device, or the access is a flush. -/
def OnDevice (dev : D) (io : Io) : Prop := ∀ a, io.lba = some a → a < totalBlocks dev

/-- Neither `format` nor `mount` lets littlefs2 reach beyond the device, and what one has
formatted the other hands over. -/
structure SameDevices (dev : D) : Prop where
  format : ∀ (fs : Client Unit) r issued s, fs.Legal →
    LittleFs.format fs dev = some (r, issued, s) → ∀ io ∈ issued, OnDevice dev io
  mount : ∀ {F : Type} (fs : Client F) r issued, fs.Legal →
    LittleFs.mounting fs dev = some (r, issued) → ∀ io ∈ issued, OnDevice dev io
  agree : ∀ (fs : Client Unit) issued s, fs.Legal →
    LittleFs.format fs dev = some (.ok (), issued, s) →
      ∀ {F : Type} (mountFs : LfsStorage D → Except IoError F × LfsStorage D),
        (mountFs s).1 = .error .noSpace ∨ LittleFs.mount mountFs s.inner ≠ .error .noSpace

end Entry

section Size
variable {D E F : Type} [BlockStore D E] {dev : D} {s t : LfsStorage D}

theorem run_onDevice {fs : Client F} {r : Except IoError F} {issued : List Io} (hlegal : fs.Legal)
    (hsize : blockCount ≤ (totalBlocks s.inner).toNat) (h : fs.run s = some (r, issued, t)) :
    totalBlocks t.inner = totalBlocks s.inner ∧ ∀ io ∈ issued, OnDevice s.inner io := by
  induction fs generalizing s issued with
  | done r' =>
    cases h
    exact ⟨rfl, fun io hio => absurd hio List.not_mem_nil⟩
  | call c next ih =>
    obtain ⟨reply, u, hstep, hserved⟩ := step_served hlegal.1 hsize
    obtain ⟨as, has⟩ := hserved.accesses
    have htotal : totalBlocks u.inner = totalBlocks s.inner := by
      rw [has, performAll_total]
    rw [Client.run, hstep] at h
    have hbind : ((next reply).run u).bind
        (fun p => some (p.1, reply.issued ++ p.2.1, p.2.2)) = some (r, issued, t) := h
    obtain ⟨⟨r', rest, t'⟩, hrest, heq⟩ := Option.bind_eq_some_iff.mp hbind
    cases heq
    obtain ⟨htotal', hon⟩ := ih reply (hlegal.2 reply) (served_size hserved hsize) hrest
    refine ⟨htotal'.trans htotal, fun io hio a ha => ?_⟩
    rcases List.mem_append.mp hio with hio | hio
    · exact (hserved.range io hio a ha).2
    · rw [← htotal]
      exact hon io hio a ha

/-- littlefs2 reads the last of its blocks. -/
def lastBlock (r : Except IoError F) : Client F :=
  .call (.read ((blockCount-1)*blockSize) (List.replicate blockSize 0)) fun _ => .done r

theorem legal_block {c : Call} {n : ℕ} (hoff : c.off = n*blockSize) (hlen : c.len = blockSize)
    (hn : n < blockCount) : LfsCalls.Legal c := by
  refine ⟨hoff ▸ Nat.dvd_mul_left _ _, hlen ▸ Nat.dvd_refl _, ?_⟩
  rw [hoff, hlen, ← Nat.succ_mul]
  exact Nat.mul_le_mul_right _ hn

theorem lastBlock_legal (r : Except IoError F) : (lastBlock r).Legal :=
  ⟨legal_block rfl List.length_replicate (by decide), fun _ => trivial⟩

theorem lastBlock_reached (r : Except IoError F) (s : LfsStorage D) :
    ∃ ok, (lastBlock r).run s = some (r, [⟨some (UInt64.ofNat (blockCount-1)), ok⟩], s) := by
  have hchunks : Library.Chunks.chunks blockSize (List.replicate blockSize (0 : UInt8)) =
      [List.replicate blockSize 0] :=
    Library.Chunks.chunks_whole blockSize_pos List.length_replicate
  have hlba : (blockCount-1)*blockSize/blockSize = blockCount-1 :=
    Nat.mul_div_cancel _ blockSize_pos
  cases hread : read s.inner (UInt64.ofNat (blockCount-1)) with
  | error err =>
    exact ⟨false, by simp [lastBlock, Client.run, step, LfsStorage.read, hchunks, hlba,
      readChunks, hread]⟩
  | ok block =>
    exact ⟨true, by simp [lastBlock, Client.run, step, LfsStorage.read, hchunks, hlba,
      readChunks, hread]⟩

theorem mount_handed {mountFs : LfsStorage D → Except IoError F × LfsStorage D}
    (h : blockCount ≤ (totalBlocks s.inner).toNat) (hfs : (mountFs s).1 ≠ .error .noSpace) :
    LittleFs.mount mountFs s.inner ≠ .error .noSpace := by
  have hnot : ¬totalBlocks s.inner < UInt64.ofNat blockCount := by
    rw [UInt64.not_lt, UInt64.le_iff_toNat_le]
    exact h
  unfold LittleFs.mount
  rw [if_neg hnot]
  intro heq
  rcases hm : mountFs s with ⟨err | fs, u⟩
  · have hs : mountFs ⟨s.inner⟩ = (.error err, u) := hm
    rw [hs] at heq
    rw [hm] at hfs
    exact hfs (congrArg Except.error (Except.error.inj heq))
  · have hs : mountFs ⟨s.inner⟩ = (.ok fs, u) := hm
    rw [hs] at heq
    cases heq

/-- `format` and `mount` admit the same devices exactly if all blocks of the file system are on
the device. -/
theorem same_devices_iff (dev : D) : SameDevices dev ↔ blockCount ≤ (totalBlocks dev).toNat := by
  constructor
  · intro h
    obtain ⟨ok, hrun⟩ := lastBlock_reached (.ok ()) (⟨dev⟩ : LfsStorage D)
    have hon := h.format _ _ _ _ (lastBlock_legal _) hrun _ List.mem_cons_self _ rfl
    have hlba : (UInt64.ofNat (blockCount-1)).toNat = blockCount-1 := lba_toNat (by decide)
    have hpos : 0 < blockCount := by decide
    rw [UInt64.lt_iff_toNat_lt, hlba] at hon
    omega
  · intro hsize
    constructor
    · intro fs r issued s hlegal h
      exact (run_onDevice hlegal hsize h).2
    · intro F fs r issued hlegal h
      unfold LittleFs.mounting at h
      split at h
      next =>
        cases h
        exact fun io hio => absurd hio List.not_mem_nil
      next =>
        obtain ⟨⟨r', issued', s⟩, hrun, heq⟩ := Option.bind_eq_some_iff.mp h
        cases heq
        exact (run_onDevice hlegal hsize hrun).2
    · intro fs issued s hlegal h F mountFs
      have htotal := (run_onDevice hlegal hsize h).1
      by_cases hfs : (mountFs s).1 = .error .noSpace
      · exact .inl hfs
      · refine .inr (mount_handed ?_ hfs)
        rw [htotal]
        exact hsize

end Size

def tinyDisk : RamDisk := ⟨2, fun _ => emptyBlock, fun _ => false⟩

def superblocks : Client Unit :=
  .call (.write 0 (List.replicate blockSize 0)) fun _ =>
    .call (.write blockSize (List.replicate blockSize 0)) fun _ => .done (.ok ())

theorem superblocks_legal : superblocks.Legal :=
  ⟨legal_block (Nat.zero_mul _).symm List.length_replicate (by decide), fun _ =>
    ⟨legal_block (Nat.one_mul _).symm List.length_replicate (by decide), fun _ => trivial⟩⟩

theorem ramDisk_block (s : LfsStorage RamDisk) (n : ℕ) (data : List UInt8)
    (hlen : data.length = blockSize) (h : s.inner.reaches (UInt64.ofNat n) = true) :
    ∃ reply t, step s (.write (n*blockSize) data) = some (reply, t) ∧
      t.inner.total = s.inner.total ∧ t.inner.bad = s.inner.bad := by
  have hchunks : Library.Chunks.chunks blockSize data = [data] :=
    Library.Chunks.chunks_whole blockSize_pos hlen
  have hlba : n*blockSize/blockSize = n := Nat.mul_div_cancel _ blockSize_pos
  have hwrite : write s.inner ⟨data, hlen⟩ (UInt64.ofNat n) = _ := ramDisk_write_ok h
  refine ⟨⟨.ok data.length, data, [⟨some (UInt64.ofNat n), true⟩, ⟨none, true⟩]⟩,
    ⟨{ s.inner with
      block := Function.update s.inner.block (UInt64.ofNat n) ⟨data, hlen⟩ }⟩, ?_, rfl, rfl⟩
  simp [step, LfsStorage.write, hchunks, hlba, writeChunks, hlen, hwrite, flush]

/-- A device of two blocks is formatted, and then is too small to be mounted. -/
theorem tinyDisk_formatted : ¬SameDevices tinyDisk ∧ superblocks.Legal ∧
    ∃ issued s, LittleFs.format superblocks tinyDisk = some (.ok (), issued, s) ∧
      ∀ mountFs : LfsStorage RamDisk → Except IoError Unit × LfsStorage RamDisk,
        LittleFs.mount mountFs s.inner = .error .noSpace := by
  obtain ⟨r₀, s₀, h₀, htotal₀, hbad₀⟩ := ramDisk_block ⟨tinyDisk⟩ 0
    (List.replicate blockSize 0) List.length_replicate rfl
  obtain ⟨r₁, s₁, h₁, htotal₁, -⟩ := ramDisk_block s₀ 1
    (List.replicate blockSize 0) List.length_replicate (by
      rw [RamDisk.reaches, htotal₀, hbad₀]
      rfl)
  rw [Nat.zero_mul] at h₀
  rw [Nat.one_mul] at h₁
  refine ⟨fun h => ?_, superblocks_legal, _, s₁, run_call h₀ (run_call h₁ rfl),
    fun mountFs => ?_⟩
  · have hsize := (same_devices_iff tinyDisk).mp h
    exact absurd hsize (by decide)
  · have htotal : totalBlocks s₁.inner = 2 := htotal₁.trans htotal₀
    refine if_pos ?_
    rw [htotal]
    decide

end UsbArmory.Storage.Formatting
