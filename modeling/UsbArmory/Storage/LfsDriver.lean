import Mathlib.Data.List.GetD
import UsbArmory.Library.Chunks
import UsbArmory.Storage.Accesses

/-!
# The driver below littlefs

`LfsStorage` splits a read or a write into blocks of the device. Every call
returns, beside its result, the accesses it has issued and how they ended.
`none` is the panic of `copy_from_slice` on a chunk that is no whole block.
-/

set_option autoImplicit false

namespace UsbArmory.Storage.LfsDriver
open UsbArmory.Library.Chunks UsbArmory.Storage.MbrDisk UsbArmory.Storage.Accesses
open ManagedBlockDevice BlockStore

/-- `littlefs2::io::Error`, with the codes that the driver makes. -/
inductive IoError where
  | io
  | noSpace
  | other (code : ℤ)

/-- 64 MiB -/
def blockCount : ℕ := 131072

structure LfsStorage (D : Type) where
  inner : D

/-- An access of the device, to a block or a flush, and whether it succeeded. -/
structure Io where
  lba : Option UInt64
  ok : Bool

structure Reply where
  result : Except IoError ℕ
  buf : List UInt8
  issued : List Io

section Driver
variable {D E : Type} [ManagedBlockDevice D E]

/-- The loop of `read` over `buf.chunks_mut(BLOCK_SIZE)`. -/
def readChunks (d : D) : List (List UInt8) → ℕ →
    Option (Except IoError Unit × List UInt8 × List Io)
  | [], _ => some (.ok (), [], [])
  | bufBlock::rest, lba =>
    match read d (UInt64.ofNat lba) with
    | .error _ => some (.error .io, bufBlock ++ rest.flatten, [⟨some (UInt64.ofNat lba), false⟩])
    | .ok block =>
      if bufBlock.length = blockSize then do
        let (r, buf, issued) ← readChunks d rest (lba+1)
        return (r, block.bytes ++ buf, ⟨some (UInt64.ofNat lba), true⟩::issued)
      else none

/-- The loop of `write` over `data.chunks(BLOCK_SIZE)`. -/
def writeChunks (d : D) : List (List UInt8) → ℕ → Option (Except IoError Unit × D × List Io)
  | [], _ => some (.ok (), d, [])
  | bufBlock::rest, lba =>
    if h : bufBlock.length = blockSize then
      match write d ⟨bufBlock, h⟩ (UInt64.ofNat lba) with
      | (.error _, d) => some (.error .io, d, [⟨some (UInt64.ofNat lba), false⟩])
      | (.ok (), d) => do
        let (r, d, issued) ← writeChunks d rest (lba+1)
        return (r, d, ⟨some (UInt64.ofNat lba), true⟩::issued)
    else none

def LfsStorage.read (s : LfsStorage D) (off : ℕ) (buf : List UInt8) : Option Reply := do
  let (r, buf', issued) ← readChunks s.inner (chunks blockSize buf) (off/blockSize)
  return ⟨r.map fun _ => buf.length, buf', issued⟩

def LfsStorage.write (s : LfsStorage D) (off : ℕ) (data : List UInt8) :
    Option (Reply × LfsStorage D) := do
  let (r, d, issued) ← writeChunks s.inner (chunks blockSize data) (off/blockSize)
  match r with
  | .error err => return (⟨.error err, data, issued⟩, ⟨d⟩)
  | .ok () =>
    match flush d with
    | (.error _, d) => return (⟨.error .io, data, issued ++ [⟨none, false⟩]⟩, ⟨d⟩)
    | (.ok (), d) => return (⟨.ok data.length, data, issued ++ [⟨none, true⟩]⟩, ⟨d⟩)

def LfsStorage.erase (s : LfsStorage D) (_off len : ℕ) : Reply × LfsStorage D :=
  (⟨.ok len, [], []⟩, s)

structure LittleFs (D F : Type) where
  storage : LfsStorage D
  fs : F

/-- `mountFs` is littlefs2's `Filesystem::mount`. -/
def LittleFs.mount {F : Type} (mountFs : LfsStorage D → Except IoError F × LfsStorage D)
    (blockdev : D) :
    Except IoError (LittleFs D F) :=
  if totalBlocks blockdev < UInt64.ofNat blockCount then .error .noSpace
  else
    match mountFs ⟨blockdev⟩ with
    | (.error err, _) => .error err
    | (.ok fs, storage) => .ok ⟨storage, fs⟩

theorem mount_size {F : Type} {mountFs : LfsStorage D → Except IoError F × LfsStorage D} {dev : D}
    {lfs : LittleFs D F} (h : LittleFs.mount mountFs dev = .ok lfs) :
    blockCount ≤ (totalBlocks dev).toNat := by
  unfold LittleFs.mount at h
  split at h
  next => cases h
  next hsize =>
    have hle := UInt64.le_iff_toNat_le.mp (UInt64.not_lt.mp hsize)
    exact hle

end Driver

/-- The block `a` is among the `n` blocks from `lba` on. -/
def InRange (lba n : ℕ) (a : UInt64) : Prop := lba ≤ a.toNat ∧ a.toNat < lba+n

theorem lba_toNat {lba : ℕ} (h : lba < blockCount) : (UInt64.ofNat lba).toNat = lba := by
  have hb : blockCount = 131072 := rfl
  rw [UInt64.toNat_ofNat']
  exact Nat.mod_eq_of_lt (by omega)

theorem blockSize_pos : 0 < blockSize := by decide

theorem blocks_append {chunk rest : List UInt8} (h : chunk.length = blockSize) :
    (chunk ++ rest).length/blockSize = rest.length/blockSize+1 := by
  rw [List.length_append, h, Nat.add_comm, Nat.add_div_right _ blockSize_pos]

section Store
variable {D E : Type} [BlockStore D E] {d : D} {lba : ℕ}

/-- A byte of the device. -/
def byte (d : D) (i : ℕ) : UInt8 :=
  (contents d (UInt64.ofNat (i/blockSize))).bytes.getD (i%blockSize) 0

theorem byte_block (d : D) (lba k : ℕ) (h : k < blockSize) :
    byte d (lba*blockSize+k) = (contents d (UInt64.ofNat lba)).bytes.getD k 0 := by
  have hdiv : (lba*blockSize+k)/blockSize = lba := by
    rw [Nat.add_comm, Nat.add_mul_div_right _ _ blockSize_pos, Nat.div_eq_of_lt h, Nat.zero_add]
  have hmod : (lba*blockSize+k)%blockSize = k := by
    rw [Nat.add_comm, Nat.add_mul_mod_self_right, Nat.mod_eq_of_lt h]
  rw [byte, hdiv, hmod]

theorem byte_next (d : D) (lba k : ℕ) (h : blockSize ≤ k) :
    byte d (lba*blockSize+k) = byte d ((lba+1)*blockSize+(k-blockSize)) := by
  have hindex : lba*blockSize+k = (lba+1)*blockSize+(k-blockSize) := by
    rw [Nat.add_mul, Nat.one_mul]
    omega
  rw [hindex]

/-- What the loop of `read` leaves in the buffer. -/
structure Gathered (d : D) (lba : ℕ) (buf : List UInt8) (r : Except IoError Unit)
    (out : List UInt8) (issued : List Io) : Prop where
  range : ∀ io ∈ issued, ∃ a, io.lba = some a ∧ InRange lba (buf.length/blockSize) a
  ok : (∀ io ∈ issued, io.ok = true) → r = .ok () ∧
    ∀ k, k < buf.length → out.getD k 0 = byte d (lba*blockSize+k)
  failed : (∃ io ∈ issued, io.ok = false) → r = .error .io
  works : Works d → ∀ io ∈ issued, io.ok = true
  length : out.length = buf.length

/-- What the loop of `write` leaves on the device. -/
structure Stored (d : D) (lba : ℕ) (data : List UInt8) (r : Except IoError Unit) (d' : D)
    (issued : List Io) : Prop where
  range : ∀ io ∈ issued, ∃ a, io.lba = some a ∧ InRange lba (data.length/blockSize) a
  ok : (∀ io ∈ issued, io.ok = true) → r = .ok () ∧
    ∀ k, k < data.length → byte d' (lba*blockSize+k) = data.getD k 0
  failed : (∃ io ∈ issued, io.ok = false) → r = .error .io
  works : Works d → ∀ io ∈ issued, io.ok = true
  frame : ∀ a, ¬InRange lba (data.length/blockSize) a → contents d' a = contents d a
  accesses : ∃ as, d' = (performAll d as).2

theorem forall_ok_cons {io : Io} {issued : List Io} :
    (∀ x ∈ io::issued, x.ok = true) ↔ io.ok = true ∧ ∀ x ∈ issued, x.ok = true :=
  List.forall_mem_cons

theorem inRange_step {n : ℕ} {a : UInt64} (h : InRange (lba+1) n a) : InRange lba (n+1) a :=
  ⟨by have hlo := h.1; omega, by have hhi := h.2; omega⟩

theorem inRange_self {n : ℕ} (h : lba < blockCount) : InRange lba (n+1) (UInt64.ofNat lba) := by
  unfold InRange
  rw [lba_toNat h]
  omega

theorem range_cons {n : ℕ} {ok : Bool} {issued : List Io} (hlba : lba < blockCount)
    (h : ∀ io ∈ issued, ∃ a, io.lba = some a ∧ InRange (lba+1) n a) :
    ∀ io ∈ ⟨some (UInt64.ofNat lba), ok⟩::issued, ∃ a, io.lba = some a ∧ InRange lba (n+1) a := by
  intro io hio
  rcases List.mem_cons.mp hio with rfl | hio
  · exact ⟨_, rfl, inRange_self hlba⟩
  · obtain ⟨a, ha, hin⟩ := h io hio
    exact ⟨a, ha, inRange_step hin⟩

theorem gathered_cons {chunk rest out : List UInt8} {r : Except IoError Unit} {issued : List Io}
    {block : Block} (hc : chunk.length = blockSize) (hlba : lba < blockCount)
    (hread : read d (UInt64.ofNat lba) = .ok block) (h : Gathered d (lba+1) rest r out issued) :
    Gathered d lba (chunk ++ rest) r (block.bytes ++ out)
      (⟨some (UInt64.ofNat lba), true⟩::issued) := by
  have hblock : block = contents d (UInt64.ofNat lba) := read_contents d _ block hread
  constructor
  · rw [blocks_append hc]
    exact range_cons hlba h.range
  · intro hok
    obtain ⟨hr, hbytes⟩ := h.ok (forall_ok_cons.mp hok).2
    refine ⟨hr, fun k hk => ?_⟩
    rw [List.length_append, hc] at hk
    by_cases hlt : k < blockSize
    · rw [byte_block d lba k hlt, ← hblock]
      exact List.getD_append _ _ _ _ (by rw [block.size]; exact hlt)
    · have hge : blockSize ≤ k := Nat.le_of_not_lt hlt
      rw [byte_next d lba k hge, ← hbytes (k-blockSize) (by omega),
        List.getD_append_right _ _ _ _ (by rw [block.size]; exact hge), block.size]
  · intro ⟨io, hio, hfail⟩
    rcases List.mem_cons.mp hio with rfl | hio
    · cases hfail
    · exact h.failed ⟨io, hio, hfail⟩
  · intro hw
    exact forall_ok_cons.mpr ⟨rfl, h.works hw⟩
  · rw [List.length_append, List.length_append, h.length, block.size, hc]

theorem stored_cons {chunk rest : List UInt8} {r : Except IoError Unit} {issued : List Io}
    {d₁ d' : D} (hc : chunk.length = blockSize) (hlba : lba < blockCount)
    (hwrite : write d ⟨chunk, hc⟩ (UInt64.ofNat lba) = (.ok (), d₁))
    (h : Stored d₁ (lba+1) rest r d' issued) :
    Stored d lba (chunk ++ rest) r d' (⟨some (UInt64.ofNat lba), true⟩::issued) := by
  have hd₁ : d₁ = (write d ⟨chunk, hc⟩ (UInt64.ofNat lba)).2 := by rw [hwrite]
  have hself : contents d₁ (UInt64.ofNat lba) = ⟨chunk, hc⟩ := by
    rw [hd₁]
    apply write_self
    rw [hwrite]
  have hothers : ∀ a, a ≠ UInt64.ofNat lba → contents d₁ a = contents d a := by
    intro a ha
    rw [hd₁]
    exact write_other d _ _ a ha
  have hone : d₁ = (performAll d [.write ⟨chunk, hc⟩ (UInt64.ofNat lba)]).2 := hd₁
  constructor
  · rw [blocks_append hc]
    exact range_cons hlba h.range
  · intro hok
    obtain ⟨hr, hbytes⟩ := h.ok (forall_ok_cons.mp hok).2
    refine ⟨hr, fun k hk => ?_⟩
    rw [List.length_append, hc] at hk
    by_cases hlt : k < blockSize
    · -- the rest of the loop writes behind this block
      have hkept : contents d' (UInt64.ofNat lba) = contents d₁ (UInt64.ofNat lba) := by
        apply h.frame
        intro hin
        have hlo := hin.1
        rw [lba_toNat hlba] at hlo
        omega
      rw [byte_block d' lba k hlt, hkept, hself]
      exact (List.getD_append _ _ _ _ (by rw [hc]; exact hlt)).symm
    · have hge : blockSize ≤ k := Nat.le_of_not_lt hlt
      rw [byte_next d' lba k hge, hbytes (k-blockSize) (by omega),
        List.getD_append_right _ _ _ _ (by rw [hc]; exact hge), hc]
  · intro ⟨io, hio, hfail⟩
    rcases List.mem_cons.mp hio with rfl | hio
    · cases hfail
    · exact h.failed ⟨io, hio, hfail⟩
  · intro hw
    refine forall_ok_cons.mpr ⟨rfl, h.works ?_⟩
    rw [hone]
    exact works_performAll hw _
  · intro a ha
    rw [blocks_append hc] at ha
    rw [h.frame a fun hin => ha (inRange_step hin)]
    apply hothers
    intro heq
    rw [heq] at ha
    exact ha (inRange_self hlba)
  · obtain ⟨as, has⟩ := h.accesses
    refine ⟨.write ⟨chunk, hc⟩ (UInt64.ofNat lba)::as, ?_⟩
    rw [has, hone]
    rfl

end Store

end UsbArmory.Storage.LfsDriver
