import UsbArmory.Storage.LfsLoops

/-!
# One call of the driver

The calls that littlefs makes have offsets and lengths in whole blocks of the
file system. A call succeeds if its accesses do, and then does what it does to
an array of bytes. If an access fails, the call reports it and has changed
blocks of its own range at most.
-/

set_option autoImplicit false

namespace UsbArmory.Storage.LfsCalls
open UsbArmory.Library.Chunks UsbArmory.Storage.MbrDisk UsbArmory.Storage.Accesses
open UsbArmory.Storage.LfsDriver UsbArmory.Storage.LfsLoops ManagedBlockDevice BlockStore

inductive Call where
  | read (off : ℕ) (buf : List UInt8)
  | write (off : ℕ) (data : List UInt8)
  | erase (off len : ℕ)

def Call.off : Call → ℕ
  | .read off _ => off
  | .write off _ => off
  | .erase off _ => off

def Call.len : Call → ℕ
  | .read _ buf => buf.length
  | .write _ data => data.length
  | .erase _ len => len

/-- What littlefs promises: whole blocks of the file system. -/
structure Legal (c : Call) : Prop where
  off : blockSize ∣ c.off
  len : blockSize ∣ c.len
  inside : c.off+c.len ≤ blockCount*blockSize

abbrev Array := ℕ → UInt8

def Call.apply : Call → Array → Array
  | .write off data, A => fun i =>
    if off ≤ i ∧ i < off+data.length then data.getD (i-off) 0 else A i
  | _, A => A

def Call.bytes : Call → Array → List UInt8
  | .read off buf, A => (List.range buf.length).map fun k => A (off+k)
  | .write _ data, _ => data
  | .erase _ _, _ => []

/-- The array that the blocks of the file system make up. -/
def Shows {D E : Type} [BlockStore D E] (d : D) (A : Array) : Prop :=
  ∀ i, i < blockCount*blockSize → byte d i = A i

section Calls
variable {D E : Type} [ManagedBlockDevice D E]

def step (s : LfsStorage D) : Call → Option (Reply × LfsStorage D)
  | .read off buf => (s.read off buf).map fun r => (r, s)
  | .write off data => s.write off data
  | .erase off len => some (s.erase off len)

end Calls

section Served
variable {D E : Type} [BlockStore D E] {d : D} {s t : LfsStorage D} {c : Call}

/-- A call that finds the file system's size on the device. -/
structure Served (s : LfsStorage D) (c : Call) (r : Reply) (t : LfsStorage D) : Prop where
  range : ∀ io ∈ r.issued, ∀ a, io.lba = some a →
    InRange (c.off/blockSize) (c.len/blockSize) a ∧ a < totalBlocks s.inner
  ok : (∀ io ∈ r.issued, io.ok = true) → r.result = .ok c.len ∧
    ∀ A, Shows s.inner A → r.buf = c.bytes A ∧ Shows t.inner (c.apply A)
  failed : (∃ io ∈ r.issued, io.ok = false) → r.result = .error .io
  works : Works s.inner → ∀ io ∈ r.issued, io.ok = true
  frame : ∀ a, ¬InRange (c.off/blockSize) (c.len/blockSize) a →
    contents t.inner a = contents s.inner a
  kept : (∀ off data, c ≠ .write off data) → t = s
  accesses : ∃ as, t.inner = (performAll s.inner as).2

theorem legal_blocks (h : Legal c) : c.off/blockSize+c.len/blockSize ≤ blockCount ∧
    c.off = c.off/blockSize*blockSize ∧ c.len = c.len/blockSize*blockSize := by
  have hoff : c.off = c.off/blockSize*blockSize := (Nat.div_mul_cancel h.off).symm
  have hlen : c.len = c.len/blockSize*blockSize := (Nat.div_mul_cancel h.len).symm
  refine ⟨?_, hoff, hlen⟩
  have hin := h.inside
  rw [hoff, hlen, ← Nat.add_mul] at hin
  exact Nat.le_of_mul_le_mul_right hin blockSize_pos

theorem inRange_size (h : Legal c) (hsize : blockCount ≤ (totalBlocks d).toNat) {a : UInt64}
    (ha : InRange (c.off/blockSize) (c.len/blockSize) a) : a < totalBlocks d := by
  have hhi := ha.2
  have hblocks := (legal_blocks h).1
  rw [UInt64.lt_iff_toNat_lt]
  omega

theorem outside_block (h : Legal c) {i : ℕ} (hi : i < blockCount*blockSize)
    (hout : ¬(c.off ≤ i ∧ i < c.off+c.len)) :
    ¬InRange (c.off/blockSize) (c.len/blockSize) (UInt64.ofNat (i/blockSize)) := by
  intro hin
  obtain ⟨-, hoff, hlen⟩ := legal_blocks h
  have hblock : i/blockSize < blockCount := (Nat.div_lt_iff_lt_mul blockSize_pos).mpr hi
  unfold InRange at hin
  rw [lba_toNat hblock] at hin
  apply hout
  constructor
  · rw [hoff]
    exact (Nat.le_div_iff_mul_le blockSize_pos).mp hin.1
  · rw [hoff, hlen, ← Nat.add_mul]
    exact (Nat.div_lt_iff_lt_mul blockSize_pos).mp hin.2

theorem served_read {off : ℕ} {buf : List UInt8} (h : Legal (.read off buf))
    (hsize : blockCount ≤ (totalBlocks s.inner).toNat) :
    ∃ r t, step s (.read off buf) = some (r, t) ∧ Served s (.read off buf) r t := by
  obtain ⟨hblocks, hoff, -⟩ := legal_blocks h
  obtain ⟨res, out, issued, hrun, hg⟩ := readChunks_spec s.inner buf h.len _ hblocks hsize
  have hrun' : readChunks s.inner (chunks blockSize buf) (off/blockSize) =
      some (res, out, issued) :=
    hrun
  refine ⟨⟨res.map fun _ => buf.length, out, issued⟩, s, by simp [step, LfsStorage.read, hrun'], ?_⟩
  constructor
  · intro io hio a ha
    obtain ⟨a', ha', hin⟩ := hg.range io hio
    cases ha.symm.trans ha'
    exact ⟨hin, inRange_size h hsize hin⟩
  · intro hok
    obtain ⟨hres, hbytes⟩ := hg.ok hok
    rw [hres]
    refine ⟨rfl, fun A hA => ⟨?_, hA⟩⟩
    apply List.ext_getElem
    · simp [Call.bytes, hg.length]
    · intro k hk _
      have hk' : k < buf.length := hg.length ▸ hk
      have hinside : off+buf.length ≤ blockCount*blockSize := h.inside
      have hbyte := hbytes k hk'
      rw [← hoff, List.getD_eq_getElem _ _ hk] at hbyte
      have hshown : byte s.inner (off+k) = A (off+k) := hA _ (by omega)
      simpa [Call.bytes] using hbyte.trans hshown
  · intro hfail
    rw [hg.failed hfail]
    rfl
  · exact hg.works
  · intro a _
    rfl
  · intro _
    rfl
  · exact ⟨[], rfl⟩

theorem stored_shows {off : ℕ} {data : List UInt8} {d' : D} (h : Legal (.write off data))
    (hframe : ∀ a, ¬InRange (off/blockSize) (data.length/blockSize) a →
      contents d' a = contents d a)
    (hbytes : ∀ k, k < data.length → byte d' (off/blockSize*blockSize+k) = data.getD k 0)
    {A : Array} (hA : Shows d A) : Shows d' (Call.apply (.write off data) A) := by
  have hoff : off = off/blockSize*blockSize := (legal_blocks h).2.1
  intro i hi
  by_cases hin : off ≤ i ∧ i < off+data.length
  · have hk := hbytes (i-off) (by omega)
    rw [← hoff, Nat.add_sub_cancel' hin.1] at hk
    rw [hk]
    exact (if_pos hin).symm
  · have happly : Call.apply (.write off data) A i = A i := if_neg hin
    rw [happly, ← hA i hi, byte, byte, hframe _ (outside_block h hi hin)]

theorem range_flush {P : UInt64 → Prop} {ok : Bool} {issued : List Io}
    (h : ∀ io ∈ issued, ∀ a, io.lba = some a → P a) :
    ∀ io ∈ issued ++ [⟨none, ok⟩], ∀ a, io.lba = some a → P a := by
  intro io hio a ha
  rcases List.mem_append.mp hio with hio | hio
  · exact h io hio a ha
  · rw [List.mem_singleton.mp hio] at ha
    cases ha

theorem stored_result {lba : ℕ} {data : List UInt8} {res : Except IoError Unit} {d' : D}
    {issued : List Io} (h : Stored d lba data res d' issued) :
    (res = .ok () ∧ ∀ io ∈ issued, io.ok = true) ∨
      (res = .error .io ∧ ∃ io ∈ issued, io.ok = false) := by
  by_cases hall : ∀ io ∈ issued, io.ok = true
  · exact .inl ⟨(h.ok hall).1, hall⟩
  · simp only [not_forall, Bool.not_eq_true] at hall
    obtain ⟨io, hio, hfail⟩ := hall
    exact .inr ⟨h.failed ⟨io, hio, hfail⟩, io, hio, hfail⟩

section Write
variable {off : ℕ} {data : List UInt8} {res : Except IoError Unit} {issued : List Io}

theorem stored_range (h : Legal (.write off data))
    (hsize : blockCount ≤ (totalBlocks s.inner).toNat)
    (hst : Stored s.inner (off/blockSize) data res d issued) : ∀ io ∈ issued, ∀ a,
      io.lba = some a → InRange (off/blockSize) (data.length/blockSize) a ∧
        a < totalBlocks s.inner := by
  intro io hio a ha
  obtain ⟨a', ha', hin⟩ := hst.range io hio
  cases ha.symm.trans ha'
  exact ⟨hin, inRange_size h hsize hin⟩

theorem served_stopped (h : Legal (.write off data))
    (hsize : blockCount ≤ (totalBlocks s.inner).toNat)
    (hst : Stored s.inner (off/blockSize) data (.error .io) d issued)
    (hfail : ∃ io ∈ issued, io.ok = false) :
    Served s (.write off data) ⟨.error .io, data, issued⟩ ⟨d⟩ where
  range := stored_range h hsize hst
  ok hok := by
    obtain ⟨io, hio, hbad⟩ := hfail
    rw [hok io hio] at hbad
    cases hbad
  failed _ := rfl
  works := hst.works
  frame := hst.frame
  kept hno := absurd rfl (hno off data)
  accesses := hst.accesses

theorem flushed_frame (hst : Stored s.inner (off/blockSize) data res d issued) (a : UInt64)
    (ha : ¬InRange (off/blockSize) (data.length/blockSize) a) :
    contents (flush d).2 a = contents s.inner a := by
  rw [flush_contents d]
  exact hst.frame a ha

theorem flushed_accesses (hst : Stored s.inner (off/blockSize) data res d issued) :
    ∃ as, (flush d).2 = (performAll s.inner as).2 := by
  obtain ⟨as, has⟩ := hst.accesses
  refine ⟨as ++ [.flush], ?_⟩
  rw [performAll_append, ← has]
  rfl

theorem served_unflushed {err : E} (h : Legal (.write off data))
    (hsize : blockCount ≤ (totalBlocks s.inner).toNat)
    (hst : Stored s.inner (off/blockSize) data res d issued) (hflush : (flush d).1 = .error err) :
    Served s (.write off data) ⟨.error .io, data, issued ++ [⟨none, false⟩]⟩ ⟨(flush d).2⟩ where
  range := range_flush (stored_range h hsize hst)
  ok hok := absurd (hok ⟨none, false⟩ (by simp)) (by simp)
  failed _ := rfl
  works hworks := by
    obtain ⟨as, has⟩ := hst.accesses
    have hwd : Works d := has ▸ works_performAll hworks as
    have hok : (flush d).1 = .ok () := (hwd []).2.2
    rw [hflush] at hok
    cases hok
  frame := flushed_frame hst
  kept hno := absurd rfl (hno off data)
  accesses := flushed_accesses hst

theorem served_flushed (h : Legal (.write off data))
    (hsize : blockCount ≤ (totalBlocks s.inner).toNat)
    (hst : Stored s.inner (off/blockSize) data res d issued)
    (hgood : ∀ io ∈ issued, io.ok = true) :
    Served s (.write off data) ⟨.ok data.length, data, issued ++ [⟨none, true⟩]⟩
      ⟨(flush d).2⟩ := by
  have hall : ∀ io ∈ issued ++ [⟨none, true⟩], io.ok = true := by
    intro io hio
    rcases List.mem_append.mp hio with hio | hio
    · exact hgood io hio
    · rw [List.mem_singleton.mp hio]
  constructor
  · exact range_flush (stored_range h hsize hst)
  · intro _
    refine ⟨rfl, fun A hA => ⟨rfl, ?_⟩⟩
    apply stored_shows h (flushed_frame hst) ?_ hA
    intro k hk
    rw [byte, flush_contents d]
    exact (hst.ok hgood).2 k hk
  · rintro ⟨io, hio, hfail⟩
    rw [hall io hio] at hfail
    cases hfail
  · exact fun _ => hall
  · exact flushed_frame hst
  · exact fun hno => absurd rfl (hno off data)
  · exact flushed_accesses hst

theorem served_write (h : Legal (.write off data))
    (hsize : blockCount ≤ (totalBlocks s.inner).toNat) :
    ∃ r t, step s (.write off data) = some (r, t) ∧ Served s (.write off data) r t := by
  obtain ⟨hblocks, -, -⟩ := legal_blocks h
  obtain ⟨res, d, issued, hrun, hst⟩ := writeChunks_spec data h.len s.inner _ hblocks hsize
  have hrun' : writeChunks s.inner (chunks blockSize data) (off/blockSize) =
      some (res, d, issued) :=
    hrun
  rcases stored_result hst with ⟨rfl, hgood⟩ | ⟨rfl, hfail⟩
  · cases hflush : (flush d).1 with
    | error err =>
      refine ⟨_, _, ?_, served_unflushed h hsize hst hflush⟩
      have hpair : flush d = (.error err, (flush d).2) := Prod.ext hflush rfl
      simp only [step, LfsStorage.write, hrun', Option.bind_eq_bind, Option.bind_some]
      rw [hpair]
      rfl
    | ok u =>
      refine ⟨_, _, ?_, served_flushed h hsize hst hgood⟩
      have hpair : flush d = (.ok (), (flush d).2) := Prod.ext hflush rfl
      simp only [step, LfsStorage.write, hrun', Option.bind_eq_bind, Option.bind_some]
      rw [hpair]
      rfl
  · refine ⟨_, _, ?_, served_stopped h hsize hst hfail⟩
    simp [step, LfsStorage.write, hrun']

end Write

theorem served_erase {off len : ℕ} :
    ∃ r t, step s (.erase off len) = some (r, t) ∧ Served s (.erase off len) r t := by
  refine ⟨_, _, rfl, ?_⟩
  constructor
  · intro io hio
    exact absurd hio List.not_mem_nil
  · intro _
    exact ⟨rfl, fun A hA => ⟨rfl, hA⟩⟩
  · intro ⟨io, hio, _⟩
    exact absurd hio List.not_mem_nil
  · intro _ io hio
    exact absurd hio List.not_mem_nil
  · intro a _
    rfl
  · intro _
    rfl
  · exact ⟨[], rfl⟩

theorem step_served (h : Legal c) (hsize : blockCount ≤ (totalBlocks s.inner).toNat) :
    ∃ r t, step s c = some (r, t) ∧ Served s c r t := by
  cases c with
  | read off buf => exact served_read h hsize
  | write off data => exact served_write h hsize
  | erase off len => exact served_erase

theorem served_size {r : Reply} (h : Served s c r t)
    (hsize : blockCount ≤ (totalBlocks s.inner).toNat) :
    blockCount ≤ (totalBlocks t.inner).toNat := by
  obtain ⟨as, has⟩ := h.accesses
  rw [has, performAll_total]
  exact hsize

end Served

end UsbArmory.Storage.LfsCalls
