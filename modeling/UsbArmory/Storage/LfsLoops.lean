import UsbArmory.Storage.LfsDriver

/-!
# The loops of the driver

Over whole blocks of the file system no chunk is short, so the loops never
panic. What they leave behind is proved chunk by chunk.
-/

set_option autoImplicit false

namespace UsbArmory.Storage.LfsLoops
open UsbArmory.Library.Chunks UsbArmory.Storage.MbrDisk UsbArmory.Storage.Accesses
open UsbArmory.Storage.LfsDriver ManagedBlockDevice BlockStore

variable {D E : Type} [BlockStore D E]

theorem readChunks_spec (d : D) (buf : List UInt8) (hbuf : blockSize ∣ buf.length) :
    ∀ lba, lba+buf.length/blockSize ≤ blockCount → blockCount ≤ (totalBlocks d).toNat →
      ∃ r out issued, readChunks d (chunks blockSize buf) lba = some (r, out, issued) ∧
        Gathered d lba buf r out issued := by
  apply chunk_induction (P := fun buf => ∀ lba, lba+buf.length/blockSize ≤ blockCount →
    blockCount ≤ (totalBlocks d).toNat →
      ∃ r out issued, readChunks d (chunks blockSize buf) lba = some (r, out, issued) ∧
        Gathered d lba buf r out issued) ?_ ?_ buf hbuf
  · intro lba _ _
    refine ⟨.ok (), [], [], rfl, ?_⟩
    exact ⟨fun io hio => absurd hio List.not_mem_nil,
      fun _ => ⟨rfl, fun k hk => absurd hk (by simp)⟩,
      fun ⟨io, hio, _⟩ => absurd hio List.not_mem_nil,
      fun _ io hio => absurd hio List.not_mem_nil, rfl⟩
  · intro chunk rest hc hrest ih lba hlba hsize
    rw [blocks_append hc] at hlba
    have hin : lba < blockCount :=
      Nat.lt_of_lt_of_le (Nat.lt_add_of_pos_right (Nat.succ_pos _)) hlba
    rw [chunks_append blockSize_pos hc]
    cases hread : read d (UInt64.ofNat lba) with
    | error err =>
      refine ⟨.error .io, chunk ++ (chunks blockSize rest).flatten,
        [⟨some (UInt64.ofNat lba), false⟩], by simp only [readChunks, hread], ?_⟩
      rw [chunks_flatten blockSize_pos rest]
      constructor
      · intro io hio
        rw [List.mem_singleton.mp hio, blocks_append hc]
        exact ⟨_, rfl, inRange_self hin⟩
      · intro hok
        exact absurd (hok _ List.mem_cons_self) (by simp)
      · intro _
        rfl
      · intro hw
        have hlt : UInt64.ofNat lba < totalBlocks d := by
          rw [UInt64.lt_iff_toNat_lt, lba_toNat hin]
          omega
        obtain ⟨block, hblock⟩ := (hw []).1 _ hlt
        exact absurd (hread.symm.trans hblock) (by simp)
      · rfl
    | ok block =>
      obtain ⟨r, out, issued, hrun, hg⟩ := ih (lba+1) (by omega) hsize
      refine ⟨r, block.bytes ++ out, ⟨some (UInt64.ofNat lba), true⟩::issued, ?_,
        gathered_cons hc hin hread hg⟩
      simp [readChunks, hread, hc, hrun]

theorem writeChunks_spec (data : List UInt8) (hdata : blockSize ∣ data.length) :
    ∀ (d : D) (lba : ℕ), lba+data.length/blockSize ≤ blockCount →
      blockCount ≤ (totalBlocks d).toNat →
      ∃ r d' issued, writeChunks d (chunks blockSize data) lba = some (r, d', issued) ∧
        Stored d lba data r d' issued := by
  apply chunk_induction (P := fun data => ∀ (d : D) (lba : ℕ),
    lba+data.length/blockSize ≤ blockCount → blockCount ≤ (totalBlocks d).toNat →
      ∃ r d' issued, writeChunks d (chunks blockSize data) lba = some (r, d', issued) ∧
        Stored d lba data r d' issued) ?_ ?_ data hdata
  · intro d lba _ _
    refine ⟨.ok (), d, [], rfl, ?_⟩
    exact ⟨fun io hio => absurd hio List.not_mem_nil,
      fun _ => ⟨rfl, fun k hk => absurd hk (by simp)⟩,
      fun ⟨io, hio, _⟩ => absurd hio List.not_mem_nil,
      fun _ io hio => absurd hio List.not_mem_nil, fun _ _ => rfl, [], rfl⟩
  · intro chunk rest hc hrest ih d lba hlba hsize
    rw [blocks_append hc] at hlba
    have hin : lba < blockCount :=
      Nat.lt_of_lt_of_le (Nat.lt_add_of_pos_right (Nat.succ_pos _)) hlba
    rw [chunks_append blockSize_pos hc]
    cases hwrite : write d ⟨chunk, hc⟩ (UInt64.ofNat lba) with
    | mk res d₁ =>
      have hd₁ : d₁ = (performAll d [.write ⟨chunk, hc⟩ (UInt64.ofNat lba)]).2 := by
        show d₁ = (write d ⟨chunk, hc⟩ (UInt64.ofNat lba)).2
        rw [hwrite]
      cases res with
      | error err =>
        refine ⟨.error .io, d₁, [⟨some (UInt64.ofNat lba), false⟩],
          by simp only [writeChunks, hc, hwrite, dif_pos], ?_⟩
        constructor
        · intro io hio
          rw [List.mem_singleton.mp hio, blocks_append hc]
          exact ⟨_, rfl, inRange_self hin⟩
        · intro hok
          exact absurd (hok _ List.mem_cons_self) (by simp)
        · intro _
          rfl
        · intro hw
          have hlt : UInt64.ofNat lba < totalBlocks d := by
            rw [UInt64.lt_iff_toNat_lt, lba_toNat hin]
            omega
          have hok := (hw []).2.1 _ ⟨chunk, hc⟩ hlt
          have herr : (write d ⟨chunk, hc⟩ (UInt64.ofNat lba)).1 = .error err := by rw [hwrite]
          exact absurd (hok.symm.trans herr) (by simp)
        · intro a ha
          rw [blocks_append hc] at ha
          rw [hd₁]
          apply performAll_contents
          intro b hb
          rw [List.mem_singleton.mp hb]
          intro heq
          cases heq
          exact ha (inRange_self hin)
        · exact ⟨_, hd₁⟩
      | ok u =>
        have hsize₁ : blockCount ≤ (totalBlocks d₁).toNat := by
          rw [hd₁, performAll_total]
          exact hsize
        obtain ⟨r, d', issued, hrun, hst⟩ := ih d₁ (lba+1) (by omega) hsize₁
        refine ⟨r, d', ⟨some (UInt64.ofNat lba), true⟩::issued, ?_, stored_cons hc hin hwrite hst⟩
        simp [writeChunks, hc, hwrite, hrun]

end UsbArmory.Storage.LfsLoops
