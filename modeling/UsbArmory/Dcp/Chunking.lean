import UsbArmory.Dcp.Issue

/-!
# How the message is cut does not matter

However a message is given to the hasher, the commands that the engine gets
carry it in order, in whole blocks and a leftover.
-/

set_option autoImplicit false

namespace UsbArmory.Dcp.Chunking
open UsbArmory.Dcp.Command UsbArmory.Dcp.Hash UsbArmory.Dcp.Issue

variable {buffer : Vec blockSize}

def blocksCmds : Bool → List Bytes → List (Cmd Bytes)
  | _, [] => []
  | first, blocks::pieces => blocksCmd first blocks::pieces.map (blocksCmd false)

theorem blocksCmds_append (first : Bool) (ps qs : List Bytes) :
    blocksCmds first (ps ++ qs) = blocksCmds first ps ++ blocksCmds (first && ps.isEmpty) qs := by
  cases ps with
  | nil => simp [blocksCmds]
  | cons p ps => cases qs <;> simp [blocksCmds]

/-- A piece that `process_blocks` takes. -/
def Whole (blocks : Bytes) : Prop := blocks ≠ [] ∧ blockSize ∣ blocks.length

/-- The pieces that an input has completed, with the leftover. -/
structure Taken (old input : Bytes) (pieces : List Bytes) (leftover : Bytes) : Prop where
  bytes : pieces.flatten ++ leftover = old ++ input
  whole : ∀ p ∈ pieces, Whole p
  short : leftover.length < blockSize

theorem Taken.trans {old input input' leftover leftover' : Bytes} {ps qs : List Bytes}
    (h : Taken old input ps leftover) (h' : Taken leftover input' qs leftover') :
    Taken old (input ++ input') (ps ++ qs) leftover' := by
  constructor
  · calc
      (ps ++ qs).flatten ++ leftover' = ps.flatten ++ (qs.flatten ++ leftover') := by simp
      _ = (ps.flatten ++ leftover) ++ input' := by rw [h'.bytes, List.append_assoc]
      _ = old ++ (input ++ input') := by rw [h.bytes, List.append_assoc]
  · intro p hp
    rcases List.mem_append.mp hp with hp | hp
    · exact h.whole p hp
    · exact h'.whole p hp
  · exact h'.short

theorem extendFromSlice_fits {cap : ℕ} {v : Vec cap} {other : Bytes}
    (h : v.bytes.length+other.length ≤ cap) :
    (v.extendFromSlice other).bytes = v.bytes ++ other ∧
      (v.extendFromSlice other).refused = v.refused := by
  unfold Vec.extendFromSlice
  rw [dif_pos h]
  exact ⟨rfl, rfl⟩

theorem processBlocks_eq {blocks : Bytes} (h : Whole blocks) (first : Bool) (d : Engine) :
    processBlocks blocks first d = (issueAll (blocksCmds first [blocks]) d).map (false, ·) := by
  have hmod : blocks.length%blockSize = 0 := Nat.mod_eq_zero_of_dvd h.2
  have hcmds : issueAll (blocksCmds first [blocks]) d = issue d (blocksCmd first blocks) := by
    show issue d (blocksCmd first blocks) >>= Except.ok = _
    cases issue d (blocksCmd first blocks) <;> rfl
  rw [hcmds]
  unfold processBlocks require
  rw [if_pos h.1, if_pos hmod]
  cases issue d (blocksCmd first blocks) <;> rfl

/-- What a way of taking in bytes does: it issues the commands of the pieces
and keeps the leftover. -/
def TakesIn (first : Bool) (buffer : Vec blockSize) (old input : Bytes)
    (r : Engine → Except Stop (Bool × Vec blockSize × Engine)) : Prop :=
  ∃ (pieces : List Bytes) (buffer' : Vec blockSize), Taken old input pieces buffer'.bytes ∧
    buffer'.refused = buffer.refused ∧
    ∀ d, r d = (issueAll (blocksCmds first pieces) d).map (first && pieces.isEmpty, buffer', ·)

theorem roundDown_dvd (n m : ℕ) : m ∣ roundDown n m := Nat.dvd_sub_mod n

theorem processAndPush_takesIn (first : Bool) (input : Bytes) (h : buffer.bytes = []) :
    TakesIn first buffer [] input (processAndPush first buffer input) := by
  have hempty : buffer.isEmpty = true := by simp [Vec.isEmpty, h]
  by_cases hlen : blockSize ≤ input.length
  · have hmod : input.length%blockSize < blockSize := Nat.mod_lt _ (by decide)
    have hround : roundDown input.length blockSize = input.length-input.length%blockSize := rfl
    have hle : roundDown input.length blockSize ≤ input.length := Nat.sub_le _ _
    have htake : (input.take (roundDown input.length blockSize)).length =
        roundDown input.length blockSize := by
      rw [List.length_take]
      exact Nat.min_eq_left hle
    have hdrop : (input.drop (roundDown input.length blockSize)).length < blockSize := by
      rw [List.length_drop, hround]
      omega
    have hwhole : Whole (input.take (roundDown input.length blockSize)) := by
      constructor
      · intro hnil
        rw [hnil, hround] at htake
        simp only [List.length_nil] at htake
        omega
      · rw [htake]
        exact roundDown_dvd _ _
    have hfits : buffer.bytes.length+(input.drop (roundDown input.length blockSize)).length ≤
        blockSize := by
      rw [h]
      simp only [List.length_nil]
      omega
    obtain ⟨hbytes, hrefused⟩ := extendFromSlice_fits hfits
    rw [h, List.nil_append] at hbytes
    refine ⟨[input.take (roundDown input.length blockSize)],
      buffer.extendFromSlice (input.drop (roundDown input.length blockSize)), ⟨?_, ?_, ?_⟩,
      hrefused, fun d => ?_⟩
    · rw [hbytes]
      simp
    · intro p hp
      rw [List.mem_singleton.mp hp]
      exact hwhole
    · rw [hbytes]
      exact hdrop
    · unfold processAndPush require
      rw [if_pos hempty, if_pos hlen]
      show (processBlocks (input.take (roundDown input.length blockSize)) first d >>= fun x =>
        Except.ok (x.1, buffer.extendFromSlice (input.drop (roundDown input.length blockSize)),
          x.2)) = _
      rw [processBlocks_eq hwhole]
      cases issueAll (blocksCmds first [input.take (roundDown input.length blockSize)]) d with
      | error stop => rfl
      | ok d' => simp [Except.map, bind, Except.bind]
  · have hfits : buffer.bytes.length+input.length ≤ blockSize := by
      rw [h]
      simp only [List.length_nil]
      omega
    obtain ⟨hbytes, hrefused⟩ := extendFromSlice_fits hfits
    rw [h, List.nil_append] at hbytes
    refine ⟨[], buffer.extendFromSlice input, ⟨?_, ?_, ?_⟩, hrefused, fun d => ?_⟩
    · rw [hbytes]
      rfl
    · intro p hp
      exact absurd hp List.not_mem_nil
    · rw [hbytes]
      omega
    · unfold processAndPush require
      rw [if_pos hempty, if_neg hlen]
      simp [blocksCmds, issueAll, Except.map, bind, Except.bind, pure, Except.pure]

theorem pushAndProcess_takesIn (first : Bool) (input : Bytes) (h : buffer.bytes ≠ [])
    (hshort : buffer.bytes.length < blockSize)
    (hlen : blockSize ≤ buffer.bytes.length+input.length) :
    TakesIn first buffer buffer.bytes input (pushAndProcess first buffer input) := by
  have hempty : buffer.isEmpty = false := by simp [Vec.isEmpty, h]
  have hsplit : blockSize-buffer.bytes.length ≤ input.length := by omega
  have hhead : (input.take (blockSize-buffer.bytes.length)).length =
      blockSize-buffer.bytes.length := by
    rw [List.length_take]
    exact Nat.min_eq_left hsplit
  have hfits : buffer.bytes.length+(input.take (blockSize-buffer.bytes.length)).length ≤
      blockSize := by
    rw [hhead]
    omega
  obtain ⟨hbytes, hrefused⟩ := extendFromSlice_fits hfits
  have hblock : (buffer.extendFromSlice (input.take (blockSize-buffer.bytes.length))).bytes.length =
      blockSize := by
    rw [hbytes, List.length_append, hhead]
    omega
  have hwhole : Whole (buffer.extendFromSlice
      (input.take (blockSize-buffer.bytes.length))).bytes := by
    constructor
    · intro hnil
      rw [hnil] at hblock
      exact absurd hblock (by decide)
    · exact ⟨1, hblock.trans (Nat.mul_one _).symm⟩
  have hclear : (buffer.extendFromSlice
      (input.take (blockSize-buffer.bytes.length))).clear.bytes = [] := rfl
  obtain ⟨ps, buffer', htaken, hkept, hrun⟩ := processAndPush_takesIn false
    (input.drop (blockSize-buffer.bytes.length)) hclear
  refine ⟨(buffer.extendFromSlice (input.take (blockSize-buffer.bytes.length))).bytes::ps, buffer',
    ⟨?_, ?_, htaken.short⟩, hkept.trans hrefused, fun d => ?_⟩
  · have hrest := htaken.bytes
    rw [List.nil_append] at hrest
    rw [List.flatten_cons, List.append_assoc, hrest, hbytes, List.append_assoc,
      List.take_append_drop]
  · intro p hp
    rcases List.mem_cons.mp hp with rfl | hp
    · exact hwhole
    · exact htaken.whole p hp
  · have hcmds : blocksCmds first ((buffer.extendFromSlice
        (input.take (blockSize-buffer.bytes.length))).bytes::ps) =
        blocksCmds first [(buffer.extendFromSlice
          (input.take (blockSize-buffer.bytes.length))).bytes] ++ blocksCmds false ps := by
      rw [← Bool.and_false first]
      exact blocksCmds_append first [_] ps
    unfold pushAndProcess require
    rw [if_pos hempty, if_pos hsplit]
    show (processBlocks (buffer.extendFromSlice
      (input.take (blockSize-buffer.bytes.length))).bytes first d >>= fun x =>
        processAndPush x.1 (buffer.extendFromSlice
          (input.take (blockSize-buffer.bytes.length))).clear
          (input.drop (blockSize-buffer.bytes.length)) x.2) = _
    rw [processBlocks_eq hwhole, hcmds, issueAll_append]
    cases issueAll (blocksCmds first [(buffer.extendFromSlice
      (input.take (blockSize-buffer.bytes.length))).bytes]) d with
    | error stop => rfl
    | ok d' =>
      simp only [Except.map, bind, Except.bind, hrun d', List.isEmpty_cons, Bool.and_false,
        Bool.false_and]

theorem takeIn_takesIn (first : Bool) (input : Bytes) (hshort : buffer.bytes.length < blockSize) :
    TakesIn first buffer buffer.bytes input (takeIn first buffer input) := by
  by_cases hempty : buffer.bytes = []
  · have hrun : takeIn first buffer input = processAndPush first buffer input := by
      funext d
      simp [takeIn, Vec.isEmpty, hempty]
    rw [hrun, hempty]
    exact processAndPush_takesIn first input hempty
  · have hne : buffer.isEmpty = false := by simp [Vec.isEmpty, hempty]
    by_cases hlen : buffer.bytes.length+input.length < blockSize
    · obtain ⟨hbytes, hrefused⟩ := extendFromSlice_fits (Nat.le_of_lt hlen)
      refine ⟨[], buffer.extendFromSlice input, ⟨?_, ?_, ?_⟩, hrefused, fun d => ?_⟩
      · rw [hbytes]
        rfl
      · intro p hp
        exact absurd hp List.not_mem_nil
      · rw [hbytes, List.length_append]
        exact hlen
      · unfold takeIn
        rw [hne, if_neg (by simp), if_pos hlen]
        simp [blocksCmds, issueAll, Except.map]
    · have hrun : takeIn first buffer input = pushAndProcess first buffer input := by
        funext d
        simp [takeIn, hne, hlen]
      rw [hrun]
      exact pushAndProcess_takesIn first input hempty hshort (Nat.le_of_not_lt hlen)

end UsbArmory.Dcp.Chunking
