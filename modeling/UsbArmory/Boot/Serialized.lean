import UsbArmory.Boot.RoundTrip

/-!
# Reading a serialized DCD

The length of a DCD is computed on `u16` where it is written, checked where a
command is made of the pairs, and bounded where it is read. The three agree up
to 220 pairs.
-/

set_option autoImplicit false

namespace UsbArmory.Boot.Serialized
open UsbArmory.Library.Word UsbArmory.Library.Binary UsbArmory.Boot.Commands
open UsbArmory.Boot.Encoding UsbArmory.Boot.Written UsbArmory.Boot.RoundTrip

/-- The length field of the header that the bytes begin with. -/
def lengthField (bs : ByteString) : UInt16 := ofBe16 (bs.getD 1 0) (bs.getD 2 0)

def Readable (dcd : Writer.Dcd) : Prop :=
  (∃ message, dcd.intoBytes .wraps = .error (.panic message)) ∨
  ∃ bytes, dcd.intoBytes .wraps = .ok bytes ∧ (lengthField bytes).toNat = bytes.length ∧
    ∃ found header, (Dcd.parse .wraps).run bytes = .ok (found, []) ∧
      found.commands = [.writeData ⟨header, dcd.writes⟩]

variable {dcd : Writer.Dcd} {avs : List AddressValue}

def sizeOf (n : ℕ) : UInt16 := headerSize+commandSize+8*UInt16.ofNat n

theorem size_wraps (dcd : Writer.Dcd) : dcd.size .wraps = .ok (sizeOf dcd.writes.length) := rfl

theorem sizeOf_toNat (n : ℕ) : (sizeOf n).toNat = (8+8*n)%2^16 := by
  have height : (headerSize+commandSize).toNat = 8 := by decide
  have hfactor : (8 : UInt16).toNat = 8 := by decide
  rw [sizeOf, UInt16.toNat_add, UInt16.toNat_mul, UInt16.toNat_ofNat', height, hfactor]
  omega

theorem writes_of_lt (o : Overflow) (h : avs.length < 2^13) : ∃ length,
    length.toNat = 4+8*avs.length ∧
      WriteDataCommand.writes o avs = .ok ⟨⟨commandTag, length, ⟨.b4, .writeValue⟩⟩, avs⟩ := by
  have hlt : 8*avs.length < 2^16 := by omega
  have hpairs : (UInt16.ofNat (8*avs.length)).toNat = 8*avs.length := by
    rw [UInt16.toNat_ofNat']
    exact Nat.mod_eq_of_lt hlt
  have hfour : commandSize.toNat = 4 := by decide
  have hsum : commandSize.toNat+(UInt16.ofNat (8*avs.length)).toNat < 2^16 := by
    rw [hpairs, hfour]
    omega
  have hadd : o.add16 commandSize (UInt16.ofNat (8*avs.length)) =
      some (commandSize+UInt16.ofNat (8*avs.length)) := by
    cases o with
    | panics => exact if_pos hsum
    | wraps => rfl
  refine ⟨commandSize+UInt16.ofNat (8*avs.length), ?_, ?_⟩
  · rw [UInt16.toNat_add, Nat.mod_eq_of_lt hsum, hpairs, hfour]
  · unfold WriteDataCommand.writes
    rw [toU16, if_pos hlt]
    refine (bind_of_ok (expect_some rfl)).trans ?_
    refine (bind_of_ok (expect_some hadd)).trans ?_
    rfl

theorem writes_panics (o : Overflow) (h : 2^13 ≤ avs.length) :
    WriteDataCommand.writes o avs = .error (.panic "TODO") := by
  have hge : ¬8*avs.length < 2^16 := by omega
  unfold WriteDataCommand.writes
  rw [toU16, if_neg hge]
  rfl

theorem intoBytes_of_lt (h : dcd.writes.length < 2^13) : ∃ length,
    length.toNat = 4+8*dcd.writes.length ∧
      dcd.intoBytes .wraps = .ok (dcdBytes (sizeOf dcd.writes.length) length dcd.writes) := by
  obtain ⟨length, hlength, hcommand⟩ := writes_of_lt .wraps h
  refine ⟨length, hlength, intoBytes_of_writes (writes_lift (size_wraps dcd) ?_)⟩
  exact writes_seq (writes_header _) (writes_lift hcommand (writes_command _ rfl))

theorem intoBytes_panics (h : 2^13 ≤ dcd.writes.length) :
    dcd.intoBytes .wraps = .error (.panic "TODO") := by
  have hcommand := writes_panics .wraps h
  unfold Writer.Dcd.intoBytes Writer.Dcd.write
  rw [size_wraps]
  show (do
    let command ← (liftM (WriteDataCommand.writes .wraps dcd.writes) :
      Writer WriteDataCommand)
    Writer.WriteDataCommand.write command).run _ >>= _ = _
  rw [hcommand]
  rfl

theorem lengthField_dcdBytes (size length : UInt16) (avs : List AddressValue) :
    lengthField (dcdBytes size length avs) = size := ofBe16_toBe16 size

theorem readable_long (h : 2^13 ≤ dcd.writes.length) : Readable dcd :=
  Or.inl ⟨_, intoBytes_panics h⟩

theorem readable_short (h : dcd.writes.length ≤ 220) : Readable dcd := by
  have hlt : dcd.writes.length < 2^13 := by omega
  obtain ⟨length, hlength, hbytes⟩ := intoBytes_of_lt hlt
  have hsize : (sizeOf dcd.writes.length).toNat = 8+8*dcd.writes.length := by
    rw [sizeOf_toNat]
    omega
  have hmax : sizeOf dcd.writes.length ≤ maxLength := by
    have hlimit : maxLength.toNat = 1768 := by decide
    rw [UInt16.le_iff_toNat_le, hsize, hlimit]
    omega
  have hread := reads_dcd .wraps hsize hmax hlength []
  rw [List.append_nil] at hread
  refine Or.inr ⟨_, hbytes, ?_, _, _, hread, rfl⟩
  rw [lengthField_dcdBytes, hsize, dcdBytes_length]

theorem parse_panics (o : Overflow) {size : UInt16} (h : maxLength < size ∨ size < headerSize)
    (rest : ByteString) : ∃ message,
      (Dcd.parse o).run (headerBytes ⟨headerTag, size, version⟩ ++ rest) =
        .error (.panic message) := by
  by_cases hmax : size ≤ maxLength
  · have hfour : ¬headerSize ≤ size := by
      rcases h with h | h
      · exact absurd hmax (UInt16.not_le.mpr h)
      · exact UInt16.not_le.mpr h
    refine ⟨"TODO", ?_⟩
    rw [Dcd.parse, run_get, run_bind_reads (reads_header hmax)]
    show ((expect "TODO" (checkedSub size headerSize) : Parser UInt16) >>= _).run rest = _
    rw [checkedSub, if_neg hfour]
    rfl
  · refine ⟨"not yet implemented: bubble up error", ?_⟩
    have hheader : Header.parse.run (headerBytes ⟨headerTag, size, version⟩ ++ rest) =
        .error (.panic "not yet implemented: bubble up error") := by
      rw [Header.parse, headerBytes, List.append_assoc, run_bind_reads (reads_tagBytes [headerTag]),
        List.append_assoc, run_bind_reads (reads_beU16 size), ensure, if_neg hmax]
      rfl
    rw [Dcd.parse, run_get, run_bind_error hheader]

theorem not_readable (hlow : 220 < dcd.writes.length) (hhigh : dcd.writes.length < 2^13) :
    ¬Readable dcd := by
  obtain ⟨length, -, hbytes⟩ := intoBytes_of_lt hhigh
  have hlimit : maxLength.toNat = 1768 := by decide
  have hfour : headerSize.toNat = 4 := by decide
  have hsize : maxLength < sizeOf dcd.writes.length ∨ sizeOf dcd.writes.length < headerSize := by
    rw [UInt16.lt_iff_toNat_lt, UInt16.lt_iff_toNat_lt, sizeOf_toNat, hlimit, hfour]
    omega
  rintro (⟨message, hpanic⟩ | ⟨bytes, hok, -, found, header, hread, -⟩)
  · cases hbytes.symm.trans hpanic
  · cases hbytes.symm.trans hok
    obtain ⟨message, hpanic⟩ := parse_panics .wraps hsize
      (commandBytes ⟨⟨commandTag, length, ⟨.b4, .writeValue⟩⟩, dcd.writes⟩)
    cases hpanic.symm.trans hread

/-- What is serialized can be read up to the limit of the reader; from 8192
pairs on nothing is serialized. -/
theorem readable_iff (dcd : Writer.Dcd) :
    Readable dcd ↔ dcd.writes.length ≤ 220 ∨ 2^13 ≤ dcd.writes.length := by
  constructor
  · intro h
    by_contra hno
    have hlow : 220 < dcd.writes.length := by omega
    have hhigh : dcd.writes.length < 2^13 := by omega
    exact not_readable hlow hhigh h
  · rintro (h | h)
    · exact readable_short h
    · exact readable_long h

/-- One pair more than the reader takes. -/
theorem tooMany_not_readable : ¬Readable ⟨List.replicate 221 ⟨0x021B001C, 0x8000⟩⟩ :=
  not_readable (by rw [List.length_replicate]; decide) (by rw [List.length_replicate]; decide)

end UsbArmory.Boot.Serialized
