import UsbArmory.Boot.Writer

/-!
# What the writers write, the readers read

Each section has its bytes: what its writer appends, and what its parser takes
as the section.
-/

set_option autoImplicit false

namespace UsbArmory.Boot.Encoding
open UsbArmory.Library.Word UsbArmory.Library.Binary UsbArmory.Boot.Commands
open UsbArmory.Boot.Reader (Ivt BootData)

def headerBytes (header : Header) : ByteString :=
  [header.tag] ++ (toBe16 header.length ++ [header.version])

def commandHeaderBytes (header : WriteDataCommandHeader) : ByteString :=
  [header.tag] ++ (toBe16 header.length ++
    [header.parameter.bytes.toU8 ||| header.parameter.flags.toU8 <<< 3])

def pairBytes (av : AddressValue) : ByteString := toBe32 av.address ++ toBe32 av.value

def commandBytes (command : WriteDataCommand) : ByteString :=
  commandHeaderBytes command.header ++ command.addressValue.flatMap pairBytes

def ivtBytes (ivt : Ivt) : ByteString :=
  ([ivt.header.tag] ++ (toBe16 ivt.header.length ++ [ivt.header.version])) ++
    (toLe32 ivt.entry ++ ([0, 0, 0, 0] ++ (toLe32 ivt.dcd ++ (toLe32 ivt.boot ++
      (toLe32 ivt.self_ ++ (toLe32 ivt.csf ++ [0, 0, 0, 0]))))))

def bootDataBytes (bootData : BootData) : ByteString :=
  toLe32 bootData.start ++ (toLe32 bootData.len ++ toLe32 bootData.plugin)

theorem writes_header (header : Header) :
    Writes (Writer.Header.write header) (headerBytes header) :=
  writes_seq (writes_all _) (writes_seq (writes_all _) (writes_all _))

theorem writes_commandHeader (header : WriteDataCommandHeader) :
    Writes (Writer.WriteDataCommandHeader.write header) (commandHeaderBytes header) :=
  writes_seq (writes_all _) (writes_seq (writes_all _) (writes_all _))

theorem writes_pair (av : AddressValue) : Writes (Writer.AddressValue.write av) (pairBytes av) :=
  writes_seq (writes_all _) (writes_all _)

theorem writes_command (command : WriteDataCommand) (h : command.header.parameter.bytes = .b4) :
    Writes (Writer.WriteDataCommand.write command) (commandBytes command) := by
  refine writes_seq (writes_commandHeader command.header) ?_
  rw [← List.nil_append (command.addressValue.flatMap pairBytes)]
  refine writes_seq ?_ (writes_forM writes_pair command.addressValue)
  intro w
  unfold ensure
  rw [if_pos h, List.append_nil]
  rfl

theorem writes_ivt (ivt : Ivt) : Writes (Writer.Ivt.write ivt) (ivtBytes ivt) := by
  refine writes_seq (writes_seq (writes_all _) (writes_seq (writes_all _) (writes_all _))) ?_
  refine writes_seq (writes_all _) (writes_seq (writes_all _) (writes_seq (writes_all _) ?_))
  exact writes_seq (writes_all _) (writes_seq (writes_all _) (writes_seq (writes_all _)
    (writes_all _)))

theorem writes_bootData (bootData : BootData) :
    Writes (Writer.BootData.write bootData) (bootDataBytes bootData) :=
  writes_seq (writes_all _) (writes_seq (writes_all _) (writes_all _))

theorem reads_header {length : UInt16} (h : length ≤ maxLength) :
    Reads Header.parse (headerBytes ⟨headerTag, length, version⟩) ⟨headerTag, length, version⟩ := by
  refine reads_bind (reads_tagBytes [headerTag]) (reads_bind (reads_beU16 length) ?_)
  exact reads_step (reads_ensure h) (reads_last (reads_tagBytes [version]) (reads_pure _))

def seen : Flags → Flags
  | .clearBitmask => .writeValue
  | flags => flags

theorem seen_eq {flags : Flags} (h : flags ≠ .clearBitmask) : seen flags = flags := by
  cases flags with
  | clearBitmask => exact absurd rfl h
  | writeValue | setBitmask => rfl

def flagBits (flags : Flags) : List Bool := (bitsOf (flags.toU8 <<< 3)).take 5

theorem reads_flags (flags : Flags) : Reads Flags.parse (flagBits flags) (seen flags) := by
  cases flags with
  | writeValue =>
    exact reads_bind (reads_tagBits [false, false, false])
      (reads_last (reads_takeBits [false, false]) (reads_pure _))
  | clearBitmask =>
    exact reads_bind (reads_tagBits [false, false, false])
      (reads_last (reads_takeBits [true, false]) (reads_pure _))
  | setBitmask =>
    exact reads_bind (reads_tagBits [false, false, false])
      (reads_last (reads_takeBits [true, true]) (reads_pure _))

theorem reads_width (bytes : Bytes) :
    Reads Bytes.parse ((bitsOf bytes.toU8).drop 5) bytes := by
  cases bytes with
  | b1 => exact reads_last (reads_takeBits [false, false, true]) (reads_pure _)
  | b2 => exact reads_last (reads_takeBits [false, true, false]) (reads_pure _)
  | b4 => exact reads_last (reads_takeBits [true, false, false]) (reads_pure _)

theorem reads_parameter_seen (flags : Flags) (bytes : Bytes) :
    Reads (bits WriteDataCommandParameter.parse) [bytes.toU8 ||| flags.toU8 <<< 3]
      ⟨bytes, seen flags⟩ := by
  have hbits : bitsOf (bytes.toU8 ||| flags.toU8 <<< 3) =
      flagBits flags ++ (bitsOf bytes.toU8).drop 5 := by
    cases flags <;> cases bytes <;> decide
  apply reads_bits
  rw [hbits]
  exact reads_bind (reads_flags flags) (reads_last (reads_width bytes) (reads_pure _))

theorem reads_commandHeader_seen {length : UInt16} (flags : Flags) (bytes : Bytes) :
    Reads WriteDataCommandHeader.parse (commandHeaderBytes ⟨commandTag, length, ⟨bytes, flags⟩⟩)
      ⟨commandTag, length, ⟨bytes, seen flags⟩⟩ := by
  refine reads_bind (reads_tagBytes [commandTag]) (reads_bind (reads_beU16 length) ?_)
  exact reads_last (reads_parameter_seen flags bytes) (reads_pure _)

theorem reads_pair (av : AddressValue) : Reads (AddressValue.parseOne .b4) (pairBytes av) av :=
  reads_bind (reads_beU32 av.address) (reads_last (reads_beU32 av.value) (reads_pure _))

theorem reads_pairs {size : UInt16} {avs : List AddressValue} (h : size.toNat = 8*avs.length) :
    Reads (AddressValue.parse size .b4) (avs.flatMap pairBytes) avs := by
  have hcount : (size/(4+Bytes.b4.toU8.toUInt16)).toNat = avs.length := by
    rw [UInt16.toNat_div, h]
    exact Nat.mul_div_cancel_left _ (by decide)
  unfold AddressValue.parse
  rw [hcount]
  exact reads_count reads_pair avs

theorem reads_command_seen {o : Overflow} {remaining length left : UInt16} (flags : Flags)
    {avs : List AddressValue} (hleft : o.sub16 remaining length = some left)
    (hlen : length.toNat = 4+8*avs.length) :
    Reads (WriteDataCommand.parse o remaining)
      (commandBytes ⟨⟨commandTag, length, ⟨.b4, flags⟩⟩, avs⟩)
      (.writeData ⟨⟨commandTag, length, ⟨.b4, seen flags⟩⟩, avs⟩, left) := by
  have hfour : commandSize ≤ length := by
    rw [UInt16.le_iff_toNat_le, hlen]
    exact Nat.le_add_right 4 _
  have hsize : (length-commandSize).toNat = 8*avs.length := by
    rw [UInt16.toNat_sub_of_le _ _ hfour, hlen]
    exact Nat.add_sub_cancel_left 4 _
  refine reads_bind (reads_commandHeader_seen flags .b4) (reads_step (reads_expect hleft) ?_)
  refine reads_step (reads_expect (if_pos hfour)) ?_
  exact reads_last (reads_pairs hsize) (reads_pure _)

theorem reads_command {o : Overflow} {remaining length left : UInt16} {flags : Flags}
    {avs : List AddressValue} (hleft : o.sub16 remaining length = some left)
    (h : flags ≠ .clearBitmask) (hlen : length.toNat = 4+8*avs.length) :
    Reads (WriteDataCommand.parse o remaining)
      (commandBytes ⟨⟨commandTag, length, ⟨.b4, flags⟩⟩, avs⟩)
      (.writeData ⟨⟨commandTag, length, ⟨.b4, flags⟩⟩, avs⟩, left) := by
  have hread := reads_command_seen flags hleft hlen
  rw [seen_eq h] at hread
  exact hread

theorem reads_ivtHeader {v : UInt8} (hv : v = Reader.version0 ∨ v = Reader.version1) :
    Reads Reader.Ivt.Header.parse ([Reader.ivtTag] ++ (toBe16 Reader.ivtLength ++ [v]))
      ⟨Reader.ivtTag, Reader.ivtLength, v⟩ := by
  refine reads_bind (reads_tagBytes [Reader.ivtTag]) (reads_bind (reads_beU16 _) ?_)
  refine reads_step (reads_ensure rfl) ?_
  rcases hv with rfl | rfl
  · exact reads_last (reads_alt (reads_tagBytes [Reader.version0])) (reads_pure _)
  · exact reads_last (reads_alt_right (fun _ => rfl) (reads_tagBytes [Reader.version1]))
      (reads_pure _)

theorem reads_ivt {v : UInt8} (hv : v = Reader.version0 ∨ v = Reader.version1)
    (entry dcd boot self_ csf : UInt32) :
    Reads Reader.Ivt.parse
      (ivtBytes ⟨⟨Reader.ivtTag, Reader.ivtLength, v⟩, entry, dcd, boot, self_, csf⟩)
      ⟨⟨Reader.ivtTag, Reader.ivtLength, v⟩, entry, dcd, boot, self_, csf⟩ := by
  refine reads_bind (reads_ivtHeader hv) (reads_bind (reads_leU32 entry) ?_)
  refine reads_bind (reads_tagBytes [0, 0, 0, 0]) (reads_bind (reads_leU32 dcd) ?_)
  refine reads_bind (reads_leU32 boot) (reads_bind (reads_leU32 self_) ?_)
  exact reads_bind (reads_leU32 csf) (reads_last (reads_tagBytes [0, 0, 0, 0]) (reads_pure _))

theorem reads_bootData (bootData : BootData) :
    Reads Reader.BootData.parse (bootDataBytes bootData) bootData :=
  reads_bind (reads_leU32 _) (reads_bind (reads_leU32 _)
    (reads_last (reads_leU32 _) (reads_pure _)))

end UsbArmory.Boot.Encoding
