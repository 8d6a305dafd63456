import UsbArmory.Boot.RoundTrip

/-!
# The flags of a command

The writer shifts the discriminant of the flag into the parameter byte, the
reader tests bits of it.
-/

set_option autoImplicit false

namespace UsbArmory.Boot.CommandFlags
open UsbArmory.Library.Word UsbArmory.Library.Binary UsbArmory.Boot.Commands
open UsbArmory.Boot.Encoding UsbArmory.Boot.RoundTrip

variable {o : Overflow} {command : WriteDataCommand} {length : UInt16} {flags : Flags}
variable {avs : List AddressValue}

/-- The bytes of the command are read as that command and nothing else. -/
def Survives (o : Overflow) (command : WriteDataCommand) : Prop :=
  ∃ bytes, (Writer.WriteDataCommand.write command).run [] = .ok ((), bytes) ∧
    (Command.parse o command.header.length).run bytes = .ok ([.writeData command], [])

theorem parse_command (o : Overflow) (flags : Flags) (hlen : length.toNat = 4+8*avs.length) :
    (Command.parse o length).run (commandBytes ⟨⟨commandTag, length, ⟨.b4, flags⟩⟩, avs⟩) =
      .ok ([.writeData ⟨⟨commandTag, length, ⟨.b4, seen flags⟩⟩, avs⟩], []) := by
  have hne : length ≠ 0 := by
    rintro rfl
    exact absurd hlen (by
      show (0 : ℕ) ≠ _
      omega)
  have hread : ∀ fuel, Reads (Command.parseLoop o (fuel+1) length)
      (commandBytes ⟨⟨commandTag, length, ⟨.b4, flags⟩⟩, avs⟩)
      [.writeData ⟨⟨commandTag, length, ⟨.b4, seen flags⟩⟩, avs⟩] := by
    intro fuel
    unfold Command.parseLoop
    rw [if_neg hne]
    refine reads_last (reads_command_seen flags (sub16_self o length) hlen) ?_
    show Reads (Command.parseLoop o fuel 0 >>= _) [] _
    rw [parseLoop_zero]
    exact reads_step (reads_pure []) (reads_pure _)
  rw [Command.parse, run_get]
  have hall := hread (commandBytes ⟨⟨commandTag, length, ⟨.b4, flags⟩⟩, avs⟩).length []
  rw [List.append_nil] at hall
  exact hall

theorem write_command (h : command.header.parameter.bytes = .b4) :
    (Writer.WriteDataCommand.write command).run [] = .ok ((), commandBytes command) :=
  writes_command command h []

theorem survives_of_tag (h : flags ≠ .clearBitmask) (hlen : length.toNat = 4+8*avs.length) :
    Survives o ⟨⟨commandTag, length, ⟨.b4, flags⟩⟩, avs⟩ := by
  have hparse := parse_command o flags hlen
  rw [seen_eq h] at hparse
  exact ⟨_, write_command rfl, hparse⟩

theorem clear_not_survives (hlen : length.toNat = 4+8*avs.length) :
    ¬Survives o ⟨⟨commandTag, length, ⟨.b4, .clearBitmask⟩⟩, avs⟩ := by
  rintro ⟨bytes, hwrite, hparse⟩
  cases hwrite.symm.trans (write_command rfl)
  cases hparse.symm.trans (parse_command o .clearBitmask hlen)

theorem foreign_not_survives (h4 : command.header.parameter.bytes = .b4)
    (hlen : command.header.length.toNat = 4+8*command.addressValue.length)
    (htag : command.header.tag ≠ commandTag) : ¬Survives o command := by
  rintro ⟨bytes, hwrite, hparse⟩
  cases hwrite.symm.trans (write_command h4)
  have hne : command.header.length ≠ 0 := by
    intro hzero
    rw [hzero] at hlen
    exact absurd hlen (by
      show (0 : ℕ) ≠ _
      omega)
  have hno : [commandTag].isPrefixOf (commandBytes command) = false := by
    show (commandTag == command.header.tag && _) = false
    rw [beq_eq_false_iff_ne.mpr htag.symm, Bool.false_and]
  rw [Command.parse, run_get, Command.parseLoop, if_neg hne] at hparse
  obtain ⟨⟨cmd, left⟩, rest, hcommand, -⟩ := bind_ok hparse
  obtain ⟨header, rest, hheader, -⟩ := bind_ok hcommand
  obtain ⟨tag, rest, htagged, -⟩ := bind_ok hheader
  have hfail : (tagBytes [commandTag]).run (commandBytes command) = .error (.error ()) := by
    show (if [commandTag].isPrefixOf (commandBytes command) then _ else _) = _
    rw [hno]
    rfl
  cases htagged.symm.trans hfail

/-- A command of four-byte pairs survives unless it clears a bitmask. -/
theorem survives_iff (o : Overflow) (command : WriteDataCommand)
    (h4 : command.header.parameter.bytes = .b4)
    (hlen : command.header.length.toNat = 4+8*command.addressValue.length) :
    Survives o command ↔
      command.header.tag = commandTag ∧ command.header.parameter.flags ≠ .clearBitmask := by
  constructor
  · intro h
    have htag : command.header.tag = commandTag := by
      by_contra hne
      exact foreign_not_survives h4 hlen hne h
    refine ⟨htag, fun hclear => ?_⟩
    obtain ⟨⟨tag, length, bytes, flags⟩, avs⟩ := command
    cases h4
    cases htag
    cases hclear
    exact clear_not_survives hlen h
  · rintro ⟨htag, hflags⟩
    obtain ⟨⟨tag, length, bytes, flags⟩, avs⟩ := command
    cases h4
    cases htag
    exact survives_of_tag hflags hlen

theorem survives_iff_set : Survives .wraps
    ⟨⟨commandTag, 12, ⟨.b4, .setBitmask⟩⟩, [⟨0x021B001C, 0x8000⟩]⟩ :=
  (survives_iff .wraps _ rfl (by decide)).mpr ⟨rfl, by decide⟩

theorem clear_lost : ¬Survives .wraps
    ⟨⟨commandTag, 12, ⟨.b4, .clearBitmask⟩⟩, [⟨0x021B001C, 0x8000⟩]⟩ :=
  clear_not_survives (by decide)

end UsbArmory.Boot.CommandFlags
