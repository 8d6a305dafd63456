import UsbArmory.Boot.Serialized
import UsbArmory.Boot.Walk

/-!
# The bytes of the commands that are parsed

What a walk of whole commands has consumed, and what the writer of the
commands makes of them.
-/

set_option autoImplicit false

namespace UsbArmory.Boot.Consumption
open UsbArmory.Library.Word UsbArmory.Library.Binary UsbArmory.Library.Run
open UsbArmory.Boot.Commands UsbArmory.Boot.Encoding UsbArmory.Boot.Serialized UsbArmory.Boot.Walk

variable {o : Overflow} {m left : UInt16} {input rest : ByteString} {command : WriteDataCommand}
variable {cmds : List Command}

def lengthOf : Command → ℕ
  | .writeData command => command.header.length.toNat

def Filled : Command → Prop
  | .writeData command => command.header.length.toNat =
      4+command.addressValue.length*(4+command.header.parameter.bytes.toU8.toNat)

def writeCommand : Command → Writer Unit
  | .writeData command => Writer.WriteDataCommand.write command

/-- A command that fits in what is left, is 4 plus a whole number of 8 bytes
long, and writes values or sets a bitmask, four bytes each. -/
def Whole (st : UInt16 × ByteString) : Prop := st.1 ≠ 0 → ∃ hi lo p body,
  Begins st.2 hi lo p body ∧ ofBe16 hi lo ≤ st.1 ∧ 8 ∣ (ofBe16 hi lo).toNat-4 ∧
    (p = 0x04 ∨ p = 0x1C)

def bytesOf : Command → ByteString
  | .writeData command => commandBytes command

theorem parameter_kept (p : UInt8) : p >>> 5 = 0 → widthOf p = some .b4 →
    (Bytes.b4.toU8 ||| (flagsOf p).toU8 <<< 3 = p ↔ p = 0x04 ∨ p = 0x1C) := by
  revert p
  refine forall_byte ?_
  decide +kernel

theorem width_kept (p : UInt8) : p = 0x04 ∨ p = 0x1C → widthOf p = some .b4 := by
  rintro (rfl | rfl) <;> rfl

theorem loop_zero {fuel : ℕ} (h : (Command.parseLoop o fuel 0).run input = .ok (cmds, rest)) :
    cmds = [] ∧ rest = input := by
  rw [RoundTrip.parseLoop_zero] at h
  cases h
  exact ⟨rfl, rfl⟩

theorem loop_took {fuel : ℕ} (hm : m ≠ 0)
    (h : (Command.parseLoop o fuel m).run input = .ok (cmds, rest)) :
    ∃ command left rest' fuel' cmds', fuel = fuel'+1 ∧ cmds = .writeData command::cmds' ∧
      Took o m input command left rest' ∧
      (Command.parseLoop o fuel' left).run rest' = .ok (cmds', rest) := by
  unfold Command.parseLoop at h
  rw [if_neg hm] at h
  cases fuel with
  | zero => cases h
  | succ fuel =>
    obtain ⟨⟨cmd, left⟩, rest', hcmd, h₁⟩ := bind_ok h
    obtain ⟨cmds', t, hloop, h₂⟩ := bind_ok h₁
    cases h₂
    have hout := command_outcome o hm input
    rw [hcmd] at hout
    cases hout with
    | took command _ _ _ htook => exact ⟨command, left, rest', fuel, cmds', rfl, rfl, htook, hloop⟩

theorem sub_le {o : Overflow} {a b c : UInt16} (h : o.sub16 a b = some c) (hle : b ≤ a) :
    c.toNat+b.toNat = a.toNat := by
  have hc : c = a-b := by
    cases o with
    | panics =>
      simp only [Overflow.sub16, if_pos hle] at h
      exact (Option.some.inj h).symm
    | wraps => exact (Option.some.inj h).symm
  rw [hc, UInt16.toNat_sub_of_le _ _ hle]
  exact Nat.sub_add_cancel (UInt16.le_iff_toNat_le.mp hle)

theorem took_bytes (h : Took o m input command left rest)
    (h4 : command.header.parameter.bytes = .b4) :
    ∃ hi lo p body, Begins input hi lo p body ∧ widthOf p = some .b4 ∧
      command.header.length = ofBe16 hi lo ∧ o.sub16 m (ofBe16 hi lo) = some left ∧
      command.addressValue.length = ((ofBe16 hi lo).toNat-4)/8 ∧ 4 ≤ (ofBe16 hi lo).toNat ∧
      body = command.addressValue.flatMap pairBytes ++ rest ∧
      commandBytes command = commandTag::hi::lo::(Bytes.b4.toU8 ||| (flagsOf p).toU8 <<< 3)::
        command.addressValue.flatMap pairBytes := by
  obtain ⟨hi, lo, p, body, w, hbegins, hw, hheader, hleft, hfour, hcount, -, -, hbody⟩ := h.bytes
  rw [hheader] at h4
  cases h4
  refine ⟨hi, lo, p, body, hbegins, hw, by rw [hheader], hleft, hcount,
    UInt16.le_iff_toNat_le.mp hfour, hbody rfl, ?_⟩
  rw [commandBytes, hheader, commandHeaderBytes, toBe16_ofBe16]
  rfl

theorem took_whole (hm : m ≠ 0) (h : Took o m input command left rest) (hwhole : Whole (m, input)) :
    command.header.parameter.bytes = .b4 ∧ input = commandBytes command ++ rest ∧
      left.toNat+command.header.length.toNat = m.toNat ∧ Filled (.writeData command) := by
  obtain ⟨hi, lo, p, body, hbegins, hle, hdvd, hp⟩ := hwhole hm
  have h4 : command.header.parameter.bytes = .b4 := by
    obtain ⟨hi', lo', p', body', w, hbegins', hw, hheader, -⟩ := h.bytes
    obtain ⟨rfl, rfl, rfl, rfl⟩ := begins_unique hbegins hbegins'
    cases hw.symm.trans (width_kept _ hp)
    rw [hheader]
  obtain ⟨hi', lo', p', body', hbegins', hw, hlength, hleft, hcount, hfour, hbody, hbytes⟩ :=
    took_bytes h h4
  obtain ⟨rfl, rfl, rfl, rfl⟩ := begins_unique hbegins hbegins'
  refine ⟨h4, ?_, ?_, ?_⟩
  · rw [hbytes, (parameter_kept _ hbegins.reserved hw).mpr hp, hbegins'.bytes, hbody]
    rfl
  · rw [hlength]
    exact sub_le hleft hle
  · have hw4 : Bytes.b4.toU8.toNat = 4 := rfl
    show command.header.length.toNat = _
    rw [hlength, h4, hcount, hw4]
    omega

theorem whole_took (h : Took o m input command left rest)
    (h4 : command.header.parameter.bytes = .b4) (hfilled : Filled (.writeData command))
    (hle : command.header.length.toNat ≤ m.toNat) {more : ByteString}
    (hinput : input = commandBytes command ++ more) : Whole (m, input) ∧ more = rest := by
  obtain ⟨hi, lo, p, body, hbegins, hw, hlength, -, hcount, hfour, hbody, hbytes⟩ := took_bytes h h4
  have heq := hbegins.bytes.symm.trans hinput
  rw [hbytes] at heq
  simp only [List.cons_append, List.cons.injEq, true_and] at heq
  obtain ⟨hp, hmore⟩ := heq
  have hw4 : Bytes.b4.toU8.toNat = 4 := rfl
  have hpairs : command.header.length.toNat = 4+command.addressValue.length*(4+4) := by
    have hf : command.header.length.toNat =
      4+command.addressValue.length*(4+command.header.parameter.bytes.toU8.toNat) := hfilled
    rw [h4, hw4] at hf
    exact hf
  refine ⟨fun _ => ⟨hi, lo, p, body, hbegins, ?_, ?_, ?_⟩, ?_⟩
  · rw [UInt16.le_iff_toNat_le, ← hlength]
    exact hle
  · rw [← hlength, hpairs]
    omega
  · exact (parameter_kept p hbegins.reserved hw).mp hp.symm
  · rw [hbody] at hmore
    exact (List.append_cancel_left hmore).symm

theorem loop_accounted (fuel : ℕ) (hwhole : Always (Next o) Whole (m, input))
    (h : (Command.parseLoop o fuel m).run input = .ok (cmds, rest)) :
    (∀ c ∈ cmds, ∃ command, c = .writeData command ∧ command.header.parameter.bytes = .b4) ∧
      (cmds.map lengthOf).sum = m.toNat ∧ (∀ c ∈ cmds, Filled c) ∧
      input = cmds.flatMap bytesOf ++ rest := by
  induction fuel generalizing m input cmds with
  | zero =>
    by_cases hm : m = 0
    · subst hm
      obtain ⟨rfl, rfl⟩ := loop_zero h
      exact ⟨nofun, rfl, nofun, rfl⟩
    · obtain ⟨_, _, _, _, _, hfuel, -⟩ := loop_took hm h
      cases hfuel
  | succ fuel ih =>
    by_cases hm : m = 0
    · subst hm
      obtain ⟨rfl, rfl⟩ := loop_zero h
      exact ⟨nofun, rfl, nofun, rfl⟩
    · obtain ⟨command, left, rest', fuel', cmds', hfuel, rfl, htook, hloop⟩ := loop_took hm h
      cases hfuel
      obtain ⟨hhere, hnext⟩ := always_iff.mp hwhole
      obtain ⟨h4, hbytes, hlength, hfilled⟩ := took_whole hm htook hhere
      obtain ⟨hwidths, hsum, hall, hrest⟩ := ih (hnext _ htook.next) hloop
      refine ⟨?_, ?_, ?_, ?_⟩
      · rintro c (_ | ⟨_, hc⟩)
        · exact ⟨command, rfl, h4⟩
        · exact hwidths c hc
      · rw [List.map_cons, List.sum_cons, hsum]
        show command.header.length.toNat+left.toNat = m.toNat
        omega
      · rintro c (_ | ⟨_, hc⟩)
        · exact hfilled
        · exact hall c hc
      · rw [List.flatMap_cons, List.append_assoc, ← hrest]
        exact hbytes

theorem loop_whole (fuel : ℕ) {more : ByteString}
    (h : (Command.parseLoop o fuel m).run input = .ok (cmds, rest))
    (hwidths : ∀ command, .writeData command ∈ cmds → command.header.parameter.bytes = .b4)
    (hsum : (cmds.map lengthOf).sum = m.toNat) (hfilled : ∀ c ∈ cmds, Filled c)
    (hinput : input = cmds.flatMap bytesOf ++ more) : Always (Next o) Whole (m, input) := by
  induction fuel generalizing m input cmds with
  | zero =>
    by_cases hm : m = 0
    · exact always_iff.mpr ⟨fun hne => absurd hm hne, fun st hst => by
        cases hst with
        | command hne => exact absurd hm hne⟩
    · obtain ⟨_, _, _, _, _, hfuel, -⟩ := loop_took hm h
      cases hfuel
  | succ fuel ih =>
    by_cases hm : m = 0
    · exact always_iff.mpr ⟨fun hne => absurd hm hne, fun st hst => by
        cases hst with
        | command hne => exact absurd hm hne⟩
    · obtain ⟨command, left, rest', fuel', cmds', hfuel, rfl, htook, hloop⟩ := loop_took hm h
      cases hfuel
      have h4 := hwidths command List.mem_cons_self
      have hsum' : command.header.length.toNat+(cmds'.map lengthOf).sum = m.toNat := hsum
      rw [List.flatMap_cons, List.append_assoc] at hinput
      obtain ⟨hhere, hmore⟩ := whole_took htook h4 (hfilled _ List.mem_cons_self) (by omega) hinput
      obtain ⟨-, -, hlength, -⟩ := took_whole hm htook hhere
      refine always_iff.mpr ⟨hhere, fun st hst => ?_⟩
      rw [next_unique htook.next hst]
      exact ih hloop (fun c hc => hwidths c (List.mem_cons_of_mem _ hc)) (by omega)
        (fun c hc => hfilled c (List.mem_cons_of_mem _ hc)) hmore.symm

theorem commands_written {t t' : ByteString}
    (h : (cmds.forM writeCommand).run t = .ok ((), t')) :
    (∀ command, .writeData command ∈ cmds → command.header.parameter.bytes = .b4) ∧
      t' = t ++ cmds.flatMap bytesOf := by
  induction cmds generalizing t with
  | nil =>
    cases h
    exact ⟨nofun, (List.append_nil _).symm⟩
  | cons c cmds ih =>
    obtain ⟨command⟩ := c
    obtain ⟨⟨⟩, u, hc, hrest⟩ := bind_ok h
    have h4 : command.header.parameter.bytes = .b4 := by
      obtain ⟨⟨⟩, v, -, hafter⟩ := bind_ok (show (Writer.WriteDataCommand.write command).run t = _
        from hc)
      obtain ⟨⟨⟩, v', hensure, -⟩ := bind_ok hafter
      exact (ensure_run_ok hensure).1
    cases hc.symm.trans (writes_command command h4 _)
    obtain ⟨hwidths, hafter⟩ := ih hrest
    constructor
    · rintro command' (_ | ⟨_, hmem⟩)
      · exact h4
      · exact hwidths command' hmem
    · rw [hafter, List.flatMap_cons, ← List.append_assoc]
      rfl

theorem writes_commands (hwidths : ∀ c ∈ cmds, ∃ command, c = .writeData command ∧
    command.header.parameter.bytes = .b4) :
    Writes (cmds.forM writeCommand) (cmds.flatMap bytesOf) := by
  induction cmds with
  | nil =>
    intro w
    rw [List.flatMap_nil, List.append_nil]
    rfl
  | cons c cmds ih =>
    obtain ⟨command, rfl, h4⟩ := hwidths c List.mem_cons_self
    exact writes_seq (writes_command command h4)
      (ih fun c hc => hwidths c (List.mem_cons_of_mem _ hc))

end UsbArmory.Boot.Consumption
