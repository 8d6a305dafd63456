import UsbArmory.Boot.Consumption

/-!
# What a parsed DCD has consumed

A DCD accounts for its bytes exactly if each command that the parser comes to
fits in what is left, is whole, and has a parameter that the writer writes.
-/

set_option autoImplicit false

namespace UsbArmory.Boot.DeclaredBytes
open UsbArmory.Library.Word UsbArmory.Library.Binary UsbArmory.Library.Run
open UsbArmory.Library.Consume
open UsbArmory.Boot.Commands UsbArmory.Boot.Encoding UsbArmory.Boot.Serialized UsbArmory.Boot.Walk
open UsbArmory.Boot.Consumption

variable {o : Overflow} {input rest : ByteString} {dcd : Dcd}

def encode (dcd : Dcd) : Writer Unit := do
  Writer.Header.write dcd.header
  dcd.commands.forM writeCommand

structure Accounted (input : ByteString) (dcd : Dcd) (rest : ByteString) : Prop where
  consumed : dcd.header.length.toNat ≤ input.length ∧ rest = input.drop dcd.header.length.toNat
  lengths : 4+(dcd.commands.map lengthOf).sum = dcd.header.length.toNat
  pairs : ∀ c ∈ dcd.commands, Filled c
  encoded : (encode dcd).run [] = .ok ((), dcd.asBytes)

def Aligned (o : Overflow) (input : ByteString) : Prop :=
  Always (Next o) Whole (lengthField input-headerSize, input.drop 4)

theorem beU16_ok {a : UInt16} (h : beU16.run input = .ok (a, rest)) :
    ∃ hi lo, input = hi::lo::rest ∧ a = ofBe16 hi lo := by
  match input with
  | [] | [_] => cases h
  | hi::lo::tail =>
    cases h
    exact ⟨hi, lo, rfl, rfl⟩

theorem parse_ok (h : (Dcd.parse o).run input = .ok (dcd, rest)) : ∃ hi lo body fuel,
    input = headerTag::hi::lo::version::body ∧ dcd.header = ⟨headerTag, ofBe16 hi lo, version⟩ ∧
      headerSize ≤ ofBe16 hi lo ∧ (ofBe16 hi lo).toNat ≤ input.length ∧
      dcd.bytes = input.take (ofBe16 hi lo).toNat ∧
      (Command.parseLoop o fuel (ofBe16 hi lo-headerSize)).run body = .ok (dcd.commands, rest) := by
  rw [Dcd.parse, run_get] at h
  obtain ⟨header, t, hheader, h₁⟩ := bind_ok h
  obtain ⟨tag, t₁, htag, hheader⟩ := bind_ok hheader
  obtain ⟨length, t₂, hlength, hheader⟩ := bind_ok hheader
  obtain ⟨⟨⟩, t₃, hmax, hheader⟩ := bind_ok hheader
  obtain ⟨v, t₄, hversion, hheader⟩ := bind_ok hheader
  cases hheader
  obtain ⟨rfl, rfl⟩ := tagBytes_ok htag
  obtain ⟨hi, lo, rfl, rfl⟩ := beU16_ok hlength
  obtain ⟨-, rfl⟩ := ensure_run_ok hmax
  obtain ⟨rfl, rfl⟩ := tagBytes_ok hversion
  obtain ⟨size, t₅, hsize, h₂⟩ := bind_ok h₁
  obtain ⟨hsub, rfl⟩ := expect_run_ok hsize
  obtain ⟨commands, t₆, hcommands, h₃⟩ := bind_ok h₂
  obtain ⟨⟨⟩, t₇, hfits, h₄⟩ := bind_ok h₃
  obtain ⟨hle, rfl⟩ := ensure_run_ok hfits
  cases h₄
  have hfour : headerSize ≤ ofBe16 hi lo ∧ size = ofBe16 hi lo-headerSize := by
    simp only [checkedSub] at hsub
    split at hsub
    next hfour =>
      cases hsub
      exact ⟨hfour, rfl⟩
    next => cases hsub
  obtain ⟨hfour, rfl⟩ := hfour
  exact ⟨hi, lo, _, _, rfl, rfl, hfour, hle, rfl, hcommands⟩

/-- A parsed DCD accounts for its bytes exactly if every command that the
parser comes to is whole. -/
theorem accounted_iff_aligned (o : Overflow) (input : ByteString) (dcd : Dcd) (rest : ByteString)
    (h : (Dcd.parse o).run input = .ok (dcd, rest)) :
    Accounted input dcd rest ↔ Aligned o input := by
  obtain ⟨hi, lo, body, fuel, rfl, hheader, hfour, hle, hbytes, hloop⟩ := parse_ok h
  have hsize : headerSize.toNat = 4 := rfl
  have hleft : (ofBe16 hi lo-headerSize).toNat+4 = (ofBe16 hi lo).toNat := by
    rw [UInt16.toNat_sub_of_le _ _ hfour, hsize]
    exact Nat.sub_add_cancel (UInt16.le_iff_toNat_le.mp hfour)
  have hlen : dcd.header.length = ofBe16 hi lo := by rw [hheader]
  have hfront : headerBytes dcd.header = [headerTag, hi, lo, version] := by
    rw [hheader, headerBytes, toBe16_ofBe16]
    rfl
  have htake : (headerTag::hi::lo::version::body).take (ofBe16 hi lo).toNat =
      [headerTag, hi, lo, version] ++ body.take (ofBe16 hi lo-headerSize).toNat := by
    rw [← hleft]
    rfl
  have hlength : (headerTag::hi::lo::version::body).length = body.length+4 := rfl
  show Accounted _ dcd rest ↔ Always (Next o) Whole (ofBe16 hi lo-headerSize, body)
  constructor
  · intro hacc
    have hsum := hacc.lengths
    rw [hlen] at hsum
    obtain ⟨⟨⟩, t, hwrite, hcommands⟩ := bind_ok (show (encode dcd).run [] = _ from hacc.encoded)
    cases hwrite.symm.trans (writes_header dcd.header [])
    obtain ⟨hwidths, hall⟩ := commands_written hcommands
    have hbody : body.take (ofBe16 hi lo-headerSize).toNat = dcd.commands.flatMap bytesOf := by
      rw [Dcd.asBytes, hbytes, htake, hfront] at hall
      exact List.append_cancel_left hall
    have hinput : body = dcd.commands.flatMap bytesOf ++
        body.drop (ofBe16 hi lo-headerSize).toNat := by
      rw [← hbody]
      exact (List.take_append_drop _ _).symm
    exact loop_whole fuel hloop hwidths (by omega) hacc.pairs hinput
  · intro haligned
    obtain ⟨hwidths, hsum, hfilled, hbody⟩ := loop_accounted fuel haligned hloop
    have hcount : (dcd.commands.flatMap bytesOf).length = (ofBe16 hi lo-headerSize).toNat := by
      rw [← hsum, List.length_flatMap]
      congr 1
      refine List.map_congr_left fun c hc => ?_
      obtain ⟨command, rfl, h4⟩ := hwidths c hc
      have hf : command.header.length.toNat = 4+command.addressValue.length*
        (4+command.header.parameter.bytes.toU8.toNat) := hfilled _ hc
      have hw4 : Bytes.b4.toU8.toNat = 4 := rfl
      show (commandHeaderBytes command.header ++ _).length = command.header.length.toNat
      rw [hf, h4, hw4, List.length_append, Written.flatMap_pairs_length]
      show 4+8*command.addressValue.length = _
      omega
    have htaken : body.take (ofBe16 hi lo-headerSize).toNat = dcd.commands.flatMap bytesOf := by
      rw [← hcount, hbody]
      exact List.take_left
    constructor
    · rw [hlen]
      refine ⟨hle, ?_⟩
      rw [← hleft]
      show rest = body.drop (ofBe16 hi lo-headerSize).toNat
      rw [← hcount, hbody]
      exact List.drop_left.symm
    · rw [hsum, hlen]
      omega
    · exact hfilled
    · rw [Dcd.asBytes, hbytes, htake, htaken, ← hfront]
      exact writes_seq (writes_header dcd.header) (writes_commands hwidths) []

def onePair : ByteString :=
  [0xD2, 0x00, 0x10, 0x40, 0xCC, 0x00, 0x0C, 0x04, 0x02, 0x1B, 0x00, 0x1C, 0x00, 0x00, 0x80, 0x00]

theorem onePair_aligned : Aligned .wraps onePair := by
  refine always_iff.mpr ⟨fun _ => ⟨0x00, 0x0C, 0x04, _, ⟨rfl, rfl⟩, by decide, by decide, .inl rfl⟩,
    fun st hst => ?_⟩
  have hfirst : Next .wraps (lengthField onePair-headerSize, onePair.drop 4) (0, []) :=
    .command (w := .b4) (by decide) ⟨rfl, rfl⟩ rfl rfl (by decide) (by decide)
  rw [next_unique hfirst hst]
  exact always_iff.mpr ⟨fun hne => absurd rfl hne, fun st hst => by
    cases hst with
    | command hne => exact absurd rfl hne⟩

theorem accounted_iff_aligned_onePair : ∃ dcd,
    (Dcd.parse .wraps).run onePair = .ok (dcd, []) ∧ Accounted onePair dcd [] :=
  ⟨_, rfl, (accounted_iff_aligned .wraps onePair _ [] rfl).mpr onePair_aligned⟩

/-- A command of five bytes, of which the parser consumes four. -/
def uneven : ByteString := [0xD2, 0x00, 0x09, 0x40, 0xCC, 0x00, 0x05, 0x04, 0x00]

theorem uneven_not_accounted : ∃ dcd rest, (Dcd.parse .wraps).run uneven = .ok (dcd, rest) ∧
    ¬Accounted uneven dcd rest := by
  refine ⟨_, [0x00], rfl, fun h => ?_⟩
  cases h.consumed.2

end UsbArmory.Boot.DeclaredBytes
