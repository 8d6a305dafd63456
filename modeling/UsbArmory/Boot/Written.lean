import UsbArmory.Boot.Encoding

/-!
# What an image is written as

A writer that comes to its end has written its sections one after the other,
with the application after the reserved space.
-/

set_option autoImplicit false

namespace UsbArmory.Boot.Written
open UsbArmory.Library.Word UsbArmory.Library.Binary
open UsbArmory.Boot.Commands hiding Dcd
open UsbArmory.Boot.Writer (Dcd Image)
open UsbArmory.Boot.Encoding

variable {o : Overflow} {dcd : Dcd} {image : Image} {w w' : ByteString}

def dcdBytes (size length : UInt16) (avs : List AddressValue) : ByteString :=
  headerBytes ⟨headerTag, size, version⟩ ++
    commandBytes ⟨⟨commandTag, length, ⟨.b4, .writeValue⟩⟩, avs⟩

theorem flatMap_pairs_length (avs : List AddressValue) :
    (avs.flatMap pairBytes).length = 8*avs.length := by
  induction avs with
  | nil => rfl
  | cons av avs ih =>
    rw [List.flatMap_cons, List.length_append, ih, List.length_cons]
    show 8+8*avs.length = _
    omega

@[simp] theorem dcdBytes_length (size length : UInt16) (avs : List AddressValue) :
    (dcdBytes size length avs).length = 8+8*avs.length := by
  show (headerBytes _ ++ (commandHeaderBytes _ ++ avs.flatMap pairBytes)).length = _
  rw [List.length_append, List.length_append, flatMap_pairs_length]
  show 4+(4+8*avs.length) = _
  omega

theorem writes_ok {avs : List AddressValue} {command : WriteDataCommand}
    (h : WriteDataCommand.writes o avs = .ok command) :
    avs.length < 2^13 ∧ ∃ length, length.toNat = 4+8*avs.length ∧
      command = ⟨⟨commandTag, length, ⟨.b4, .writeValue⟩⟩, avs⟩ := by
  unfold WriteDataCommand.writes at h
  cases hp : toU16 (8*avs.length) with
  | none =>
    rw [hp] at h
    cases h
  | some pairs =>
    unfold toU16 at hp
    split at hp
    next hlt =>
      cases hp
      have hpairs : (UInt16.ofNat (8*avs.length)).toNat = 8*avs.length := by
        rw [UInt16.toNat_ofNat']
        exact Nat.mod_eq_of_lt hlt
      have hsum : commandSize.toNat+(UInt16.ofNat (8*avs.length)).toNat < 2^16 := by
        rw [hpairs]
        show 4+8*avs.length < 2^16
        omega
      have hadd : o.add16 commandSize (UInt16.ofNat (8*avs.length)) =
          some (commandSize+UInt16.ofNat (8*avs.length)) := by
        cases o with
        | panics => exact if_pos hsum
        | wraps => rfl
      have htoU16 : toU16 (8*avs.length) = some (UInt16.ofNat (8*avs.length)) := if_pos hlt
      simp only [htoU16, expect, pure_bind, hadd] at h
      cases h
      refine ⟨by omega, _, ?_, rfl⟩
      rw [UInt16.toNat_add, hpairs]
      show (4+8*avs.length)%2^16 = _
      omega
    next => cases hp

theorem dcd_write_ok (h : (Writer.Dcd.write o dcd).run w = .ok ((), w')) :
    ∃ size length, dcd.size o = .ok size ∧ dcd.writes.length < 2^13 ∧
      length.toNat = 4+8*dcd.writes.length ∧
      Writes (Writer.Dcd.write o dcd) (dcdBytes size length dcd.writes) := by
  unfold Writer.Dcd.write at h
  obtain ⟨size, t, hs, h₁⟩ := bind_ok h
  obtain ⟨hsize, rfl⟩ := lift_ok hs
  obtain ⟨⟨⟩, t', -, h₂⟩ := bind_ok h₁
  obtain ⟨command, t'', hc, -⟩ := bind_ok h₂
  obtain ⟨hcommand, rfl⟩ := lift_ok hc
  obtain ⟨hlt, length, hlength, rfl⟩ := writes_ok hcommand
  refine ⟨size, length, hsize, hlt, hlength, writes_lift hsize ?_⟩
  exact writes_seq (writes_header _) (writes_lift hcommand (writes_command _ rfl))

theorem run_collected {p : Writer Unit} {bs : ByteString}
    (h : (do let (_, bytes) ← p.run []; pure bytes) = Except.ok bs) : p.run [] = .ok ((), bs) := by
  cases hrun : p.run [] with
  | error stop =>
    rw [hrun] at h
    cases h
  | ok r =>
    rw [hrun] at h
    cases h
    rfl

theorem intoBytes_ok {bs : ByteString} (h : dcd.intoBytes o = .ok bs) :
    ∃ size length, dcd.size o = .ok size ∧ dcd.writes.length < 2^13 ∧
      length.toNat = 4+8*dcd.writes.length ∧ bs = dcdBytes size length dcd.writes := by
  have hrun := run_collected h
  obtain ⟨size, length, hsize, hlt, hlength, hwrites⟩ := dcd_write_ok hrun
  rw [hwrites []] at hrun
  cases hrun
  exact ⟨size, length, hsize, hlt, hlength, rfl⟩

theorem intoBytes_of_writes {bs : ByteString} (h : Writes (Writer.Dcd.write o dcd) bs) :
    dcd.intoBytes o = .ok bs := by
  unfold Writer.Dcd.intoBytes
  rw [h []]
  rfl

def Exact (o : Overflow) (dcd : Dcd) : Prop :=
  ∀ size, dcd.size o = .ok size → dcd.writes.length < 2^13 → size.toNat = 8+8*dcd.writes.length

theorem exact_panics (dcd : Dcd) : Exact .panics dcd := by
  intro size h hlt
  unfold Dcd.size at h
  cases hm : Overflow.panics.mul16 8 (UInt16.ofNat dcd.writes.length) with
  | none =>
    rw [hm] at h
    cases h
  | some pairs =>
    rw [hm] at h
    have hsum := add16_panics (expect_ok h)
    have hlen : (UInt16.ofNat dcd.writes.length).toNat = dcd.writes.length := by
      rw [UInt16.toNat_ofNat']
      exact Nat.mod_eq_of_lt (Nat.lt_trans hlt (by decide))
    rw [hsum, mul16_panics hm, hlen]
    rfl

def Section (o : Overflow) (bs : ByteString) : Option Dcd → Prop
  | none => bs = []
  | some dcd => dcd.intoBytes o = .ok bs

theorem writeDcd_ok {pos pos' : UInt32} {d : Option Dcd} (hpos : pos.toNat < 2^16)
    (hexact : ∀ dcd, d = some dcd → Exact o dcd)
    (h : (Writer.writeDcd o pos d).run w = .ok (pos', w')) :
    ∃ bs, Section o bs d ∧ w' = w ++ bs ∧ pos'.toNat = pos.toNat+bs.length := by
  cases d with
  | none =>
    cases h
    exact ⟨[], rfl, (List.append_nil w).symm, rfl⟩
  | some dcd =>
    unfold Writer.writeDcd at h
    obtain ⟨size, t, hs, h₁⟩ := bind_ok h
    obtain ⟨hsize, rfl⟩ := lift_ok hs
    obtain ⟨sum, t, ha, h₂⟩ := bind_ok h₁
    obtain ⟨hsum, rfl⟩ := expect_run_ok ha
    obtain ⟨⟨⟩, t, hwrite, h₃⟩ := bind_ok h₂
    cases h₃
    obtain ⟨size', length, hsize', hlt, -, hwrites⟩ := dcd_write_ok hwrite
    cases hsize.symm.trans hsize'
    have hlen : size.toUInt32.toNat = 8+8*dcd.writes.length := by
      rw [UInt16.toNat_toUInt32]
      exact hexact dcd rfl size hsize hlt
    obtain ⟨c, hc, hnat⟩ := add32_exact o pos size.toUInt32 (by
      rw [hlen]
      omega)
    cases hsum.symm.trans hc
    rw [hwrites t] at hwrite
    cases hwrite
    refine ⟨_, intoBytes_of_writes hwrites, rfl, ?_⟩
    rw [hnat, hlen, dcdBytes_length]

theorem write_ok (hexact : ∀ dcd, image.dcd = some dcd → Exact o dcd)
    (h : (image.write o).run w = .ok ((), w')) :
    ∃ len bs zeros, o.add32 (Writer.padding+Writer.reserved) (UInt32.ofNat image.app.length) =
        some len ∧ Section o bs image.dcd ∧ 44+bs.length+zeros = Writer.reserved.toNat ∧
      w' = w ++ (ivtBytes image.ivt ++ (bootDataBytes ⟨Writer.dramStart, len, 0⟩ ++
        (bs ++ (List.replicate zeros 0 ++ image.app)))) := by
  unfold Image.write at h
  obtain ⟨len, t, hl, h₁⟩ := bind_ok h
  obtain ⟨hlen, rfl⟩ := expect_run_ok hl
  obtain ⟨⟨⟩, t, hmax, h₂⟩ := bind_ok h₁
  obtain ⟨-, rfl⟩ := ensure_run_ok hmax
  obtain ⟨⟨⟩, t, hivt, h₃⟩ := bind_ok h₂
  rw [writes_ivt image.ivt] at hivt
  cases hivt
  obtain ⟨⟨⟩, t, hboot, h₄⟩ := bind_ok h₃
  rw [writes_bootData] at hboot
  cases hboot
  obtain ⟨pos, t, hdcd, h₅⟩ := bind_ok h₄
  obtain ⟨bs, hsection, rfl, hpos⟩ := writeDcd_ok (by decide) hexact hdcd
  obtain ⟨rest, t, hr, h₆⟩ := bind_ok h₅
  obtain ⟨hrest, rfl⟩ := expect_run_ok hr
  obtain ⟨⟨⟩, t, hzeros, h₇⟩ := bind_ok h₆
  cases hzeros
  cases h₇
  refine ⟨len, bs, rest.toNat, hlen, hsection, ?_, by simp only [List.append_assoc]⟩
  have hend : pos.toNat = 44+bs.length := hpos
  unfold Reader.checkedSub32 at hrest
  split at hrest
  next hle =>
    rw [← Option.some.inj hrest, UInt32.toNat_sub_of_le _ _ hle, ← hend]
    exact Nat.add_sub_of_le (UInt32.le_iff_toNat_le.mp hle)
  next => cases hrest

theorem drop_sections {a b c d app : ByteString} {n : ℕ}
    (h : a.length+b.length+c.length+d.length = n) :
    (a ++ (b ++ (c ++ (d ++ app)))).drop n = app := by
  have hassoc : a ++ (b ++ (c ++ (d ++ app))) = (a ++ b ++ c ++ d) ++ app := by
    simp only [List.append_assoc]
  have hlen : (a ++ b ++ c ++ d).length = n := by
    rw [List.length_append, List.length_append, List.length_append, h]
  rw [hassoc, ← hlen, List.drop_left]

theorem intoBytes_app {bytes : ByteString} (hexact : ∀ dcd, image.dcd = some dcd → Exact o dcd)
    (h : image.intoBytes o = .ok bytes) : bytes.drop Writer.reserved.toNat = image.app := by
  obtain ⟨len, bs, zeros, -, -, hzeros, hbytes⟩ := write_ok hexact (run_collected h)
  rw [hbytes, List.nil_append]
  apply drop_sections
  rw [List.length_replicate, ← hzeros]
  rfl

end UsbArmory.Boot.Written
