import UsbArmory.Boot.Written

/-!
# An image that has been written is read back

The parser of the image finds the vector table, the boot data and the DCD that
were written, and the application starts behind the reserved space.
-/

set_option autoImplicit false

namespace UsbArmory.Boot.RoundTrip
open UsbArmory.Library.Word UsbArmory.Library.Binary
open UsbArmory.Boot.Commands
open UsbArmory.Boot.Encoding UsbArmory.Boot.Written

variable {o : Overflow} {image : Writer.Image} {bytes : ByteString}

theorem reads_get {α τ : Type} {f : List τ → Reader τ α} {bs : List τ} {a : α}
    (h : ∀ rest, (f (bs ++ rest)).run (bs ++ rest) = .ok (a, rest)) : Reads (get >>= f) bs a :=
  h

theorem parseLoop_zero (o : Overflow) (fuel : ℕ) : Command.parseLoop o fuel 0 = pure [] := by
  cases fuel <;> rfl

theorem reads_parseLoop (o : Overflow) (fuel : ℕ) {length : UInt16} {avs : List AddressValue}
    (hlen : length.toNat = 4+8*avs.length) :
    Reads (Command.parseLoop o (fuel+1) length)
      (commandBytes ⟨⟨commandTag, length, ⟨.b4, .writeValue⟩⟩, avs⟩)
      [.writeData ⟨⟨commandTag, length, ⟨.b4, .writeValue⟩⟩, avs⟩] := by
  have hne : length ≠ 0 := by
    rintro rfl
    exact absurd hlen (by
      show (0 : ℕ) ≠ _
      omega)
  unfold Command.parseLoop
  rw [if_neg hne]
  refine reads_last (reads_command (sub16_self o length) (by decide) hlen) ?_
  show Reads (Command.parseLoop o fuel 0 >>= _) [] _
  rw [parseLoop_zero]
  exact reads_step (reads_pure []) (reads_pure _)

theorem reads_dcd (o : Overflow) {size length : UInt16} {avs : List AddressValue}
    (hsize : size.toNat = 8+8*avs.length) (hmax : size ≤ maxLength)
    (hlen : length.toNat = 4+8*avs.length) :
    Reads (Dcd.parse o) (dcdBytes size length avs)
      ⟨⟨headerTag, size, version⟩,
        [.writeData ⟨⟨commandTag, length, ⟨.b4, .writeValue⟩⟩, avs⟩],
        dcdBytes size length avs⟩ := by
  have hfour : headerSize ≤ size := by
    rw [UInt16.le_iff_toNat_le, hsize]
    show 4 ≤ _
    omega
  have hleft : size-headerSize = length := by
    apply UInt16.toNat.inj
    rw [UInt16.toNat_sub_of_le _ _ hfour, hsize, hlen]
    show 8+8*avs.length-4 = _
    omega
  apply reads_get
  intro rest
  have htake : (dcdBytes size length avs ++ rest).take size.toNat = dcdBytes size length avs := by
    rw [hsize, ← dcdBytes_length size length avs]
    exact List.take_left
  have hfits : size.toNat ≤ (dcdBytes size length avs ++ rest).length := by
    rw [List.length_append, dcdBytes_length, hsize]
    exact Nat.le_add_right _ _
  have hcommands : Reads (Command.parse o length)
      (commandBytes ⟨⟨commandTag, length, ⟨.b4, .writeValue⟩⟩, avs⟩)
      [.writeData ⟨⟨commandTag, length, ⟨.b4, .writeValue⟩⟩, avs⟩] :=
    reads_get fun rest => reads_parseLoop o _ hlen rest
  refine reads_bind (reads_header hmax) (reads_step (reads_expect (if_pos hfour)) ?_) rest
  rw [hleft]
  refine reads_last hcommands (reads_step (reads_ensure hfits) ?_)
  rw [htake]
  exact reads_pure _

theorem parsed_reads {α : Type} {text : String} {p : Parser α} {bs rest : ByteString} {a : α}
    (h : Reads p bs a) : Reader.parsed text p (bs ++ rest) = .ok a := by
  unfold Reader.parsed
  rw [h rest]

theorem getRange_section {a b c : ByteString} {start stop : ℕ} (hstart : a.length = start)
    (hstop : start+b.length = stop) : Reader.getRange (a ++ (b ++ c)) start stop = some b := by
  have hinside : start ≤ stop ∧ stop ≤ (a ++ (b ++ c)).length := by
    rw [List.length_append, List.length_append]
    omega
  unfold Reader.getRange
  rw [if_pos hinside, ← List.append_assoc, ← hstop, ← hstart, ← List.length_append, List.take_left,
    List.drop_left]

/-- The DCD that is found is the one that was given, if any. -/
def DcdBack (o : Overflow) : Option Writer.Dcd → Option Dcd → Prop
  | none, none => True
  | some given, some dcd =>
    (∃ header, dcd.commands = [.writeData ⟨header, given.writes⟩]) ∧
      given.intoBytes o = .ok dcd.asBytes
  | _, _ => False

structure ReadBack (o : Overflow) (image : Writer.Image) (bytes : ByteString)
    (found : Reader.Image) : Prop where
  entry : found.ivt.entry = image.entry
  self_ : found.ivt.self_ = image.selfAddress
  csf : found.ivt.csf = 0
  dcdAddress : found.ivt.dcd = 0 ↔ image.dcd = none
  start : found.bootData.start = Writer.dramStart
  plugin : found.bootData.plugin = 0
  len : found.bootData.len.toNat = Writer.padding.toNat+bytes.length
  dcd : DcdBack o image.dcd found.dcd
  app : bytes.drop Writer.reserved.toNat = image.app

theorem ivt_found (image : Writer.Image) (rest : ByteString) :
    Reader.parsed "error parsing the IVT" Reader.Ivt.parse (ivtBytes image.ivt ++ rest) =
      .ok image.ivt :=
  parsed_reads (reads_ivt (.inl rfl) _ _ _ _ _)

theorem bootData_found (ivt : Reader.Ivt) (bootData : Reader.BootData) (rest : ByteString) :
    Reader.getRange (ivtBytes ivt ++ (bootDataBytes bootData ++ rest)) 32 44 =
      some (bootDataBytes bootData) :=
  getRange_section rfl rfl

theorem dcd_found (ivt : Reader.Ivt) (bootData : Reader.BootData) (bs : ByteString) :
    Reader.getRange (ivtBytes ivt ++ (bootDataBytes bootData ++ bs)) 44
      (ivtBytes ivt ++ (bootDataBytes bootData ++ bs)).length = some bs := by
  rw [← List.append_assoc]
  have hall := getRange_section (a := ivtBytes ivt ++ bootDataBytes bootData) (b := bs)
      (c := []) rfl
    List.length_append.symm
  rw [List.append_nil] at hall
  exact hall

theorem ivt_self (image : Writer.Image) : image.ivt.self_ = Writer.dramStart+Writer.padding := rfl

theorem ivt_boot (image : Writer.Image) :
    image.ivt.boot = Writer.dramStart+Writer.padding+UInt32.ofNat Reader.Ivt.size := rfl

theorem ivt_dcd_some (h : image.dcd.isSome = true) : image.ivt.dcd =
    Writer.dramStart+Writer.padding+UInt32.ofNat (Reader.Ivt.size+Reader.BootData.size) :=
  if_pos h

theorem ivt_dcd_none (h : image.dcd = none) : image.ivt.dcd = 0 := by
  show (if image.dcd.isSome then _ else (0 : UInt32)) = 0
  rw [h]
  rfl

theorem boot_offset (image : Writer.Image) :
    Reader.checkedSub32 image.ivt.boot image.ivt.self_ = some 32 := by
  rw [ivt_boot, ivt_self]
  decide

theorem dcd_offset (h : image.dcd.isSome = true) :
    Reader.checkedSub32 image.ivt.dcd image.ivt.self_ = some 44 := by
  rw [ivt_dcd_some h, ivt_self]
  decide

theorem ivt_dcd_iff (image : Writer.Image) : image.ivt.dcd = 0 ↔ image.dcd = none := by
  cases h : image.dcd with
  | none => exact ⟨fun _ => rfl, fun _ => ivt_dcd_none h⟩
  | some dcd =>
    rw [ivt_dcd_some (by rw [h]; rfl)]
    exact ⟨fun hzero => absurd hzero (by decide), nofun⟩

theorem parse_sections (o : Overflow) (image : Writer.Image) (bootData : Reader.BootData)
    (bs : ByteString) :
    Reader.Image.parse o (ivtBytes image.ivt ++ (bootDataBytes bootData ++ bs)) =
      if image.dcd.isSome then
        (Reader.parsed "error parsing DCD" (Dcd.parse o) bs).map
          fun dcd => ⟨image.ivt, bootData, some dcd⟩
      else .ok ⟨image.ivt, bootData, none⟩ := by
  have hdata : Reader.parsed "error parsing Boot Data" Reader.BootData.parse
      (bootDataBytes bootData) = .ok bootData := by
    rw [← List.append_nil (bootDataBytes bootData)]
    exact parsed_reads (reads_bootData bootData)
  have hthirty : (32 : UInt32).toNat = 32 := by decide
  have hrange : Reader.getRange (ivtBytes image.ivt ++ (bootDataBytes bootData ++ bs))
      (32 : UInt32).toNat ((32 : UInt32).toNat+Reader.BootData.size) =
        some (bootDataBytes bootData) := by
    rw [hthirty]
    exact bootData_found image.ivt bootData bs
  unfold Reader.Image.parse
  refine (bind_of_ok (ivt_found image (bootDataBytes bootData ++ bs))).trans ?_
  refine (bind_of_ok (expect_some (boot_offset image))).trans ?_
  refine (bind_of_ok (expect_some hrange)).trans ?_
  refine (bind_of_ok hdata).trans ?_
  by_cases hdcd : image.dcd.isSome = true
  · have haddr : image.ivt.dcd ≠ 0 := by
      rw [ivt_dcd_some hdcd]
      decide
    have hrest := dcd_found image.ivt bootData bs
    have hfour : (44 : UInt32).toNat = 44 := by decide
    rw [← hfour] at hrest
    rw [if_pos haddr, if_pos hdcd]
    refine (bind_of_ok (expect_some (dcd_offset hdcd))).trans ?_
    refine (bind_of_ok (expect_some hrest)).trans ?_
    cases Reader.parsed "error parsing DCD" (Dcd.parse o) bs <;> rfl
  · have hnone : image.dcd = none := Option.not_isSome_iff_eq_none.mp hdcd
    rw [if_neg (not_not.mpr (ivt_dcd_none hnone)), if_neg hdcd]
    rfl

/-- Every image that is written without a panic is read back as it was. -/
theorem write_readBack (o : Overflow) (image : Writer.Image) (bytes : ByteString)
    (happ : image.app.length < 2^32) (h : image.intoBytes .panics = .ok bytes) :
    ∃ found, Reader.Image.parse o bytes = .ok found ∧ ReadBack .panics image bytes found := by
  obtain ⟨len, bs, zeros, hlen, hsection, hzeros, hbytes⟩ :=
    write_ok (fun dcd _ => exact_panics dcd) (run_collected h)
  rw [List.nil_append] at hbytes
  have hdrop := intoBytes_app (fun dcd _ => exact_panics dcd) h
  have hcount : len.toNat = Writer.padding.toNat+bytes.length := by
    have happlen : (UInt32.ofNat image.app.length).toNat = image.app.length := by
      rw [UInt32.toNat_ofNat']
      exact Nat.mod_eq_of_lt happ
    have hpre : (Writer.padding+Writer.reserved).toNat = 2048 := by decide
    have hpad : Writer.padding.toNat = 1024 := by decide
    have hres : Writer.reserved.toNat = 1024 := by decide
    rw [add32_panics hlen, happlen, hpre, hpad, hbytes]
    simp only [List.length_append, List.length_replicate]
    show 2048+image.app.length = 1024+(32+(12+(bs.length+(zeros+image.app.length))))
    omega
  have hfields : ∀ d, DcdBack .panics image.dcd d →
      ReadBack .panics image bytes ⟨image.ivt, ⟨Writer.dramStart, len, 0⟩, d⟩ :=
    fun d hd => ⟨rfl, rfl, rfl, ivt_dcd_iff image, rfl, rfl, hcount, hd, hdrop⟩
  have hparse := parse_sections o image ⟨Writer.dramStart, len, 0⟩
    (bs ++ (List.replicate zeros 0 ++ image.app))
  rw [← hbytes] at hparse
  cases hdcd : image.dcd with
  | none =>
    rw [hdcd, if_neg (by decide)] at hparse
    refine ⟨_, hparse, hfields none ?_⟩
    rw [hdcd]
    trivial
  | some given =>
    rw [hdcd] at hsection
    obtain ⟨size, length, hsize, hlt, hlength, hbs⟩ := intoBytes_ok hsection
    have hexact := exact_panics given size hsize hlt
    have hmax : size ≤ maxLength := by
      rw [UInt16.le_iff_toNat_le, hexact]
      rw [hbs, dcdBytes_length] at hzeros
      have hres : Writer.reserved.toNat = 1024 := by decide
      have hlimit : maxLength.toNat = 1768 := by decide
      omega
    have hread : Reader.parsed "error parsing DCD" (Dcd.parse o)
        (dcdBytes size length given.writes ++ (List.replicate zeros 0 ++ image.app)) = .ok _ :=
      parsed_reads (reads_dcd o hexact hmax hlength)
    have hsome : (some given).isSome = true := rfl
    rw [hdcd, if_pos hsome, hbs, hread] at hparse
    refine ⟨_, hparse, hfields _ ?_⟩
    rw [hdcd]
    exact ⟨⟨_, rfl⟩, hbs ▸ hsection⟩

/-- Three bytes to start at the first address behind the reserved space. -/
def small : Writer.Image := ⟨[1, 2, 3], some ⟨[⟨0x021B001C, 0x8000⟩]⟩, 0x80000800⟩

theorem small_written : ∃ bytes, small.intoBytes .panics = .ok bytes := ⟨_, rfl⟩

theorem write_readBack_small : ∃ bytes found, small.intoBytes .panics = .ok bytes ∧
    Reader.Image.parse .wraps bytes = .ok found ∧ ReadBack .panics small bytes found := by
  obtain ⟨bytes, h⟩ := small_written
  obtain ⟨found, hparse, hback⟩ := write_readBack .wraps small bytes (by decide) h
  exact ⟨bytes, found, h, hparse, hback⟩

end UsbArmory.Boot.RoundTrip
