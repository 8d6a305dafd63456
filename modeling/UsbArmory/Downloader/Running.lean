import UsbArmory.Boot.Loading
import UsbArmory.Boot.RoundTrip
import UsbArmory.Downloader.Booting

/-!
# From the ELF file to the memory of the device

The runner sends the program that it makes of an ELF file; the loader sends the
image that another program has made of it. Both leave the pieces of the ELF
file in memory behind the reserved space, at their distances from the lowest one.
-/

set_option autoImplicit false

namespace UsbArmory.Downloader.Running
open UsbArmory.Library.Word UsbArmory.Library.Binary UsbArmory.Library.Overlay
open UsbArmory.Library.Trace
open UsbArmory.Library.Patches UsbArmory.Boot.Writer UsbArmory.Boot.Ddr UsbArmory.Boot.FromElf
open UsbArmory.Boot.Encoding UsbArmory.Boot.Written UsbArmory.Boot.RoundTrip
open UsbArmory.Boot.Pieces UsbArmory.Boot.Loading
open UsbArmory.Downloader.Sdp UsbArmory.Downloader.Device UsbArmory.Downloader.Programs
open UsbArmory.Downloader.Transfers UsbArmory.Downloader.Booting

variable {State : Type} {rom : Rom State} {fate : Bool} {start : State} {usd : Usd} {o : Overflow}
variable {elf : ElfFile} {skipDcd : Bool} {image : Image} {file bytes : ByteString}
    {memory : Memory}

/-- No other piece has another byte where the piece has one. -/
def Uncontradicted (elf : ElfFile) (b : Block UInt8) : Prop := ∀ c ∈ pieces elf, Agree c b

/-- The pieces that are not contradicted lie in memory at their distances from the lowest address,
and so where they are linked if that is the address of the application. -/
structure Holds (elf : ElfFile) (memory : Memory) : Prop where
  placed : ∀ s, IsLeast {a | a ∈ addresses elf} s → ∀ b ∈ pieces elf, Uncontradicted elf b →
    ∀ k, b.covers (s+k) → b.data[s+k-b.offset]? = some (memory (0x80000800+UInt32.ofNat k))
  linked : IsLeast {a | a ∈ addresses elf} 0x80000800 → ∀ b ∈ pieces elf, Uncontradicted elf b →
    ∀ a, b.covers a → b.data[a-b.offset]? = some (memory (UInt32.ofNat a))

theorem holds_of_placed (h : ∀ s, IsLeast {a | a ∈ addresses elf} s → ∀ b ∈ pieces elf,
    Uncontradicted elf b → ∀ k, b.covers (s+k) →
      b.data[s+k-b.offset]? = some (memory (0x80000800+UInt32.ofNat k))) : Holds elf memory := by
  refine ⟨h, fun hleast b hb hfree a ha => ?_⟩
  obtain ⟨k, rfl⟩ := Nat.exists_eq_add_of_le (Nat.le_trans (hleast.2 (offset_mem hb)) ha.1)
  have hpiece := h _ hleast b hb hfree k ha
  rwa [UInt32.ofNat_add]

theorem fromElf_dcd (h : Image.fromElf o elf skipDcd = .ok image) :
    image.dcd = if skipDcd then none else some initDdr := by
  unfold Image.fromElf at h
  obtain ⟨_, -, h⟩ := ok_of_bind h
  obtain ⟨_, -, h⟩ := ok_of_bind h
  obtain ⟨_, -, h⟩ := ok_of_bind h
  obtain ⟨_, -, h⟩ := ok_of_bind h
  obtain ⟨_, -, h⟩ := ok_of_bind h
  obtain ⟨_, -, h⟩ := ok_of_bind h
  obtain ⟨_, -, h⟩ := ok_of_bind h
  obtain ⟨_, -, h⟩ := ok_of_bind h
  cases h
  rfl

theorem exact_fromElf (h : Image.fromElf o elf skipDcd = .ok image) :
    ∀ dcd, image.dcd = some dcd → Exact o dcd := by
  intro dcd hdcd
  rw [fromElf_dcd h] at hdcd
  cases skipDcd with
  | true => cases hdcd
  | false =>
    cases hdcd
    exact exact_initDdr o

theorem app_piece (h : Image.fromElf o elf skipDcd = .ok image)
    (hbytes : image.intoBytes o = .ok bytes) {s : ℕ} (hs : IsLeast {a | a ∈ addresses elf} s)
    {b : Block UInt8} (hb : b ∈ pieces elf) (hfree : Uncontradicted elf b) {k : ℕ}
    (hk : b.covers (s+k)) : b.data[s+k-b.offset]? = image.app[k]? := by
  rw [← loaded_app h hbytes]
  exact (shifted_piece h hbytes hs hb hfree hk).symm

/-- A file with the application behind the reserved space, in memory where the image announces. -/
theorem holds_of_region (h : Image.fromElf o elf skipDcd = .ok image)
    (hbytes : image.intoBytes o = .ok bytes) (happ : file.drop reserved.toNat = image.app)
    (hregion : region memory image.selfAddress file.length = file) : Holds elf memory := by
  apply holds_of_placed
  intro s hs b hb hfree k hk
  have hres : reserved.toNat = 1024 := by decide
  have hdata : b.data[s+k-b.offset]? = file[1024+k]? := by
    rw [app_piece h hbytes hs hb hfree hk, ← happ, List.getElem?_drop, hres]
  have hin : s+k-b.offset < b.data.length := by
    have hlow := hk.1
    have hhigh := hk.2
    omega
  have hlt : 1024+k < file.length := by
    by_contra hout
    rw [List.getElem?_eq_none (l := file) (by omega), List.getElem?_eq_getElem hin] at hdata
    cases hdata
  have hread : file[1024+k]? = some (memory (image.selfAddress+UInt32.ofNat (1024+k))) := by
    rw [← hregion, region, List.getElem?_map, List.getElem?_range hlt]
    rfl
  rw [hdata, hread]
  congr 2
  rw [UInt32.ofNat_add, ← UInt32.add_assoc]
  rfl

theorem clearFile_written (hdcd : image.dcd = none) (h : image.intoBytes o = .ok file) :
    ClearFile file := by
  obtain ⟨len, bs, zeros, -, -, -, hbytes⟩ := write_ok (by
    rw [hdcd]
    exact nofun) (run_collected h)
  have hivt : image.ivt = { image.ivt with dcd := 0 } := by
    rw [← ivt_dcd_none hdcd]
  rw [List.nil_append, hivt] at hbytes
  rw [hbytes]
  exact clearFile_ivt image.ivt _

/-- The image that is made of an ELF file, with the DCD for the RAM, as the loader finds it. -/
theorem parse_elf (h : Image.fromElf o elf false = .ok image)
    (hbytes : image.intoBytes o = .ok bytes) :
    ∃ ddr found, initDdr.intoBytes o = .ok ddr ∧ Boot.Reader.Image.parse o bytes = .ok found ∧
      found.ivt = image.ivt ∧ found.dcd.map (·.asBytes) = some ddr := by
  have hdcd : image.dcd = some initDdr := fromElf_dcd h
  obtain ⟨len, bs, zeros, -, hsection, hzeros, hwritten⟩ :=
    write_ok (exact_fromElf h) (run_collected hbytes)
  rw [List.nil_append] at hwritten
  have hparse := parse_sections o image ⟨dramStart, len, 0⟩
      (bs ++ (List.replicate zeros 0 ++ image.app))
  have hsome : (some initDdr).isSome = true := rfl
  rw [← hwritten, hdcd, if_pos hsome] at hparse
  rw [hdcd] at hsection
  obtain ⟨size, length, hsize, hlt, hlength, rfl⟩ := intoBytes_ok hsection
  have hexact := exact_initDdr o size hsize hlt
  have hmax : size ≤ Boot.Commands.maxLength := by
    rw [UInt16.le_iff_toNat_le, hexact]
    rw [dcdBytes_length] at hzeros
    have hres : reserved.toNat = 1024 := by decide
    have hlimit : Boot.Commands.maxLength.toNat = 1768 := by decide
    omega
  have hread : Boot.Reader.parsed "error parsing DCD" (Boot.Commands.Dcd.parse o)
      (dcdBytes size length initDdr.writes ++ (List.replicate zeros 0 ++ image.app)) = .ok _ :=
    parsed_reads (reads_dcd o hexact hmax hlength)
  rw [hread] at hparse
  exact ⟨_, _, hsection, hparse, rfl, rfl⟩

theorem clear_drop {found : Boot.Reader.Image} (h : Boot.Reader.Image.parse o bytes = .ok found) :
    (UsdLoad.clearDcdPointer bytes).drop reserved.toNat = bytes.drop reserved.toNat := by
  obtain ⟨rest, -, hbytes, -, -⟩ := parse_ok h
  have hres : reserved.toNat = 1024 := by decide
  rw [hbytes, hres]
  rfl

def coldDcds (o : Overflow) (coldBoot : Bool) : List ByteString :=
  if coldBoot then (initDdr.intoBytes o).toOption.toList else []

theorem ddr_ne_nil {ddr : ByteString} (h : initDdr.intoBytes o = .ok ddr) : ddr ≠ [] := by
  obtain ⟨size, length, -, -, -, rfl⟩ := intoBytes_ok h
  apply List.length_pos_iff.mp
  rw [dcdBytes_length]
  omega

theorem leaves_coldDcd (hrom : rom.Serves) (hfresh : rom.Fresh start) (coldBoot : Bool) :
    Leaves rom fate start (UsdRunner.sendDcd o usd coldBoot) fun after r => Waiting rom after ∧
      (rom.view after).executed <+: coldDcds o coldBoot ∧ (r.isOk = true →
        (rom.view after).executed = coldDcds o coldBoot ∧ (rom.view after).phase = .idle) := by
  have hwaiting := waiting_of_idle hfresh.phase
  have hnone : (rom.view start).executed <+: coldDcds o coldBoot := by
    rw [hfresh.executed]
    exact List.nil_prefix
  cases coldBoot with
  | false => exact leaves_pure ⟨hwaiting, hnone, fun _ => ⟨hfresh.executed, hfresh.phase⟩⟩
  | true =>
    refine leaves_bind (leaves_lift _ _) ?_ ?_
    · rintro after stop ⟨rfl, -⟩
      exact ⟨hwaiting, hnone, nofun⟩
    rintro dcd after ⟨rfl, hdcd⟩
    have hcold : coldDcds o true = [dcd] := by
      unfold coldDcds
      rw [if_pos rfl, hdcd dcd rfl]
      rfl
    have hwrite : Leaves rom fate after (usd.dcdWrite ocramFreeAddress dcd) _ :=
      leaves_dcdWrite hrom hfresh.phase (ddr_ne_nil (hdcd dcd rfl))
    refine Leaves.imp (leaves_context _ hwrite ?_) ?_
    · rintro after (stop | _) hleft
      · exact hleft
      · exact hleft
    · rw [hcold, hfresh.executed]
      rintro after r ⟨hw, ⟨he, hfail⟩ | ⟨he, hidle⟩⟩
      · rw [he]
        exact ⟨hw, List.nil_prefix, fun hok => absurd (hfail.symm.trans hok) Bool.false_ne_true⟩
      · rw [he]
        exact ⟨hw, List.prefix_rfl, fun _ => ⟨rfl, hidle⟩⟩

theorem leaves_send (hrom : rom.Serves) {s : State} {address : UInt32} (coldBoot : Bool)
    (hidle : (rom.view s).phase = .idle) (hne : file ≠ []) :
    Leaves rom fate s (UsdRunner.sendFile usd coldBoot address file) fun after r =>
      Stored rom s address file after r.isOk := by
  cases coldBoot with
  | true => exact leaves_writeFile hrom hidle hne
  | false =>
    refine leaves_context _ (leaves_writeFile hrom hidle hne) ?_
    rintro after (stop | _) hstored
    · exact hstored
    · exact hstored

structure Ran (rom : Rom State) (o : Overflow) (decode : ByteString → Except String ElfFile)
    (coldBoot : Bool) (host : Host) (after : State) (ok : Bool) : Prop where
  executed : (rom.view after).executed <+: coldDcds o coldBoot
  booted : Waiting rom after ∧ ok = false ∨ ∃ path bytes elf image file, host.args = [path] ∧
    host.files path = some bytes ∧ decode bytes = .ok elf ∧
    Image.fromElf o elf true = .ok image ∧ image.intoBytes o = .ok file ∧
    Booted rom (coldDcds o coldBoot) file image.selfAddress after ok ∧
    ∀ a, (rom.view after).phase = .running a → Holds elf (rom.view after).memory

theorem ran_nothing {decode : ByteString → Except String ElfFile} {coldBoot : Bool} {host : Host}
    (hfresh : rom.Fresh start) : Ran rom o decode coldBoot host start false := by
  refine ⟨?_, .inl ⟨waiting_of_idle hfresh.phase, rfl⟩⟩
  rw [hfresh.executed]
  exact List.nil_prefix

/-- An ELF file is run: there is no jump, or the device has executed the DCD for the RAM if it was
to, and is booted with the program, whose pieces are in memory then. -/
theorem run_boots (rom : Rom State) (hrom : rom.Serves) (fate : Bool) (start : State)
    (hfresh : rom.Fresh start) (o : Overflow) (decode : ByteString → Except String ElfFile)
    (coldBoot : Bool) (host : Host) :
    Leaves rom fate start (UsdRunner.main o decode coldBoot host) fun after r =>
      Ran rom o decode coldBoot host after r.isOk := by
  refine leaves_bind (leaves_input host) (fun after stop h => h.1 ▸ ran_nothing hfresh) ?_
  rintro bytes after ⟨rfl, hinput⟩
  obtain ⟨path, hargs, hfile⟩ := hinput bytes rfl
  refine leaves_bind (leaves_lift .bail _) (fun after stop h => h.1 ▸ ran_nothing hfresh) ?_
  rintro elf after ⟨rfl, helf⟩
  have hdecode : decode bytes = .ok elf := by
    have hmap := helf elf rfl
    cases hd : decode bytes with
    | error message =>
      rw [hd] at hmap
      cases hmap
    | ok found =>
      rw [hd] at hmap
      cases hmap
      rfl
  refine leaves_bind (leaves_open host.device) (fun after stop h => h ▸ ran_nothing hfresh) ?_
  rintro usd after rfl
  refine leaves_bind (leaves_lift .bail _) (fun after stop h => h.1 ▸ ran_nothing hfresh) ?_
  rintro image after ⟨rfl, himage⟩
  have himage := himage image rfl
  refine leaves_bind (leaves_coldDcd hrom hfresh coldBoot)
    (fun after stop h => ⟨h.2.1, .inl ⟨h.1, rfl⟩⟩) ?_
  rintro ⟨⟩ after ⟨hwaiting, hstart, hdone⟩
  obtain ⟨hexecuted, hidle⟩ := hdone rfl
  refine leaves_bind (leaves_lift _ _) (fun later stop h => ?_) ?_
  · rw [h.1]
    exact ⟨hstart, .inl ⟨hwaiting, rfl⟩⟩
  rintro file after ⟨rfl, hwritten⟩
  have hwritten := hwritten file rfl
  have hclear := clearFile_written (fromElf_dcd himage) hwritten
  have hsend : Leaves rom fate after
      (UsdRunner.sendFile usd coldBoot image.selfAddress file) _ :=
    leaves_send hrom coldBoot hidle (clearFile_ne_nil hclear)
  refine (leaves_boot hrom usd hclear hsend hexecuted).imp fun after r hbooted => ?_
  refine ⟨hbooted.executed, .inr ⟨path, bytes, elf, image, file, hargs, hfile, hdecode, himage,
    hwritten, hbooted, fun a ha => ?_⟩⟩
  obtain ⟨rfl, -, hregion⟩ := hbooted.running a ha
  exact holds_of_region himage hwritten (intoBytes_app (exact_fromElf himage) hwritten) hregion

/-- A file that is decoded to `near`, and a device that takes everything. -/
def nearHost (file : ByteString) : Host :=
  ⟨["near"], fun _ => some file, fun _ => .ok (some obliging), true⟩

theorem near_held {memory : Memory} (h : Holds near memory) : memory 0x80000800 = 7 := by
  have hleast : IsLeast {a | a ∈ addresses near} 0x80000800 :=
    ⟨List.mem_singleton.mpr rfl, fun a ha => Nat.le_of_eq (List.mem_singleton.mp ha).symm⟩
  have hfree : Uncontradicted near ⟨0x80000800, [7]⟩ := by
    intro c hc
    rw [List.mem_singleton.mp hc]
    exact fun _ _ _ => rfl
  have hbyte := h.linked hleast ⟨0x80000800, [7]⟩ (List.mem_singleton.mpr rfl) hfree 0x80000800
    (by decide)
  exact (Option.some.inj hbyte).symm

def ran : View := received plain false plainStart
  (perform (UsdRunner.main .panics (fun _ => .ok near) true (nearHost [])) []).2

theorem run_boots_near : ran.executed = coldDcds .panics true ∧ ran.phase = .running 0x80000400 ∧
    ran.memory 0x80000800 = 7 := by
  have hok : (perform (UsdRunner.main .panics (fun _ => .ok near) true (nearHost [])) []).1.isOk =
      true := by decide +kernel
  have hran := leaves_run (run_boots plain plain_serves false plainStart plain_fresh .panics
    (fun _ => .ok near) true (nearHost []))
  rw [hok, ← ran] at hran
  rcases hran.booted with ⟨-, hfail⟩ | ⟨path, bytes, elf, image, file, -, -, helf, -, -, hb, hh⟩
  · cases hfail
  · cases helf
    have hrunning := hb.done rfl
    obtain ⟨-, hexecuted, -⟩ := hb.running _ hrunning
    have hbyte := near_held (hh _ hrunning)
    rw [plain_view] at hrunning hexecuted hbyte
    exact ⟨hexecuted, hrunning, hbyte⟩

/-- The device executes the DCD for the RAM once, and jumps to the program when its pieces are in
memory. -/
structure ElfBooted (rom : Rom State) (ddr : ByteString) (elf : ElfFile) (after : State)
    (ok : Bool) : Prop where
  executed : (rom.view after).executed <+: [ddr]
  done : ok = true → (rom.view after).phase = .running 0x80000400
  running : ∀ a, (rom.view after).phase = .running a → a = 0x80000400 ∧
    (rom.view after).executed = [ddr] ∧ Holds elf (rom.view after).memory

/-- The image that is made of an ELF file boots the device when it is loaded. -/
theorem elf_boots (rom : Rom State) (hrom : rom.Serves) (fate : Bool) (start : State)
    (hfresh : rom.Fresh start) (o : Overflow) (elf : ElfFile) (bytes : ByteString)
    (h : Elf2image.main o elf = .ok bytes) (host : Host) (path : String)
    (hargs : host.args = [path]) (hfile : host.files path = some bytes) :
    ∃ ddr, initDdr.intoBytes o = .ok ddr ∧ Leaves rom fate start (UsdLoad.main o host)
      fun after r => ElfBooted rom ddr elf after r.isOk := by
  obtain ⟨image, himage, h⟩ := ok_of_bind h
  have hwritten : image.intoBytes o = .ok bytes := by
    cases hinto : image.intoBytes o with
    | error stop =>
      rw [hinto] at h
      cases h
    | ok found =>
      rw [hinto] at h
      cases h
      rfl
  obtain ⟨ddr, found, hddr, hparse, hivt, hdcd⟩ := parse_elf himage hwritten
  have hdcds : dcdsOf found = [ddr] := by
    rw [dcdsOf, hdcd]
    rfl
  have hne : ∀ dcd ∈ found.dcd, dcd.asBytes ≠ [] := by
    intro dcd hmem
    rw [Option.mem_def.mp hmem] at hdcd
    have hbytes : dcd.asBytes = ddr := Option.some.inj hdcd
    exact hbytes ▸ ddr_ne_nil hddr
  have hself : found.ivt.self_ = image.selfAddress := congrArg Boot.Reader.Ivt.self_ hivt
  refine ⟨ddr, hddr, (leaves_image hrom hfresh hargs hfile hparse hne).imp fun after r => ?_⟩
  rintro (⟨rfl, hfail⟩ | hbooted)
  · refine ⟨?_, fun hok => absurd (hfail.symm.trans hok) Bool.false_ne_true, fun a ha => ?_⟩
    · rw [hfresh.executed]
      exact List.nil_prefix
    · exact absurd ha (waiting_of_idle hfresh.phase a)
  rw [hdcds, hself] at hbooted
  refine ⟨hbooted.executed, hbooted.done, fun a ha => ?_⟩
  obtain ⟨rfl, hexecuted, hregion⟩ := hbooted.running a ha
  refine ⟨rfl, hexecuted, holds_of_region himage hwritten ?_ hregion⟩
  have hsome : found.dcd.isSome = true := by
    rw [← Option.isSome_map (f := (·.asBytes)), hdcd]
    rfl
  rw [withoutDcd, if_pos hsome, ← intoBytes_app (exact_fromElf himage) hwritten]
  exact clear_drop hparse

def nearBytes : ByteString := (Elf2image.main .panics near).toOption.getD []

theorem near_imaged : Elf2image.main .panics near = .ok nearBytes := rfl

def loaded : View := received plain false plainStart
  (perform (UsdLoad.main .panics (nearHost nearBytes)) []).2

theorem elf_boots_near : (initDdr.intoBytes .panics).toOption.toList = loaded.executed ∧
    loaded.phase = .running 0x80000400 ∧ loaded.memory 0x80000800 = 7 := by
  have hok : (perform (UsdLoad.main .panics (nearHost nearBytes)) []).1.isOk = true := by
    decide +kernel
  obtain ⟨ddr, hddr, hleaves⟩ := elf_boots plain plain_serves false plainStart plain_fresh .panics
    near nearBytes near_imaged (nearHost nearBytes) "near" rfl rfl
  have hbooted := leaves_run hleaves
  rw [hok, ← loaded] at hbooted
  have hrunning := hbooted.done rfl
  obtain ⟨-, hexecuted, hholds⟩ := hbooted.running _ hrunning
  have hbyte := near_held hholds
  rw [plain_view] at hrunning hexecuted hbyte
  rw [hddr, hexecuted]
  exact ⟨rfl, hrunning, hbyte⟩

end UsbArmory.Downloader.Running
