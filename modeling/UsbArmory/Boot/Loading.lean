import UsbArmory.Boot.Pieces

/-!
# Where the program is loaded

The ROM copies the written file to the address that the image announces. The
pieces come to the addresses they are linked at if the lowest of these is the
address of the application in the file, and the pieces agree where they overlap.
-/

set_option autoImplicit false

namespace UsbArmory.Boot.Loading
open UsbArmory.Library.Word UsbArmory.Library.Binary UsbArmory.Library.Overlay
open UsbArmory.Boot.Writer UsbArmory.Boot.Ddr UsbArmory.Boot.FromElf
open UsbArmory.Boot.Written UsbArmory.Boot.Pieces

variable {o : Overflow} {elf : ElfFile} {skipDcd : Bool} {image : Image} {file : ByteString}

def loaded (image : Image) (file : ByteString) (a : ℕ) : Option UInt8 :=
  if image.selfAddress.toNat ≤ a then file[a-image.selfAddress.toNat]? else none

def appAddress (image : Image) : ℕ := (image.selfAddress+reserved).toNat

/-- Every byte of the pieces is at the address it is linked at. -/
def Placed (elf : ElfFile) (image : Image) (file : ByteString) : Prop :=
  ∀ b ∈ pieces elf, ∀ k, b.covers k → loaded image file k = b.data[k-b.offset]?

/-- The bytes are where they are linked, and the lowest of the addresses is
where the application is loaded. -/
def LoadedWhereLinked (elf : ElfFile) (image : Image) (file : ByteString) : Prop :=
  Placed elf image file ∧ IsLeast {a | a ∈ addresses elf} (appAddress image)

theorem mem_sections {sh : SectionHeader} (hin : sh ∈ elf.sections) (hinc : sh.included = true) :
    sh.address.toNat ∈ addresses elf :=
  List.mem_append_left _ (List.mem_filterMap.mpr ⟨sh, hin, if_pos hinc⟩)

theorem mem_programs {ph : ProgramHeader} (hin : ph ∈ elf.programs) (hinc : ph.included = true) :
    ph.physicalAddr.toNat ∈ addresses elf :=
  List.mem_append_right _ (List.mem_filterMap.mpr ⟨ph, hin, if_pos hinc⟩)

theorem offset_mem {b : Block UInt8} (h : b ∈ pieces elf) : b.offset ∈ addresses elf := by
  rcases List.mem_append.mp h with hb | hb
  · obtain ⟨sh, hin, hpiece⟩ := List.mem_filterMap.mp hb
    unfold sectionPiece at hpiece
    split at hpiece
    next hinc =>
      obtain ⟨data, -, rfl⟩ := Option.map_eq_some_iff.mp hpiece
      exact mem_sections hin hinc
    next => cases hpiece
  · obtain ⟨ph, hin, hpiece⟩ := List.mem_filterMap.mp hb
    unfold segmentPiece at hpiece
    split at hpiece
    next hinc =>
      obtain ⟨data, -, rfl⟩ := Option.map_eq_some_iff.mp hpiece
      exact mem_programs hin hinc
    next => cases hpiece

theorem fromElf_ok (h : Image.fromElf o elf skipDcd = .ok image) :
    ∃ s size, IsLeast {a | a ∈ addresses elf} s ∧
      (∀ b ∈ (pieces elf).map (shift s), Fits (List.replicate size 0) b) ∧
      image.app = ((pieces elf).map (shift s)).foldl place (List.replicate size 0) ∧
      (image.dcd = none ∨ image.dcd = some initDdr) := by
  unfold Image.fromElf at h
  obtain ⟨b, hb, h₁⟩ := ok_of_bind h
  obtain ⟨b', hb', h₂⟩ := ok_of_bind h₁
  obtain ⟨start, hs, h₃⟩ := ok_of_bind h₂
  obtain ⟨stop, -, h₄⟩ := ok_of_bind h₃
  obtain ⟨size, -, h₅⟩ := ok_of_bind h₄
  obtain ⟨app, happ, h₆⟩ := ok_of_bind h₅
  obtain ⟨app', happ', h₇⟩ := ok_of_bind h₆
  obtain ⟨entry, hentry, h₈⟩ := ok_of_bind h₇
  cases h₈
  have hclass := entry_ok hentry
  obtain ⟨hsect, hprog⟩ := elf.narrow hclass
  have hlow := sizing_ok hclass hb hb'
  rw [expect_ok hs] at hlow
  have hleast : IsLeast {a | a ∈ addresses elf} start.toNat := hlow
  obtain ⟨hfit, hlen, rfl⟩ := fill_pass (fun sh hin c c' hstep => fillSection_ok (hsect sh hin)
    (fun hinc => hleast.2 (mem_sections hin hinc)) hstep) happ
  obtain ⟨hfit', -, rfl⟩ := fill_pass (fun ph hin c c' hstep => fillSegment_ok (hprog ph hin)
    (fun hinc => hleast.2 (mem_programs hin hinc)) hstep) happ'
  refine ⟨start.toNat, size, hleast, ?_, ?_, ?_⟩
  · intro d hd
    rw [pieces, List.map_append] at hd
    rcases List.mem_append.mp hd with hd | hd
    · exact hfit d hd
    · have hlater := hfit' d hd
      unfold Fits at hlater ⊢
      rw [hlen] at hlater
      exact hlater
  · rw [pieces, List.map_append, List.foldl_append]
  · cases skipDcd with
    | true => exact Or.inl rfl
    | false => exact Or.inr rfl

theorem exact_initDdr (o : Overflow) : Exact o initDdr := by
  intro size h _
  rw [initDdr_size o] at h
  cases h
  rfl

theorem loaded_app (h : Image.fromElf o elf skipDcd = .ok image)
    (hfile : image.intoBytes o = .ok file) (i : ℕ) :
    loaded image file (appAddress image+i) = image.app[i]? := by
  obtain ⟨-, -, -, -, -, hdcd⟩ := fromElf_ok h
  have hexact : ∀ dcd, image.dcd = some dcd → Exact o dcd := by
    intro dcd hsome
    rcases hdcd with hnone | hddr
    · rw [hnone] at hsome
      cases hsome
    · rw [hddr] at hsome
      cases hsome
      exact exact_initDdr o
  have happ := intoBytes_app hexact hfile
  have hsum : appAddress image = image.selfAddress.toNat+reserved.toNat := by
    show (dramStart+padding+reserved).toNat = (dramStart+padding).toNat+reserved.toNat
    decide
  have hle : image.selfAddress.toNat ≤ appAddress image+i := by omega
  have hsub : appAddress image+i-image.selfAddress.toNat = reserved.toNat+i := by omega
  unfold loaded
  rw [if_pos hle, hsub, ← happ, List.getElem?_drop]

theorem shift_covers {s k : ℕ} {b : Block UInt8} (hb : s ≤ b.offset) :
    (shift s b).covers k ↔ b.covers (s+k) := by
  show b.offset-s ≤ k ∧ k < b.offset-s+b.data.length ↔
    b.offset ≤ s+k ∧ s+k < b.offset+b.data.length
  omega

theorem shift_index {s : ℕ} {b : Block UInt8} (hb : s ≤ b.offset) (k : ℕ) :
    k-(shift s b).offset = s+k-b.offset := by
  show k-(b.offset-s) = _
  omega

theorem agree_shift {s : ℕ} {b c : Block UInt8} (hb : s ≤ b.offset) (hc : s ≤ c.offset) :
    Agree (shift s b) (shift s c) ↔ Agree b c := by
  constructor
  · intro h k hbk hck
    obtain ⟨j, rfl⟩ := Nat.exists_eq_add_of_le (Nat.le_trans hb hbk.1)
    have hsame := h j ((shift_covers hb).mpr hbk) ((shift_covers hc).mpr hck)
    rw [shift_index hb, shift_index hc] at hsame
    exact hsame
  · intro h k hbk hck
    rw [shift_index hb, shift_index hc]
    exact h (s+k) ((shift_covers hb).mp hbk) ((shift_covers hc).mp hck)

/-- A piece that no other one contradicts is loaded at its distance from the lowest address. -/
theorem shifted_piece (h : Image.fromElf o elf skipDcd = .ok image)
    (hfile : image.intoBytes o = .ok file) {s : ℕ} (hs : IsLeast {a | a ∈ addresses elf} s)
    {b : Block UInt8} (hb : b ∈ pieces elf) (hagree : ∀ c ∈ pieces elf, Agree c b) {k : ℕ}
    (hk : b.covers (s+k)) : loaded image file (appAddress image+k) = b.data[s+k-b.offset]? := by
  obtain ⟨s', size, hs', hfit, happ, -⟩ := fromElf_ok h
  cases hs.unique hs'
  have hle : ∀ c ∈ pieces elf, s ≤ c.offset := fun c hc => hs.2 (offset_mem hc)
  have hshifted : ∀ c ∈ (pieces elf).map (shift s), Agree c (shift s b) := by
    rw [List.forall_mem_map]
    exact fun c hc => (agree_shift (hle c hc) (hle b hb)).mpr (hagree c hc)
  have hshow := shows_agreed hfit (List.mem_map_of_mem hb) hshifted k
    ((shift_covers (hle b hb)).mpr hk)
  rw [← happ] at hshow
  rw [loaded_app h hfile, hshow, shift_index (hle b hb)]
  rfl

/-- The program is loaded as it is linked, up to the distance of its lowest
address from the address of the application. -/
theorem shifted_iff (h : Image.fromElf o elf skipDcd = .ok image)
    (hfile : image.intoBytes o = .ok file) {s : ℕ} (hs : IsLeast {a | a ∈ addresses elf} s) :
    (∀ b ∈ pieces elf, ∀ k, b.covers (s+k) →
      loaded image file (appAddress image+k) = b.data[s+k-b.offset]?) ↔
      ∀ b ∈ pieces elf, ∀ c ∈ pieces elf, Agree b c := by
  obtain ⟨s', size, hs', hfit, happ, -⟩ := fromElf_ok h
  cases hs.unique hs'
  have hle : ∀ b ∈ pieces elf, s ≤ b.offset := fun b hb => hs.2 (offset_mem hb)
  have hshows := shows_all_iff hfit
  rw [← happ] at hshows
  simp only [List.forall_mem_map] at hshows
  constructor
  · intro hload b hb c hc
    apply (agree_shift (hle b hb) (hle c hc)).mp
    refine hshows.mp (fun d hd k hk => ?_) b hb c hc
    have hcover := (shift_covers (hle d hd)).mp hk
    rw [← loaded_app h hfile, hload d hd k hcover, shift_index (hle d hd)]
    rfl
  · intro hagree b hb k hk
    exact shifted_piece h hfile hs hb (fun c hc => hagree c hc b hb) hk

/-- The program is loaded where it is linked if and only if its lowest address
is that of the application, and its pieces agree where they overlap. -/
theorem loadedWhereLinked_iff (o : Overflow) (elf : ElfFile) (skipDcd : Bool) (image : Image)
    (file : ByteString) (h : Image.fromElf o elf skipDcd = .ok image)
    (hfile : image.intoBytes o = .ok file) :
    LoadedWhereLinked elf image file ↔
      IsLeast {a | a ∈ addresses elf} (appAddress image) ∧
        ∀ b ∈ pieces elf, ∀ c ∈ pieces elf, Agree b c := by
  have hsame : IsLeast {a | a ∈ addresses elf} (appAddress image) →
      (Placed elf image file ↔ ∀ b ∈ pieces elf, ∀ c ∈ pieces elf, Agree b c) := by
    intro hleast
    rw [← shifted_iff h hfile hleast]
    constructor
    · exact fun hp b hb k hk => hp b hb (appAddress image+k) hk
    · intro hp b hb k hk
      obtain ⟨j, rfl⟩ := Nat.exists_eq_add_of_le (Nat.le_trans (hleast.2 (offset_mem hb)) hk.1)
      exact hp b hb j hk
  constructor
  · rintro ⟨hp, hleast⟩
    exact ⟨hleast, (hsame hleast).mp hp⟩
  · rintro ⟨hleast, hagree⟩
    exact ⟨(hsame hleast).mpr hagree, hleast⟩

def oneByte (address : UInt64) (h : address.toNat < 2^32) : ElfFile :=
  { class_ := .thirtyTwo
    sections := [⟨.ok ".text", address, 1, some [7], some (.ok .other)⟩,
      ⟨.ok ".symtab", 0, 16, some [], some (.ok (.symbolTable32 [⟨.ok "_start", address⟩]))⟩]
    programs := []
    narrow := by
      intro _
      constructor
      · intro sh hsh
        rcases List.mem_cons.mp hsh with rfl | hsh
        · exact h
        · rw [List.mem_singleton.mp hsh]
          exact (by decide : (0 : UInt64).toNat < 2^32)
      · exact fun ph hph => absurd hph List.not_mem_nil
    tables := fun _ _ _ _ => rfl }

/-- Linked at the origin of the DRAM region of the linker script. -/
def near : ElfFile := oneByte 0x80000800 (by decide)

def nearImage : Image := ⟨[7], none, 0x80000800⟩

theorem near_written : ∃ file, nearImage.intoBytes .panics = .ok file := ⟨_, rfl⟩

theorem near_loadedWhereLinked : ∃ file, nearImage.intoBytes .panics = .ok file ∧
    LoadedWhereLinked near nearImage file := by
  obtain ⟨file, hfile⟩ := near_written
  have haddress : appAddress nearImage = 0x80000800 := by decide
  refine ⟨file, hfile, (loadedWhereLinked_iff .panics near true nearImage file rfl hfile).mpr
    ⟨?_, ?_⟩⟩
  · rw [haddress]
    exact ⟨List.mem_singleton.mpr rfl, fun a ha => Nat.le_of_eq (List.mem_singleton.mp ha).symm⟩
  · intro b hb c hc
    rw [List.mem_singleton.mp hb, List.mem_singleton.mp hc]
    exact fun _ _ _ => rfl

def far : ElfFile := oneByte 0x80001000 (by decide)

def farImage : Image := ⟨[7], none, 0x80001000⟩

theorem far_written : ∃ file, farImage.intoBytes .panics = .ok file := ⟨_, rfl⟩

theorem far_not_placed : ∃ file, Image.fromElf .panics far true = .ok farImage ∧
    farImage.intoBytes .panics = .ok file ∧ ¬Placed far farImage file := by
  obtain ⟨file, hfile⟩ := far_written
  have helf : Image.fromElf .panics far true = .ok farImage := rfl
  refine ⟨file, helf, hfile, fun hp => ?_⟩
  have hbyte := hp ⟨0x80001000, [7]⟩ (List.mem_singleton.mpr rfl) 0x80001000 (by decide)
  have haddress : appAddress farImage+0x800 = 0x80001000 := by decide
  have hend := loaded_app helf hfile 0x800
  rw [haddress, hbyte] at hend
  cases hend

end UsbArmory.Boot.Loading
