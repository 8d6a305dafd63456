import Mathlib.Order.Bounds.Basic
import UsbArmory.Boot.FromElf
import UsbArmory.Boot.Written
import UsbArmory.Library.Overlay
import UsbArmory.Library.Run

/-!
# What an image is made of

The two passes over an ELF file: the first finds the lowest address of what is
included, the second copies the pieces to their distances from it.
-/

set_option autoImplicit false

namespace UsbArmory.Boot.Pieces
open UsbArmory.Library.Word UsbArmory.Library.Binary UsbArmory.Library.Overlay
open UsbArmory.Library.Run UsbArmory.Boot.Writer UsbArmory.Boot.FromElf

variable {o : Overflow} {elf : ElfFile} {start : UInt32} {app app' : ByteString}

def sectionAddress (sh : SectionHeader) : Option ℕ :=
  if sh.included then some sh.address.toNat else none

def segmentAddress (ph : ProgramHeader) : Option ℕ :=
  if ph.included then some ph.physicalAddr.toNat else none

/-- The addresses that the included sections and segments are linked at. -/
def addresses (elf : ElfFile) : List ℕ :=
  elf.sections.filterMap sectionAddress ++ elf.programs.filterMap segmentAddress

def sectionPiece (sh : SectionHeader) : Option (Block UInt8) :=
  if sh.included then sh.rawData.map (Block.mk sh.address.toNat) else none

def segmentPiece (ph : ProgramHeader) : Option (Block UInt8) :=
  if ph.included then ph.bytes.toOption.map (Block.mk ph.physicalAddr.toNat) else none

/-- The bytes of the included sections and segments, at their addresses. -/
def pieces (elf : ElfFile) : List (Block UInt8) :=
  elf.sections.filterMap sectionPiece ++ elf.programs.filterMap segmentPiece

/-- The start that the first pass has found among these addresses. -/
def Lowest (found : Option UInt32) (as : List ℕ) : Prop :=
  match found with
  | none => as = []
  | some s => IsLeast {a | a ∈ as} s.toNat

theorem grow_ok {bounds bounds' : Bounds} {a size : UInt32} (h : bounds.grow o a size = .ok bounds')
    {as : List ℕ} (hlow : Lowest bounds.start as) : Lowest bounds'.start (as ++ [a.toNat]) := by
  unfold Bounds.grow at h
  cases hend : o.add32 a size with
  | none =>
    rw [hend] at h
    cases h
  | some stop =>
    rw [hend] at h
    cases h
    cases hs : bounds.start with
    | none =>
      rw [hs] at hlow
      rw [show as = [] from hlow]
      refine ⟨List.mem_singleton.mpr rfl, fun b hb => ?_⟩
      rw [List.mem_singleton.mp hb]
    | some s =>
      rw [hs] at hlow
      obtain ⟨hmem, hle⟩ := hlow
      show IsLeast _ (min s a).toNat
      rw [toNat_min]
      constructor
      · rcases Nat.le_total s.toNat a.toNat with hle | hle
        · rw [Nat.min_eq_left hle]
          exact List.mem_append_left _ hmem
        · rw [Nat.min_eq_right hle]
          exact List.mem_append_right _ (List.mem_singleton.mpr rfl)
      · intro b hb
        rcases List.mem_append.mp hb with hb | hb
        · exact Nat.le_trans (Nat.min_le_left _ _) (hle hb)
        · rw [List.mem_singleton.mp hb]
          exact Nat.min_le_right _ _

theorem addr_toNat {a : UInt64} (h : a.toNat < 2^32) : a.toUInt32.toNat = a.toNat := by
  rw [UInt64.toNat_toUInt32]
  exact Nat.mod_eq_of_lt h

theorem size_pass {A : Type} (included : A → Bool) (address : A → UInt64) (size : A → UInt32)
    {xs : List A} (hnarrow : ∀ x ∈ xs, (address x).toNat < 2^32) {b b' : Bounds} {as : List ℕ}
    (hlow : Lowest b.start as)
    (h : xs.foldlM (fun (b : Bounds) x =>
      if included x then b.grow o (address x).toUInt32 (size x) else pure b) b = .ok b') :
    Lowest b'.start
      (as ++ xs.filterMap fun x => if included x then some (address x).toNat else none) := by
  refine foldlM_invariant (I := fun done (c : Bounds) => Lowest c.start
    (as ++ done.filterMap fun x => if included x then some (address x).toNat else none))
    xs ?_ ?_ h
  · intro done x c c' hin hI hstep
    rw [List.filterMap_append, ← List.append_assoc]
    by_cases hinc : included x = true
    · rw [if_pos hinc] at hstep
      have hgrow := grow_ok hstep hI
      rw [addr_toNat (hnarrow x hin)] at hgrow
      simp only [List.filterMap_cons, List.filterMap_nil, if_pos hinc]
      exact hgrow
    · rw [if_neg hinc] at hstep
      cases hstep
      simp only [List.filterMap_cons, List.filterMap_nil, if_neg hinc, List.append_nil]
      exact hI
  · rw [List.filterMap_nil, List.append_nil]
    exact hlow

theorem sizing_ok (hnarrow : elf.class_ = .thirtyTwo) {b b' : Bounds}
    (hs : elf.sections.foldlM (sizeSection o) ⟨none, none⟩ = .ok b)
    (hp : elf.programs.foldlM (sizeSegment o) b = .ok b') : Lowest b'.start (addresses elf) := by
  obtain ⟨hsect, hprog⟩ := elf.narrow hnarrow
  have hnone : Lowest (⟨none, none⟩ : Bounds).start [] := rfl
  have hfirst := size_pass SectionHeader.included SectionHeader.address
    (fun sh => sh.size.toUInt32) hsect hnone hs
  exact size_pass ProgramHeader.included ProgramHeader.physicalAddr
    (fun ph => ph.memSize.toUInt32) hprog hfirst hp

def shift (s : ℕ) (b : Block UInt8) : Block UInt8 := ⟨b.offset-s, b.data⟩

theorem copyInto_ok {off size : ℕ} {data : ByteString} (h : copyInto app off size data = .ok app') :
    Fits app ⟨off, data⟩ ∧ app' = place app ⟨off, data⟩ := by
  unfold copyInto ensure at h
  by_cases hfit : off+size ≤ app.length
  · by_cases hlen : data.length = size
    · rw [if_pos hfit, if_pos hlen] at h
      cases h
      subst hlen
      exact ⟨hfit, rfl⟩
    · rw [if_pos hfit, if_neg hlen] at h
      cases h
  · rw [if_neg hfit] at h
    cases h

theorem fill_pass {A : Type} {fill : ByteString → A → Except (Stop String) ByteString}
    {piece : A → Option (Block UInt8)} {f : Block UInt8 → Block UInt8} {xs : List A}
    (hfill : ∀ x ∈ xs, ∀ c c', fill c x = .ok c' →
      piece x = none ∧ c' = c ∨ ∃ b, piece x = some b ∧ Fits c (f b) ∧ c' = place c (f b))
    (h : xs.foldlM fill app = .ok app') :
    (∀ b ∈ (xs.filterMap piece).map f, Fits app b) ∧ app'.length = app.length ∧
      app' = ((xs.filterMap piece).map f).foldl place app := by
  refine foldlM_invariant (I := fun done (c : ByteString) =>
    (∀ b ∈ (done.filterMap piece).map f, Fits app b) ∧ c.length = app.length ∧
      c = ((done.filterMap piece).map f).foldl place app) xs ?_ ?_ h
  · rintro done x c c' hin ⟨hfits, hlen, hc⟩ hstep
    rcases hfill x hin c c' hstep with ⟨hnone, rfl⟩ | ⟨b, hsome, hfit, rfl⟩
    · have hsame : (done ++ [x]).filterMap piece = done.filterMap piece := by
        simp [List.filterMap_append, hnone]
      rw [hsame]
      exact ⟨hfits, hlen, hc⟩
    · have hmore : (done ++ [x]).filterMap piece = done.filterMap piece ++ [b] := by
        simp [List.filterMap_append, hsome]
      rw [hmore, List.map_append, List.foldl_append, ← hc]
      refine ⟨fun d hd => ?_, (place_length hfit).trans hlen, rfl⟩
      rcases List.mem_append.mp hd with hd | hd
      · exact hfits d hd
      · rw [List.mem_singleton.mp hd]
        unfold Fits at hfit ⊢
        rw [← hlen]
        exact hfit
  · exact ⟨fun b hb => absurd hb List.not_mem_nil, rfl, rfl⟩

theorem offset_ok {a : UInt64} (hnarrow : a.toNat < 2^32) (hstart : start.toNat ≤ a.toNat) :
    o.sub32 a.toUInt32 start = some (a.toUInt32-start) ∧
      (a.toUInt32-start).toNat = a.toNat-start.toNat := by
  have hle : start ≤ a.toUInt32 := by
    rw [UInt32.le_iff_toNat_le, addr_toNat hnarrow]
    exact hstart
  refine ⟨sub32_exact o hle, ?_⟩
  rw [UInt32.toNat_sub_of_le _ _ hle, addr_toNat hnarrow]

theorem fillSection_ok {sh : SectionHeader} (hnarrow : sh.address.toNat < 2^32)
    (hstart : sh.included = true → start.toNat ≤ sh.address.toNat)
    (h : fillSection o start app sh = .ok app') :
    sectionPiece sh = none ∧ app' = app ∨ ∃ b, sectionPiece sh = some b ∧
      Fits app (shift start.toNat b) ∧ app' = place app (shift start.toNat b) := by
  unfold fillSection at h
  unfold sectionPiece
  by_cases hinc : sh.included = true
  · obtain ⟨hsub, hoff⟩ := offset_ok (o := o) hnarrow (hstart hinc)
    rw [if_pos hinc] at h ⊢
    rw [SectionHeader.addr, hsub] at h
    cases hdata : sh.rawData with
    | none =>
      rw [hdata] at h
      cases h
    | some data =>
      rw [hdata] at h
      obtain ⟨hfit, hplace⟩ := copyInto_ok h
      rw [hoff] at hfit hplace
      exact Or.inr ⟨⟨sh.address.toNat, data⟩, rfl, hfit, hplace⟩
  · rw [if_neg hinc] at h ⊢
    cases h
    exact Or.inl ⟨rfl, rfl⟩

theorem fillSegment_ok {ph : ProgramHeader} (hnarrow : ph.physicalAddr.toNat < 2^32)
    (hstart : ph.included = true → start.toNat ≤ ph.physicalAddr.toNat)
    (h : fillSegment o start app ph = .ok app') :
    segmentPiece ph = none ∧ app' = app ∨ ∃ b, segmentPiece ph = some b ∧
      Fits app (shift start.toNat b) ∧ app' = place app (shift start.toNat b) := by
  unfold fillSegment at h
  unfold segmentPiece
  by_cases hinc : ph.included = true
  · obtain ⟨hsub, hoff⟩ := offset_ok (o := o) hnarrow (hstart hinc)
    rw [if_pos hinc] at h ⊢
    cases hdata : ph.bytes with
    | error stop =>
      rw [hdata] at h
      cases h
    | ok data =>
      rw [hdata, bind_of_ok rfl, ProgramHeader.addr, hsub] at h
      obtain ⟨hfit, hplace⟩ := copyInto_ok h
      rw [hoff] at hfit hplace
      exact Or.inr ⟨⟨ph.physicalAddr.toNat, data⟩, rfl, hfit, hplace⟩
  · rw [if_neg hinc] at h ⊢
    cases h
    exact Or.inl ⟨rfl, rfl⟩

theorem entry_ok {entry : UInt32} (h : elf.entry = .ok entry) : elf.class_ = .thirtyTwo := by
  unfold ElfFile.entry at h
  cases hfind : elf.findSectionByName ".symtab" with
  | none =>
    rw [hfind] at h
    cases h
  | some symtab =>
    simp only [hfind] at h
    have hin : symtab ∈ elf.sections := List.mem_of_find?_eq_some hfind
    cases hdata : symtab.data with
    | none =>
      rw [hdata] at h
      cases h
    | some result =>
      cases result with
      | error message =>
        rw [hdata] at h
        cases h
      | ok data =>
        cases data with
        | symbolTable32 entries => exact elf.tables symtab hin entries hdata
        | other =>
          rw [hdata] at h
          cases h

end UsbArmory.Boot.Pieces
