import Mathlib.Data.List.Pairwise
import UsbArmory.Boot.Loading

/-!
# What is copied

A segment that is longer in memory than in the file would be filled up with
zeros, but the copy wants as many bytes as it has room for, and panics.
-/

set_option autoImplicit false

namespace UsbArmory.Boot.Copied
open UsbArmory.Library.Word UsbArmory.Library.Binary UsbArmory.Library.Overlay
open UsbArmory.Library.Run UsbArmory.Boot.Writer UsbArmory.Boot.Ddr UsbArmory.Boot.FromElf
open UsbArmory.Boot.Pieces UsbArmory.Boot.Loading

variable {o : Overflow} {elf : ElfFile} {app : ByteString} {d : Block UInt8}
variable {bs : List (Block UInt8)} {b : Bounds}

/-- The bytes of a segment, with the zeros behind what is in the file. -/
def segmentBlock (ph : ProgramHeader) : Option (Block UInt8) :=
  if ph.included then ph.bytes.toOption.map fun bytes =>
    ⟨ph.physicalAddr.toNat, bytes ++ List.replicate (ph.memSize.toNat-bytes.length) 0⟩
  else none

/-- What should be in memory of the included sections and segments. -/
def blocks (elf : ElfFile) : List (Block UInt8) :=
  elf.sections.filterMap sectionPiece ++ elf.programs.filterMap segmentBlock

def starts (bs : List (Block UInt8)) : Set ℕ := {a | ∃ d ∈ bs, d.offset = a}

def ends (bs : List (Block UInt8)) : Set ℕ := {a | ∃ d ∈ bs, d.offset+d.data.length = a}

def InDram (address size : UInt64) : Prop :=
  dramStart.toNat ≤ address.toNat ∧ address.toNat+size.toNat ≤ dramStart.toNat+dramSize.toNat

structure Linked (elf : ElfFile) : Prop where
  sections : ∀ sh ∈ elf.sections, sh.included = true → InDram sh.address sh.size ∧
    ∃ bytes, sh.rawData = some bytes ∧ bytes.length = sh.size.toNat
  segments : ∀ ph ∈ elf.programs, ph.included = true → InDram ph.physicalAddr ph.memSize ∧
    ∃ bytes, ph.data = some (.ok (.undefined bytes)) ∧ bytes.length ≤ ph.memSize.toNat
  apart : (blocks elf).Pairwise fun b c => ∀ k, b.covers k → ¬c.covers k
  start : ∃ symtab entries, elf.findSectionByName ".symtab" = some symtab ∧
    symtab.data = some (.ok (.symbolTable32 entries)) ∧ ∃ e ∈ entries, e.name = .ok "_start"

/-- The blocks at their distances from the lowest one, and zeros between them. -/
def Faithful (elf : ElfFile) (app : ByteString) : Prop :=
  ∃ lo hi, IsLeast (starts (blocks elf)) lo ∧ IsGreatest (ends (blocks elf)) hi ∧
    app.length = hi-lo ∧ (∀ d ∈ blocks elf, Shows app (shift lo d)) ∧
    ∀ k < app.length, (∀ d ∈ blocks elf, ¬d.covers (lo+k)) → app[k]? = some 0

def Full (elf : ElfFile) : Prop := ∀ ph ∈ elf.programs, ph.included = true →
  ∀ bytes, ph.data = some (.ok (.undefined bytes)) → bytes.length = ph.memSize.toNat

theorem starts_append (bs : List (Block UInt8)) (d : Block UInt8) :
    starts (bs ++ [d]) = insert d.offset (starts bs) := by
  ext a
  simp [starts, or_comm, eq_comm]

theorem ends_append (bs : List (Block UInt8)) (d : Block UInt8) :
    ends (bs ++ [d]) = insert (d.offset+d.data.length) (ends bs) := by
  ext a
  simp [ends, or_comm, eq_comm]

/-- The bounds that the first pass has found around these blocks. -/
inductive Spans : Bounds → List (Block UInt8) → Prop where
  | none : Spans ⟨none, none⟩ []
  | some {s e : UInt32} {bs : List (Block UInt8)} (low : IsLeast (starts bs) s.toNat)
    (high : IsGreatest (ends bs) e.toNat) : Spans ⟨some s, some e⟩ bs

theorem spans_bounds (h : Spans b bs) (hne : bs ≠ []) :
    ∃ start stop, b = ⟨some start, some stop⟩ ∧ IsLeast (starts bs) start.toNat ∧
      IsGreatest (ends bs) stop.toNat := by
  cases h with
  | none => exact absurd rfl hne
  | some low high => exact ⟨_, _, rfl, low, high⟩

theorem grow_spans (o : Overflow) (h : Spans b bs) {a size : UInt32} (hstart : a.toNat = d.offset)
    (hsize : size.toNat = d.data.length) (hend : d.offset+d.data.length < 2^32) :
    ∃ b', b.grow o a size = .ok b' ∧ Spans b' (bs ++ [d]) := by
  obtain ⟨stop, hadd, hsum⟩ := add32_exact o a size (by omega)
  rw [hstart, hsize] at hsum
  unfold Bounds.grow
  rw [hadd]
  cases h with
  | none =>
    refine ⟨_, rfl, .some ?_ ?_⟩
    · rw [starts_append, hstart]
      exact ⟨Set.mem_insert _ _, fun x hx => hx.elim (fun heq => heq.ge) fun ⟨_, hd, _⟩ =>
        nomatch hd⟩
    · rw [ends_append, hsum]
      exact ⟨Set.mem_insert _ _, fun x hx => hx.elim (fun heq => heq.le) fun ⟨_, hd, _⟩ =>
        nomatch hd⟩
  | @some s e _ low high =>
    refine ⟨_, rfl, .some ?_ ?_⟩
    · rw [starts_append, toNat_min, hstart, Nat.min_comm]
      exact low.insert _
    · rw [ends_append, toNat_max, hsum, Nat.max_comm]
      exact high.insert _

structure Occupies (d : Block UInt8) (address size : UInt64) : Prop where
  offset : d.offset = address.toNat
  length : d.data.length = size.toNat
  dram : InDram address size

theorem Occupies.low {address size : UInt64} (h : Occupies d address size) :
    d.offset+d.data.length < 2^32 := by
  have hend : dramStart.toNat+dramSize.toNat < 2^32 := by decide
  have hdram := h.dram.2
  rw [h.offset, h.length]
  omega

theorem size_runs {A : Type} (included : A → Bool) (address size : A → UInt64)
    (block : A → Option (Block UInt8)) {xs : List A}
    (hsome : ∀ x ∈ xs, included x = true →
      ∃ d, block x = some d ∧ Occupies d (address x) (size x))
    (hnone : ∀ x, included x = false → block x = none) (h : Spans b bs) :
    ∃ b', xs.foldlM (fun (b : Bounds) x => if included x then
      b.grow o (address x).toUInt32 (size x).toUInt32 else pure b) b = .ok b' ∧
        Spans b' (bs ++ xs.filterMap block) := by
  refine foldlM_runs (I := fun done (c : Bounds) => Spans c (bs ++ done.filterMap block)) xs ?_ ?_
  · intro done x c hin hI
    rw [List.filterMap_append, ← List.append_assoc]
    cases hinc : included x with
    | true =>
      obtain ⟨d, hd, hocc⟩ := hsome x hin hinc
      have hlow := hocc.low
      have hlone : [x].filterMap block = [d] := by simp [hd]
      rw [hocc.offset, hocc.length] at hlow
      obtain ⟨c', hrun, hspans⟩ := grow_spans o hI (d := d)
        ((addr_toNat (by omega)).trans hocc.offset.symm)
        ((addr_toNat (by omega)).trans hocc.length.symm) hocc.low
      rw [hlone, if_pos rfl]
      exact ⟨c', hrun, hspans⟩
    | false =>
      have hlone : [x].filterMap block = [] := by simp [hnone x hinc]
      rw [hlone, List.append_nil, if_neg (by decide)]
      exact ⟨c, rfl, hI⟩
  · rw [List.filterMap_nil, List.append_nil]
    exact h

theorem copyInto_runs {off size : ℕ} {data : ByteString} (hsize : data.length = size)
    (h : Fits app ⟨off, data⟩) : copyInto app off size data = .ok (place app ⟨off, data⟩) := by
  have hfit : off+size ≤ app.length := hsize ▸ h
  unfold copyInto ensure
  rw [if_pos hfit, if_pos hsize]
  rfl

def Laid (app : ByteString) (ds : List (Block UInt8)) (c : ByteString) : Prop :=
  c = ds.foldl place app ∧ c.length = app.length

theorem fill_runs {A : Type} {fill : ByteString → A → Except (Stop String) ByteString}
    {block : A → Option (Block UInt8)} {f : Block UInt8 → Block UInt8} {xs : List A}
    (hfits : ∀ d ∈ (xs.filterMap block).map f, Fits app d)
    (hfill : ∀ x ∈ xs, ∀ c, block x = none ∧ fill c x = .ok c ∨
      ∃ d, block x = some d ∧ (Fits c (f d) → fill c x = .ok (place c (f d)))) :
    xs.foldlM fill app = .ok (((xs.filterMap block).map f).foldl place app) := by
  have hstep : ∀ done x c, x ∈ xs → Laid app ((done.filterMap block).map f) c →
      ∃ c', fill c x = .ok c' ∧ Laid app (((done ++ [x]).filterMap block).map f) c' := by
    rintro done x c hin ⟨hc, hlen⟩
    rcases hfill x hin c with ⟨hnone, hrun⟩ | ⟨d, hsome, hrun⟩
    · have hsame : (done ++ [x]).filterMap block = done.filterMap block := by
        simp [List.filterMap_append, hnone]
      exact ⟨c, hrun, by rw [hsame]; exact hc, hlen⟩
    · have hmore : (done ++ [x]).filterMap block = done.filterMap block ++ [d] := by
        simp [List.filterMap_append, hsome]
      have hfit : Fits c (f d) := by
        unfold Fits
        rw [hlen]
        exact hfits _ (List.mem_map_of_mem (List.mem_filterMap.mpr ⟨x, hin, hsome⟩))
      refine ⟨_, hrun hfit, ?_, (place_length hfit).trans hlen⟩
      rw [hmore, List.map_append, List.foldl_append, hc]
      rfl
  have hnil : Laid app ((([] : List A).filterMap block).map f) app := ⟨rfl, rfl⟩
  obtain ⟨c, hrun, hc, -⟩ := foldlM_runs
    (I := fun done c => Laid app ((done.filterMap block).map f) c) xs hstep hnil
  rw [hrun, hc]

section Linked

theorem bytes_ok {ph : ProgramHeader} {bytes : ByteString}
    (h : ph.data = some (.ok (.undefined bytes))) : ph.bytes = .ok bytes := by
  rw [ProgramHeader.bytes, h]

theorem Linked.section (h : Linked elf) {sh : SectionHeader} (hin : sh ∈ elf.sections)
    (hinc : sh.included = true) : ∃ bytes, sh.rawData = some bytes ∧
      sectionPiece sh = some ⟨sh.address.toNat, bytes⟩ ∧
      Occupies ⟨sh.address.toNat, bytes⟩ sh.address sh.size := by
  obtain ⟨hdram, bytes, hdata, hlen⟩ := h.sections sh hin hinc
  refine ⟨bytes, hdata, ?_, rfl, hlen, hdram⟩
  rw [sectionPiece, if_pos hinc, hdata]
  rfl

theorem Linked.segment (h : Linked elf) {ph : ProgramHeader} (hin : ph ∈ elf.programs)
    (hinc : ph.included = true) : ∃ bytes d, ph.data = some (.ok (.undefined bytes)) ∧
      segmentBlock ph = some d ∧ Occupies d ph.physicalAddr ph.memSize ∧
      (bytes.length = ph.memSize.toNat → d = ⟨ph.physicalAddr.toNat, bytes⟩) := by
  obtain ⟨hdram, bytes, hdata, hle⟩ := h.segments ph hin hinc
  refine ⟨bytes, ⟨ph.physicalAddr.toNat, bytes ++ List.replicate (ph.memSize.toNat-bytes.length) 0⟩,
    hdata, ?_, ⟨rfl, ?_, hdram⟩, fun hfull => ?_⟩
  · rw [segmentBlock, if_pos hinc, bytes_ok hdata]
    rfl
  · rw [List.length_append, List.length_replicate]
    exact Nat.add_sub_cancel' hle
  · rw [hfull, Nat.sub_self]
    exact congrArg _ (List.append_nil bytes)

theorem Linked.sizes (h : Linked elf) : ∃ b b', elf.sections.foldlM (sizeSection o) ⟨none, none⟩ =
    .ok b ∧ elf.programs.foldlM (sizeSegment o) b = .ok b' ∧ Spans b' (blocks elf) := by
  obtain ⟨b, hb, hspans⟩ := size_runs (o := o) SectionHeader.included
    SectionHeader.address SectionHeader.size sectionPiece
    (fun sh hin hinc => by
      obtain ⟨bytes, -, hpiece, hocc⟩ := h.section hin hinc
      exact ⟨_, hpiece, hocc⟩)
    (fun sh hinc => if_neg (by rw [hinc]; decide)) Spans.none
  obtain ⟨b', hb', hspans'⟩ := size_runs (o := o) ProgramHeader.included
    ProgramHeader.physicalAddr ProgramHeader.memSize segmentBlock
    (fun ph hin hinc => by
      obtain ⟨bytes, d, -, hblock, hocc, -⟩ := h.segment hin hinc
      exact ⟨d, hblock, hocc⟩)
    (fun ph hinc => if_neg (by rw [hinc]; decide)) hspans
  exact ⟨b, b', hb, hb', hspans'⟩

theorem fillSection_runs (h : Linked elf) {sh : SectionHeader} (hin : sh ∈ elf.sections)
    {start : UInt32} (hlow : ∀ d ∈ blocks elf, start.toNat ≤ d.offset) (c : ByteString) :
    sectionPiece sh = none ∧ fillSection o start c sh = .ok c ∨
      ∃ d, sectionPiece sh = some d ∧ (Fits c (shift start.toNat d) →
        fillSection o start c sh = .ok (place c (shift start.toNat d))) := by
  cases hinc : sh.included with
  | false =>
    have hnot : ¬sh.included = true := by rw [hinc]; decide
    exact .inl ⟨if_neg hnot, if_neg hnot⟩
  | true =>
    obtain ⟨bytes, hdata, hpiece, hocc⟩ := h.section hin hinc
    have hend := hocc.low
    have hstart := hlow _ (List.mem_append_left _ (List.mem_filterMap.mpr ⟨sh, hin, hpiece⟩))
    have hlow : sh.address.toNat < 2^32 := Nat.lt_of_le_of_lt (Nat.le_add_right _ _) hend
    obtain ⟨hsub, hoff⟩ := offset_ok (o := o) hlow hstart
    refine .inr ⟨_, hpiece, fun hfit => ?_⟩
    rw [fillSection, if_pos hinc, SectionHeader.addr, hsub, hdata]
    show copyInto c (sh.address.toUInt32-start).toNat sh.size.toNat bytes = _
    rw [hoff]
    exact copyInto_runs hocc.length hfit

theorem fillSegment_runs (h : Linked elf) {ph : ProgramHeader} (hin : ph ∈ elf.programs)
    (hfull : Full elf) {start : UInt32} (hlow : ∀ d ∈ blocks elf, start.toNat ≤ d.offset)
    (c : ByteString) : segmentBlock ph = none ∧ fillSegment o start c ph = .ok c ∨
      ∃ d, segmentBlock ph = some d ∧ (Fits c (shift start.toNat d) →
        fillSegment o start c ph = .ok (place c (shift start.toNat d))) := by
  cases hinc : ph.included with
  | false =>
    have hnot : ¬ph.included = true := by rw [hinc]; decide
    exact .inl ⟨if_neg hnot, if_neg hnot⟩
  | true =>
    obtain ⟨bytes, d, hdata, hblock, hocc, hsame⟩ := h.segment hin hinc
    have hlen := hfull ph hin hinc bytes hdata
    have hend := hocc.low
    have hstart := hlow d (List.mem_append_right _ (List.mem_filterMap.mpr ⟨ph, hin, hblock⟩))
    obtain rfl := hsame hlen
    have hlow : ph.physicalAddr.toNat < 2^32 := Nat.lt_of_le_of_lt (Nat.le_add_right _ _) hend
    obtain ⟨hsub, hoff⟩ := offset_ok (o := o) hlow hstart
    refine .inr ⟨_, hblock, fun hfit => ?_⟩
    rw [fillSegment, if_pos hinc, bytes_ok hdata, ProgramHeader.addr, hsub]
    show copyInto c (ph.physicalAddr.toUInt32-start).toNat ph.memSize.toNat bytes = _
    rw [hoff]
    exact copyInto_runs hlen hfit

theorem foldl_found {A B : Type} {f : Option B → A → Option B} {P : A → Prop} {xs : List A}
    (hkeep : ∀ acc x, acc.isSome = true → (f acc x).isSome = true)
    (hfind : ∀ acc x, P x → (f acc x).isSome = true) (acc : Option B)
    (h : acc.isSome = true ∨ ∃ x ∈ xs, P x) : (xs.foldl f acc).isSome = true := by
  induction xs generalizing acc with
  | nil =>
    rcases h with hacc | ⟨x, hx, -⟩
    · exact hacc
    · cases hx
  | cons x xs ih =>
    refine ih (f acc x) ?_
    rcases h with hacc | ⟨y, _ | ⟨_, hy⟩, hP⟩
    · exact .inl (hkeep acc x hacc)
    · exact .inl (hfind acc x hP)
    · exact .inr ⟨y, hy, hP⟩

theorem startSymbol_some {entries : List SymbolEntry} (h : ∃ e ∈ entries, e.name = .ok "_start") :
    ∃ start, startSymbol entries = some start := by
  apply Option.isSome_iff_exists.mp
  refine foldl_found (P := fun e => e.name = .ok "_start") ?_ ?_ none (.inr h)
  · intro acc entry hacc
    split
    next => rfl
    next => exact hacc
  · intro acc entry hname
    simp only [hname]
    rfl

theorem Linked.entry (h : Linked elf) : ∃ entry, elf.entry = .ok entry := by
  obtain ⟨symtab, entries, hfind, hdata, hstart⟩ := h.start
  obtain ⟨start, hsymbol⟩ := startSymbol_some hstart
  refine ⟨start, ?_⟩
  rw [ElfFile.entry, hfind]
  dsimp only
  rw [hdata]
  dsimp only
  rw [SectionData.start, hsymbol]

theorem fits_span {s e : ℕ} (hlow : s ≤ d.offset) (hhigh : d.offset+d.data.length ≤ e) :
    Fits (List.replicate (e-s) (0 : UInt8)) (shift s d) := by
  show d.offset-s+d.data.length ≤ _
  rw [List.length_replicate]
  omega

theorem linked_runs (o : Overflow) (skipDcd : Bool) (h : Linked elf) (hne : blocks elf ≠ [])
    (hfull : Full elf) : ∃ image lo hi, Image.fromElf o elf skipDcd = .ok image ∧
      IsLeast (starts (blocks elf)) lo ∧ IsGreatest (ends (blocks elf)) hi ∧
      image.app = ((blocks elf).map (shift lo)).foldl place (List.replicate (hi-lo) 0) := by
  obtain ⟨b, b', hb, hb', hspans⟩ := h.sizes (o := o)
  obtain ⟨entry, hentry⟩ := h.entry
  obtain ⟨start, stop, rfl, low, high⟩ := spans_bounds hspans hne
  have hfits : ∀ d ∈ (blocks elf).map (shift start.toNat),
      Fits (List.replicate (stop.toNat-start.toNat) (0 : UInt8)) d := by
    intro d hd
    obtain ⟨c, hc, rfl⟩ := List.mem_map.mp hd
    exact fits_span (low.2 ⟨c, hc, rfl⟩) (high.2 ⟨c, hc, rfl⟩)
  have hlow : ∀ d ∈ blocks elf, start.toNat ≤ d.offset := fun d hd => low.2 ⟨d, hd, rfl⟩
  have hle : start ≤ stop := by
    obtain ⟨d, hd, hoff⟩ := low.1
    have hend := high.2 ⟨d, hd, rfl⟩
    rw [UInt32.le_iff_toNat_le]
    omega
  rw [blocks, List.map_append] at hfits
  have hsections := fill_runs (fun d hd => hfits d (List.mem_append_left _ hd))
    fun sh hin c => fillSection_runs (o := o) h hin hlow c
  have hkeep : ∀ d ∈ (elf.programs.filterMap segmentBlock).map (shift start.toNat),
      Fits (((elf.sections.filterMap sectionPiece).map (shift start.toNat)).foldl place
        (List.replicate (stop.toNat-start.toNat) 0)) d := by
    intro d hd
    unfold Fits
    rw [foldl_length fun d hd => hfits d (List.mem_append_left _ hd)]
    exact hfits d (List.mem_append_right _ hd)
  have hprograms := fill_runs hkeep
    fun ph hin c => fillSegment_runs (o := o) h hin hfull hlow c
  have hrun : Image.fromElf o elf skipDcd = .ok ⟨((blocks elf).map (shift start.toNat)).foldl place
      (List.replicate (stop.toNat-start.toNat) 0), if skipDcd then none else some initDdr,
      entry⟩ := by
    have hsize : Bounds.size start stop = some (stop.toNat-start.toNat) := if_pos hle
    rw [Image.fromElf, bind_of_ok hb, bind_of_ok hb', bind_of_ok (expect_some rfl),
      bind_of_ok (expect_some rfl), bind_of_ok (expect_some hsize), bind_of_ok hsections,
      bind_of_ok hprograms, bind_of_ok hentry, blocks, List.map_append, List.foldl_append]
    rfl
  exact ⟨_, start.toNat, stop.toNat, hrun, low, high, rfl⟩

theorem blocks_agree (h : Linked elf) : ∀ c ∈ blocks elf, ∀ d ∈ blocks elf, Agree c d := by
  have hsymm : Std.Symm (Agree : Block UInt8 → Block UInt8 → Prop) :=
    ⟨fun b c hbc k hc hb => (hbc k hb hc).symm⟩
  have hagree : (blocks elf).Pairwise Agree :=
    h.apart.imp fun hapart k hb hc => absurd hc (hapart k hb)
  exact fun c hc d hd => hagree.forall_of_forall (fun _ _ _ _ _ => rfl) hc hd

theorem fillSegment_full {start : UInt32} {c c' : ByteString} {ph : ProgramHeader}
    {bytes : ByteString} (hinc : ph.included = true)
    (hdata : ph.data = some (.ok (.undefined bytes))) (h : fillSegment o start c ph = .ok c') :
    bytes.length = ph.memSize.toNat := by
  rw [fillSegment, if_pos hinc, bytes_ok hdata, bind_of_ok rfl] at h
  obtain ⟨off, -, hcopy⟩ := ok_of_bind h
  unfold copyInto ensure at hcopy
  by_cases hlen : bytes.length = ph.memSize.toNat
  · exact hlen
  · rw [if_neg hlen] at hcopy
    split at hcopy
    · cases hcopy
    · cases hcopy

theorem full_of_runs {image : Image} {skipDcd : Bool}
    (h : Image.fromElf o elf skipDcd = .ok image) : Full elf := by
  unfold Image.fromElf at h
  obtain ⟨b, -, h₁⟩ := ok_of_bind h
  obtain ⟨b', -, h₂⟩ := ok_of_bind h₁
  obtain ⟨start, -, h₃⟩ := ok_of_bind h₂
  obtain ⟨stop, -, h₄⟩ := ok_of_bind h₃
  obtain ⟨size, -, h₅⟩ := ok_of_bind h₄
  obtain ⟨app, -, h₆⟩ := ok_of_bind h₅
  obtain ⟨app', happ', -⟩ := ok_of_bind h₆
  refine foldlM_invariant (I := fun done _ => ∀ ph ∈ done, ph.included = true →
    ∀ bytes, ph.data = some (.ok (.undefined bytes)) → bytes.length = ph.memSize.toNat)
    elf.programs ?_ (fun _ hph => absurd hph List.not_mem_nil) happ'
  intro done ph c c' _ hdone hstep ph' hph' hinc bytes hdata
  rcases List.mem_append.mp hph' with hph' | hph'
  · exact hdone ph' hph' hinc bytes hdata
  · obtain rfl := List.mem_singleton.mp hph'
    exact fillSegment_full hinc hdata hstep

/-- The segments and sections are copied exactly if there are some, and no segment is longer in
memory than in the file. -/
theorem faithful_iff (o : Overflow) (skipDcd : Bool) (elf : ElfFile) (h : Linked elf) :
    (∃ image, Image.fromElf o elf skipDcd = .ok image ∧ Faithful elf image.app) ↔
      blocks elf ≠ [] ∧ Full elf := by
  constructor
  · rintro ⟨image, hrun, lo, hi, low, -⟩
    refine ⟨?_, full_of_runs hrun⟩
    obtain ⟨d, hd, -⟩ := low.1
    exact List.ne_nil_of_mem hd
  · rintro ⟨hne, hfull⟩
    obtain ⟨image, lo, hi, hrun, low, high, happ⟩ := linked_runs o skipDcd h hne hfull
    have hlow : ∀ d ∈ blocks elf, lo ≤ d.offset := fun d hd => low.2 ⟨d, hd, rfl⟩
    have hfits : ∀ d ∈ (blocks elf).map (shift lo),
        Fits (List.replicate (hi-lo) (0 : UInt8)) d := by
      intro d hd
      obtain ⟨c, hc, rfl⟩ := List.mem_map.mp hd
      exact fits_span (hlow c hc) (high.2 ⟨c, hc, rfl⟩)
    have hagree : ∀ c ∈ (blocks elf).map (shift lo), ∀ d ∈ (blocks elf).map (shift lo),
        Agree c d := by
      simp only [List.forall_mem_map]
      exact fun c hc d hd => (agree_shift (hlow c hc) (hlow d hd)).mpr (blocks_agree h c hc d hd)
    have hlen : image.app.length = hi-lo := by
      rw [happ, foldl_length hfits, List.length_replicate]
    refine ⟨image, hrun, lo, hi, low, high, hlen, fun d hd => ?_, fun k hk hgap => ?_⟩
    · rw [happ]
      exact (shows_all_iff hfits).mpr hagree _ (List.mem_map_of_mem hd)
    · have hnone : ∀ d ∈ (blocks elf).map (shift lo), ¬d.covers k := by
        simp only [List.forall_mem_map]
        exact fun d hd hcov => hgap d hd ((shift_covers (hlow d hd)).mp hcov)
      rw [happ, foldl_other hfits hnone]
      exact List.getElem?_replicate_of_lt (hlen ▸ hk)

end Linked

/-- A file whose only symbol is at the start of these segments. -/
def segmentsOnly (programs : List ProgramHeader)
    (h : ∀ ph ∈ programs, ph.physicalAddr.toNat < 2^32) : ElfFile :=
  { class_ := .thirtyTwo
    sections := [⟨.ok ".symtab", 0, 16, some [],
      some (.ok (.symbolTable32 [⟨.ok "_start", 0x80000800⟩]))⟩]
    programs := programs
    narrow := by
      refine fun _ => ⟨fun sh hsh => ?_, h⟩
      rw [List.mem_singleton.mp hsh]
      exact (by decide : (0 : UInt64).toNat < 2^32)
    tables := fun _ _ _ _ => rfl }

theorem segments_linked {programs : List ProgramHeader}
    (h : ∀ ph ∈ programs, ph.physicalAddr.toNat < 2^32)
    (hsegments : ∀ ph ∈ programs, ph.included = true → InDram ph.physicalAddr ph.memSize ∧
      ∃ bytes, ph.data = some (.ok (.undefined bytes)) ∧ bytes.length ≤ ph.memSize.toNat)
    (hapart : (programs.filterMap segmentBlock).Pairwise fun b c => ∀ k, b.covers k → ¬c.covers k) :
    Linked (segmentsOnly programs h) := by
  refine ⟨fun sh hsh hinc => ?_, hsegments, hapart, ?_⟩
  · rw [List.mem_singleton.mp hsh] at hinc
    cases hinc
  · exact ⟨_, [⟨.ok "_start", 0x80000800⟩], rfl, rfl, _, List.mem_singleton.mpr rfl, rfl⟩

/-- Two bytes of data in memory, of which the file has these. -/
def data (bytes : ByteString) : ProgramHeader :=
  ⟨.ok .load, 0x80000800, 0x00900000, 2, some (.ok (.undefined bytes))⟩

def dataFile (bytes : ByteString) : ElfFile := segmentsOnly [data bytes] fun ph hph => by
  rw [List.mem_singleton.mp hph]
  exact (by decide : (0x80000800 : UInt64).toNat < 2^32)

theorem dataFile_linked {bytes : ByteString} (h : bytes.length ≤ 2) : Linked (dataFile bytes) := by
  refine segments_linked _ (fun ph hph _ => ?_) (List.pairwise_singleton _ _)
  rw [List.mem_singleton.mp hph]
  exact ⟨(⟨by decide, by decide⟩ : InDram 0x80000800 2), bytes, rfl, h⟩

theorem faithful_data : ∃ image, Image.fromElf .panics (dataFile [7, 8]) true = .ok image ∧
    Faithful (dataFile [7, 8]) image.app := by
  refine (faithful_iff .panics true (dataFile [7, 8]) (dataFile_linked (by decide))).mpr ⟨?_, ?_⟩
  · exact List.cons_ne_nil _ _
  · intro ph hph _ bytes hdata
    rw [List.mem_singleton.mp hph] at hdata ⊢
    cases hdata
    rfl

def nothingFile : ElfFile := segmentsOnly [] fun _ hph => absurd hph List.not_mem_nil

/-- A segment with a byte that is not in the file panics, and so does a file with nothing to
copy. -/
theorem faithful_not :
    (Linked (dataFile [7]) ∧ Image.fromElf .panics (dataFile [7]) true =
      .error (.panic "source slice length does not match destination slice length")) ∧
    (Linked nothingFile ∧ Image.fromElf .panics nothingFile true = .error (.panic "TODO")) := by
  refine ⟨⟨dataFile_linked (by decide), rfl⟩, ?_, rfl⟩
  exact segments_linked _ (fun ph hph => absurd hph List.not_mem_nil) List.Pairwise.nil

end UsbArmory.Boot.Copied
