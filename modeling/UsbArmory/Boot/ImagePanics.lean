import UsbArmory.Boot.DcdPanics

/-!
# Which bytes make the parser of an image panic

The parser settles exactly on the images whose header length, pointers and
DCD are calm; an image that it returns has its slices in the input.
-/

set_option autoImplicit false

namespace UsbArmory.Boot.ImagePanics
open UsbArmory.Library.Word UsbArmory.Library.Binary UsbArmory.Library.Consume
open UsbArmory.Library.Settle UsbArmory.Boot.Commands UsbArmory.Boot.Reader UsbArmory.Boot.Encoding
open UsbArmory.Boot.Walk UsbArmory.Boot.DeclaredBytes UsbArmory.Boot.DcdPanics

variable {o : Overflow} {input rest : ByteString} {ivt : Ivt}

def SliceAt (input slice : ByteString) (address self_ : UInt32) : Prop :=
  self_ ≤ address ∧ ∃ before after, input = before ++ slice ++ after ∧
    before.length = (address-self_).toNat

structure Inside (input : ByteString) (image : Image) : Prop where
  bootData : SliceAt input (bootDataBytes image.bootData) image.ivt.boot image.ivt.self_
  dcd : ∀ dcd ∈ image.dcd, SliceAt input dcd.asBytes image.ivt.dcd image.ivt.self_

/-- A vector table with the values that the parser accepts in its header. -/
def Valid (ivt : Ivt) : Prop := ivt.header.tag = ivtTag ∧ ivt.header.length = ivtLength ∧
  (ivt.header.version = version0 ∨ ivt.header.version = version1)

structure Pointers (o : Overflow) (input : ByteString) (ivt : Ivt) : Prop where
  boot : ivt.self_ ≤ ivt.boot ∧ (ivt.boot-ivt.self_).toNat+BootData.size ≤ input.length
  dcd : ivt.dcd ≠ 0 → ivt.self_ ≤ ivt.dcd ∧ (ivt.dcd-ivt.self_).toNat ≤ input.length ∧
    DcdCalm o (input.drop (ivt.dcd-ivt.self_).toNat)

structure Calm (o : Overflow) (input : ByteString) : Prop where
  length : ∀ hi lo rest, input = ivtTag::hi::lo::rest → ofBe16 hi lo = ivtLength
  pointers : ∀ ivt rest, Valid ivt → input = ivtBytes ivt ++ rest → Pointers o input ivt

theorem ends_header (input : ByteString) :
    Ends (∀ hi lo rest, input = ivtTag::hi::lo::rest → ofBe16 hi lo = ivtLength) (fun _ => True)
      (Ivt.Header.parse.run input) := by
  match input with
  | [] => exact .error () nofun
  | [t] | [t, _] =>
    by_cases ht : t = ivtTag
    · subst ht
      exact .error () nofun
    · rw [Ivt.Header.parse, run_bind_error (tag_foreign ht _)]
      exact .error () nofun
  | t::hi::lo::rest =>
    by_cases ht : t = ivtTag
    · subst ht
      rw [Ivt.Header.parse, run_bind_tag, run_bind_ok (beU16_run hi lo rest), ensure]
      split
      next hlen =>
        have htame : Tame (alt (tagBytes [version0]) (tagBytes [version1]) >>= fun v =>
            (pure ⟨ivtTag, ofBe16 hi lo, v.headD 0⟩ : Parser Ivt.Header)) :=
          tame_bind (tame_alt (tame_tagBytes _) (tame_tagBytes _)) fun v => tame_pure _
        refine (htame rest).congr ⟨fun _ => ?_, fun _ => trivial⟩ fun _ _ => id
        rintro _ _ _ ⟨⟩
        exact hlen
      next hlen => exact .panic _ fun h => hlen (h hi lo rest rfl)
    · rw [Ivt.Header.parse, run_bind_error (tag_foreign ht _)]
      refine .error () fun _ _ _ heq => absurd ?_ ht
      exact (List.cons.inj heq).1

theorem tame_fields (header : Ivt.Header) : Tame (do
    let entry ← leU32
    let _ ← tagBytes [0, 0, 0, 0]
    let dcd ← leU32
    let boot ← leU32
    let self_ ← leU32
    let csf ← leU32
    let _ ← tagBytes [0, 0, 0, 0]
    pure ⟨header, entry, dcd, boot, self_, csf⟩ : Parser Ivt) := by
  refine tame_bind tame_leU32 fun entry => tame_bind (tame_tagBytes _) fun _ => ?_
  refine tame_bind tame_leU32 fun dcd => tame_bind tame_leU32 fun boot => ?_
  refine tame_bind tame_leU32 fun self_ => tame_bind tame_leU32 fun csf => ?_
  exact tame_bind (tame_tagBytes _) fun _ => tame_pure _

theorem ends_ivt (input : ByteString) :
    Ends (∀ hi lo rest, input = ivtTag::hi::lo::rest → ofBe16 hi lo = ivtLength) (fun _ => True)
      (Ivt.parse.run input) := by
  have hbind := (ends_header input).bind fun r _ _ => tame_fields r.1 r.2
  exact hbind.congr ⟨And.left, fun h => ⟨h, fun _ _ => trivial⟩⟩ fun _ _ => id

theorem header_spelled {header : Ivt.Header}
    (h : Ivt.Header.parse.run input = .ok (header, rest)) :
    header.tag = ivtTag ∧ header.length = ivtLength ∧
      (header.version = version0 ∨ header.version = version1) ∧
      input = [header.tag] ++ (toBe16 header.length ++ [header.version]) ++ rest := by
  obtain ⟨tag, t₁, htag, h⟩ := bind_ok h
  obtain ⟨length, t₂, hlength, h⟩ := bind_ok h
  obtain ⟨⟨⟩, t₃, hensure, h⟩ := bind_ok h
  obtain ⟨v, t₄, hversion, h⟩ := bind_ok h
  cases h
  obtain ⟨rfl, rfl⟩ := tagBytes_ok htag
  obtain ⟨hi, lo, rfl, rfl⟩ := beU16_ok hlength
  obtain ⟨hlen, rfl⟩ := ensure_run_ok hensure
  rcases alt_ok hversion with hv | hv
  · obtain ⟨rfl, rfl⟩ := tagBytes_ok hv
    refine ⟨rfl, hlen, .inl rfl, ?_⟩
    rw [toBe16_ofBe16]
    rfl
  · obtain ⟨rfl, rfl⟩ := tagBytes_ok hv
    refine ⟨rfl, hlen, .inr rfl, ?_⟩
    rw [toBe16_ofBe16]
    rfl

theorem ivt_spelled (h : Ivt.parse.run input = .ok (ivt, rest)) :
    Valid ivt ∧ input = ivtBytes ivt ++ rest := by
  obtain ⟨header, t₁, hheader, h⟩ := bind_ok h
  obtain ⟨entry, t₂, hentry, h⟩ := bind_ok h
  obtain ⟨_, t₃, hzero, h⟩ := bind_ok h
  obtain ⟨dcd, t₄, hdcd, h⟩ := bind_ok h
  obtain ⟨boot, t₅, hboot, h⟩ := bind_ok h
  obtain ⟨self_, t₆, hself, h⟩ := bind_ok h
  obtain ⟨csf, t₇, hcsf, h⟩ := bind_ok h
  obtain ⟨_, t₈, hlast, h⟩ := bind_ok h
  cases h
  obtain ⟨htag, hlength, hversion, rfl⟩ := header_spelled hheader
  refine ⟨⟨htag, hlength, hversion⟩, ?_⟩
  rw [spells_leU32 _ _ _ hentry, (tagBytes_ok hzero).2, spells_leU32 _ _ _ hdcd,
    spells_leU32 _ _ _ hboot, spells_leU32 _ _ _ hself, spells_leU32 _ _ _ hcsf,
    (tagBytes_ok hlast).2, ivtBytes]
  simp only [List.append_assoc]

theorem ivt_found {ivt : Ivt} (hvalid : Valid ivt) (rest : ByteString) :
    Ivt.parse.run (ivtBytes ivt ++ rest) = .ok (ivt, rest) := by
  obtain ⟨⟨tag, length, v⟩, entry, dcd, boot, self_, csf⟩ := ivt
  obtain ⟨htag, hlength, hv⟩ := hvalid
  cases htag
  cases hlength
  exact reads_ivt hv entry dcd boot self_ csf rest

theorem spells_bootData : Spells BootData.parse bootDataBytes := by
  intro input bootData rest h
  obtain ⟨start, t₁, hstart, h⟩ := bind_ok h
  obtain ⟨len, t₂, hlen, h⟩ := bind_ok h
  obtain ⟨plugin, t₃, hplugin, h⟩ := bind_ok h
  cases h
  rw [spells_leU32 _ _ _ hstart, spells_leU32 _ _ _ hlen, spells_leU32 _ _ _ hplugin, bootDataBytes]
  simp only [List.append_assoc]

theorem fixed_bootData : Fixed BootData.parse BootData.size := by
  refine fixed_bind (l := 8) fixed_leU32 fun start => ?_
  refine fixed_bind (l := 4) fixed_leU32 fun len => ?_
  exact fixed_bind (l := 0) fixed_leU32 fun plugin => fixed_pure _

theorem ends_parsed {α : Type} {P : Prop} {Q : α × ByteString → Prop} (text : String)
    {p : Parser α} (h : Ends P Q (p.run input)) : Ends P
      (fun a => ∃ rest, p.run input = .ok (a, rest) ∧ Q (a, rest)) (parsed text p input) := by
  unfold parsed
  generalize p.run input = r at h
  cases h with
  | ok hp hq => exact .ok hp ⟨_, rfl, hq⟩
  | error e hp => exact .error text hp
  | panic message hp => exact .panic message hp

theorem sliceAt_of_range {slice : ByteString} {address self_ : UInt32} {stop : ℕ}
    (hle : self_ ≤ address) (hstart : (address-self_).toNat ≤ stop) (hstop : stop ≤ input.length)
    (h : slice <+: (input.take stop).drop (address-self_).toNat) :
    SliceAt input slice address self_ := by
  obtain ⟨after, hafter⟩ := h
  refine ⟨hle, input.take (address-self_).toNat, after ++ input.drop stop, ?_, ?_⟩
  · have htake : (input.take stop).take (address-self_).toNat =
      input.take (address-self_).toNat := by
      rw [List.take_take, Nat.min_eq_left hstart]
    calc input = input.take stop ++ input.drop stop := (List.take_append_drop _ _).symm
      _ = (input.take stop).take (address-self_).toNat ++ (slice ++ after) ++ input.drop stop := by
        rw [hafter, List.take_append_drop (address-self_).toNat]
      _ = _ := by
        rw [htake]
        simp only [List.append_assoc]
  · rw [List.length_take]
    omega

def bootDataAt (input : ByteString) (boot self_ : UInt32) : Except (Stop String) BootData := do
  let bootDataOffset ← expect "TODO" (checkedSub32 boot self_)
  let bootDataInput ← expect "TODO"
    (getRange input bootDataOffset.toNat (bootDataOffset.toNat+BootData.size))
  parsed "error parsing Boot Data" BootData.parse bootDataInput

def dcdAt (o : Overflow) (input : ByteString) (dcd self_ : UInt32) : Except (Stop String) Dcd := do
  let dcdOffset ← expect "TODO" (checkedSub32 dcd self_)
  let dcdInput ← expect "TODO" (getRange input dcdOffset.toNat input.length)
  parsed "error parsing DCD" (Dcd.parse o) dcdInput

def slices (o : Overflow) (input : ByteString) (ivt : Ivt) : Except (Stop String) Image := do
  let bootData ← bootDataAt input ivt.boot ivt.self_
  if ivt.dcd ≠ 0 then
    let dcd ← dcdAt o input ivt.dcd ivt.self_
    pure ⟨ivt, bootData, some dcd⟩
  else pure ⟨ivt, bootData, none⟩

theorem parse_eq (o : Overflow) (input : ByteString) : Image.parse o input =
    parsed "error parsing the IVT" Ivt.parse input >>= slices o input := by
  unfold Image.parse slices bootDataAt dcdAt
  simp only [bind_assoc]

theorem bootDataAt_found {boot self_ : UInt32} (hle : self_ ≤ boot)
    (hfits : (boot-self_).toNat+BootData.size ≤ input.length) :
    ∃ bootData, bootDataAt input boot self_ = .ok bootData ∧
      SliceAt input (bootDataBytes bootData) boot self_ := by
  have hstart := Nat.le_add_right (boot-self_).toNat BootData.size
  have hlen : BootData.size ≤ ((input.take ((boot-self_).toNat+BootData.size)).drop
      (boot-self_).toNat).length := by
    rw [List.length_drop, List.length_take]
    omega
  obtain ⟨bootData, hrun⟩ := fixed_bootData.some hlen
  refine ⟨bootData, ?_, sliceAt_of_range hle hstart hfits ⟨_, (spells_bootData _ _ _ hrun).symm⟩⟩
  rw [bootDataAt, checkedSub32, if_pos hle, bind_of_ok (expect_some rfl), getRange,
    if_pos ⟨hstart, hfits⟩, bind_of_ok (expect_some rfl), parsed, hrun]

theorem bootDataAt_panics {boot self_ : UInt32}
    (h : ¬(self_ ≤ boot ∧ (boot-self_).toNat+BootData.size ≤ input.length)) :
    bootDataAt input boot self_ = .error (.panic "TODO") := by
  by_cases hle : self_ ≤ boot
  · rw [bootDataAt, checkedSub32, if_pos hle, bind_of_ok (expect_some rfl), getRange,
      if_neg fun hfits => h ⟨hle, hfits.2⟩]
    rfl
  · rw [bootDataAt, checkedSub32, if_neg hle]
    rfl

theorem ends_dcdAt (o : Overflow) (input : ByteString) (dcd self_ : UInt32) :
    Ends (self_ ≤ dcd ∧ (dcd-self_).toNat ≤ input.length ∧ DcdCalm o (input.drop (dcd-self_).toNat))
      (fun found => SliceAt input found.asBytes dcd self_) (dcdAt o input dcd self_) := by
  unfold dcdAt
  by_cases hle : self_ ≤ dcd
  · rw [checkedSub32, if_pos hle, bind_of_ok (expect_some rfl)]
    by_cases hfits : (dcd-self_).toNat ≤ input.length
    · rw [getRange, if_pos ⟨hfits, Nat.le_refl _⟩, bind_of_ok (expect_some rfl), List.take_length]
      refine (ends_parsed _ (ends_dcd o _)).congr ⟨fun h => ⟨hle, hfits, h⟩, fun h => h.2.2⟩ ?_
      rintro found - ⟨rest, -, hprefix⟩
      refine sliceAt_of_range hle hfits (Nat.le_refl _) ?_
      rw [List.take_length]
      exact hprefix
    · rw [getRange, if_neg fun h => hfits h.1]
      exact .panic _ fun h => hfits h.2.1
  · rw [checkedSub32, if_neg hle]
    exact .panic _ fun h => hle h.1

theorem ends_slices (o : Overflow) (input : ByteString) (ivt : Ivt) :
    Ends (Pointers o input ivt) (Inside input) (slices o input ivt) := by
  by_cases hboot : ivt.self_ ≤ ivt.boot ∧ (ivt.boot-ivt.self_).toNat+BootData.size ≤ input.length
  · obtain ⟨bootData, hfound, hslice⟩ := bootDataAt_found hboot.1 hboot.2
    rw [slices, bind_of_ok hfound]
    by_cases hdcd : ivt.dcd ≠ 0
    · rw [if_pos hdcd]
      have hbind := (ends_dcdAt o input ivt.dcd ivt.self_).bind (R := fun _ => True)
        (f := fun dcd => (pure ⟨ivt, bootData, some dcd⟩ : Except (Stop String) Image))
        (S := Inside input) fun dcd _ hat => .ok trivial ⟨hslice, fun _ heq => by
          cases heq
          exact hat⟩
      refine hbind.congr ⟨fun h => ⟨hboot, fun _ => h.1⟩, fun h => ⟨h.dcd hdcd, ?_⟩⟩ fun _ _ => id
      exact fun _ _ => trivial
    · rw [if_neg hdcd]
      exact .ok ⟨hboot, fun h => absurd h hdcd⟩ ⟨hslice, nofun⟩
  · rw [slices, bootDataAt_panics hboot]
    exact .panic _ fun h => hboot h.boot

theorem parsed_ok {α : Type} {text : String} {p : Parser α} {a : α}
    (h : parsed text p input = .ok a) : ∃ rest, p.run input = .ok (a, rest) := by
  unfold parsed at h
  split at h
  next hrun =>
    cases h
    exact ⟨_, hrun⟩
  next => cases h

/-- The parser of an image settles exactly on the calm inputs. -/
theorem settled_iff_calm (o : Overflow) (input : ByteString) :
    Settled (Inside input) (Image.parse o input) ↔ Calm o input := by
  rw [parse_eq]
  refine Ends.settled_iff ?_
  have hbind := (ends_parsed "error parsing the IVT" (ends_ivt input)).bind
    fun ivt _ _ => ends_slices o input ivt
  refine hbind.congr ⟨?_, ?_⟩ fun _ _ => id
  · rintro ⟨hlength, hpointers⟩
    refine ⟨hlength, fun ivt rest hvalid hinput => hpointers ivt ?_⟩
    rw [parsed, hinput, ivt_found hvalid]
  · rintro ⟨hlength, hpointers⟩
    refine ⟨hlength, fun ivt hparsed => ?_⟩
    obtain ⟨rest, hrun⟩ := parsed_ok hparsed
    obtain ⟨hvalid, hinput⟩ := ivt_spelled hrun
    exact hpointers ivt rest hvalid hinput

def longHeader : ByteString := [ivtTag, 0x00, 0x21]

theorem longHeader_panics : ¬Settled (Inside longHeader) (Image.parse .wraps longHeader) := by
  intro h
  cases h

end UsbArmory.Boot.ImagePanics
