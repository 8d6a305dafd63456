import UsbArmory.Boot.ImagePanics
import UsbArmory.Downloader.Transfers

/-!
# The programs boot the device

Whatever the backend and the device answer, the device executes no DCD but the
one of the image, and that at most once, and jumps nowhere but to the image,
and only when all of it is in memory.
-/

set_option autoImplicit false

namespace UsbArmory.Downloader.Booting
open UsbArmory.Library.Word UsbArmory.Library.Binary UsbArmory.Library.Trace
open UsbArmory.Library.Patches
open UsbArmory.Boot.Reader UsbArmory.Boot.Encoding UsbArmory.Boot.ImagePanics
open UsbArmory.Downloader.Sdp UsbArmory.Downloader.Device UsbArmory.Downloader.Programs
open UsbArmory.Downloader.Transfers

variable {State : Type} {rom : Rom State} {fate : Bool} {s : State} {usd : Usd}
variable {o : Overflow} {file bytes : ByteString} {address : UInt32} {image : Image}
variable {dcds : List ByteString}

/-- The DCDs are executed in order, and the jump goes to the file behind all of them. -/
structure Booted (rom : Rom State) (dcds : List ByteString) (file : ByteString) (address : UInt32)
    (after : State) (ok : Bool) : Prop where
  executed : (rom.view after).executed <+: dcds
  running : ∀ a, (rom.view after).phase = .running a → a = address ∧
    (rom.view after).executed = dcds ∧ region (rom.view after).memory a file.length = file
  done : ok = true → (rom.view after).phase = .running address

theorem booted_waiting {after : State} (h : Waiting rom after)
    (hexecuted : (rom.view after).executed <+: dcds) : Booted rom dcds file address after false :=
  ⟨hexecuted, fun a ha => absurd ha (h a), by simp⟩

def ClearFile (file : ByteString) : Prop := ∃ front back,
  file = front ++ [0, 0, 0, 0] ++ back ∧ front.length = 12

theorem clearFile_ne_nil (h : ClearFile file) : file ≠ [] := by
  obtain ⟨front, back, rfl, -⟩ := h
  simp

theorem pointerClear_patch (hclear : ClearFile file) (hsize : file.length ≤ 2^32) (m : Memory) :
    PointerClear (patch m address file) address := by
  obtain ⟨front, back, rfl, hfront⟩ := hclear
  have hlen : (front ++ [0, 0, 0, 0] ++ back).length = 16+back.length := by
    rw [List.length_append, List.length_append, hfront]
    rfl
  intro i hi
  rw [patch_inside (by omega) hsize, List.getElem_append_left (by
    rw [List.length_append, hfront]
    exact Nat.add_lt_add_left hi 12), List.getElem_append_right (by omega)]
  simp only [hfront, Nat.add_sub_cancel_left]
  match i, hi with
  | 0, _ | 1, _ | 2, _ | 3, _ => rfl

theorem leaves_boot {send : Session Unit} (hrom : rom.Serves) (usd : Usd) (hclear : ClearFile file)
    (hsend : Leaves rom fate s send fun after r => Stored rom s address file after r.isOk)
    (hexecuted : (rom.view s).executed = dcds) :
    Leaves rom fate s (send >>= fun _ => usd.jumpAddress address) fun after r =>
      Booted rom dcds file address after r.isOk := by
  subst hexecuted
  refine leaves_bind hsend ?_ ?_
  · rintro after stop ⟨hwaiting, he, -⟩
    exact booted_waiting hwaiting (he ▸ List.prefix_rfl)
  rintro ⟨⟩ mid ⟨hwaiting, he, hfile⟩
  obtain ⟨hsize, hidle, hmem⟩ := hfile rfl
  have hpointer : PointerClear (rom.view mid).memory address := by
    rw [hmem]
    exact pointerClear_patch hclear hsize _
  refine (leaves_jump hrom hidle hpointer).imp ?_
  rintro after r (⟨rfl, hfail⟩ | hview)
  · rw [hfail]
    exact booted_waiting hwaiting (he ▸ List.prefix_rfl)
  · refine ⟨?_, fun a ha => ?_, fun _ => by rw [hview]⟩
    · rw [hview]
      exact he ▸ List.prefix_rfl
    · rw [hview] at ha ⊢
      cases ha
      refine ⟨rfl, he, ?_⟩
      show region (rom.view mid).memory address file.length = file
      rw [hmem]
      exact region_patch hsize

section Host
variable {α : Type} {x : Session α} {Q : State → Except (Stop Failure) α → Prop}

theorem leaves_input (host : Host) : Leaves rom fate s host.input fun after r => after = s ∧
    ∀ bytes, r = .ok bytes → ∃ path, host.args = [path] ∧ host.files path = some bytes := by
  unfold Host.input
  split
  next path hargs =>
    split
    next bytes hbytes =>
      refine leaves_pure ⟨rfl, ?_⟩
      rintro _ ⟨⟩
      exact ⟨path, hargs, hbytes⟩
    next => exact leaves_throw ⟨rfl, nofun⟩
  next => exact leaves_throw ⟨rfl, nofun⟩

theorem leaves_lift {ε : Type} (f : ε → Failure) (r : Except (Stop ε) α) :
    Leaves rom fate s (lift f r) fun after result => after = s ∧
      ∀ a, result = .ok a → r = .ok a := by
  cases r with
  | ok a =>
    refine leaves_pure ⟨rfl, ?_⟩
    rintro _ ⟨⟩
    rfl
  | error stop => exact leaves_throw ⟨rfl, nofun⟩

theorem leaves_open (device : ℕ → Except Failure (Option Usd)) :
    Leaves rom fate s (Usd.open device) fun after _ => after = s := by
  have hfrom : ∀ attempts i, Leaves rom fate s (Usd.openFrom device i attempts)
      fun after _ => after = s := by
    intro attempts
    induction attempts with
    | zero => exact fun _ => leaves_throw rfl
    | succ attempts ih =>
      intro i
      unfold Usd.openFrom
      split
      · exact leaves_throw rfl
      · exact leaves_pure rfl
      · exact ih _
  exact hfrom 3 0

theorem leaves_context (message : String) (h : Leaves rom fate s x Q)
    (hq : ∀ after r, Q after r → Q after (r.mapError (Stop.mapError fun _ => .bail message))) :
    Leaves rom fate s (context message x) Q := by
  intro before
  obtain ⟨ops, hops, hr⟩ := h before
  exact ⟨ops, hops, hq _ _ hr⟩

end Host

def withoutDcd (image : Image) (bytes : ByteString) : ByteString :=
  if image.dcd.isSome then UsdLoad.clearDcdPointer bytes else bytes

theorem slices_ok {ivt : Ivt} (h : slices o bytes ivt = .ok image) : image.ivt = ivt ∧
    bootDataAt bytes ivt.boot ivt.self_ = .ok image.bootData ∧
    (image.dcd = none ↔ ivt.dcd = 0) := by
  unfold slices at h
  obtain ⟨bootData, hboot, h⟩ := ok_of_bind h
  split at h
  next hdcd =>
    obtain ⟨dcd, -, h⟩ := ok_of_bind h
    cases h
    exact ⟨rfl, hboot, nofun, fun hzero => absurd hzero hdcd⟩
  next hdcd =>
    cases h
    exact ⟨rfl, hboot, fun _ => not_not.mp hdcd, fun _ => rfl⟩

theorem parse_ok (h : Image.parse o bytes = .ok image) : ∃ rest, Valid image.ivt ∧
    bytes = ivtBytes image.ivt ++ rest ∧
    bootDataAt bytes image.ivt.boot image.ivt.self_ = .ok image.bootData ∧
    (image.dcd = none ↔ image.ivt.dcd = 0) := by
  rw [parse_eq] at h
  obtain ⟨ivt, hivt, h⟩ := ok_of_bind h
  obtain ⟨rest, hrun⟩ := parsed_ok hivt
  obtain ⟨hvalid, hbytes⟩ := ivt_spelled hrun
  obtain ⟨rfl, hboot, hdcd⟩ := slices_ok h
  exact ⟨rest, hvalid, hbytes, hboot, hdcd⟩

theorem ivtBytes_clear (ivt : Ivt) (rest : ByteString) : ivtBytes { ivt with dcd := 0 } ++ rest =
    (ivtBytes ivt).take 12 ++ [0, 0, 0, 0] ++ ((ivtBytes ivt).drop 16 ++ rest) := by
  have hzero : toLe32 0 = [0, 0, 0, 0] := by decide
  unfold ivtBytes
  rw [hzero]
  rfl

theorem withoutDcd_eq (rest : ByteString) (hdcd : image.dcd = none ↔ image.ivt.dcd = 0) :
    withoutDcd image (ivtBytes image.ivt ++ rest) = ivtBytes { image.ivt with dcd := 0 } ++
      rest := by
  unfold withoutDcd
  cases hsome : image.dcd with
  | some dcd =>
    rw [ivtBytes_clear]
    rfl
  | none =>
    rw [← hdcd.mp hsome]
    rfl

theorem clearFile_ivt (ivt : Ivt) (rest : ByteString) :
    ClearFile (ivtBytes { ivt with dcd := 0 } ++ rest) :=
  ⟨(ivtBytes ivt).take 12, (ivtBytes ivt).drop 16 ++ rest, ivtBytes_clear ivt rest, rfl⟩

theorem bootDataAt_tail {input input' : ByteString} {boot self_ : UInt32}
    (hlen : input.length = input'.length) (htail : input.drop 16 = input'.drop 16)
    (hoffset : 16 ≤ (boot-self_).toNat) :
    bootDataAt input boot self_ = bootDataAt input' boot self_ := by
  have hrange : ∀ start stop, 16 ≤ start → getRange input start stop =
      getRange input' start stop := by
    intro start stop hstart
    have hdrop : ∀ l : ByteString, (l.take stop).drop start =
        ((l.drop 16).drop (start-16)).take (stop-start) := by
      intro l
      rw [List.drop_drop, Nat.add_sub_cancel' hstart, List.drop_take]
    unfold getRange
    rw [hlen, hdrop input, hdrop input', htail]
  unfold bootDataAt
  cases hoff : checkedSub32 boot self_ with
  | none => rfl
  | some offset =>
    unfold checkedSub32 at hoff
    split at hoff
    next =>
      cases hoff
      have hsame := hrange (boot-self_).toNat ((boot-self_).toNat+BootData.size) hoffset
      simp only [hsame, expect, pure_bind]
    next => cases hoff

structure Undone (image found : Image) : Prop where
  ivt : found.ivt = { image.ivt with dcd := 0 }
  bootData : 16 ≤ (image.ivt.boot-image.ivt.self_).toNat → found.bootData = image.bootData
  dcd : found.dcd = none

theorem parse_withoutDcd (h : Image.parse o bytes = .ok image) :
    ClearFile (withoutDcd image bytes) ∧
    ∃ found, Image.parse o (withoutDcd image bytes) = .ok found ∧ Undone image found := by
  obtain ⟨rest, hvalid, hbytes, hboot, hdcd⟩ := parse_ok h
  have hfile := withoutDcd_eq rest hdcd
  rw [← hbytes] at hfile
  rw [hfile]
  refine ⟨clearFile_ivt image.ivt rest, ?_⟩
  have hlen : bytes.length = (ivtBytes { image.ivt with dcd := 0 } ++ rest).length := by
    rw [hbytes, List.length_append, List.length_append]
    rfl
  have htail : bytes.drop 16 = (ivtBytes { image.ivt with dcd := 0 } ++ rest).drop 16 := by
    rw [hbytes]
    rfl
  have hfits : image.ivt.self_ ≤ image.ivt.boot ∧
      (image.ivt.boot-image.ivt.self_).toNat+BootData.size ≤ bytes.length := by
    by_contra hout
    rw [bootDataAt_panics hout] at hboot
    cases hboot
  obtain ⟨bootData, hfound, -⟩ := bootDataAt_found hfits.1 (hlen ▸ hfits.2)
  refine ⟨⟨{ image.ivt with dcd := 0 }, bootData, none⟩, ?_, rfl, fun hoffset => ?_, rfl⟩
  · have hvalid' : Valid { image.ivt with dcd := 0 } := hvalid
    rw [parse_eq, parsed, ivt_found hvalid']
    show slices o _ { image.ivt with dcd := 0 } = _
    unfold slices
    rw [bind_of_ok hfound]
    rfl
  · rw [bootDataAt_tail hlen htail hoffset, hfound] at hboot
    exact Except.ok.inj hboot

/-- The DCDs of an image in the order of their execution. -/
def dcdsOf (image : Image) : List ByteString := (image.dcd.map (·.asBytes)).toList

theorem leaves_sendDcd (hrom : rom.Serves) (hfresh : rom.Fresh s) (host : Host)
    (hne : ∀ dcd ∈ image.dcd, dcd.asBytes ≠ []) :
    Leaves rom fate s (UsdLoad.sendDcd host usd bytes image.dcd) fun after r =>
      Waiting rom after ∧ (rom.view after).executed <+: dcdsOf image ∧
        ∀ clear, r = .ok clear → (rom.view after).executed = dcdsOf image ∧
          (rom.view after).phase = .idle ∧ clear = image.dcd.isSome := by
  have hwaiting := waiting_of_idle hfresh.phase
  unfold dcdsOf
  cases hdcd : image.dcd with
  | none =>
    refine leaves_pure ⟨hwaiting, ?_, fun clear hok => ⟨hfresh.executed, hfresh.phase,
      (Except.ok.inj hok).symm⟩⟩
    rw [hfresh.executed]
    exact List.prefix_rfl
  | some dcd =>
    have hstart : Leaves rom fate s (arrayRef bytes 12) fun after _ => after = s := by
      unfold arrayRef
      split
      · exact leaves_pure rfl
      · exact leaves_throw rfl
    refine leaves_bind hstart ?_ ?_
    · rintro after stop rfl
      refine ⟨hwaiting, ?_, by simp⟩
      rw [hfresh.executed]
      exact List.nil_prefix
    rintro pointer after rfl
    refine leaves_bind (leaves_dcdWrite hrom hfresh.phase (hne dcd hdcd)) ?_ ?_
    · rintro after stop ⟨hw, ⟨he, -⟩ | ⟨he, -⟩⟩
      · rw [he, hfresh.executed]
        exact ⟨hw, List.nil_prefix, by simp⟩
      · rw [he, hfresh.executed]
        exact ⟨hw, List.prefix_rfl, by simp⟩
    rintro ⟨⟩ after ⟨hw, ⟨-, hfail⟩ | ⟨he, hidle⟩⟩
    · cases hfail
    rw [hfresh.executed] at he
    refine leaves_ensure (fun _ => ⟨hw, he ▸ List.prefix_rfl, by simp⟩) fun _ => ?_
    exact leaves_pure ⟨hw, he ▸ List.prefix_rfl, fun clear hok => ⟨he, hidle,
      (Except.ok.inj hok).symm⟩⟩

theorem withoutDcd_ne_nil (h : Image.parse o bytes = .ok image) : withoutDcd image bytes ≠ [] :=
  clearFile_ne_nil (parse_withoutDcd h).1

section Load
variable {host : Host} {path : String}

theorem leaves_load (hrom : rom.Serves) (hfresh : rom.Fresh s)
    (hparse : Image.parse o bytes = .ok image) (hne : ∀ dcd ∈ image.dcd, dcd.asBytes ≠ []) :
    Leaves rom fate s (do
      let clearDcd ← UsdLoad.sendDcd host usd bytes image.dcd
      let bytes ← if clearDcd then do
          ensure (16 ≤ bytes.length) "range end index 16 out of range"
          pure (UsdLoad.clearDcdPointer bytes)
        else pure bytes
      usd.writeFile image.ivt.self_ bytes
      usd.jumpAddress image.ivt.self_) fun after r =>
      Booted rom (dcdsOf image) (withoutDcd image bytes) image.ivt.self_ after r.isOk := by
  refine leaves_bind (leaves_sendDcd hrom hfresh host hne)
    (fun after stop h => booted_waiting h.1 h.2.1) ?_
  rintro clear after ⟨hwaiting, hstart, hdone⟩
  obtain ⟨hexecuted, hidle, rfl⟩ := hdone clear rfl
  have hsend : Leaves rom fate after (usd.writeFile image.ivt.self_ (withoutDcd image bytes))
      fun later r => Stored rom after image.ivt.self_ (withoutDcd image bytes) later r.isOk :=
    leaves_writeFile hrom hidle (withoutDcd_ne_nil hparse)
  have hfinal := leaves_boot hrom usd (parse_withoutDcd hparse).1 hsend hexecuted
  unfold withoutDcd at hfinal ⊢
  cases hsome : image.dcd.isSome with
  | true =>
    rw [hsome] at hfinal
    exact leaves_ensure (fun _ => booted_waiting hwaiting hstart) fun _ => hfinal
  | false =>
    rw [hsome] at hfinal
    exact hfinal

theorem leaves_image (hrom : rom.Serves) (hfresh : rom.Fresh s) (hargs : host.args = [path])
    (hfile : host.files path = some bytes) (hparse : Image.parse o bytes = .ok image)
    (hne : ∀ dcd ∈ image.dcd, dcd.asBytes ≠ []) :
    Leaves rom fate s (UsdLoad.main o host) fun after r => after = s ∧ r.isOk = false ∨
      Booted rom (dcdsOf image) (withoutDcd image bytes) image.ivt.self_ after r.isOk := by
  have hinput : host.input = pure bytes := by
    simp only [Host.input, hargs, hfile]
  unfold UsdLoad.main
  rw [hinput, pure_bind]
  refine leaves_bind (leaves_lift .bail _) (fun after stop h => .inl ⟨h.1, rfl⟩) ?_
  rintro found after ⟨rfl, hfound⟩
  cases hparse.symm.trans (hfound found rfl)
  refine leaves_bind (leaves_open host.device) (fun after stop h => .inl ⟨h, rfl⟩) ?_
  rintro usd after rfl
  exact (leaves_load hrom hfresh hparse hne).imp fun after r => .inr

end Load

/-- The file is no image with a DCD of no bytes. -/
def Proper (o : Overflow) (host : Host) : Prop := ∀ path bytes image, host.args = [path] →
  host.files path = some bytes → Image.parse o bytes = .ok image →
    ∀ dcd ∈ image.dcd, dcd.asBytes ≠ []

/-- A file is loaded: nothing arrives, or it is an image and the device executes its DCD and is
booted with the rest, in which the image is found again. -/
theorem load_boots (rom : Rom State) (hrom : rom.Serves) (fate : Bool) (s : State)
    (hfresh : rom.Fresh s) (o : Overflow) (host : Host) (hproper : Proper o host) :
    Leaves rom fate s (UsdLoad.main o host) fun after r => after = s ∧ r.isOk = false ∨
      ∃ path bytes image found, host.args = [path] ∧ host.files path = some bytes ∧
        Image.parse o bytes = .ok image ∧ Image.parse o (withoutDcd image bytes) = .ok found ∧
        Undone image found ∧
        Booted rom (dcdsOf image) (withoutDcd image bytes) image.ivt.self_ after r.isOk := by
  refine leaves_bind (leaves_input host) (fun after stop h => .inl ⟨h.1, rfl⟩) ?_
  rintro bytes after ⟨rfl, hinput⟩
  obtain ⟨path, hargs, hfile⟩ := hinput bytes rfl
  refine leaves_bind (leaves_lift .bail _) (fun after stop h => .inl ⟨h.1, rfl⟩) ?_
  rintro image after ⟨rfl, hparsed⟩
  have hparse := hparsed image rfl
  obtain ⟨-, found, hfound, hundone⟩ := parse_withoutDcd hparse
  refine leaves_bind (leaves_open host.device) (fun after stop h => .inl ⟨h, rfl⟩) ?_
  rintro usd after rfl
  have hne := hproper path bytes image hargs hfile hparse
  exact (leaves_load hrom hfresh hparse hne).imp fun after r hbooted =>
    .inr ⟨path, bytes, image, found, hargs, hfile, hparse, hfound, hundone, hbooted⟩

/-- A table with its boot data behind it, and a DCD of one header. -/
def smallFile : ByteString :=
  ivtBytes ⟨.default, 0x80000800, 0x8000042c, 0x80000420, 0x80000400, 0⟩ ++
    [0, 0, 0, 0x80, 0x40, 0, 0, 0, 0, 0, 0, 0] ++ [0xD2, 0, 4, 0x40]

/-- A device that acknowledges the last command with data. -/
def obliging : Usd where
  accepts _ := true
  reports before := match before.getLast? with
    | some (.read _ _) => before.reverse.findSome? fun op => match op with
      | .write (1::0x0A::_) _ => some (4::respWriteComplete)
      | .write (1::0x04::_) _ => some (4::respComplete)
      | _ => none
    | _ => some (3::secOpen)
  flushes _ := true
  verbose := false

def smallHost : Host :=
  ⟨["small.bin"], fun _ => some smallFile, fun _ => .ok (some obliging), true⟩

theorem small_parsed : ∃ image, Image.parse .panics smallFile = .ok image ∧
    dcdsOf image = [[0xD2, 0, 4, 0x40]] := ⟨_, rfl, rfl⟩

theorem smallHost_proper : Proper .panics smallHost := by
  intro path bytes image _ hfile hparse dcd hdcd
  cases hfile
  obtain ⟨image', hparse', hdcds⟩ := small_parsed
  cases hparse.symm.trans hparse'
  rw [dcdsOf, Option.mem_def.mp hdcd] at hdcds
  have hbytes : dcd.asBytes = [0xD2, 0, 4, 0x40] := (List.cons.inj hdcds).1
  rw [hbytes]
  decide

def small : View := received plain false plainStart (perform (UsdLoad.main .panics smallHost) []).2

theorem load_boots_small : small.phase = .running 0x80000400 ∧
    small.executed = [[0xD2, 0, 4, 0x40]] ∧
    region small.memory 0x80000400 48 = UsdLoad.clearDcdPointer smallFile := by
  have hok : (perform (UsdLoad.main .panics smallHost) []).1.isOk = true := by decide
  obtain ⟨image, hparse, hdcds⟩ := small_parsed
  rcases leaves_run (load_boots plain plain_serves false plainStart plain_fresh .panics
    smallHost smallHost_proper) with ⟨-, hfail⟩
      | ⟨path, bytes, image', found, -, hfile, hparse', -, -, hbooted⟩
  · cases hok.symm.trans hfail
  · cases hfile
    cases hparse.symm.trans hparse'
    have hrunning := hbooted.done hok
    obtain ⟨-, hexecuted, hregion⟩ := hbooted.running _ hrunning
    cases hparse
    exact ⟨hrunning, hexecuted, hregion⟩

end UsbArmory.Downloader.Booting
