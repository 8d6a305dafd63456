import UsbArmory.Downloader.Device
import UsbArmory.Downloader.Programs

/-!
# What a call leaves in the device

A transfer that is cut short leaves a part of its data and executes nothing
that is not complete. A file that is transferred with a clear DCD pointer is
jumped to as it is.
-/

set_option autoImplicit false

namespace UsbArmory.Downloader.Transfers
open UsbArmory.Library.Word UsbArmory.Library.Binary UsbArmory.Library.Chunks
open UsbArmory.Library.Trace UsbArmory.Library.Patches
open UsbArmory.Downloader.Sdp UsbArmory.Downloader.Delivery UsbArmory.Downloader.Device

variable {State : Type} {rom : Rom State} {fate : Bool} {s : State} {usd : Usd}
variable {address : UInt32} {ops : List Operation} {ok : Bool} {data : ByteString}
variable {P : ByteString → State → Prop}

/-- A report with a part of the data takes the device from the data before it to the data behind
it. -/
def Takes (rom : Rom State) (data : ByteString) (P : ByteString → State → Prop) : Prop :=
  ∀ done chunk t, P done t → chunk ≠ [] → done.length+chunk.length ≤ data.length →
    P (done ++ chunk) (rom.receive t (2::chunk))

theorem receive_chunks (h : Takes rom data P) {chunks : List ByteString}
    (hne : ∀ chunk ∈ chunks, chunk ≠ []) (done : ByteString) {t : State} (ht : P done t)
    (hsize : done.length+chunks.flatten.length ≤ data.length) :
    P (done ++ chunks.flatten) ((chunks.map (2::·)).foldl rom.receive t) := by
  induction chunks generalizing done t with
  | nil => simpa using ht
  | cons chunk chunks ih =>
    rw [List.flatten_cons, List.length_append] at hsize
    rw [List.flatten_cons, ← List.append_assoc]
    apply ih (fun c hc => hne c (List.mem_cons_of_mem _ hc))
    · exact h done chunk t ht (hne chunk List.mem_cons_self) (by omega)
    · rw [List.length_append]
      omega

theorem received_write (report : ByteString) (accepted : Bool) :
    received rom fate s (.write report accepted::ops) =
      received rom fate (if accepted || fate then rom.receive s report else s) ops := rfl

/-- The device has received some of the reports in front, and all of them if the sending
succeeds. -/
theorem received_sending {reports : List ByteString} (h : Sending usd reports ops ok) :
    ∃ front, front <+: reports ∧ received rom fate s ops = front.foldl rom.receive s ∧
      (ok = true → front = reports) := by
  cases h with
  | all => exact ⟨reports, List.prefix_rfl, received_sent reports, fun _ => rfl⟩
  | silenced accepted rest report _ =>
    exact ⟨accepted, List.prefix_append _ _, received_sent accepted, by simp⟩
  | refused accepted rest report =>
    rw [received_append, received_sent, received_write]
    cases hfate : fate with
    | false => exact ⟨accepted, List.prefix_append _ _, rfl, by simp⟩
    | true =>
      refine ⟨accepted ++ [report], ⟨rest, ?_⟩, ?_, by simp⟩
      · rw [List.append_assoc, List.singleton_append]
      · rw [List.foldl_append]
        rfl

theorem received_status {status : Option ByteString} (h : StatusReads ops status) :
    received rom fate s ops = s := by
  cases h <;> rfl

theorem received_replies {ack : ByteString} (h : Replies ack ops ok) :
    received rom fate s ops = s := by
  cases h with
  | closed hstatus _ => exact received_status hstatus
  | unacknowledged hstatus _ =>
    rw [received_append, received_status hstatus]
    rfl
  | acknowledged rest hstatus =>
    rw [received_append, received_status hstatus]
    rfl

/-- What a transfer leaves: nothing, or the device with the data up to some byte. -/
def Carried (P : ByteString → State → Prop) (s : State) (data : ByteString) (after : State)
    (ok : Bool) : Prop :=
  (after = s ∧ ok = false) ∨
    ∃ done rest, data = done ++ rest ∧ P done after ∧ (ok = true → rest = [])

theorem received_front (htakes : Takes rom data P) {t : State} (ht : P [] t)
    {reports : List ByteString} (hfront : reports <+: (chunks dataReportSize data).map (2::·)) :
    ∃ done rest, data = done ++ rest ∧ P done (reports.foldl rom.receive t) ∧
      (reports = (chunks dataReportSize data).map (2::·) → rest = []) := by
  have hpos : 0 < dataReportSize := by decide
  have hflat := chunks_flatten hpos data
  have hmem := mem_chunks hpos data
  obtain ⟨front, ⟨back, hchunks⟩, rfl⟩ := List.prefix_map_iff.mp hfront
  rw [← hchunks] at hflat hmem ⊢
  rw [List.flatten_append] at hflat
  have hlen := congrArg List.length hflat
  rw [List.length_append] at hlen
  have hne : ∀ chunk ∈ front, chunk ≠ [] := fun chunk hc =>
    List.length_pos_iff.mp (hmem chunk (List.mem_append_left _ hc)).1
  refine ⟨front.flatten, back.flatten, hflat.symm, ?_, fun hall => ?_⟩
  · apply receive_chunks htakes hne [] ht
    rw [List.length_nil]
    omega
  · have hback := congrArg List.length hall
    rw [List.length_map, List.length_map, List.length_append] at hback
    rw [List.length_eq_zero_iff.mp (Nat.add_eq_left.mp hback.symm)]
    rfl

theorem leaves_transfer (var name : String) {command : UInt32 → UInt32 → Command} {type : UInt8}
    (hcommand : ∀ address count, (command address count).bytes = commandReport type address count)
    (ack : ByteString) (htakes : Takes rom data P) (hbegin : data.length < 2^32-1 →
      P [] (rom.receive s (commandReport type address (UInt32.ofNat data.length)))) :
    Leaves rom fate s (usd.transfer var name command ack address data) fun after r =>
      Carried P s data after r.isOk := by
  by_cases hlen : data.length < 2^32-1
  · refine (does_transfer usd var name hcommand ack address hlen).imp fun ops r htransfer => ?_
    have hbegun := hbegin hlen
    show Carried P s data (received rom fate s ops) r.isOk
    generalize r.isOk = ok at htransfer ⊢
    cases htransfer with
    | unsent =>
      rw [received_write, Bool.false_or]
      cases fate with
      | false => exact .inl ⟨rfl, rfl⟩
      | true => exact .inr ⟨[], data, rfl, hbegun, by simp⟩
    | stopped hsending =>
      obtain ⟨front, hfront, hreceived, hall⟩ := received_sending hsending
      rw [received_write, Bool.true_or, if_pos rfl, hreceived]
      obtain ⟨done, rest, hdata, hcarried, -⟩ := received_front htakes hbegun hfront
      exact .inr ⟨done, rest, hdata, hcarried, by simp⟩
    | answered hreplies =>
      rw [received_write, Bool.true_or, if_pos rfl, received_append, received_sent,
        received_replies hreplies]
      obtain ⟨done, rest, hdata, hcarried, hall⟩ :=
        received_front htakes hbegun List.prefix_rfl
      exact .inr ⟨done, rest, hdata, hcarried, fun _ => hall rfl⟩
  · unfold Usd.transfer
    exact leaves_ensure (fun _ => .inl ⟨rfl, rfl⟩) fun hlt => absurd hlt hlen

/-- The device has not jumped. -/
def Waiting (rom : Rom State) (s : State) : Prop := ∀ a, (rom.view s).phase ≠ .running a

theorem waiting_of_idle (h : (rom.view s).phase = .idle) : Waiting rom s := by
  intro a hrunning
  cases h.symm.trans hrunning

theorem toNat_count (hlen : data.length < 2^32-1) :
    (UInt32.ofNat data.length).toNat = data.length := by
  rw [UInt32.toNat_ofNat']
  exact Nat.mod_eq_of_lt (by omega)

theorem count_ne_zero (hlen : data.length < 2^32-1) (hne : data ≠ []) :
    UInt32.ofNat data.length ≠ 0 := by
  intro hzero
  have hcount := toNat_count hlen
  rw [hzero] at hcount
  exact hne (List.length_eq_zero_iff.mp hcount.symm)

/-- A part of a file is in memory, and nothing else has changed. -/
structure FilePart (rom : Rom State) (s : State) (address : UInt32) (data done : ByteString)
    (t : State) : Prop where
  size : data.length ≤ 2^32
  view : rom.view t = { rom.view s with
    memory := patch (rom.view s).memory address done
    phase := if done.length = data.length then .idle
      else .file address data.length done.length }

theorem takes_file (h : rom.Serves) : Takes rom data (FilePart rom s address data) := by
  intro done chunk t ht hne hsize
  have hpos := List.length_pos_iff.mpr hne
  have hbound := ht.size
  have hopen : done.length ≠ data.length := by omega
  have hview := ht.view
  rw [if_neg hopen] at hview
  have hphase : (rom.view t).phase = .file address data.length done.length := by rw [hview]
  have hmemory : patch (patch (rom.view s).memory address done)
      (address+UInt32.ofNat done.length) chunk =
        patch (rom.view s).memory address (done ++ chunk) :=
    patch_append (by omega)
  refine ⟨hbound, ?_⟩
  rw [h.fileData t address data.length done.length chunk hphase hne hsize, hview,
    List.length_append, ← hmemory]

/-- Nothing is changed but the memory, which has the file in the end. -/
structure Stored (rom : Rom State) (s : State) (address : UInt32) (file : ByteString)
    (after : State) (ok : Bool) : Prop where
  waiting : Waiting rom after
  executed : (rom.view after).executed = (rom.view s).executed
  memory : ok = true → file.length ≤ 2^32 ∧ (rom.view after).phase = .idle ∧
    (rom.view after).memory = patch (rom.view s).memory address file

theorem leaves_writeFile (hrom : rom.Serves) (h : (rom.view s).phase = .idle) (hne : data ≠ []) :
    Leaves rom fate s (usd.writeFile address data) fun after r =>
      Stored rom s address data after r.isOk := by
  have hbegin : data.length < 2^32-1 → FilePart rom s address data []
      (rom.receive s (commandReport 0x04 address (UInt32.ofNat data.length))) := by
    intro hlen
    have hview := hrom.writeFile s address _ h (count_ne_zero hlen hne)
    rw [toNat_count hlen] at hview
    have hopen : ([] : ByteString).length ≠ data.length :=
      Nat.ne_of_lt (List.length_pos_iff.mpr hne)
    refine ⟨by omega, ?_⟩
    rw [hview, if_neg hopen, patch_nil]
    rfl
  refine (leaves_transfer _ _ bytes_writeFile _ (takes_file hrom) hbegin).imp ?_
  rintro after r (⟨rfl, hfail⟩ | ⟨done, rest, rfl, hpart, hall⟩)
  · exact ⟨waiting_of_idle h, rfl, fun hok => absurd (hfail.symm.trans hok) Bool.false_ne_true⟩
  · refine ⟨fun a hrunning => ?_, by rw [hpart.view], fun hok => ?_⟩
    · rw [hpart.view] at hrunning
      dsimp only at hrunning
      split at hrunning
      · cases hrunning
      · cases hrunning
    · have hview := hpart.view
      have hsize := hpart.size
      rw [hall hok, List.append_nil] at hview hsize ⊢
      rw [if_pos rfl] at hview
      rw [hview]
      exact ⟨hsize, rfl, rfl⟩

/-- A part of a DCD has arrived, and all of it has been executed. -/
structure DcdPart (rom : Rom State) (s : State) (data done : ByteString) (t : State) : Prop where
  executed : (rom.view t).executed =
    if done.length = data.length then (rom.view s).executed ++ [done] else (rom.view s).executed
  phase : (rom.view t).phase =
    if done.length = data.length then .idle else .dcd data.length done

theorem takes_dcd (h : rom.Serves) : Takes rom data (DcdPart rom s data) := by
  intro done chunk t ht hne hsize
  have hpos := List.length_pos_iff.mpr hne
  have hopen : done.length ≠ data.length := by omega
  have hphase := ht.phase
  have hexecuted := ht.executed
  rw [if_neg hopen] at hphase hexecuted
  by_cases hlast : done.length+chunk.length = data.length
  · obtain ⟨hdone, hidle⟩ := h.dcdLast t data.length done chunk hphase hne hlast
    have hall : (done ++ chunk).length = data.length := by rw [List.length_append, hlast]
    refine ⟨?_, ?_⟩
    · rw [if_pos hall, hdone, hexecuted]
    · rw [if_pos hall, hidle]
  · obtain ⟨hsame, hmore⟩ := h.dcdData t data.length done chunk hphase hne (by omega)
    have hpart : (done ++ chunk).length ≠ data.length := by rwa [List.length_append]
    refine ⟨?_, ?_⟩
    · rw [if_neg hpart, hsame, hexecuted]
    · rw [if_neg hpart, hmore]

theorem leaves_dcdWrite (hrom : rom.Serves) (h : (rom.view s).phase = .idle) (hne : data ≠ []) :
    Leaves rom fate s (usd.dcdWrite address data) fun after r => Waiting rom after ∧
      ((rom.view after).executed = (rom.view s).executed ∧ r.isOk = false ∨
        (rom.view after).executed = (rom.view s).executed ++ [data] ∧
          (rom.view after).phase = .idle) := by
  have hlt := List.length_pos_iff.mpr hne
  have hbegin : data.length < 2^32-1 → DcdPart rom s data []
      (rom.receive s (commandReport 0x0A address (UInt32.ofNat data.length))) := by
    intro hlen
    obtain ⟨hexecuted, hphase⟩ := hrom.dcdWrite s address _ h (count_ne_zero hlen hne)
    rw [toNat_count hlen] at hphase
    have hopen : ([] : ByteString).length ≠ data.length := Nat.ne_of_lt hlt
    refine ⟨?_, ?_⟩
    · rw [if_neg hopen, hexecuted]
    · rw [if_neg hopen, hphase]
  refine (leaves_transfer _ _ bytes_dcdWrite _ (takes_dcd hrom) hbegin).imp ?_
  rintro after r (⟨rfl, hfail⟩ | ⟨done, rest, rfl, hpart, hall⟩)
  · exact ⟨waiting_of_idle h, .inl ⟨rfl, hfail⟩⟩
  · obtain ⟨hexecuted, hphase⟩ := hpart
    cases rest with
    | nil =>
      rw [List.append_nil, if_pos rfl] at hexecuted hphase
      rw [List.append_nil]
      exact ⟨waiting_of_idle hphase, .inr ⟨hexecuted, hphase⟩⟩
    | cons b rest =>
      have hopen : done.length ≠ (done ++ b::rest).length := by
        rw [List.length_append, List.length_cons]
        omega
      rw [if_neg hopen] at hexecuted hphase
      refine ⟨fun a hrunning => ?_, .inl ⟨hexecuted, ?_⟩⟩
      · cases hphase.symm.trans hrunning
      · cases hr : r.isOk with
        | false => rfl
        | true => cases hall hr

theorem leaves_jump (hrom : rom.Serves) (h : (rom.view s).phase = .idle)
    (hclear : PointerClear (rom.view s).memory address) :
    Leaves rom fate s (usd.jumpAddress address) fun after r =>
      (after = s ∧ r.isOk = false) ∨
        rom.view after = { rom.view s with phase := .running address } := by
  have hjump := hrom.jump s address h hclear
  unfold Usd.jumpAddress Usd.sendCommand
  refine does_bind (does_hidWrite usd _) ?_ ?_
  · rintro ops stop (⟨-, ⟨⟩⟩ | ⟨rfl, -⟩)
    rw [received_write, Bool.false_or]
    cases fate with
    | false => exact .inl ⟨rfl, rfl⟩
    | true => exact .inr hjump
  · rintro ⟨⟩ ops (⟨rfl, -⟩ | ⟨-, ⟨⟩⟩)
    refine (does_checkSecStatus usd).imp ?_
    rintro ops r ⟨status, hstatus, -⟩
    rw [List.singleton_append, received_write, Bool.true_or, if_pos rfl, received_status hstatus]
    exact .inr hjump

end UsbArmory.Downloader.Transfers
