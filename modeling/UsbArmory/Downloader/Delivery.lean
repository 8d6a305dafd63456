import UsbArmory.Downloader.Sdp

/-!
# What a transfer sends and reads

A transfer sends a command, its data and nothing else, and reads the replies
only behind all of that.
-/

set_option autoImplicit false

namespace UsbArmory.Downloader.Delivery
open UsbArmory.Library.Word UsbArmory.Library.Binary UsbArmory.Library.Chunks
open UsbArmory.Library.Trace UsbArmory.Downloader.Sdp

/-- A command of that type, with an address and a count, without a format and data. -/
def commandReport (type : UInt8) (address count : UInt32) : ByteString :=
  [1, type, type] ++ toBe32 address ++ [0] ++ toBe32 count ++ [0, 0, 0, 0, 0]

def sent (reports : List ByteString) : List Operation := reports.map (.write · true)

def Silenced (usd : Usd) : Prop := usd.verbose = true ∧ ∃ before, usd.flushes before = false

/-- Reports that are sent in a row, up to one that is not accepted or cannot be announced. -/
inductive Sending (usd : Usd) : List ByteString → List Operation → Bool → Prop where
  | all (reports : List ByteString) : Sending usd reports (sent reports) true
  | refused (accepted rest : List ByteString) (report : ByteString) :
    Sending usd (accepted ++ report::rest) (sent accepted ++ [.write report false]) false
  | silenced (accepted rest : List ByteString) (report : ByteString) (h : Silenced usd) :
    Sending usd (accepted ++ report::rest) (sent accepted) false

/-- The reads of the security status: one, or two if the first report has one byte. -/
inductive StatusReads : List Operation → Option ByteString → Prop where
  | failed : StatusReads [.read 5 none] none
  | once (status : ByteString) (h : status.length ≠ 1) :
    StatusReads [.read 5 (some status)] (some status)
  | again (byte : UInt8) (status : Option ByteString) :
    StatusReads [.read 5 (some [byte]), .read 5 status] status

/-- The replies are complete if the status is open and the response is an acknowledgement. -/
inductive Replies (ack : ByteString) : List Operation → Bool → Prop where
  | closed {ops : List Operation} {status : Option ByteString} (h : StatusReads ops status)
    (hclosed : status ≠ some (3::secOpen)) : Replies ack ops false
  | unacknowledged {ops : List Operation} {response : Option ByteString}
    (h : StatusReads ops (some (3::secOpen)))
    (hother : ∀ rest, response ≠ some (4::(ack ++ rest))) :
    Replies ack (ops ++ [.read 65 response]) false
  | acknowledged {ops : List Operation} (rest : ByteString)
    (h : StatusReads ops (some (3::secOpen))) :
    Replies ack (ops ++ [.read 65 (some (4::(ack ++ rest)))]) true

/-- The operations of a transfer, and whether it succeeds. -/
inductive Transfer (usd : Usd) (ack command : ByteString) (data : List ByteString) :
    List Operation → Bool → Prop where
  | unsent : Transfer usd ack command data [.write command false] false
  | stopped {ops : List Operation} (h : Sending usd data ops false) :
    Transfer usd ack command data (.write command true::ops) false
  | answered {ops : List Operation} {complete : Bool} (h : Replies ack ops complete) :
    Transfer usd ack command data (.write command true::(sent data ++ ops)) complete

variable {usd : Usd} {ops : List Operation} {ok : Bool}

theorem bytes_dcdWrite (address count : UInt32) :
    (Command.dcdWrite address count).bytes = commandReport 0x0A address count := rfl

theorem bytes_writeFile (address count : UInt32) :
    (Command.writeFile address count).bytes = commandReport 0x04 address count := rfl

theorem does_hidWrite (usd : Usd) (report : ByteString) : Does (usd.hidWrite report) fun ops r =>
    (ops = [.write report true] ∧ r = .ok ()) ∨
      (ops = [.write report false] ∧ r = .error (.error .hid)) := by
  apply does_operation
  intro before
  cases usd.accepts before with
  | true => exact .inl ⟨rfl, rfl⟩
  | false => exact .inr ⟨rfl, rfl⟩

theorem does_hidRead (usd : Usd) (size : ℕ) : Does (usd.hidRead size) fun ops r =>
    (∃ report, ops = [.read size (some report)] ∧ r = .ok report) ∨
      (ops = [.read size none] ∧ r = .error (.error .hid)) := by
  apply does_operation
  intro before
  dsimp only
  cases (usd.reports before).map (·.take size) with
  | some report => exact .inl ⟨report, rfl, rfl⟩
  | none => exact .inr ⟨rfl, rfl⟩

theorem does_flush (usd : Usd) : Does usd.flush fun ops r =>
    ops = [] ∧ (r.isOk = false → ∃ before, usd.flushes before = false) := by
  intro before
  refine ⟨[], (List.append_nil before).symm, rfl, fun hfail => ⟨before, ?_⟩⟩
  cases hflush : usd.flushes before with
  | false => rfl
  | true =>
    have hrun : (perform usd.flush before).1 =
        if usd.flushes before then .ok () else .error (.error .io) := rfl
    rw [hrun, hflush] at hfail
    cases hfail

theorem Sending.cons {reports : List ByteString} (report : ByteString)
    (h : Sending usd reports ops ok) :
    Sending usd (report::reports) (.write report true::ops) ok := by
  cases h with
  | all => exact .all (report::reports)
  | refused accepted rest other => exact .refused (report::accepted) rest other
  | silenced accepted rest other hv => exact .silenced (report::accepted) rest other hv

/-- The buffer keeps the report id in front, and only the chunk that was copied last is sent. -/
theorem splice_report {report : ByteString} (h : report.take 1 = [2]) (chunk : ByteString) :
    (splice report 1 chunk).take (chunk.length+1) = 2::chunk ∧
    (splice report 1 chunk).take 1 = [2] := by
  rw [splice, h]
  refine ⟨?_, rfl⟩
  rw [List.singleton_append, List.cons_append, List.take_succ_cons, List.take_left]

theorem does_sendData (usd : Usd) {report : ByteString} (h : report.take 1 = [2])
    (chunks : List ByteString) : Does (usd.sendData report chunks) fun ops r =>
      Sending usd (chunks.map (2::·)) ops r.isOk := by
  induction chunks generalizing report with
  | nil => exact does_pure (.all [])
  | cons chunk chunks ih =>
    obtain ⟨hsent, hid⟩ := splice_report h chunk
    have hwrite : Does (do
        usd.hidWrite ((splice report 1 chunk).take (chunk.length+1))
        usd.sendData (splice report 1 chunk) chunks) fun ops r =>
        Sending usd ((chunk::chunks).map (2::·)) ops r.isOk := by
      rw [hsent]
      refine does_bind (does_hidWrite usd _) ?_ ?_
      · rintro ops stop (⟨-, ⟨⟩⟩ | ⟨rfl, -⟩)
        exact .refused [] _ _
      · rintro ⟨⟩ ops (⟨rfl, -⟩ | ⟨-, ⟨⟩⟩)
        exact (ih hid).imp fun rest r hrest => hrest.cons _
    rw [Usd.sendData]
    split
    next hverbose =>
      refine does_bind (does_flush usd) ?_ ?_
      · rintro ops stop ⟨rfl, hfail⟩
        exact .silenced [] _ _ ⟨hverbose, hfail rfl⟩
      · rintro ⟨⟩ ops ⟨rfl, -⟩
        exact hwrite
    next => exact hwrite

theorem does_secOpen (status : ByteString) : Does (do
    let id ← expect "index out of bounds: the len is 0 but the index is 0" status.head?
    if id ≠ 3 ∨ status.drop 1 ≠ secOpen then
      throw (.error (.bail ("HAB is in the closed state (" ++ debugBytes status ++ ")"))) :
      Session Unit) fun ops r => ops = [] ∧ (r.isOk = true ↔ status = 3::secOpen) := by
  cases status with
  | nil => exact does_throw ⟨rfl, nofun, nofun⟩
  | cons id rest =>
    show Does (if id ≠ 3 ∨ rest ≠ secOpen then _ else _) _
    split
    next hclosed =>
      refine does_throw ⟨rfl, nofun, fun heq => ?_⟩
      obtain ⟨rfl, rfl⟩ := List.cons.inj heq
      exact (hclosed.elim (absurd rfl) (absurd rfl) : False).elim
    next hopen =>
      obtain ⟨rfl, rfl⟩ : id = 3 ∧ rest = secOpen := by
        simpa [not_or] using hopen
      exact does_pure ⟨rfl, fun _ => rfl, fun _ => rfl⟩

theorem does_checkSecStatus (usd : Usd) : Does usd.checkSecStatus fun ops r =>
    ∃ status, StatusReads ops status ∧ (r.isOk = true ↔ status = some (3::secOpen)) := by
  rw [Usd.checkSecStatus]
  refine does_bind (does_hidRead usd 5) ?_ ?_
  · rintro ops stop (⟨report, -, ⟨⟩⟩ | ⟨rfl, -⟩)
    exact ⟨none, .failed, nofun, nofun⟩
  · rintro first ops (⟨_, rfl, ⟨⟩⟩ | ⟨-, ⟨⟩⟩)
    by_cases hone : first.length = 1
    · obtain ⟨byte, rfl⟩ := List.length_eq_one_iff.mp hone
      rw [if_pos hone]
      refine does_bind (does_hidRead usd 5) ?_ ?_
      · rintro ops stop (⟨report, -, ⟨⟩⟩ | ⟨rfl, -⟩)
        exact ⟨none, .again byte none, nofun, nofun⟩
      · rintro second ops (⟨_, rfl, ⟨⟩⟩ | ⟨-, ⟨⟩⟩)
        refine (does_secOpen second).imp ?_
        rintro _ r ⟨rfl, hr⟩
        exact ⟨some second, .again byte _, hr.trans (Option.some_inj.symm)⟩
    · rw [if_neg hone, pure_bind]
      refine (does_secOpen first).imp ?_
      rintro _ r ⟨rfl, hr⟩
      exact ⟨some first, .once first hone, hr.trans (Option.some_inj.symm)⟩

theorem deref_report (report : ByteString) :
    (⟨splice (List.replicate 65 0) 0 report, report.length⟩ : Response).deref = report.drop 1 := by
  rw [Response.deref, splice, List.take_zero, List.nil_append, List.take_left]

theorem does_readResponse (usd : Usd) : Does usd.readResponse fun ops r =>
    ∃ report, ops = [.read 65 report] ∧ match r with
      | .ok resp => report = some (4::resp.deref)
      | .error _ => ∀ rest, report ≠ some (4::rest) := by
  rw [Usd.readResponse]
  refine does_bind (does_hidRead usd 65) ?_ ?_
  · rintro ops stop (⟨report, -, ⟨⟩⟩ | ⟨rfl, -⟩)
    exact ⟨none, rfl, nofun⟩
  · rintro report ops (⟨_, rfl, ⟨⟩⟩ | ⟨-, ⟨⟩⟩)
    cases report with
    | nil => exact does_throw ⟨some [], rfl, nofun⟩
    | cons id rest =>
      show Does (if id ≠ 4 then _ else _) _
      by_cases hid : id = 4
      · rw [if_neg (not_not.mpr hid), hid]
        refine does_pure ⟨some (4::rest), rfl, ?_⟩
        show some (4::rest) = some (4::Response.deref _)
        rw [deref_report]
        rfl
      · rw [if_pos hid]
        refine does_throw ⟨some (id::rest), rfl, fun other heq => hid ?_⟩
        exact (List.cons.inj (Option.some.inj heq)).1

theorem sending_all {reports : List ByteString} (h : Sending usd reports ops true) :
    ops = sent reports := by
  cases h with
  | all => rfl

theorem does_transfer (usd : Usd) (var name : String) {command : UInt32 → UInt32 → Command}
    {type : UInt8} (hcommand : ∀ address count,
      (command address count).bytes = commandReport type address count)
    (ack : ByteString) (address : UInt32) {data : ByteString} (hlen : data.length < 2^32-1) :
    Does (usd.transfer var name command ack address data) fun ops r =>
      Transfer usd ack (commandReport type address (UInt32.ofNat data.length))
        ((chunks dataReportSize data).map (2::·)) ops r.isOk := by
  rw [Usd.transfer]
  apply does_ensure hlen
  rw [Usd.sendCommand, hcommand]
  refine does_bind (does_hidWrite usd _) ?_ ?_
  · rintro ops stop (⟨-, ⟨⟩⟩ | ⟨rfl, -⟩)
    exact .unsent
  rintro ⟨⟩ ops (⟨rfl, -⟩ | ⟨-, ⟨⟩⟩)
  refine does_bind (does_sendData usd rfl _) (fun ops stop hsending => .stopped hsending) ?_
  rintro ⟨⟩ ops hsending
  obtain rfl := sending_all hsending
  refine does_bind (does_checkSecStatus usd) ?_ ?_
  · rintro ops stop ⟨status, hstatus, hopen⟩
    exact .answered (.closed hstatus fun heq => nomatch hopen.mpr heq)
  rintro ⟨⟩ ops ⟨status, hstatus, hopen⟩
  obtain rfl := hopen.mp rfl
  refine does_bind (does_readResponse usd) ?_ ?_
  · rintro _ stop ⟨report, rfl, hother⟩
    exact .answered (.unacknowledged hstatus fun rest => hother _)
  rintro resp _ ⟨report, rfl, hreport⟩
  obtain rfl : report = some (4::resp.deref) := hreport
  by_cases hack : ack <+: resp.deref
  · rw [if_neg (not_not.mpr hack)]
    obtain ⟨rest, hrest⟩ := hack
    rw [← hrest]
    exact does_pure (.answered (.acknowledged rest hstatus))
  · rw [if_pos hack]
    refine does_throw (.answered (.unacknowledged hstatus fun rest heq => hack ?_))
    exact ⟨rest, (List.cons.inj (Option.some.inj heq)).2.symm⟩

/-- A call sends the command with the address and the number of bytes, then the bytes in chunks,
then reads; it stops where a write fails, and succeeds only with the acknowledgement. -/
def Delivers (usd : Usd) (call : Session Unit) (type : UInt8) (ack : ByteString)
    (address : UInt32) (data : ByteString) : Prop :=
  ∀ before, ∃ (command : ByteString) (chunks : List ByteString) (ops : List Operation),
    command = [1, type, type] ++ toBe32 address ++ [0] ++ toBe32 (UInt32.ofNat data.length) ++
      [0, 0, 0, 0, 0] ∧ command.length = 17 ∧
    (∀ chunk ∈ chunks, 1 ≤ chunk.length ∧ chunk.length ≤ 1024) ∧ chunks.flatten = data ∧
    (perform call before).2 = before ++ ops ∧
    Transfer usd ack command (chunks.map (2::·)) ops (perform call before).1.isOk

theorem transfer_delivers (usd : Usd) (var name : String) {command : UInt32 → UInt32 → Command}
    {type : UInt8} (hcommand : ∀ address count,
      (command address count).bytes = commandReport type address count)
    (ack : ByteString) (address : UInt32) {data : ByteString} (hlen : data.length < 2^32-1) :
    Delivers usd (usd.transfer var name command ack address data) type ack address data := by
  intro before
  have hsize : 0 < dataReportSize := by decide
  obtain ⟨ops, hops, hdone⟩ := does_transfer usd var name hcommand ack address hlen before
  exact ⟨_, chunks dataReportSize data, ops, rfl, rfl, mem_chunks hsize data,
    chunks_flatten hsize data, hops, hdone⟩

/-- Both commands with data deliver it. -/
theorem data_delivered (usd : Usd) (address : UInt32) (data : ByteString)
    (hlen : data.length < 2^32-1) :
    Delivers usd (usd.dcdWrite address data) 0x0A [0x12, 0x8A, 0x8A, 0x12] address data ∧
    Delivers usd (usd.writeFile address data) 0x04 [0x88, 0x88, 0x88, 0x88] address data :=
  ⟨transfer_delivers usd _ _ bytes_dcdWrite _ address hlen,
    transfer_delivers usd _ _ bytes_writeFile _ address hlen⟩

/-- A device that reports one byte first, then the open state, then an acknowledgement. -/
def acknowledging : Usd where
  accepts _ := true
  reports before := match before.getLast? with
    | some (.read _ (some [_])) => some (3::secOpen)
    | some (.read _ _) => some [4, 0x12, 0x8A, 0x8A, 0x12, 0, 0, 0]
    | _ => some [3]
  flushes _ := true
  verbose := false

theorem data_delivered_acknowledged :
    (perform (acknowledging.dcdWrite 0x910000 [1, 2, 3]) []).1 = .ok () ∧
    Delivers acknowledging (acknowledging.dcdWrite 0x910000 [1, 2, 3]) 0x0A
      [0x12, 0x8A, 0x8A, 0x12] 0x910000 [1, 2, 3] :=
  ⟨rfl, (data_delivered acknowledging 0x910000 [1, 2, 3] (by decide)).1⟩

end UsbArmory.Downloader.Delivery
