import UsbArmory.Downloader.Replies

/-!
# Replies that crash a command

Whether a command returns depends on the lengths of the replies: an empty
report has no first byte, and a short one has no word.
-/

set_option autoImplicit false

namespace UsbArmory.Downloader.Crashes
open UsbArmory.Library.Word UsbArmory.Library.Binary UsbArmory.Library.Chunks
open UsbArmory.Library.Trace UsbArmory.Downloader.Sdp UsbArmory.Downloader.Delivery
open UsbArmory.Downloader.Replies

/-- The reports are accepted in a row, each of them announced. -/
def Taken (usd : Usd) : List ByteString → List Operation → Prop
  | [], _ => True
  | report::rest, before => (usd.verbose = true → usd.flushes before = true) ∧
      usd.accepts before = true ∧ Taken usd rest (before ++ [.write report true])

/-- No status is empty, and a response behind an open status is a good one. -/
def Readable (usd : Usd) (good : ByteString → Prop) (before : List Operation) : Prop :=
  ∀ status after, Status usd before status after → status ≠ [] ∧
    (status = 3::secOpen → ∀ report, answer usd 65 after = some report → good report)

variable {usd : Usd} {before : List Operation} {α : Type}

theorem perform_hidRead_none {size : ℕ} (h : answer usd size before = none) :
    perform (usd.hidRead size) before = (.error (.error .hid), before ++ [.read size none]) := by
  have hreport : (usd.reports before).map (·.take size) = none := h
  unfold perform Usd.hidRead operation
  simp only [ExceptT.run_mk, StateT.run, hreport]

theorem perform_checkSecStatus_none (h : ∀ status after, ¬Status usd before status after) :
    (perform usd.checkSecStatus before).1 = .error (.error .hid) := by
  cases hfirst : answer usd 5 before with
  | none => rw [Usd.checkSecStatus, perform_bind_error (perform_hidRead_none hfirst)]
  | some first =>
    by_cases hone : first.length = 1
    · obtain ⟨byte, rfl⟩ := List.length_eq_one_iff.mp hone
      cases hsecond : answer usd 5 (before ++ [.read 5 (some [byte])]) with
      | none =>
        rw [Usd.checkSecStatus, perform_bind_ok (perform_hidRead hfirst), if_pos hone,
          perform_bind_error (perform_hidRead_none hsecond)]
      | some second => exact absurd (.again byte second hfirst hsecond) (h second _)
    · exact absurd (.once first hfirst hone) (h first _)

theorem secCheck_closed {id : UInt8} {rest : ByteString} (h : id::rest ≠ 3::secOpen) :
    secCheck (id::rest) =
      throw (.error (.bail ("HAB is in the closed state (" ++ debugBytes (id::rest) ++ ")"))) := by
  have hclosed : id ≠ 3 ∨ rest ≠ secOpen := by
    by_contra hopen
    obtain ⟨hid, hrest⟩ : id = 3 ∧ rest = secOpen := by simpa [not_or] using hopen
    exact h (by rw [hid, hrest])
  exact if_pos hclosed

theorem status_unique {status status' : ByteString} {after after' : List Operation}
    (h : Status usd before status after) (h' : Status usd before status' after') :
    status' = status ∧ after' = after := by
  cases h with
  | once _ h hone =>
    cases h' with
    | once _ h' _ =>
      obtain rfl := Option.some.inj (h'.symm.trans h)
      exact ⟨rfl, rfl⟩
    | again byte _ h' _ =>
      obtain rfl := Option.some.inj (h'.symm.trans h)
      exact absurd rfl hone
  | again byte _ h hagain =>
    cases h' with
    | once _ h' hone =>
      obtain rfl := Option.some.inj (h'.symm.trans h)
      exact absurd rfl hone
    | again byte' _ h' hagain' =>
      obtain rfl := (List.cons.inj (Option.some.inj (h'.symm.trans h))).1
      obtain rfl := Option.some.inj (hagain'.symm.trans hagain)
      exact ⟨rfl, rfl⟩

theorem crashes_hidWrite_bind (report : ByteString) (f : Unit → Session α) :
    Crashes (usd.hidWrite report >>= f) before ↔
      usd.accepts before = true ∧ Crashes (f ()) (before ++ [.write report true]) := by
  have hwrite := perform_hidWrite usd report before
  cases haccepts : usd.accepts before with
  | true =>
    rw [haccepts, if_pos rfl] at hwrite
    rw [crashes_bind_ok hwrite, and_iff_right rfl]
  | false =>
    rw [haccepts, if_neg Bool.false_ne_true] at hwrite
    simp [not_crashes_bind_error (congrArg Prod.fst hwrite)]

theorem crashes_flush_bind (f : Unit → Session α) :
    Crashes (usd.flush >>= f) before ↔ usd.flushes before = true ∧ Crashes (f ()) before := by
  have hflush : perform usd.flush before =
      (if usd.flushes before then .ok () else .error (.error .io), before) := rfl
  cases haccepts : usd.flushes before with
  | true =>
    rw [haccepts, if_pos rfl] at hflush
    rw [crashes_bind_ok hflush, and_iff_right rfl]
  | false =>
    rw [haccepts, if_neg Bool.false_ne_true] at hflush
    simp [not_crashes_bind_error (congrArg Prod.fst hflush)]

theorem crashes_hidRead_bind (size : ℕ) (f : ByteString → Session α) :
    Crashes (usd.hidRead size >>= f) before ↔ ∃ report, answer usd size before = some report ∧
      Crashes (f report) (before ++ [.read size (some report)]) := by
  cases h : answer usd size before with
  | some report => simp [crashes_bind_ok (perform_hidRead h)]
  | none => simp [not_crashes_bind_error (congrArg Prod.fst (perform_hidRead_none h))]

theorem crashes_secCheck_bind (status : ByteString) (f : Unit → Session α)
    (after : List Operation) : Crashes (secCheck status >>= f) after ↔
      status = [] ∨ status = 3::secOpen ∧ Crashes (f ()) after := by
  cases status with
  | nil => exact ⟨fun _ => .inl rfl, fun _ => crashes_panic rfl⟩
  | cons id rest =>
    by_cases hopen : id::rest = 3::secOpen
    · rw [hopen, crashes_bind_ok (perform_secOpen after)]
      simp
    · rw [secCheck_closed hopen]
      simp [hopen]

theorem crashes_checkSecStatus_bind (f : Unit → Session α) :
    Crashes (usd.checkSecStatus >>= f) before ↔ ∃ status after, Status usd before status after ∧
      (status = [] ∨ status = 3::secOpen ∧ Crashes (f ()) after) := by
  by_cases hread : ∃ status after, Status usd before status after
  · obtain ⟨status, after, hstatus⟩ := hread
    have hrun : Crashes (usd.checkSecStatus >>= f) before ↔
        Crashes (secCheck status >>= f) after := by
      rw [Crashes, Crashes, perform_bind, perform_bind, perform_checkSecStatus hstatus]
    rw [hrun, crashes_secCheck_bind]
    refine ⟨fun h => ⟨status, after, hstatus, h⟩, ?_⟩
    rintro ⟨other, later, hother, h⟩
    obtain ⟨rfl, rfl⟩ := status_unique hstatus hother
    exact h
  · have hfail : (perform usd.checkSecStatus before).1 = .error (.error .hid) :=
      perform_checkSecStatus_none fun status after h => hread ⟨status, after, h⟩
    refine ⟨fun h => absurd h (not_crashes_bind_error hfail), ?_⟩
    rintro ⟨status, after, h, -⟩
    exact absurd ⟨status, after, h⟩ hread

theorem crashes_readResponse_bind (f : Response → Session α) (p : ByteString → Prop)
    (hf : ∀ resp after, Crashes (f resp) after ↔ p resp.deref) :
    Crashes (usd.readResponse >>= f) before ↔ ∃ report, answer usd 65 before = some report ∧
      (report = [] ∨ ∃ rest, report = 4::rest ∧ p rest) := by
  rw [Usd.readResponse, bind_assoc, crashes_hidRead_bind]
  refine exists_congr fun report => and_congr_right fun _ => ?_
  cases report with
  | nil => exact ⟨fun _ => .inl rfl, fun _ => crashes_panic rfl⟩
  | cons id rest =>
    by_cases hid : id = 4
    · subst hid
      show Crashes (f _) _ ↔ _
      rw [hf, deref_report]
      simp
    · show Crashes ((if id ≠ 4 then _ else _) >>= f) _ ↔ _
      rw [if_pos hid, bind_assoc]
      simp [hid]

theorem crashes_sendData_bind {report : ByteString} (h : report.take 1 = [2])
    (chunks : List ByteString) (f : Unit → Session α) :
    Crashes (usd.sendData report chunks >>= f) before ↔ Taken usd (chunks.map (2::·)) before ∧
      Crashes (f ()) (before ++ sent (chunks.map (2::·))) := by
  induction chunks generalizing report before with
  | nil => simp [Usd.sendData, Taken, sent]
  | cons chunk chunks ih =>
    obtain ⟨hsent, hid⟩ := splice_report h chunk
    have hwrite : ∀ before, Crashes
        (usd.hidWrite ((splice report 1 chunk).take (chunk.length+1)) >>=
        fun _ => usd.sendData (splice report 1 chunk) chunks >>= f) before ↔
        usd.accepts before = true ∧
          Taken usd (chunks.map (2::·)) (before ++ [.write (2::chunk) true]) ∧
          Crashes (f ()) (before ++ sent ((chunk::chunks).map (2::·))) := by
      intro before
      rw [hsent, crashes_hidWrite_bind, ih hid, List.append_assoc]
      rfl
    rw [Usd.sendData]
    by_cases hverbose : usd.verbose = true
    · rw [if_pos hverbose, bind_assoc, crashes_flush_bind, bind_assoc, hwrite]
      simp [Taken, hverbose, and_assoc]
    · rw [if_neg hverbose, bind_assoc, hwrite]
      simp [Taken, hverbose, and_assoc]

/-- What is left of a command behind its data crashes where the replies are not readable. -/
theorem crashes_replies (f : Response → Session α) (good : ByteString → Prop)
    (hf : ∀ resp after, Crashes (f resp) after ↔ ¬good (4::resp.deref))
    (hnil : ¬good []) (hother : ∀ id rest, id ≠ 4 → good (id::rest)) :
    Crashes (do
      usd.checkSecStatus
      let resp ← usd.readResponse
      f resp) before ↔ ¬Readable usd good before := by
  rw [crashes_checkSecStatus_bind]
  simp only [crashes_readResponse_bind f (fun rest => ¬good (4::rest)) hf]
  constructor
  · rintro ⟨status, after, hstatus, hbad | ⟨hopen, report, hreport, hbad⟩⟩ hgood
    · exact (hgood status after hstatus).1 hbad
    · have hresponse := (hgood status after hstatus).2 hopen report hreport
      rcases hbad with rfl | ⟨rest, rfl, hbad⟩
      · exact hnil hresponse
      · exact hbad hresponse
  · intro hbad
    simp only [Readable, not_forall, not_and_or] at hbad
    obtain ⟨status, after, hstatus, hempty | ⟨hopen, report, hreport, hbad⟩⟩ := hbad
    · exact ⟨status, after, hstatus, .inl (not_not.mp hempty)⟩
    · refine ⟨status, after, hstatus, .inr ⟨hopen, report, hreport, ?_⟩⟩
      cases report with
      | nil => exact .inl rfl
      | cons id rest =>
        by_cases hid : id = 4
        · exact .inr ⟨rest, by rw [hid], hid ▸ hbad⟩
        · exact absurd (hother id rest hid) hbad

theorem crashes_checkSecStatus : Crashes usd.checkSecStatus before ↔
    ¬Readable usd (fun _ => True) before := by
  rw [← bind_pure usd.checkSecStatus, crashes_checkSecStatus_bind]
  simp [Readable]

def dataReports (data : ByteString) : List ByteString :=
  (chunks dataReportSize data).map (2::·)

/-- Where the command and the data are sent, the replies to them are readable. -/
def Answered (usd : Usd) (good : ByteString → Prop) (command : Command) (data : ByteString)
    (before : List Operation) : Prop :=
  usd.accepts before = true → Taken usd (dataReports data) (before ++ [.write command.bytes true]) →
    Readable usd good (before ++ [.write command.bytes true] ++ sent (dataReports data))

theorem not_crashes_sendCommand_bind (command : Command) (f : Unit → Session α)
    (p : List Operation → Prop) (hf : ∀ after, Crashes (f ()) after ↔ ¬p after) :
    ¬Crashes (usd.sendCommand command >>= f) before ↔
      (usd.accepts before = true → p (before ++ [.write command.bytes true])) := by
  rw [Usd.sendCommand, crashes_hidWrite_bind, hf]
  tauto

theorem not_crashes_transfer (var name : String) (command : UInt32 → UInt32 → Command)
    (ack : ByteString) (address : UInt32) (data : ByteString) :
    ¬Crashes (usd.transfer var name command ack address data) before ↔ data.length < 2^32-1 ∧
      Answered usd (· ≠ []) (command address (UInt32.ofNat data.length)) data before := by
  rw [Usd.transfer, crashes_ensure_bind, Classical.not_imp, not_crashes_sendCommand_bind _ _
    (fun after => Taken usd (dataReports data) after →
      Readable usd (· ≠ []) (after ++ sent (dataReports data)))]
  · rfl
  intro after
  rw [crashes_sendData_bind rfl, crashes_replies _ (· ≠ []), Classical.not_imp]
  · rfl
  · intro resp after
    by_cases hack : ack <+: resp.deref
    · rw [if_neg (not_not.mpr hack)]
      simp
    · rw [if_pos hack]
      simp
  · exact not_not.mpr rfl
  · exact fun id rest _ => List.cons_ne_nil id rest

theorem not_crashes_jumpAddress (address : UInt32) :
    ¬Crashes (usd.jumpAddress address) before ↔
      Answered usd (fun _ => True) (.jumpAddress address) [] before := by
  rw [Usd.jumpAddress, not_crashes_sendCommand_bind _ _ _ fun after => crashes_checkSecStatus]
  simp [Answered, dataReports, chunks, chunksFuel, Taken, sent]

theorem crashes_arrayRef (bytes : ByteString) (before : List Operation) :
    Crashes (arrayRef bytes 1) before ↔ bytes.length < 5 := by
  rw [arrayRef]
  split
  next b0 b1 b2 b3 rest hbytes =>
    have hlen := congrArg List.length hbytes
    simp only [List.length_drop, List.length_cons] at hlen
    simp only [not_crashes_pure, false_iff]
    omega
  next hshort =>
    have hcrash : Crashes (throw (.panic ("range end index " ++ toString (1+4) ++
        " out of range for slice of length " ++ toString bytes.length)) : Session UInt32) before :=
      crashes_panic rfl
    rw [iff_true_left hcrash]
    by_contra hlen
    rcases hdrop : bytes.drop 1 with _ | ⟨b0, _ | ⟨b1, _ | ⟨b2, _ | ⟨b3, rest⟩⟩⟩⟩
    case cons.cons.cons.cons => exact hshort b0 b1 b2 b3 rest hdrop
    all_goals
      have hlength := congrArg List.length hdrop
      simp only [List.length_drop, List.length_cons, List.length_nil] at hlength
      omega

/-- A response with the right id is long enough for the word behind its first byte. -/
def LongEnough (report : ByteString) : Prop :=
  report ≠ [] ∧ (report.head? = some 4 → 6 ≤ report.length)

theorem not_crashes_readMemory (address : UInt32) :
    ¬Crashes (usd.readMemory address) before ↔ address % 4 = 0 ∧
      Answered usd LongEnough (.readRegister address .b32 1) [] before := by
  rw [Usd.readMemory, crashes_ensure_bind, Classical.not_imp, not_crashes_sendCommand_bind _ _
    (fun after => Readable usd LongEnough after)]
  · simp [Answered, dataReports, chunks, chunksFuel, Taken, sent]
  intro after
  apply crashes_replies
  · intro resp after
    rw [crashes_arrayRef]
    simp [LongEnough]
  · exact fun h => h.1 rfl
  · exact fun id rest hid => ⟨List.cons_ne_nil id rest, fun h => absurd (Option.some.inj h) hid⟩

/-- The commands do not panic exactly where the device leaves no status and no response empty, and
answers a memory read with six bytes. -/
theorem replies_tolerated (usd : Usd) (before : List Operation) (address : UInt32)
    (data : ByteString) :
    (¬Crashes (usd.dcdWrite address data) before ↔ data.length < 2^32-1 ∧
      Answered usd (· ≠ []) (.dcdWrite address (UInt32.ofNat data.length)) data before) ∧
    (¬Crashes (usd.writeFile address data) before ↔ data.length < 2^32-1 ∧
      Answered usd (· ≠ []) (.writeFile address (UInt32.ofNat data.length)) data before) ∧
    (¬Crashes (usd.jumpAddress address) before ↔
      Answered usd (fun _ => True) (.jumpAddress address) [] before) ∧
    (¬Crashes (usd.readMemory address) before ↔ address % 4 = 0 ∧
      Answered usd LongEnough (.readRegister address .b32 1) [] before) :=
  ⟨not_crashes_transfer _ _ _ _ _ _, not_crashes_transfer _ _ _ _ _ _, not_crashes_jumpAddress _,
    not_crashes_readMemory _⟩

/-- An empty report, as a status or as a response, and a short one behind a memory read. -/
theorem replies_tolerated_not :
    (perform ((replying [] []).dcdWrite 0x910000 []) []).1 =
      .error (.panic "index out of bounds: the len is 0 but the index is 0") ∧
    (perform ((replying (3::secOpen) []).writeFile 0x910000 []) []).1 =
      .error (.panic "index out of bounds: the len is 0 but the index is 0") ∧
    (perform ((replying [] []).jumpAddress 0x910000) []).1 =
      .error (.panic "index out of bounds: the len is 0 but the index is 0") ∧
    (perform ((replying (3::secOpen) [4]).readMemory 0x910000) []).1 =
      .error (.panic "range end index 5 out of range for slice of length 0") :=
  ⟨rfl, rfl, rfl, rfl⟩

end UsbArmory.Downloader.Crashes
