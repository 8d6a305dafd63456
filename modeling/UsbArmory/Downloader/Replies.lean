import UsbArmory.Downloader.Delivery

/-!
# Replies of the device

A command reads the security status behind what it sends, and a response
behind an open status. The word of a memory read is taken from the response.
-/

set_option autoImplicit false

namespace UsbArmory.Downloader.Replies
open UsbArmory.Library.Word UsbArmory.Library.Binary UsbArmory.Library.Chunks
open UsbArmory.Library.Trace UsbArmory.Downloader.Sdp UsbArmory.Downloader.Delivery

/-- The report that the backend returns for a buffer of that size. -/
def answer (usd : Usd) (size : ℕ) (before : List Operation) : Option ByteString :=
  (usd.reports before).map (·.take size)

/-- The report that the status is taken from: the second if the first has one byte. -/
inductive Status (usd : Usd) (before : List Operation) : ByteString → List Operation → Prop where
  | once (status : ByteString) (h : answer usd 5 before = some status) (hone : status.length ≠ 1) :
    Status usd before status (before ++ [.read 5 (some status)])
  | again (byte : UInt8) (status : ByteString) (h : answer usd 5 before = some [byte])
    (hagain : answer usd 5 (before ++ [.read 5 (some [byte])]) = some status) :
    Status usd before status (before ++ [.read 5 (some [byte])] ++ [.read 5 (some status)])

variable {usd : Usd} {before : List Operation} {α : Type}

theorem perform_hidWrite (usd : Usd) (report : ByteString) (before : List Operation) :
    perform (usd.hidWrite report) before =
      (if usd.accepts before then .ok () else .error (.error .hid),
        before ++ [.write report (usd.accepts before)]) := rfl

theorem perform_hidRead {size : ℕ} {report : ByteString}
    (h : answer usd size before = some report) :
    perform (usd.hidRead size) before = (.ok report, before ++ [.read size (some report)]) := by
  have hreport : (usd.reports before).map (·.take size) = some report := h
  unfold perform Usd.hidRead operation
  simp only [ExceptT.run_mk, StateT.run, hreport]

/-- What is done with the report that the status is taken from. -/
def secCheck (status : ByteString) : Session Unit := do
  let id ← expect "index out of bounds: the len is 0 but the index is 0" status.head?
  if id ≠ 3 ∨ status.drop 1 ≠ secOpen then
    throw (.error (.bail ("HAB is in the closed state (" ++ debugBytes status ++ ")")))

theorem perform_checkSecStatus {status : ByteString} {after : List Operation}
    (h : Status usd before status after) :
    perform usd.checkSecStatus before = perform (secCheck status) after := by
  cases h with
  | once _ h hone =>
    rw [Usd.checkSecStatus, perform_bind_ok (perform_hidRead h), if_neg hone, pure_bind]
    rfl
  | again byte _ h hagain =>
    have hone : [byte].length = 1 := rfl
    rw [Usd.checkSecStatus, perform_bind_ok (perform_hidRead h), if_pos hone,
      perform_bind_ok (perform_hidRead hagain)]
    rfl

theorem perform_secOpen (after : List Operation) :
    perform (secCheck (3::secOpen)) after = (.ok (), after) := rfl

theorem perform_readResponse {rest : ByteString} (h : answer usd 65 before = some (4::rest)) :
    ∃ resp : Response, resp.deref = rest ∧ perform usd.readResponse before =
      (.ok resp, before ++ [.read 65 (some (4::rest))]) := by
  refine ⟨_, deref_report (4::rest), ?_⟩
  rw [Usd.readResponse, perform_bind_ok (perform_hidRead h)]
  rfl

/-- A device that reports a status behind a command, and a response behind the status. -/
def replying (status response : ByteString) : Usd where
  accepts _ := true
  reports before := if before.length < 2 then some status else some response
  flushes _ := true
  verbose := false

/-- The word is the one in front of the response only if it is the one behind it, too. -/
theorem readMemory_word (usd : Usd) (before after : List Operation) (address : UInt32)
    (b0 b1 b2 b3 : UInt8) (rest : ByteString) (haligned : address % 4 = 0)
    (haccepts : usd.accepts before = true)
    (hopen : Status usd (before ++ [.write (Command.readRegister address .b32 1).bytes true])
      (3::secOpen) after)
    (hresponse : answer usd 65 after = some (4::b0::b1::b2::b3::rest)) :
    (perform (usd.readMemory address) before).1 = .ok (ofLe32 b0 b1 b2 b3) ↔
      rest.head? = some b0 ∧ b1 = b0 ∧ b2 = b0 ∧ b3 = b0 := by
  have hensure : (ensure (address % 4 = 0) "address must be 4-byte aligned" : Session Unit) =
      pure () := if_pos haligned
  have hsend : perform (usd.sendCommand (.readRegister address .b32 1)) before =
      (.ok (), before ++ [.write (Command.readRegister address .b32 1).bytes true]) := by
    rw [Usd.sendCommand, perform_hidWrite, haccepts, if_pos rfl]
  have hcheck := (perform_checkSecStatus hopen).trans (perform_secOpen after)
  obtain ⟨resp, hderef, hread⟩ := perform_readResponse hresponse
  rw [Usd.readMemory, hensure, pure_bind, perform_bind_ok hsend, perform_bind_ok hcheck,
    perform_bind_ok hread, arrayRef, hderef]
  cases rest with
  | nil => simp [perform]
  | cons b4 rest =>
    show Except.ok (ofLe32 b1 b2 b3 b4) = .ok (ofLe32 b0 b1 b2 b3) ↔ some b4 = some b0 ∧ _
    refine ⟨fun heq => ?_, ?_⟩
    · have hbytes := congrArg toLe32 (Except.ok.inj heq)
      rw [toLe32_ofLe32, toLe32_ofLe32] at hbytes
      simp only [List.cons.injEq, and_true] at hbytes
      obtain ⟨rfl, rfl, rfl, rfl⟩ := hbytes
      exact ⟨rfl, rfl, rfl, rfl⟩
    · rintro ⟨heq, rfl, rfl, rfl⟩
      rw [Option.some.inj heq]

theorem readMemory_word_equal_bytes :
    (perform ((replying (3::secOpen) [4, 7, 7, 7, 7, 7]).readMemory 0x910000) []).1 =
      .ok (ofLe32 7 7 7 7) :=
  (readMemory_word (replying (3::secOpen) [4, 7, 7, 7, 7, 7]) [] _ 0x910000 7 7 7 7 [7] (by decide)
    rfl (.once _ rfl (by decide)) rfl).mpr ⟨rfl, rfl, rfl, rfl⟩

/-- The word 0xDEADBEEF is read as 0x00DEADBE, and makes the command panic if nothing follows. -/
theorem readMemory_word_shifted :
    (perform ((replying (3::secOpen) [4, 0xEF, 0xBE, 0xAD, 0xDE, 0]).readMemory 0x910000) []).1 =
      .ok 0x00DEADBE ∧
    (perform ((replying (3::secOpen) [4, 0xEF, 0xBE, 0xAD, 0xDE]).readMemory 0x910000) []).1 =
      .error (.panic "range end index 5 out of range for slice of length 4") ∧
    ofLe32 0xEF 0xBE 0xAD 0xDE = 0xDEADBEEF := ⟨rfl, rfl, rfl⟩

end UsbArmory.Downloader.Replies
