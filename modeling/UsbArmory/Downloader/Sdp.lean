import UsbArmory.Library.Chunks
import UsbArmory.Library.Trace

/-!
# The Serial Downloader Protocol

Commands, data and replies are HID reports. The backend may fail at every
report, and answers a read with any bytes that fit the buffer.
-/

set_option autoImplicit false

namespace UsbArmory.Downloader.Sdp
open UsbArmory.Library.Word UsbArmory.Library.Binary UsbArmory.Library.Chunks
open UsbArmory.Library.Trace

inductive Failure where
  | hid
  | io
  | bail (message : String)
  deriving DecidableEq, Repr

inductive Operation where
  | write (report : ByteString) (accepted : Bool)
  | read (size : ℕ) (report : Option ByteString)
  deriving DecidableEq, Repr

abbrev Session (α : Type) := Traced Operation Failure α

/-- What the HID backend and the standard output answer after some operations. -/
structure Usd where
  accepts : List Operation → Bool
  reports : List Operation → Option ByteString
  flushes : List Operation → Bool
  verbose : Bool

section Device
variable (usd : Usd)

def Usd.hidWrite (report : ByteString) : Session Unit := operation fun before =>
  (.write report (usd.accepts before),
    if usd.accepts before then .ok () else .error (.error .hid))

def Usd.hidRead (size : ℕ) : Session ByteString := operation fun before =>
  let report := (usd.reports before).map (·.take size)
  (.read size report, match report with
    | some report => .ok report
    | none => .error (.error .hid))

def Usd.flush : Session Unit := ExceptT.mk fun before =>
  (if usd.flushes before then .ok () else .error (.error .io), before)

end Device

inductive Format where
  | b8
  | b16
  | b32
  deriving DecidableEq, Repr

def Format.code : Format → UInt8
  | .b8 => 0x08
  | .b16 => 0x10
  | .b32 => 0x20

inductive Data where
  | u8 (byte : UInt8)
  | u16 (halfword : UInt16)
  | u32 (word : UInt32)
  deriving DecidableEq, Repr

inductive Command where
  | dcdWrite (address count : UInt32)
  | errorStatus
  | jumpAddress (address : UInt32)
  | readRegister (address : UInt32) (format : Format) (count : UInt32)
  | skipDcdHeader
  | writeFile (address count : UInt32)
  | writeRegister (address : UInt32) (data : Data)
  deriving DecidableEq, Repr

/-- `copy_from_slice` into a part of a buffer. -/
def splice (buffer : ByteString) (start : ℕ) (bytes : ByteString) : ByteString :=
  buffer.take start ++ bytes ++ buffer.drop (start+bytes.length)

def Command.type : Command → UInt8
  | .dcdWrite _ _ => 0x0A
  | .errorStatus => 0x05
  | .jumpAddress _ => 0x0B
  | .readRegister _ _ _ => 0x01
  | .skipDcdHeader => 0x0C
  | .writeFile _ _ => 0x04
  | .writeRegister _ _ => 0x02

/-- The fields behind the type: the address at 2, the format at 6, the count at 7 and the data
at 11. -/
def Command.fields (cmd : ByteString) : Command → ByteString
  | .dcdWrite address count | .writeFile address count =>
    splice (splice cmd 2 (toBe32 address)) 7 (toBe32 count)
  | .errorStatus | .skipDcdHeader => cmd
  | .jumpAddress address => splice cmd 2 (toBe32 address)
  | .readRegister address format count =>
    splice (splice (splice cmd 2 (toBe32 address)) 6 [format.code]) 7 (toBe32 count)
  | .writeRegister address data =>
    let cmd := splice cmd 2 (toBe32 address)
    match data with
    | .u8 byte => splice (splice cmd 6 [Format.b8.code]) 11 [byte]
    | .u16 halfword => splice (splice cmd 6 [Format.b16.code]) 11 (toBe16 halfword).reverse
    | .u32 word => splice (splice cmd 6 [Format.b32.code]) 11 (toLe32 word)

def Command.bytes (self : Command) : ByteString :=
  1::splice (self.fields (List.replicate 16 0)) 0 [self.type, self.type]

def debugBytes (bytes : ByteString) : String :=
  "[" ++ ", ".intercalate (bytes.map toString) ++ "]"

def secOpen : ByteString := [0x56, 0x78, 0x78, 0x56]

structure Response where
  buffer : ByteString
  len : ℕ

/-- `Deref`: the report without its id. -/
def Response.deref (self : Response) : ByteString := (self.buffer.take self.len).drop 1

section Transfer
variable (usd : Usd)

def Usd.sendCommand (cmd : Command) : Session Unit := usd.hidWrite cmd.bytes

def Usd.checkSecStatus : Session Unit := do
  let sec ← usd.hidRead 5
  let sec ← if sec.length = 1 then usd.hidRead 5 else pure sec
  let id ← expect "index out of bounds: the len is 0 but the index is 0" sec.head?
  if id ≠ 3 ∨ sec.drop 1 ≠ secOpen then
    throw (.error (.bail ("HAB is in the closed state (" ++ debugBytes sec ++ ")")))

def Usd.readResponse : Session Response := do
  let report ← usd.hidRead 65
  let id ← expect "index out of bounds: the len is 0 but the index is 0" report.head?
  if id ≠ 4 then throw (.error (.bail "unexpected report id"))
  pure ⟨splice (List.replicate 65 0) 0 report, report.length⟩

def dataReportSize : ℕ := 1024

/-- The loop over the chunks, with the buffer of the report. -/
def Usd.sendData : ByteString → List ByteString → Session Unit
  | _, [] => pure ()
  | report, chunk::rest => do
    if usd.verbose then usd.flush
    let report := splice report 1 chunk
    usd.hidWrite (report.take (chunk.length+1))
    Usd.sendData report rest

/-- A command with data: `variable` and `name` are those of its messages. -/
def Usd.transfer (var name : String) (command : UInt32 → UInt32 → Command) (ack : ByteString)
    (address : UInt32) (data : ByteString) : Session Unit := do
  ensure (data.length < 2^32-1) ("assertion failed: " ++ var ++ ".len() < u32::MAX as usize")
  usd.sendCommand (command address (UInt32.ofNat data.length))
  usd.sendData (2::List.replicate dataReportSize 0) (chunks dataReportSize data)
  usd.checkSecStatus
  let resp ← usd.readResponse
  if ¬ack <+: resp.deref then
    throw (.error (.bail ("device didn't acknowledge the " ++ name ++ " command (resp=" ++
      debugBytes resp.deref ++ ")")))

def respWriteComplete : ByteString := [0x12, 0x8A, 0x8A, 0x12]

def respComplete : ByteString := [0x88, 0x88, 0x88, 0x88]

def Usd.dcdWrite : UInt32 → ByteString → Session Unit :=
  usd.transfer "dcd" "DCD_WRITE" .dcdWrite respWriteComplete

def Usd.writeFile : UInt32 → ByteString → Session Unit :=
  usd.transfer "data" "WRITE_FILE" .writeFile respComplete

def Usd.jumpAddress (address : UInt32) : Session Unit := do
  usd.sendCommand (.jumpAddress address)
  usd.checkSecStatus

def arrayRef (bytes : ByteString) (offset : ℕ) : Session UInt32 :=
  match bytes.drop offset with
  | b0::b1::b2::b3::_ => pure (ofLe32 b0 b1 b2 b3)
  | _ => throw (.panic ("range end index " ++ toString (offset+4) ++
      " out of range for slice of length " ++ toString bytes.length))

def Usd.readMemory (address : UInt32) : Session UInt32 := do
  ensure (address % 4 = 0) "address must be 4-byte aligned"
  usd.sendCommand (.readRegister address .b32 1)
  usd.checkSecStatus
  let resp ← usd.readResponse
  arrayRef resp.deref 1

end Transfer

end UsbArmory.Downloader.Sdp
