import UsbArmory.Boot.FromElf
import UsbArmory.Downloader.Sdp

/-!
# The programs of the host

One program makes an image of an ELF file, one loads an image into the device,
and one runs an ELF file on the device. The last one is modelled up to the jump:
then the program waits for the device to come back, while a thread copies the
serial port to the console.
-/

set_option autoImplicit false

namespace UsbArmory.Downloader.Programs
open UsbArmory.Library.Word UsbArmory.Library.Binary UsbArmory.Library.Trace
open UsbArmory.Boot.Commands
open UsbArmory.Downloader.Sdp
open UsbArmory.Boot.FromElf (ElfFile)

/-- What a program is started with: its arguments, the files, what each attempt to open the
device finds, and whether the standard output takes a line. -/
structure Host where
  args : List String
  files : String → Option ByteString
  device : ℕ → Except Failure (Option Usd)
  stdout : Bool

section Lift
variable {ε α : Type}

/-- An outcome of the image library, whose errors become these. -/
def lift (f : ε → Failure) : Except (Stop ε) α → Session α
  | .ok a => pure a
  | .error stop => throw (stop.mapError f)

/-- `Context::context` -/
def context (message : String) (x : Session α) : Session α := ExceptT.mk fun before =>
  ((perform x before).1.mapError (Stop.mapError fun _ => .bail message), (perform x before).2)

/-- `println!` -/
def println (stdout : Bool) : Session Unit := ensure stdout "failed printing to stdout"

end Lift

def vid : String := "15a2"

def pid : String := "0080"

def ocramFreeAddress : UInt32 := 0x910000

def Usd.setVerbose (usd : Usd) (verbose : Bool) : Usd := { usd with verbose := verbose }

def Usd.openFrom (device : ℕ → Except Failure (Option Usd)) (i : ℕ) : ℕ → Session Usd
  | 0 => throw (.error (.bail ("timeout waiting for USB device " ++ vid ++ ":" ++ pid)))
  | attempts+1 => match device i with
    | .error e => throw (.error e)
    | .ok (some hid) => pure { hid with verbose := false }
    | .ok none => Usd.openFrom device (i+1) attempts

def Usd.open (device : ℕ → Except Failure (Option Usd)) : Session Usd := Usd.openFrom device 0 3

/-- `fs::read` of the only argument -/
def Host.input (host : Host) : Session ByteString := do
  match host.args with
  | [path] => match host.files path with
    | some bytes => pure bytes
    | none => throw (.error .io)
  | _ => throw (.error (.bail "expected exactly one argument"))

namespace UsdLoad

def clearDcdPointer (bytes : ByteString) : ByteString := splice bytes 12 [0, 0, 0, 0]

/-- The DCD is sent first, if there is one; the result is whether its pointer is to be cleared. -/
def sendDcd (host : Host) (usd : Usd) (bytes : ByteString) : Option Dcd → Session Bool
  | some dcd => do
    let _ ← arrayRef bytes 12
    usd.dcdWrite ocramFreeAddress dcd.asBytes
    println host.stdout
    pure true
  | none => pure false

def main (o : Overflow) (host : Host) : Session Unit := do
  let bytes ← host.input
  let image ← lift .bail (Boot.Reader.Image.parse o bytes)
  let address := image.ivt.self_
  let usd ← Usd.open host.device
  let usd := Usd.setVerbose usd true
  let clearDcd ← sendDcd host usd bytes image.dcd
  let bytes ← if clearDcd then do
      ensure (16 ≤ bytes.length) "range end index 16 out of range"
      pure (clearDcdPointer bytes)
    else pure bytes
  usd.writeFile address bytes
  usd.jumpAddress address

end UsdLoad

namespace UsdRunner

def coldBootError : String := "Potential COLD_BOOT error

Likely fix: power cycle the board and retry with the `COLD_BOOT` env var set to `1` but
only set it for the *first* Cargo runner invocation. That is:

$ # power cycle the board then run
$ COLD_BOOT=1 cargo run --example foo

$ # omit the env var (or unset it) for the rest of invocations
$ cargo run --example bar"

def sendDcd (o : Overflow) (usd : Usd) (coldBoot : Bool) : Session Unit :=
  if coldBoot then do
    let dcd ← lift Empty.elim (Boot.Ddr.initDdr.intoBytes o)
    context coldBootError (usd.dcdWrite ocramFreeAddress dcd)
  else pure ()

def sendFile (usd : Usd) (coldBoot : Bool) (address : UInt32) (file : ByteString) : Session Unit :=
  if coldBoot then usd.writeFile address file
  else context coldBootError (usd.writeFile address file)

/-- `decode` is `ElfFile::new`. -/
def main (o : Overflow) (decode : ByteString → Except String ElfFile) (coldBoot : Bool)
    (host : Host) : Session Unit := do
  let bytes ← host.input
  let elf ← lift .bail ((decode bytes).mapError .error)
  let usd ← Usd.open host.device
  let image ← lift .bail (Boot.FromElf.Image.fromElf o elf true)
  sendDcd o usd coldBoot
  let address := image.selfAddress
  let file ← lift Empty.elim (image.intoBytes o)
  sendFile usd coldBoot address file
  usd.jumpAddress address

end UsdRunner

namespace Elf2image

def main (o : Overflow) (elf : ElfFile) : Except (Stop String) ByteString := do
  let image ← Boot.FromElf.Image.fromElf o elf false
  match image.intoBytes o with
  | .ok bytes => pure bytes
  | .error stop => throw (stop.mapError Empty.elim)

end Elf2image

end UsbArmory.Downloader.Programs
