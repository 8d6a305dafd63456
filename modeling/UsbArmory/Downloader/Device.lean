import UsbArmory.Downloader.Delivery
import UsbArmory.Library.Patches

/-!
# The device at the other end

The boot ROM is a parameter, of which only the effects of reports are seen. Its
serial downloader takes a file or a DCD into memory, executes the DCD once all
of it has arrived, and jumps to an image. What a DCD does to the memory, and
what becomes of other reports, is left open.
-/

set_option autoImplicit false

namespace UsbArmory.Downloader.Device
open UsbArmory.Library.Word UsbArmory.Library.Binary UsbArmory.Library.Chunks
open UsbArmory.Library.Trace UsbArmory.Library.Patches
open UsbArmory.Downloader.Sdp UsbArmory.Downloader.Delivery

abbrev Memory := UInt32 → UInt8

/-- The ROM waits for a command, for the rest of a transfer, or has jumped. -/
inductive Phase where
  | idle
  | file (address : UInt32) (count done : ℕ)
  | dcd (count : ℕ) (received : ByteString)
  | running (address : UInt32)
  deriving DecidableEq

structure View where
  memory : Memory
  executed : List ByteString
  phase : Phase

structure Rom (State : Type) where
  receive : State → ByteString → State
  view : State → View

/-- The vector table at the address points to no DCD. -/
def PointerClear (m : Memory) (address : UInt32) : Prop :=
  ∀ i < 4, m (address+UInt32.ofNat (12+i)) = 0

section Effect
variable {State : Type} (rom : Rom State)

/-- What the serial downloader is documented to do with the reports of commands and data. -/
structure Rom.Serves : Prop where
  writeFile : ∀ s address count, (rom.view s).phase = .idle → count ≠ 0 →
    rom.view (rom.receive s (commandReport 0x04 address count)) =
      { rom.view s with phase := .file address count.toNat 0 }
  fileData : ∀ s address count done bytes, (rom.view s).phase = .file address count done →
    bytes ≠ [] → done+bytes.length ≤ count → rom.view (rom.receive s (2::bytes)) =
      { rom.view s with
        memory := patch (rom.view s).memory (address+UInt32.ofNat done) bytes
        phase := if done+bytes.length = count then .idle
          else .file address count (done+bytes.length) }
  dcdWrite : ∀ s address count, (rom.view s).phase = .idle → count ≠ 0 →
    (rom.view (rom.receive s (commandReport 0x0A address count))).executed =
        (rom.view s).executed ∧
      (rom.view (rom.receive s (commandReport 0x0A address count))).phase = .dcd count.toNat []
  dcdData : ∀ s count received bytes, (rom.view s).phase = .dcd count received → bytes ≠ [] →
    received.length+bytes.length < count →
      (rom.view (rom.receive s (2::bytes))).executed = (rom.view s).executed ∧
        (rom.view (rom.receive s (2::bytes))).phase = .dcd count (received ++ bytes)
  dcdLast : ∀ s count received bytes, (rom.view s).phase = .dcd count received → bytes ≠ [] →
    received.length+bytes.length = count →
      (rom.view (rom.receive s (2::bytes))).executed =
          (rom.view s).executed ++ [received ++ bytes] ∧
        (rom.view (rom.receive s (2::bytes))).phase = .idle
  jump : ∀ s address, (rom.view s).phase = .idle → PointerClear (rom.view s).memory address →
    rom.view (rom.receive s (commandReport 0x0B address 0)) =
      { rom.view s with phase := .running address }

/-- A device that has just come up. -/
structure Rom.Fresh (s : State) : Prop where
  phase : (rom.view s).phase = .idle
  executed : (rom.view s).executed = []

/-- The device after some operations of the host. A report that is refused may have arrived
nonetheless. -/
def received (fate : Bool) (s : State) (ops : List Operation) : State :=
  ops.foldl (fun s op => match op with
    | .write report accepted => if accepted || fate then rom.receive s report else s
    | .read _ _ => s) s

/-- Every run leaves the device as the condition says. -/
def Leaves {α : Type} (fate : Bool) (s : State) (x : Session α)
    (Q : State → Except (Stop Failure) α → Prop) : Prop :=
  Does x fun ops r => Q (received rom fate s ops) r

end Effect

section Rules
variable {State α β : Type} {rom : Rom State} {fate : Bool} {s : State}
variable {x : Session α} {f : α → Session β}
variable {Q Q' : State → Except (Stop Failure) α → Prop}
variable {R : State → Except (Stop Failure) β → Prop}

theorem received_append (ops rest : List Operation) : received rom fate s (ops ++ rest) =
    received rom fate (received rom fate s ops) rest :=
  List.foldl_append

theorem received_sent (reports : List ByteString) : received rom fate s (sent reports) =
    reports.foldl rom.receive s := by
  rw [received, sent, List.foldl_map]
  rfl

theorem leaves_pure {a : α} (h : Q s (.ok a)) :
    Leaves rom fate s (pure a : Session α) Q := does_pure h

theorem leaves_throw {stop : Stop Failure} (h : Q s (.error stop)) :
    Leaves rom fate s (throw stop : Session α) Q := does_throw h

theorem Leaves.imp (h : Leaves rom fate s x Q) (hq : ∀ after r, Q after r → Q' after r) :
    Leaves rom fate s x Q' := Does.imp h fun _ r => hq _ r

theorem leaves_bind (hx : Leaves rom fate s x Q)
    (hstop : ∀ after stop, Q after (.error stop) → R after (.error stop))
    (hf : ∀ a after, Q after (.ok a) → Leaves rom fate after (f a) R) :
    Leaves rom fate s (x >>= f) R := by
  refine does_bind hx (fun ops stop h => hstop _ stop h) fun a ops hops => ?_
  refine Does.imp (hf a _ hops) fun rest r hr => ?_
  rw [received_append]
  exact hr

theorem leaves_run (h : Leaves rom fate s x Q) :
    Q (received rom fate s (perform x []).2) (perform x []).1 := by
  obtain ⟨ops, hops, hq⟩ := h []
  rw [hops]
  exact hq

theorem leaves_ensure {p : Prop} [Decidable p] {message : String}
    (hstop : ¬p → R s (.error (.panic message)))
    {g : Unit → Session β} (h : p → Leaves rom fate s (g ()) R) :
    Leaves rom fate s ((ensure p message : Session Unit) >>= g) R := by
  by_cases hp : p
  · exact does_ensure hp (h hp)
  · have hthrow : (ensure p message : Session Unit) = throw (.panic message) := if_neg hp
    rw [hthrow]
    exact leaves_throw (hstop hp)

end Rules

/-- A ROM whose state is seen as a whole; a DCD leaves its memory alone. -/
def plain : Rom View where
  view := id
  receive v report := match v.phase, report with
    | .idle, [1, type, _, a0, a1, a2, a3, _, c0, c1, c2, c3, _, _, _, _, _] =>
      if type = 0x04 then
        { v with phase := .file (ofBe32 a0 a1 a2 a3) (ofBe32 c0 c1 c2 c3).toNat 0 }
      else if type = 0x0A then { v with phase := .dcd (ofBe32 c0 c1 c2 c3).toNat [] }
      else if type = 0x0B then { v with phase := .running (ofBe32 a0 a1 a2 a3) }
      else v
    | .file address count done, 2::bytes =>
      { v with
        memory := patch v.memory (address+UInt32.ofNat done) bytes
        phase := if done+bytes.length = count then .idle
          else .file address count (done+bytes.length) }
    | .dcd count received, 2::bytes =>
      if received.length+bytes.length = count then
        { v with
          executed := v.executed ++ [received ++ bytes]
          phase := .idle }
      else { v with phase := .dcd count (received ++ bytes) }
    | _, _ => v

@[simp] theorem plain_view (v : View) : plain.view v = v := rfl

def plainStart : View := ⟨fun _ => 0, [], .idle⟩

theorem plain_command {v : View} (h : v.phase = .idle) (type : UInt8) (address count : UInt32) :
    plain.receive v (commandReport type address count) =
      if type = 0x04 then { v with phase := .file address count.toNat 0 }
      else if type = 0x0A then { v with phase := .dcd count.toNat [] }
      else if type = 0x0B then { v with phase := .running address }
      else v := by
  have haddress := ofBe32_toBe32 address
  have hcount := ofBe32_toBe32 count
  obtain ⟨memory, executed, phase⟩ := v
  obtain rfl : phase = .idle := h
  simp only [plain, commandReport, toBe32, List.cons_append, List.nil_append, haddress, hcount]

theorem plain_serves : plain.Serves where
  writeFile _ address count h _ := plain_command h 0x04 address count
  fileData s address count done bytes h _ _ := by
    obtain ⟨memory, executed, phase⟩ := s
    obtain rfl : phase = .file address count done := h
    rfl
  dcdWrite s address count h _ := by
    have hreceive : plain.receive s (commandReport 0x0A address count) =
        { s with phase := .dcd count.toNat [] } := plain_command h 0x0A address count
    rw [hreceive]
    exact ⟨rfl, rfl⟩
  dcdData s count received bytes h _ hlt := by
    obtain ⟨memory, executed, phase⟩ := s
    obtain rfl : phase = .dcd count received := h
    have hreceive : plain.receive ⟨memory, executed, .dcd count received⟩ (2::bytes) =
        ⟨memory, executed, .dcd count (received ++ bytes)⟩ := if_neg (Nat.ne_of_lt hlt)
    rw [hreceive]
    exact ⟨rfl, rfl⟩
  dcdLast s count received bytes h _ hall := by
    obtain ⟨memory, executed, phase⟩ := s
    obtain rfl : phase = .dcd count received := h
    have hreceive : plain.receive ⟨memory, executed, .dcd count received⟩ (2::bytes) =
        ⟨memory, executed ++ [received ++ bytes], .idle⟩ := if_pos hall
    rw [hreceive]
    exact ⟨rfl, rfl⟩
  jump _ address h _ := plain_command h 0x0B address 0

theorem plain_fresh : plain.Fresh plainStart := ⟨rfl, rfl⟩

end UsbArmory.Downloader.Device
