import UsbArmory.Usb.ControlData
import UsbArmory.Usb.Enumeration

/-!
# Buffers of any length

A read acknowledges its event before it looks at the length of the slice, and
it panics where the packet does not fit. So it copes with exactly the packets
that fit, among the SETUPs those that the driver handles.
-/

set_option autoImplicit false

namespace UsbArmory.Usb.Tolerance
open UsbArmory.Library.Bits UsbArmory.Library.Run UsbArmory.Usb.Descriptors
open UsbArmory.Usb.Controller UsbArmory.Usb.Bus UsbArmory.Usb.Endpoint UsbArmory.Usb.Effects
open UsbArmory.Usb.EndWrite UsbArmory.Usb.Read UsbArmory.Usb.Configure UsbArmory.Usb.Invariant
open UsbArmory.Usb.Runs UsbArmory.Usb.Memory UsbArmory.Usb.Transfer
open UsbArmory.Usb.ResetSteps
open UsbArmory.Usb.EndpointControl UsbArmory.Usb.SetupPackets UsbArmory.Usb.SetupCopy
open UsbArmory.Usb.Enumeration UsbArmory.Usb.Allocation UsbArmory.Usb.Arrivals
  UsbArmory.Usb.OutBuffers
open UsbArmory.Usb.OutCalls UsbArmory.Usb.OutReads UsbArmory.Usb.ControlData

/-- A packet for the read of an OUT endpoint: a SETUP that a poll has reported,
the first packet that endpoint 0 receives while the read waits, or the packet
that another endpoint has received. -/
inductive Offered (s : Usbd) (ep : EndpointAddress) (hw : During) : List UInt8 → Prop where
  | setup (hcached : cached s ep.index = true) (hlen : (latest s ep hw).length = 8) :
      Offered s ep hw (latest s ep hw)
  | control (hcached : cached s ep.index = false) (h0 : ep.index = 0) (packet : List UInt8)
      (status : Status) (before after : List HwEvent)
      (hrounds : hw.rounds.flatten = before ++ .received ep status packet :: after)
      (hfetch : .fetch ep ∈ before) (hfirst : ∀ status bytes, .received ep status bytes ∉ before)
      (hclean : status.failed = false) : Offered s ep hw packet
  | data (hcached : cached s ep.index = false) (h0 : ep.index ≠ 0) (packet : List UInt8)
      (hcomplete : (view s ep).complete = true)
      (hlast : (s.transfers (epaddr2dqhidx ep)).getLast? = some packet)
      (hclean : (s.dtd (view s ep).current).token.getStatus.failed = false) :
      Offered s ep hw packet

/-- The packet is read if it fits; otherwise the read fails, and a later one
gets the packet. -/
structure Tolerates (s : Usbd) (ep : EndpointAddress) (buf : Lent) (hw : During)
    (packet : List UInt8) : Prop where
  fits : packet.length ≤ buf.cap → ∃ t, Bus.read s ep buf hw = .ok (t, .ok packet)
  pending : buf.cap < packet.length → ∃ t e, Bus.read s ep buf hw = .ok (t, .error e) ∧
    ∀ buf' : Lent, packet.length ≤ buf'.cap →
      ∃ u, Bus.read t ep buf' ⟨[], [], []⟩ = .ok (u, .ok packet)

/-- One of the four requests; the endpoints that it resets are enabled. -/
def Handles (s : Usbd) (setup : List UInt8) : Prop :=
  supported setup = true ∧ (configures setup = true →
    ∀ x ∈ allocatedEps s, s.endptctrl1.getLsbD (enableBit x.isOut) = true)

structure Readable (s : Usbd) (ep : EndpointAddress) (buf : Lent) (packet : List UInt8) : Prop where
  fits : packet.length ≤ buf.cap
  setup : cached s ep.index = true → Handles s packet
  control : cached s ep.index = false → ep.index = 0 → buf.cap < 0x5000

variable {l : Layout} {s : Usbd} {ep : EndpointAddress} {buf : Lent} {hw : During}
variable {packet : List UInt8}

theorem offered_no_error (hv : ep.isValid = true) (ho : Offered s ep hw packet) {t : Usbd}
    {e : UsbError} : Bus.read s ep buf hw ≠ .ok (t, .error e) := by
  intro h
  rcases read_ok h with ⟨-, hinvalid, -⟩ |
    ⟨-, ⟨-, bytes, -, hok⟩ | ⟨-, -, bytes, -, hok⟩ | ⟨hc, h0, hread⟩⟩
  · exact absurd (hv.symm.trans hinvalid) (by decide)
  · cases hok
  · cases hok
  · cases ho with
    | setup hcached => exact absurd (hcached.symm.trans hc) (by decide)
    | control _ hz => exact h0 hz
    | data _ _ _ hcomplete =>
      have hview : view (takeSetup s ep).1 ep = view s ep := by
        rw [takeSetup_eq]
        rfl
      rcases readData_ok hread with ⟨hno, -, -⟩ | ⟨-, d, addr, token, bytes, -, -, -, -, hok⟩
      · have hyes : (view (takeSetup s ep).1 ep).complete = true := by
          rw [hview]
          exact hcomplete
        exact absurd (hyes.symm.trans hno) (by decide)
      · cases hok

theorem tolerates_iff_read (hv : ep.isValid = true) (ho : Offered s ep hw packet) :
    Tolerates s ep buf hw packet ↔
      packet.length ≤ buf.cap ∧ ∃ t, Bus.read s ep buf hw = .ok (t, .ok packet) := by
  constructor
  · intro h
    have hle : packet.length ≤ buf.cap := by
      by_contra hlt
      obtain ⟨t, e, herror, -⟩ := h.pending (Nat.lt_of_not_le hlt)
      exact offered_no_error hv ho herror
    exact ⟨hle, h.fits hle⟩
  · rintro ⟨hle, hread⟩
    exact ⟨fun _ => hread, fun hlt => absurd hle (Nat.not_le_of_lt hlt)⟩

theorem readData_packet (h : Inbound l s) (hu : isEpBeingUsed s ep = true) (hout : ep.isOut = true)
    (h0 : ep.index ≠ 0) (hcomplete : (view s ep).complete = true)
    (hlast : (s.transfers (epaddr2dqhidx ep)).getLast? = some packet)
    (hclean : (s.dtd (view s ep).current).token.getStatus.failed = false)
    (hfits : packet.length ≤ buf.cap) (gap : List HwEvent) :
    ∃ t, readData s ep (epaddr2dqhidx ep) buf gap = .ok (t, .ok packet) := by
  obtain ⟨a, -, hbuf, hmax, harmed⟩ := h.moored.posted ep hu hout h0
  obtain ⟨bytes, hlast', hle, htotal, htake⟩ := harmed.done hcomplete
  obtain rfl := Option.some.inj (hlast.symm.trans hlast')
  obtain ⟨hal, -⟩ := done_current kept_staged h.moored.good (h.moored.good.valid ep hu) harmed
    hcomplete
  have hd := getCurrentDtd_of_aligned (s.dqhs (epaddr2dqhidx ep)) hal
  have hset := (mask_ne_zero_iff s.endptcomplete ep).mpr hcomplete
  obtain ⟨token, htoken⟩ := activeToken_some
    (n := (s.dqhs (epaddr2dqhidx ep)).getMaxPacketSize) (by omega)
  have hleft : (s.dqhs (epaddr2dqhidx ep)).getMaxPacketSize -
      (s.dqhs (epaddr2dqhidx ep)).token.getTotalBytes = packet.length := by
    have htotal' : (s.dqhs (epaddr2dqhidx ep)).token.getTotalBytes =
        (s.dqhs (epaddr2dqhidx ep)).getMaxPacketSize - packet.length := htotal
    omega
  have hcheck : checkTransfer (s.dtd (s.dqhs (epaddr2dqhidx ep)).currentDtd).token = .ok () :=
    if_neg (Bool.eq_false_iff.mp hclean)
  refine ⟨reprimed s ep (s.dqhs (epaddr2dqhidx ep)).currentDtd token a gap, ?_⟩
  unfold readData
  rw [if_neg hset, hd, expect_some rfl, ok_bind]
  show (checkTransfer (s.dtd (s.dqhs (epaddr2dqhidx ep)).currentDtd).token >>= _) = _
  rw [hcheck, ok_bind]
  show (expect (bufferOf s ep) >>= _) = _
  rw [expect_some hbuf, ok_bind]
  show (require (decide ((s.dqhs (epaddr2dqhidx ep)).getMaxPacketSize -
    (s.dqhs (epaddr2dqhidx ep)).token.getTotalBytes ≤ buf.cap)) >>= _) = _
  rw [hleft, require_true (decide_eq_true hfits), ok_bind]
  show (expect (activeToken (s.dqhs (epaddr2dqhidx ep)).getMaxPacketSize) >>= _) = _
  rw [expect_some htoken, ok_bind]
  show Except.ok (reprimed s ep (s.dqhs (epaddr2dqhidx ep)).currentDtd token a gap,
    Except.ok ((s.buffer a).take ((s.dqhs (epaddr2dqhidx ep)).getMaxPacketSize -
      (s.dqhs (epaddr2dqhidx ep)).token.getTotalBytes))) = _
  rw [hleft, htake]

theorem request_supported {t : Usbd} (hlen : packet.length = 8) (h : request s packet = .ok t) :
    supported packet = true := by
  have hkind : ∀ {a b c d : UInt8}, packet.take 4 = [a, b, c, d] →
      ([[0, 5], [0, 9], [1, 11], [128, 6]] : List (List UInt8)).contains [a, b] = true →
      supported packet = true := by
    intro a b c d h4 hmem
    have h2 : packet.take 2 = [a, b] := by
      rw [show packet.take 2 = (packet.take 4).take 2 by rw [List.take_take]; rfl, h4]
      rfl
    rw [supported, h2, hmem, Bool.and_true]
    exact decide_eq_true hlen
  unfold request at h
  split at h
  next h4 => exact hkind h4 rfl
  next h4 => exact hkind h4 rfl
  next h4 => exact hkind h4 rfl
  next h4 => exact hkind h4 rfl
  next => cases h

theorem request_handles (hlen : packet.length = 8) :
    (∃ t, request s packet = .ok t) ↔ Handles s packet := by
  constructor
  · rintro ⟨t, h⟩
    have hsup := request_supported hlen h
    exact ⟨hsup, (request_iff hsup).mp ⟨t, h⟩⟩
  · rintro ⟨hsup, hall⟩
    exact (request_iff hsup).mpr hall

theorem readSetup_packet (hv : ep.isValid = true) (hout : ep.isOut = true)
    (hcached : cached s ep.index = true) (hlen : (latest s ep hw).length = 8)
    (hcap : 8 ≤ buf.cap) :
    (∃ t, Bus.read s ep buf hw = .ok (t, .ok (latest s ep hw))) ↔
      Handles s (latest s ep hw) := by
  obtain ⟨v, bytes, rfl, rfl, hread⟩ := read_setup_eq ep hv buf hw hcap hcached
  have hep : ep = ⟨ep.index, .out⟩ := by
    obtain ⟨i, d⟩ := ep
    cases d with
    | out => rfl
    | «in» => cases hout
  obtain ⟨hpacket, hused, hctrl⟩ := latest_taken s ep.index hw
  rw [← hep] at hpacket hused hctrl
  rw [hpacket] at hread
  generalize (tripwire (acknowledged s ep hw) (epaddr2dqhidx ep) hw.rounds).1 =
    v at hread hused hctrl
  have hsame : Handles (clearInterrupt (disarm v)) (latest s ep hw) ↔
      Handles s (latest s ep hw) := by
    have heps : allocatedEps (clearInterrupt (disarm v)) = allocatedEps s :=
      congrArg (fun w => (oneIndices w).map dqhidx2epaddr) hused
    have hbits : (clearInterrupt (disarm v)).endptctrl1 = s.endptctrl1 := hctrl
    rw [Handles, heps, hbits, Handles]
  rw [hread, ← hsame, ← request_handles hlen]
  constructor
  · rintro ⟨t, hok⟩
    obtain ⟨u, hu, -⟩ := map_ok hok
    exact ⟨u, hu⟩
  · rintro ⟨u, hu⟩
    rw [hu]
    exact ⟨u, rfl⟩

theorem read_data (hv : ep.isValid = true) (h0 : ep.index ≠ 0)
    (hcached : cached s ep.index = false) (buf : Lent) (hw : During) :
    Bus.read s ep buf hw = readData (takeSetup s ep).1 ep (epaddr2dqhidx ep) buf hw.priming := by
  have htaken := takeSetup_taken s ep
  rw [hcached] at htaken
  have hq : getDqh ep = some (epaddr2dqhidx ep) := if_pos (of_decide_eq_true hv)
  unfold Bus.read
  rw [show takeSetup s ep = ((takeSetup s ep).1, false) from Prod.ext rfl htaken]
  simp [hq, h0]

theorem read_control (hcached : cached s 0 = false) {t : Usbd}
    (h : readControl (takeSetup s controlOut).1 controlOut (epaddr2dqhidx controlOut) buf hw =
      .ok (t, packet)) : Bus.read s controlOut buf hw = .ok (t, .ok packet) := by
  have htaken := takeSetup_taken s controlOut
  rw [show controlOut.index = 0 from rfl, hcached] at htaken
  have hq : getDqh controlOut = some (epaddr2dqhidx controlOut) := rfl
  unfold Bus.read
  rw [show takeSetup s controlOut = ((takeSetup s controlOut).1, false) from Prod.ext rfl htaken]
  simp only [hq, Bool.false_eq_true, if_false, show controlOut.index = 0 from rfl, if_true, h,
    ok_bind]
  rfl

/-- In every run, a read copes with a packet exactly if it fits, and if it is a request that the
driver handles or OUT data that a token can count. -/
theorem read_tolerates_iff (l : Layout) (es : List Event) (y : Session) (ep : EndpointAddress)
    (buf : Lent) (hw : During) (packet : List UInt8) (hs : exec (step l) es (start l) = some y)
    (ha : Allowed l (.read ep buf hw)) (hu : isEpBeingUsed y.usbd ep = true)
    (ho : Offered y.usbd ep hw packet) :
    Tolerates y.usbd ep buf hw packet ↔ Readable y.usbd ep buf packet := by
  have hin := inbound_run hs
  have hv := hin.moored.good.valid ep hu
  have htake := inbound_takeSetup hin ep
  rw [tolerates_iff_read hv ho]
  constructor
  · rintro ⟨hle, t, hread⟩
    refine ⟨hle, fun hcached => ?_, fun hcached h0 => ?_⟩
    · cases ho with
      | setup _ hlen =>
        exact (readSetup_packet hv ha.1 hcached hlen (hlen ▸ hle)).mp ⟨t, hread⟩
      | control hno => exact absurd (hno.symm.trans hcached) (by decide)
      | data hno => exact absurd (hno.symm.trans hcached) (by decide)
    · rcases read_ok hread with ⟨-, hinvalid, -⟩ |
        ⟨-, ⟨hyes, -⟩ | ⟨-, -, bytes, hcontrol, -⟩ | ⟨-, hne, -⟩⟩
      · exact absurd (hv.symm.trans hinvalid) (by decide)
      · exact absurd (hcached.symm.trans hyes) (by decide)
      · obtain ⟨-, d, token, u, -, htoken, -⟩ := readControl_ok hcontrol
        exact activeToken_lt htoken
      · exact absurd h0 hne
  · rintro ⟨hle, hsetup, hcontrol⟩
    refine ⟨hle, ?_⟩
    cases ho with
    | setup hcached hlen =>
      exact (readSetup_packet hv ha.1 hcached hlen (hlen ▸ hle)).mpr (hsetup hcached)
    | control hcached h0 _ status before after hrounds hfetch hfirst hclean =>
      obtain rfl := out_zero ha.1 h0
      have hused : isEpBeingUsed (takeSetup y.usbd controlOut).1 controlOut = true := by
        rw [takeSetup_eq]
        exact hu
      obtain ⟨t, ht⟩ := readControl_packet htake hused ha.2 (hcontrol hcached h0) hrounds hfirst
        hfetch hle hclean
      exact ⟨t, read_control hcached ht⟩
    | data hcached h0 _ hcomplete hlast hclean =>
      rw [read_data hv h0 hcached]
      have heq := takeSetup_eq y.usbd ep
      refine readData_packet htake ?_ ha.1 h0 ?_ ?_ ?_ hle hw.priming <;> rw [heq]
      · exact hu
      · exact hcomplete
      · exact hlast
      · exact hclean

def threeBytes : List Event :=
  [.call (.allocEp .out none .bulk 64), .call (.setDeviceAddress 1 fun _ => []),
    .hw (.fetch ⟨1, .out⟩),
    .hw (.received ⟨1, .out⟩ 0 [1, 2, 3])]

theorem threeBytes_runs : (exec (step statics) threeBytes (start statics)).isSome = true := by
  decide +kernel

def received : Usbd := ((exec (step statics) threeBytes (start statics)).get threeBytes_runs).usbd

theorem received_offered : Offered received ⟨1, .out⟩ ⟨[], [], []⟩ [1, 2, 3] := by
  refine .data ?_ (by decide) _ ?_ ?_ ?_ <;> decide +kernel

theorem read_tolerates_iff_received :
    Tolerates received ⟨1, .out⟩ ⟨1024, 3⟩ ⟨[], [], []⟩ [1, 2, 3] :=
  (read_tolerates_iff statics threeBytes _ ⟨1, .out⟩ ⟨1024, 3⟩ ⟨[], [], []⟩ [1, 2, 3]
    (Option.some_get threeBytes_runs).symm (by decide) (by decide +kernel) received_offered).mpr
    ⟨by decide, fun hcached => absurd hcached (by decide +kernel),
      fun _ h0 => absurd h0 (by decide)⟩

/-- A slice of two bytes is too short for them. -/
theorem read_tolerates_not : isEpBeingUsed received ⟨1, .out⟩ = true ∧
    Offered received ⟨1, .out⟩ ⟨[], [], []⟩ [1, 2, 3] ∧
    Bus.read received ⟨1, .out⟩ ⟨1024, 2⟩ ⟨[], [], []⟩ = .error .panic ∧
    ¬Tolerates received ⟨1, .out⟩ ⟨1024, 2⟩ ⟨[], [], []⟩ [1, 2, 3] := by
  have hpanic : Bus.read received ⟨1, .out⟩ ⟨1024, 2⟩ ⟨[], [], []⟩ = .error .panic := rfl
  refine ⟨by decide +kernel, received_offered, hpanic, fun h => ?_⟩
  obtain ⟨t, e, herror, -⟩ := h.pending (by decide)
  rw [hpanic] at herror
  cases herror

end UsbArmory.Usb.Tolerance
