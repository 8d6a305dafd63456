import Mathlib.Logic.Function.Basic
import UsbArmory.Usb.Descriptors

/-!
# The driver's state and the USB controller

Registers, the memory that is shared with the controller, and `Inner`. The
controller is a set of events that may happen whenever they are enabled: it
copies the next descriptor of a primed endpoint into the queue head, reads the
buffer of an IN transfer any number of times, completes transfers, stores
SETUP packets and sets status bits. Buffers are objects, named by their
address. `transfers` and `ended` are history: for each queue head the transfers
that were completed, and how many of them the driver has dealt with.
-/

set_option autoImplicit false

namespace UsbArmory.Usb.Controller
open UsbArmory.Library.Bits UsbArmory.Usb.Descriptors

inductive UsbDirection where
  | out
  | «in»
  deriving DecidableEq

inductive EndpointType where
  | control
  | isochronous
  | bulk
  | interrupt
  deriving DecidableEq

structure EndpointAddress where
  index : ℕ
  dir : UsbDirection
  deriving DecidableEq

def EndpointAddress.isOut (ep : EndpointAddress) : Bool := ep.dir = .out

/-- Number of supported endpoints: 2 IN and 2 OUT. -/
def endpoints : ℕ := 4

def epaddr2dqhidx (ep : EndpointAddress) : ℕ := 2 * ep.index + if ep.isOut then 0 else 1

def dqhidx2epaddr (idx : ℕ) : EndpointAddress := ⟨idx / 2, if idx % 2 = 0 then .out else .in⟩

def epaddr2endptmask (ep : EndpointAddress) : BitVec 32 :=
  if ep.isOut then mask 32 ep.index else mask 32 (16 + ep.index)

/-- The fields of `Inner` that only the driver touches. -/
structure Inner where
  dtds : List ℕ
  b64s : List ℕ
  b512s : List ℕ
  usedDqhs : BitVec 8
  setupstat : Option (BitVec 16)
  epInComplete : Option (BitVec 16)
  lastPollWasNone : Bool
  preStatusOut : BitVec 16
  statusOut : BitVec 16

structure Usbd where
  inner : Inner
  usbcmd : BitVec 32
  usbsts : BitVec 32
  deviceaddr : BitVec 32
  endptsetupstat : BitVec 32
  endptprime : BitVec 32
  endptstat : BitVec 32
  endptcomplete : BitVec 32
  endptctrl1 : BitVec 32
  dqhs : ℕ → DQH
  dtd : ℕ → DTD
  buffer : ℕ → List UInt8
  fifo : ℕ → Option (List UInt8)
  transfers : ℕ → List (List UInt8)
  ended : ℕ → ℕ

/-- The statics that `Usbd::take` hands out. -/
structure Layout where
  dtds : List ℕ
  b64s : List ℕ
  b512s : List ℕ
  dtds_nodup : dtds.Nodup
  dtds_aligned : ∀ d ∈ dtds, d % 32 = 0
  buffers_nodup : (b64s ++ b512s).Nodup

/-- After `Usbd::take`; the last element of a pool is popped first. -/
def Layout.start (l : Layout) : Usbd :=
  { inner :=
      { dtds := l.dtds.reverse, b64s := l.b64s.reverse, b512s := l.b512s.reverse, usedDqhs := 0,
        setupstat := none, epInComplete := none, lastPollWasNone := false, preStatusOut := 0,
        statusOut := 0 },
    usbcmd := 0, usbsts := 0, deviceaddr := 0, endptsetupstat := 0, endptprime := 0,
    endptstat := 0, endptcomplete := 0, endptctrl1 := 0, dqhs := fun _ => DQH.new,
    dtd := fun _ => DTD.new,
    buffer := fun a => List.replicate (if a ∈ l.b64s then 64 else 512) 0,
    fifo := fun _ => none, transfers := fun _ => [], ended := fun _ => 0 }

def Usbd.setDqh (s : Usbd) (q : ℕ) (dqh : DQH) : Usbd :=
  { s with dqhs := Function.update s.dqhs q dqh }

def Usbd.setDtd (s : Usbd) (d : ℕ) (dtd : DTD) : Usbd :=
  { s with dtd := Function.update s.dtd d dtd }

def Usbd.fillBuffer (s : Usbd) (addr : ℕ) (bytes : List UInt8) : Usbd :=
  { s with buffer := Function.update s.buffer addr (bytes ++ (s.buffer addr).drop bytes.length) }

def sutw : ℕ := 13

inductive HwEvent where
  | fetch (ep : EndpointAddress)
  | load (ep : EndpointAddress)
  | sent (ep : EndpointAddress) (status : Status)
  | received (ep : EndpointAddress) (status : Status) (bytes : List UInt8)
  | setup (index : ℕ) (bytes : List UInt8)
  | status (bits : BitVec 32)
  deriving DecidableEq

/-- A primed queue head is loaded with its next descriptor, unless that is
the terminate bit. -/
def fetch (s : Usbd) (ep : EndpointAddress) : Usbd :=
  let q := epaddr2dqhidx ep
  let dqh := s.dqhs q
  let s := { s with endptprime := s.endptprime &&& ~~~epaddr2endptmask ep }
  if dqh.nextDtd = noNextDtd then s
  else
    let dtd := s.dtd dqh.nextDtd
    { s.setDqh q { dqh with
        currentDtd := dqh.nextDtd
        nextDtd := dtd.nextDtd
        token := dtd.token
        page0 := dtd.page0 } with
      endptstat := s.endptstat ||| epaddr2endptmask ep
      fifo := Function.update s.fifo q none }

/-- The transfer of `ep` is retired with this status and `left` bytes to go. -/
def retire (s : Usbd) (ep : EndpointAddress) (status : Status) (left : ℕ) (bytes : List UInt8) :
    Usbd :=
  let q := epaddr2dqhidx ep
  let dqh := s.dqhs q
  let token := ((dqh.token.setTotalBytes left).getD dqh.token).setStatus status
  let s := s.setDtd dqh.currentDtd { s.dtd dqh.currentDtd with token := token }
  { s.setDqh q { dqh with token := token } with
    endptstat := s.endptstat &&& ~~~epaddr2endptmask ep
    endptcomplete := s.endptcomplete ||| epaddr2endptmask ep
    usbsts := s.usbsts ||| mask 32 0
    transfers := Function.update s.transfers q (s.transfers q ++ [bytes]) }

def EndpointAddress.isValid (ep : EndpointAddress) : Bool := epaddr2dqhidx ep < endpoints

/-- `none` where the event is not enabled. -/
def hwStep (s : Usbd) : HwEvent → Option Usbd
  | .fetch ep =>
    if ep.isValid ∧ s.endptprime &&& epaddr2endptmask ep ≠ 0 then some (fetch s ep) else none
  | .load ep =>
    if ep.isValid ∧ ep.isOut = false ∧ s.endptstat &&& epaddr2endptmask ep ≠ 0 then
      let q := epaddr2dqhidx ep
      let bytes := (s.buffer (s.dqhs q).page0).take (s.dqhs q).token.getTotalBytes
      some { s with fifo := Function.update s.fifo q (some bytes) }
    else none
  | .sent ep status =>
    if ep.isValid ∧ ep.isOut = false ∧ s.endptstat &&& epaddr2endptmask ep ≠ 0 then
      (s.fifo (epaddr2dqhidx ep)).map (retire s ep status 0)
    else none
  | .received ep status bytes =>
    let dqh := s.dqhs (epaddr2dqhidx ep)
    if ep.isValid ∧ ep.isOut = true ∧ s.endptstat &&& epaddr2endptmask ep ≠ 0 ∧
        bytes.length ≤ dqh.token.getTotalBytes then
      some ((retire s ep status (dqh.token.getTotalBytes - bytes.length) bytes).fillBuffer
        dqh.page0 bytes)
    else none
  | .setup index bytes =>
    let q := epaddr2dqhidx ⟨index, .out⟩
    if s.inner.usedDqhs.getLsbD q = true ∧ bytes.length = 8 then
      some { s.setDqh q { s.dqhs q with setup := bytes } with
        endptsetupstat := s.endptsetupstat ||| mask 32 index
        usbcmd := s.usbcmd &&& ~~~mask 32 sutw
        usbsts := s.usbsts ||| mask 32 0 }
    else none
  | .status bits => some { s with usbsts := s.usbsts ||| bits }

inductive Happens (s : Usbd) : HwEvent → Usbd → Prop where
  | fetch (ep : EndpointAddress) (hv : ep.isValid = true)
      (hprime : s.endptprime &&& epaddr2endptmask ep ≠ 0) :
      Happens s (.fetch ep) (Controller.fetch s ep)
  | load (ep : EndpointAddress) (hv : ep.isValid = true) (hin : ep.isOut = false)
      (hstat : s.endptstat &&& epaddr2endptmask ep ≠ 0) :
      Happens s (.load ep) { s with
        fifo := Function.update s.fifo (epaddr2dqhidx ep)
          (some ((s.buffer (s.dqhs (epaddr2dqhidx ep)).page0).take
            (s.dqhs (epaddr2dqhidx ep)).token.getTotalBytes)) }
  | sent (ep : EndpointAddress) (status : Status) (bytes : List UInt8) (hv : ep.isValid = true)
      (hin : ep.isOut = false) (hstat : s.endptstat &&& epaddr2endptmask ep ≠ 0)
      (hfifo : s.fifo (epaddr2dqhidx ep) = some bytes) :
      Happens s (.sent ep status) (retire s ep status 0 bytes)
  | received (ep : EndpointAddress) (status : Status) (bytes : List UInt8)
      (hv : ep.isValid = true) (hout : ep.isOut = true)
      (hstat : s.endptstat &&& epaddr2endptmask ep ≠ 0)
      (hlen : bytes.length ≤ (s.dqhs (epaddr2dqhidx ep)).token.getTotalBytes) :
      Happens s (.received ep status bytes)
        ((retire s ep status ((s.dqhs (epaddr2dqhidx ep)).token.getTotalBytes - bytes.length)
          bytes).fillBuffer (s.dqhs (epaddr2dqhidx ep)).page0 bytes)
  | setup (index : ℕ) (bytes : List UInt8)
      (hused : s.inner.usedDqhs.getLsbD (epaddr2dqhidx ⟨index, .out⟩) = true)
      (hlen : bytes.length = 8) :
      Happens s (.setup index bytes)
        { s.setDqh (epaddr2dqhidx ⟨index, .out⟩)
            { s.dqhs (epaddr2dqhidx ⟨index, .out⟩) with setup := bytes } with
          endptsetupstat := s.endptsetupstat ||| mask 32 index
          usbcmd := s.usbcmd &&& ~~~mask 32 sutw
          usbsts := s.usbsts ||| mask 32 0 }
  | status (bits : BitVec 32) : Happens s (.status bits) { s with usbsts := s.usbsts ||| bits }

theorem hwStep_happens {s t : Usbd} {e : HwEvent} (h : hwStep s e = some t) : Happens s e t := by
  cases e with
  | fetch ep =>
    simp only [hwStep] at h
    split at h
    next hg =>
      cases h
      exact .fetch ep hg.1 hg.2
    next => cases h
  | load ep =>
    simp only [hwStep] at h
    split at h
    next hg =>
      cases h
      exact .load ep hg.1 hg.2.1 hg.2.2
    next => cases h
  | sent ep status =>
    simp only [hwStep] at h
    split at h
    next hg =>
      obtain ⟨bytes, hfifo, rfl⟩ := Option.map_eq_some_iff.mp h
      exact .sent ep status bytes hg.1 hg.2.1 hg.2.2 hfifo
    next => cases h
  | received ep status bytes =>
    simp only [hwStep] at h
    split at h
    next hg =>
      cases h
      exact .received ep status bytes hg.1 hg.2.1 hg.2.2.1 hg.2.2.2
    next => cases h
  | setup index bytes =>
    simp only [hwStep] at h
    split at h
    next hg =>
      cases h
      exact .setup index bytes hg.1 hg.2
    next => cases h
  | status bits =>
    cases h
    exact .status bits

/-- Events between two accesses of a call; those not enabled do not happen. -/
def hardware (s : Usbd) (es : List HwEvent) : Usbd :=
  es.foldl (fun s e => (hwStep s e).getD s) s

theorem hardware_invariant {I : Usbd → Prop}
    (hstep : ∀ s e t, I s → hwStep s e = some t → I t) (es : List HwEvent) (s : Usbd) (hs : I s) :
    I (hardware s es) := by
  induction es generalizing s with
  | nil => exact hs
  | cons e es ih =>
    apply ih
    show I ((hwStep s e).getD s)
    cases he : hwStep s e with
    | none => exact hs
    | some t => exact hstep s e t hs he

end UsbArmory.Usb.Controller
