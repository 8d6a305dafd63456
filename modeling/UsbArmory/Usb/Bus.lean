import UsbArmory.Usb.Controller

/-!
# The bus driver

The methods of `Inner`, from the source. A call either returns or halts: a
failed assertion, or `memlog_flush_and_reset`. The controller acts between two
calls and, inside a call, where it can make a difference: between the register
reads of `poll`, around the copies of the setup tripwire, in the busy waits and
between the read and the write of ENDPTPRIME. The log messages are left out.
-/

set_option autoImplicit false

namespace UsbArmory.Usb.Bus
open UsbArmory.Library.Bits UsbArmory.Usb.Descriptors UsbArmory.Usb.Controller

inductive Halt where
  | panic
  | flushAndReset
  deriving DecidableEq

inductive UsbError where
  | wouldBlock
  | endpointOverflow
  | endpointMemoryOverflow
  | invalidEndpoint
  deriving DecidableEq

inductive PollResult where
  | none
  | reset
  | data (epOut epInComplete epSetup : BitVec 16)
  deriving DecidableEq

/-- `expect` and `assert!` -/
def expect {α : Type} (x : Option α) : Except Halt α := x.elim (.error .panic) .ok

def require (p : Bool) : Except Halt Unit := if p then .ok () else .error .panic

theorem expect_ok {α : Type} {x : Option α} {a : α} (h : expect x = .ok a) : x = some a := by
  cases x with
  | none => cases h
  | some b =>
    cases h
    rfl

theorem require_ok {p : Bool} {u : Unit} (h : require p = .ok u) : p = true := by
  cases p with
  | false => cases h
  | true => rfl

theorem bind_ok {ε α β : Type} {x : Except ε α} {f : α → Except ε β} {b : β}
    (h : x >>= f = .ok b) : ∃ a, x = .ok a ∧ f a = .ok b := by
  cases x with
  | error e => cases h
  | ok a => exact ⟨a, rfl, h⟩

theorem ok_bind {ε α β : Type} (a : α) (f : α → Except ε β) : Except.ok a >>= f = f a := rfl

theorem bind_returns {ε α β : Type} {x : Except ε α} {f : α → Except ε β} {a : α}
    (hx : x = .ok a) (hf : ∃ b, f a = .ok b) : ∃ b, x >>= f = .ok b := by
  rw [hx]
  exact hf

theorem bind_all_return {ε α β : Type} {x : Except ε α} {f : α → Except ε β}
    (hx : ∃ a, x = .ok a) (hf : ∀ a, ∃ b, f a = .ok b) : ∃ b, x >>= f = .ok b := by
  obtain ⟨a, rfl⟩ := hx
  exact hf a

theorem expect_some {α : Type} {x : Option α} {a : α} (h : x = some a) : expect x = .ok a := by
  rw [h]
  rfl

theorem require_true {p : Bool} (h : p = true) : require p = .ok () := by
  rw [h]
  rfl

/-- Writing ones to `USBSTS` clears them. -/
def writeUsbsts (s : Usbd) (bits : BitVec 32) : Usbd := { s with usbsts := s.usbsts &&& ~~~bits }

def writeEndptcomplete (s : Usbd) (bits : BitVec 32) : Usbd :=
  { s with endptcomplete := s.endptcomplete &&& ~~~bits }

def writeEndptsetupstat (s : Usbd) (bits : BitVec 32) : Usbd :=
  { s with endptsetupstat := s.endptsetupstat &&& ~~~bits }

/-- Writing ones to `ENDPTPRIME` sets them; only the controller clears them. -/
def writeEndptprime (s : Usbd) (bits : BitVec 32) : Usbd :=
  { s with endptprime := s.endptprime ||| bits }

/-- A bit that the controller clears between the read and the write is set again. -/
def prime (s : Usbd) (ep : EndpointAddress) (gap : List HwEvent) : Usbd :=
  writeEndptprime (hardware s gap) (s.endptprime ||| epaddr2endptmask ep)

/-- Flushed endpoints give up their transfers. -/
def writeEndptflush (s : Usbd) (bits : BitVec 32) : Usbd :=
  { s with endptstat := s.endptstat &&& ~~~bits }

/-- Clears the USBSTS_UI bit. -/
def clearInterrupt (s : Usbd) : Usbd := writeUsbsts s (mask 32 0)

def usbstsPci : ℕ := 2
def usbstsUri : ℕ := 6
def usbstsSre : ℕ := 7

def portChange (s : Usbd) : Usbd := writeUsbsts s (mask 32 usbstsPci)

def getDqh (ep : EndpointAddress) : Option ℕ :=
  if epaddr2dqhidx ep < endpoints then some (epaddr2dqhidx ep) else none

def isEpBeingUsed (s : Usbd) (ep : EndpointAddress) : Bool :=
  s.inner.usedDqhs &&& mask 8 (epaddr2dqhidx ep) ≠ 0

def markEpAsUsed (s : Usbd) (ep : EndpointAddress) : Usbd :=
  { s with inner.usedDqhs := s.inner.usedDqhs ||| mask 8 (epaddr2dqhidx ep) }

def allocatedEps (s : Usbd) : List EndpointAddress :=
  (oneIndices s.inner.usedDqhs).map dqhidx2epaddr

def popDtd (s : Usbd) : Except Halt (ℕ × Usbd) :=
  match s.inner.dtds with
  | [] => .error .panic
  | d::rest => .ok (d, { s with inner.dtds := rest })

def popBuffer (s : Usbd) (maxPacketSize : ℕ) : Except Halt (ℕ × Usbd) :=
  if maxPacketSize ≤ 64 then
    match s.inner.b64s with
    | [] => .error .panic
    | a::rest => .ok (a, { s with inner.b64s := rest })
  else if maxPacketSize ≤ 512 then
    match s.inner.b512s with
    | [] => .error .panic
    | a::rest => .ok (a, { s with inner.b512s := rest })
  else .error .panic

def txe : ℕ := 23
def txr : ℕ := 22
def rxe : ℕ := 7
def rxr : ℕ := 6

/-- The type bits of one direction of ENDPTCTRL1, as the source writes them:
its receive mask is zero and clears nothing. -/
def setType (ctrl : BitVec 32) (isOut : Bool) (ty : BitVec 32) : BitVec 32 :=
  if isOut then (ctrl &&& ~~~(0b00#32 <<< 2)) ||| (ty <<< 2)
  else (ctrl &&& ~~~(0b11#32 <<< 18)) ||| (ty <<< 18)

def typeBits : EndpointType → BitVec 32
  | .control => 0b00
  | .isochronous => 0b01
  | .bulk => 0b10
  | .interrupt => 0b11

def configureEp (s : Usbd) (ep : EndpointAddress) (ty : EndpointType) : Except Halt Usbd := do
  require (ep.index ≠ 0)
  require (ep.index = 1)
  let ctrl := setType s.endptctrl1 ep.isOut (typeBits ty)
  let other := if ep.isOut then txe else rxe
  let ctrl := if ctrl &&& mask 32 other = 0 then setType ctrl (!ep.isOut) 0b10 else ctrl
  return { s with endptctrl1 := ctrl }

/-- The lowest endpoint from `idx` on that is not used. -/
def findEp (s : Usbd) (dir : UsbDirection) : ℕ → ℕ → Option EndpointAddress
  | 0, _ => none
  | fuel+1, idx =>
    match getDqh ⟨idx, dir⟩ with
    | none => none
    | some _ => if isEpBeingUsed s ⟨idx, dir⟩ then findEp s dir fuel (idx+1) else some ⟨idx, dir⟩

def chooseEp (s : Usbd) (dir : UsbDirection) : Option EndpointAddress →
    Except UsbError EndpointAddress
  | some ep =>
    if getDqh ep = none then .error .endpointOverflow
    else if isEpBeingUsed s ep then .error .invalidEndpoint
    else .ok ep
  | none => (findEp s dir endpoints 1).elim (.error .endpointOverflow) .ok

def installBuffer (s : Usbd) (q d maxPacketSize : ℕ) : Except Halt Usbd := do
  let (addr, s) ← popBuffer s maxPacketSize
  let token ← expect (activeToken maxPacketSize)
  let s := s.setDtd d ({ s.dtd d with token := token }.setPages addr)
  return s.setDqh q { s.dqhs q with addr := some addr }

/-- The descriptor and, for an OUT endpoint, the buffer of a new endpoint. -/
def installDtd (s : Usbd) (ep : EndpointAddress) (maxPacketSize : ℕ) : Except Halt Usbd := do
  let q := epaddr2dqhidx ep
  let caps ← expect (capsNew maxPacketSize true)
  let s := s.setDqh q { s.dqhs q with caps := caps }
  let (d, s) ← popDtd s
  let s ← if ep.isOut ∧ ep.index ≠ 0 then installBuffer s q d maxPacketSize else pure s
  return s.setDqh q ((s.dqhs q).setNextDtd (some d))

def allocEp (s : Usbd) (dir : UsbDirection) (addr : Option EndpointAddress) (ty : EndpointType)
    (maxPacketSize : ℕ) : Except Halt (Usbd × Except UsbError EndpointAddress) := do
  require (ty ≠ .isochronous)
  match chooseEp s dir addr with
  | .error e => return (s, .error e)
  | .ok ep =>
    let s ← installDtd s ep maxPacketSize
    let s := markEpAsUsed s ep
    let s ← if ep.index ≠ 0 then configureEp s ep ty else pure s
    return (s, .ok ep)

def enable (s : Usbd) : Usbd := { s with usbcmd := s.usbcmd ||| mask 32 0 }

def setEndptctrl1 (s : Usbd) (bits : BitVec 32) : Usbd :=
  { s with endptctrl1 := s.endptctrl1 ||| bits }

def enableEp (gaps : EndpointAddress → List HwEvent) (s : Usbd) (ep : EndpointAddress) : Usbd :=
  if ep.isOut then
    setEndptctrl1 (if ep.index ≠ 0 then prime s ep (gaps ep) else s) (mask 32 rxe)
  else setEndptctrl1 s (mask 32 txe)

def writeDeviceaddr (s : Usbd) (bits : BitVec 32) : Usbd := { s with deviceaddr := bits }

def setDeviceAddress (s : Usbd) (addr : BitVec 8) (gaps : EndpointAddress → List HwEvent) : Usbd :=
  (allocatedEps s).foldl (enableEp gaps) (writeDeviceaddr s (addr.setWidth 32 <<< 25))

/-- Resets the endpoint PID sequence. -/
def resetEp (s : Usbd) (ep : EndpointAddress) : Except Halt Usbd := do
  let (enabled, toggle) := if ep.isOut then (rxe, rxr) else (txe, txr)
  require (s.endptctrl1 &&& mask 32 enabled ≠ 0)
  return setEndptctrl1 s (mask 32 toggle)

/-- `wait_for_or_timeout`: the condition is polled once more when the
controller has no more events before the timeout. -/
def waitFor (cond : Usbd → Bool) (s : Usbd) : List (List HwEvent) → Except Halt Usbd
  | [] => if cond s then .ok s else .error .flushAndReset
  | h::hs => if cond s then .ok s else waitFor cond (hardware s h) hs

def reset (s : Usbd) (wait : List (List HwEvent)) : Except Halt Usbd := do
  let s := writeEndptsetupstat s s.endptsetupstat
  let s := writeEndptcomplete s s.endptcomplete
  let s ← waitFor (fun s => s.endptprime = 0) s wait
  let s := writeEndptflush s (~~~0)
  return writeUsbsts s (mask 32 usbstsUri)

def noteInComplete (s : Usbd) (index : ℕ) : Usbd :=
  { s with inner.epInComplete := some (s.inner.epInComplete.getD 0 ||| mask 16 index) }

def setEpInComplete (s : Usbd) (index : ℕ) : Except Halt Usbd := do
  require (index < endpoints / 2)
  return noteInComplete s index

/-- An IN completion moves a STATUS OUT that the SETUP has asked for. -/
def scheduleStatusOut (s : Usbd) (bits : BitVec 16) : Usbd :=
  if s.inner.preStatusOut &&& bits ≠ 0 then
    { s with
      inner.statusOut := s.inner.statusOut ||| bits
      inner.preStatusOut := s.inner.preStatusOut &&& ~~~bits }
  else s

/-- A transfer that is still active or has failed resets the device. -/
def checkTransfer (token : Token) : Except Halt Unit :=
  if token.getStatus.failed then .error .flushAndReset else .ok ()

/-- The dTD is left in place for the next transfer; this one has been dealt
with. -/
def releaseDtd (s : Usbd) (q d : ℕ) : Usbd :=
  { s.setDqh q ((s.dqhs q).clearCurrentDtd.setNextDtd (some d)) with
    ended := Function.update s.ended q (s.ended q + 1) }

def endWrite (s : Usbd) (idx : ℕ) : Except Halt Usbd := do
  let ep : EndpointAddress := ⟨idx, .in⟩
  let q ← expect (getDqh ep)
  let d ← expect (s.dqhs q).getCurrentDtd
  let s := clearInterrupt (writeEndptcomplete s (epaddr2endptmask ep))
  checkTransfer (s.dtd d).token
  let s ← setEpInComplete s ep.index
  let s := scheduleStatusOut s ((epaddr2endptmask ep >>> 16).setWidth 16)
  return releaseDtd s q d

def notePoll (s : Usbd) (wasNone : Bool) : Usbd := { s with inner.lastPollWasNone := wasNone }

/-- The SETUPs seen are cached; they need special handling in `read`. -/
def noteSetup (s : Usbd) (setupstat : BitVec 16) : Usbd :=
  if setupstat ≠ 0 then { s with inner.setupstat := some setupstat } else s

/-- What `poll` reports once the registers have been read. -/
def report (s : Usbd) (setupstat : BitVec 16) (complete : BitVec 32) : Usbd × PollResult :=
  if setupstat ≠ 0 ∨ s.inner.epInComplete.isSome ∨ s.inner.statusOut ≠ 0 ∨ complete ≠ 0 then
    let epInComplete := s.inner.epInComplete.getD 0
    let s := notePoll { s with inner.epInComplete := none } false
    if s.inner.statusOut ≠ 0 ∧ epInComplete = 0 then
      ({ s with inner.statusOut := 0 }, .data s.inner.statusOut epInComplete setupstat)
    else (s, .data (complete.setWidth 16) epInComplete setupstat)
  else (notePoll s true, .none)

/-- The part of `poll` after the read of ENDPTSETUPSTAT. -/
def handle (s : Usbd) (sts : BitVec 32) (setupstat : BitVec 16) :
    Except Halt (Usbd × PollResult) := do
  let complete := s.endptcomplete
  let s := if sts &&& mask 32 usbstsPci ≠ 0 then portChange s else s
  let s := noteSetup s setupstat
  let txcomplete := complete >>> 16
  let s ← (oneIndices txcomplete).foldlM endWrite s
  let complete := if txcomplete ≠ 0 then complete &&& 0xffff else complete
  return report s setupstat complete

/-- The controller may act before the read of ENDPTSETUPSTAT and before that
of ENDPTCOMPLETE. -/
def poll (s : Usbd) (h₁ h₂ : List HwEvent) : Except Halt (Usbd × PollResult) :=
  let s := writeUsbsts s (mask 32 usbstsSre)
  if s.usbsts &&& mask 32 usbstsUri ≠ 0 then .ok (notePoll s false, .reset)
  else
    let seen := hardware s h₁
    handle (hardware seen h₂) s.usbsts (seen.endptsetupstat.setWidth 16)

/-- An empty cache of SETUPs is no cache. -/
def cacheSetup (s : Usbd) (setupstat : BitVec 16) : Usbd :=
  { s with inner.setupstat := if setupstat = 0 then none else some setupstat }

/-- The cached SETUP of this endpoint, if there is one, is taken. -/
def takeSetup (s : Usbd) (ep : EndpointAddress) : Usbd × Bool :=
  match s.inner.setupstat with
  | none => (s, false)
  | some setupstat =>
    let bit := mask 16 ep.index
    if setupstat &&& bit ≠ 0 then (cacheSetup s (setupstat &&& ~~~bit), true)
    else (cacheSetup s setupstat, false)

def arm (s : Usbd) : Usbd := { s with usbcmd := s.usbcmd ||| mask 32 sutw }
def disarm (s : Usbd) : Usbd := { s with usbcmd := s.usbcmd &&& ~~~mask 32 sutw }

/-- The setup tripwire: the copy is repeated until no SETUP has come between.
The list says what the controller does during each copy that is disturbed. -/
def tripwire (s : Usbd) (q : ℕ) : List (List HwEvent) → Usbd × List UInt8
  | [] => (arm s, ((arm s).dqhs q).setup)
  | h::hs =>
    let after := hardware (arm s) h
    if after.usbcmd &&& mask 32 sutw ≠ 0 then (after, ((arm s).dqhs q).setup)
    else tripwire after q hs

def request (s : Usbd) (setup : List UInt8) : Except Halt Usbd :=
  match setup.take 4 with
  | [0, 5, _, _] => .ok s
  | [0, 9, _, _] | [1, 11, _, _] => (allocatedEps s).foldlM resetEp s
  | [128, 6, _, _] => .ok { s with inner.preStatusOut := 1 }
  | _ => .error .flushAndReset

/-- A slice of `cap` bytes that the caller lends. -/
structure Lent where
  addr : ℕ
  cap : ℕ

/-- What the controller does during a call of `read`: before the copy of the
setup bytes, between the two accesses that prime the endpoint, and in each round
of a wait. -/
structure During where
  before : List HwEvent
  priming : List HwEvent
  rounds : List (List HwEvent)

def readSetup (s : Usbd) (ep : EndpointAddress) (q : ℕ) (buf : Lent) (hw : During) :
    Except Halt (Usbd × List UInt8) := do
  let s := writeEndptsetupstat s ((mask 16 ep.index).setWidth 32)
  require (8 ≤ buf.cap)
  let (s, setup) := tripwire (hardware s hw.before) q hw.rounds
  let s ← request (clearInterrupt (disarm s)) setup
  return (s, setup)

/-- OUT data of endpoint 0: the caller's buffer is primed and waited for. -/
def readControl (s : Usbd) (ep : EndpointAddress) (q : ℕ) (buf : Lent) (hw : During) :
    Except Halt (Usbd × List UInt8) := do
  require ((s.dqhs q).getCurrentDtd = none)
  let d ← expect (s.dqhs q).getNextDtd
  let token ← expect (activeToken buf.cap)
  let s := s.setDtd d ({ s.dtd d with token := token }.setPages buf.addr)
  let s := s.setDqh q { s.dqhs q with addr := some buf.addr }
  let s := prime s ep hw.priming
  let s ← waitFor (fun s => s.endptcomplete &&& epaddr2endptmask ep ≠ 0) s hw.rounds
  let s := clearInterrupt (writeEndptcomplete s (epaddr2endptmask ep))
  checkTransfer (s.dtd d).token
  let n := buf.cap - (s.dqhs q).token.getTotalBytes
  let bytes := (s.buffer buf.addr).take n
  return (releaseDtd s q d, bytes)

/-- OUT data of the other endpoints: the buffer is copied and primed again. -/
def readData (s : Usbd) (ep : EndpointAddress) (q : ℕ) (buf : Lent) (gap : List HwEvent) :
    Except Halt (Usbd × Except UsbError (List UInt8)) := do
  if s.endptcomplete &&& epaddr2endptmask ep = 0 then return (s, .error .wouldBlock)
  let d ← expect (s.dqhs q).getCurrentDtd
  let s := clearInterrupt (writeEndptcomplete s (epaddr2endptmask ep))
  checkTransfer (s.dtd d).token
  let left := (s.dqhs q).token.getTotalBytes
  let maxPacketSize := (s.dqhs q).getMaxPacketSize
  let n := maxPacketSize - left
  let addr ← expect (s.dqhs q).addr
  require (n ≤ buf.cap)
  let bytes := (s.buffer addr).take n
  let token ← expect (activeToken maxPacketSize)
  let s := s.setDtd d ({ s.dtd d with token := token }.setPages addr)
  return (prime (releaseDtd s q d) ep gap, .ok bytes)

def read (s : Usbd) (ep : EndpointAddress) (buf : Lent) (hw : During) :
    Except Halt (Usbd × Except UsbError (List UInt8)) := do
  let (s, isSetup) := takeSetup s ep
  match getDqh ep with
  | none => return (s, .error .invalidEndpoint)
  | some q =>
    if isSetup then
      let (s, bytes) ← readSetup s ep q buf hw
      return (s, .ok bytes)
    else if ep.index = 0 then
      let (s, bytes) ← readControl s ep q buf hw
      return (s, .ok bytes)
    else readData s ep q buf hw.priming

/-- The static buffer of the endpoint, taken from a pool the first time. -/
def staticBuffer (s : Usbd) (q maxPacketSize : ℕ) : Except Halt (ℕ × Usbd) :=
  match (s.dqhs q).addr with
  | some addr => .ok (addr, s)
  | none => do
    let (addr, s) ← popBuffer s maxPacketSize
    return (addr, s.setDqh q { s.dqhs q with addr := some addr })

def startWrite (s : Usbd) (ep : EndpointAddress) (bytes : List UInt8) (gap : List HwEvent) :
    Except Halt (Usbd × Except UsbError ℕ) := do
  match getDqh ep with
  | none => return (s, .error .invalidEndpoint)
  | some q =>
    let maxPacketSize := (s.dqhs q).getMaxPacketSize
    let n := bytes.length
    if maxPacketSize < n then return (s, .error .endpointMemoryOverflow)
    if (s.dqhs q).getCurrentDtd.isSome then return (s, .error .wouldBlock)
    let d ← expect (s.dqhs q).getNextDtd
    let (addr, s) ← staticBuffer s q maxPacketSize
    let token ← expect (activeToken n)
    let s := s.setDtd d { s.dtd d with token := token }
    let s := s.fillBuffer addr bytes
    let s := s.setDtd d ((s.dtd d).setPages addr)
    let s := s.setDqh q { s.dqhs q with addr := some addr }
    return (prime s ep gap, .ok n)

end UsbArmory.Usb.Bus
