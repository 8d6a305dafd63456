import UsbArmory.Usb.EndpointControl
import UsbArmory.Usb.Poll
import UsbArmory.Usb.Runs

/-!
# The SETUP packets that are waiting

A SETUP packet stays in the queue head of endpoint 0 until the next one. If
the host only sends requests that the driver supports, what is latched or
cached is such a request, whatever calls are made meanwhile.
-/

set_option autoImplicit false

namespace UsbArmory.Usb.SetupPackets
open UsbArmory.Library.Bits UsbArmory.Usb.Descriptors UsbArmory.Usb.Controller UsbArmory.Usb.Bus
open UsbArmory.Usb.Endpoint UsbArmory.Usb.Effects UsbArmory.Usb.EndWrite UsbArmory.Usb.Write
open UsbArmory.Usb.Read UsbArmory.Usb.Poll UsbArmory.Usb.Configure UsbArmory.Usb.EndpointControl
open UsbArmory.Usb.Runs

/-- SET_ADDRESS, SET_CONFIGURATION, SET_INTERFACE and GET_DESCRIPTOR. -/
def supported (setup : List UInt8) : Bool :=
  setup.length = 8 && ([[0, 5], [0, 9], [1, 11], [128, 6]] : List (List UInt8)).contains
    (setup.take 2)

/-- A SETUP packet is for endpoint 0 and one of the requests. -/
def orderly : HwEvent → Bool
  | .setup index bytes => index = 0 && supported bytes
  | _ => true

def Meanwhile (e : HwEvent) : Call → Prop
  | .reset wait => e ∈ wait.flatten
  | .poll h₁ h₂ => e ∈ h₁ ++ h₂
  | .read _ _ hw => e ∈ hw.before ++ hw.priming ++ hw.rounds.flatten
  | .startWrite _ _ gap => e ∈ gap
  | .setDeviceAddress _ gaps => ∃ ep, e ∈ gaps ep
  | _ => False

/-- A SETUP packet of endpoint 0 has not been read yet. -/
def Latched (s : Usbd) : Prop := s.endptsetupstat.getLsbD 0 = true ∨ cached s 0 = true

def Waits (s : Usbd) : Prop := Latched s → supported (s.dqhs 0).setup = true

/-- A change that neither allocates nor enables endpoints. -/
structure Follows (s t : Usbd) : Prop where
  used : t.inner.usedDqhs = s.inner.usedDqhs
  enabled : ∀ isOut, t.endptctrl1.getLsbD (enableBit isOut) = s.endptctrl1.getLsbD (enableBit isOut)
  waits : Waits s → Waits t

variable {s t u : Usbd} {ep : EndpointAddress}

theorem Follows.refl (s : Usbd) : Follows s s := ⟨rfl, fun _ => rfl, id⟩

theorem Follows.trans (h : Follows s t) (h' : Follows t u) : Follows s u :=
  ⟨h'.used.trans h.used, fun b => (h'.enabled b).trans (h.enabled b), h'.waits ∘ h.waits⟩

theorem follows_same (hu : t.inner.usedDqhs = s.inner.usedDqhs)
    (hc : t.endptctrl1 = s.endptctrl1) (hd : (t.dqhs 0).setup = (s.dqhs 0).setup)
    (hl : Latched t → Latched s) : Follows s t := by
  refine ⟨hu, fun b => by rw [hc], fun h ht => ?_⟩
  rw [hd]
  exact h (hl ht)

theorem fetch_setup (s : Usbd) (ep : EndpointAddress) (q : ℕ) :
    ((fetch s ep).dqhs q).setup = (s.dqhs q).setup := by
  unfold fetch
  simp only
  split
  · rfl
  · by_cases hq : q = epaddr2dqhidx ep
    · simp [Usbd.setDqh, hq]
    · simp [Usbd.setDqh, hq]

theorem retire_setup (s : Usbd) (ep : EndpointAddress) (status : Status) (left : ℕ)
    (bytes : List UInt8) (q : ℕ) :
    ((retire s ep status left bytes).dqhs q).setup = (s.dqhs q).setup := by
  by_cases hq : q = epaddr2dqhidx ep
  · simp [retire, Usbd.setDqh, Usbd.setDtd, hq]
  · simp [retire, Usbd.setDqh, Usbd.setDtd, hq]

theorem follows_fetch (s : Usbd) (ep : EndpointAddress) : Follows s (fetch s ep) := by
  have hsetup := fetch_setup s ep 0
  unfold fetch at hsetup ⊢
  simp only at hsetup ⊢
  split at hsetup
  next hd =>
    rw [if_pos hd]
    exact follows_same rfl rfl rfl id
  next hd =>
    rw [if_neg hd]
    exact follows_same rfl rfl hsetup id

theorem follows_hwStep {e : HwEvent} (he : orderly e = true) (h : hwStep s e = some t) :
    Follows s t := by
  cases hwStep_happens h with
  | fetch ep hv hprime => exact follows_fetch s ep
  | load ep hv hin hstat => exact follows_same rfl rfl rfl id
  | sent ep status bytes hv hin hstat hfifo =>
    exact follows_same rfl rfl (retire_setup s ep status _ _ 0) id
  | received ep status bytes hv hout hstat hlen =>
    exact follows_same rfl rfl (retire_setup s ep status _ bytes 0) id
  | setup index bytes hused hlen =>
    rw [orderly, Bool.and_eq_true, decide_eq_true_eq] at he
    obtain ⟨rfl, hsup⟩ := he
    refine ⟨rfl, fun _ => rfl, fun _ _ => ?_⟩
    simpa [Usbd.setDqh, epaddr2dqhidx, EndpointAddress.isOut] using hsup
  | status bits => exact follows_same rfl rfl rfl id

theorem follows_hardware {es : List HwEvent} (he : ∀ e ∈ es, orderly e = true) :
    Follows s (hardware s es) := by
  induction es generalizing s with
  | nil => exact .refl s
  | cons e es ih =>
    have hrest := fun t => ih (s := t) fun e' he' => he e' (List.mem_cons_of_mem _ he')
    rw [hardware, List.foldl_cons]
    cases hs : hwStep s e with
    | none => exact hrest s
    | some t => exact (follows_hwStep (he e List.mem_cons_self) hs).trans (hrest t)

theorem follows_waitFor {cond : Usbd → Bool} {wait : List (List HwEvent)}
    (he : ∀ e ∈ wait.flatten, orderly e = true) (h : waitFor cond s wait = .ok t) :
    Follows s t := by
  induction wait generalizing s with
  | nil =>
    simp only [waitFor] at h
    split at h
    · cases h
      exact .refl _
    · cases h
  | cons es wait ih =>
    rw [List.flatten_cons] at he
    simp only [waitFor] at h
    split at h
    · cases h
      exact .refl _
    · have hhere : Follows s (hardware s es) :=
        follows_hardware fun e he' => he e (List.mem_append_left _ he')
      exact hhere.trans (ih (fun e he' => he e (List.mem_append_right _ he')) h)

theorem follows_prime {gap : List HwEvent} (he : ∀ e ∈ gap, orderly e = true) :
    Follows s (prime s ep gap) := by
  have hgap : Follows s (hardware s gap) := follows_hardware he
  exact hgap.trans (follows_same rfl rfl rfl id)

theorem follows_startWrite {bytes : List UInt8} {gap : List HwEvent} {r : Except UsbError ℕ}
    (he : ∀ e ∈ gap, orderly e = true) (h : Bus.startWrite s ep bytes gap = .ok (t, r)) :
    Follows s t := by
  rcases startWrite_ok h with ⟨rfl, -⟩ | ⟨⟨-, -, -, d, addr, token, b64s, b512s, -, -, -, rfl⟩, -⟩
  · exact .refl _
  · have hwritten : Follows s (written s ep bytes d addr token b64s b512s) := by
      refine follows_same rfl rfl ?_ id
      by_cases hq : 0 = epaddr2dqhidx ep
      · simp [written, ← hq]
      · simp [written, hq]
    exact hwritten.trans (follows_prime he)

theorem waits_enableEps {gaps : EndpointAddress → List HwEvent}
    (he : ∀ ep, ∀ e ∈ gaps ep, orderly e = true) (eps : List EndpointAddress) (h : Waits s) :
    Waits (eps.foldl (enableEp gaps) s) := by
  induction eps generalizing s with
  | nil => exact h
  | cons ep eps ih =>
    apply ih
    obtain ⟨bits, ⟨-, heq⟩ | ⟨-, heq⟩⟩ := enableEp_cases gaps s ep <;> rw [heq]
    · have hprime : Follows s (prime s ep (gaps ep)) := follows_prime (he ep)
      exact hprime.waits h
    · exact h

theorem waits_setDeviceAddress {gaps : EndpointAddress → List HwEvent}
    (he : ∀ ep, ∀ e ∈ gaps ep, orderly e = true) (addr : BitVec 8) (h : Waits s) :
    Waits (setDeviceAddress s addr gaps) := by
  have hany (bits : BitVec 32) :
      Waits ((allocatedEps s).foldl (enableEp gaps) (writeDeviceaddr s bits)) :=
    waits_enableEps he (allocatedEps s) h
  exact hany _

theorem released_setup (s : Usbd) (ep : EndpointAddress) (d q : ℕ) :
    ((released s ep d).dqhs q).setup = (s.dqhs q).setup := by
  by_cases hq : q = epaddr2dqhidx ep
  · subst q
    simp [released, releaseDtd, clearInterrupt, writeEndptcomplete, writeUsbsts, Usbd.setDqh,
      DQH.clearCurrentDtd, DQH.setNextDtd]
  · simp [released, releaseDtd, clearInterrupt, writeEndptcomplete, writeUsbsts, Usbd.setDqh, hq]

theorem follows_readControl {buf : Lent} {hw : During} {bytes : List UInt8}
    (hp : ∀ e ∈ hw.priming, orderly e = true) (he : ∀ e ∈ hw.rounds.flatten, orderly e = true)
    (h : readControl s ep (epaddr2dqhidx ep) buf hw = .ok (t, bytes)) : Follows s t := by
  obtain ⟨-, d, token, u, -, -, hwait, rfl⟩ := readControl_ok h
  have hready : Follows s (controlReady s ep d token buf.addr) := by
    refine follows_same rfl rfl ?_ id
    by_cases hq : 0 = epaddr2dqhidx ep
    · simp [controlReady, Usbd.setDqh, Usbd.setDtd, ← hq]
    · simp [controlReady, Usbd.setDqh, Usbd.setDtd, hq]
  have hprimed : Follows s (controlPrimed s ep d token buf.addr hw.priming) :=
    hready.trans (follows_prime hp)
  have hreleased : Follows u (released u ep d) := follows_same rfl rfl (released_setup u ep d 0) id
  exact (hprimed.trans (follows_waitFor he hwait)).trans hreleased

theorem follows_readData {buf : Lent} {gap : List HwEvent} {r : Except UsbError (List UInt8)}
    (he : ∀ e ∈ gap, orderly e = true)
    (h : readData s ep (epaddr2dqhidx ep) buf gap = .ok (t, r)) : Follows s t := by
  rcases readData_ok h with ⟨-, rfl, -⟩ | ⟨-, d, addr, token, _, -, -, -, rfl, -⟩
  · exact .refl _
  · have hreleased : Follows s
        (released (s.setDtd d ({ s.dtd d with token := token }.setPages addr)) ep d) :=
      follows_same rfl rfl (released_setup _ ep d 0) id
    exact hreleased.trans (follows_prime he)

theorem follows_handle {b : Usbd} {sts : BitVec 32} {seen : BitVec 16} {r : PollResult}
    (hseen : seen.getLsbD 0 = true → b.endptsetupstat.getLsbD 0 = true)
    (h : handle b sts seen = .ok (t, r)) : Follows b t := by
  obtain ⟨u, hu, hr⟩ := handle_ok h
  have hbefore : Follows b (beforeLoop b sts seen) := by
    rw [beforeLoop_eq]
    refine follows_same rfl rfl rfl fun hl => ?_
    rcases hl with hl | hl
    · exact .inl hl
    · unfold cached at hl
      dsimp only at hl
      split at hl
      · exact .inl (hseen hl)
      · exact .inr hl
  have hloop : ∀ (is : List ℕ) (v : Usbd), is.foldlM endWrite v = .ok u → Follows v u := by
    intro is
    induction is with
    | nil =>
      intro v hv
      cases hv
      exact .refl _
    | cons i is ih =>
      intro v hv
      rw [List.foldlM_cons] at hv
      obtain ⟨w, hw, hv⟩ := bind_ok hv
      refine .trans ?_ (ih w hv)
      obtain ⟨hvalid, d, -, -, rfl⟩ := endWrite_ok i hw
      rw [endWritten_eq v i d (index_lt hvalid)]
      refine follows_same rfl rfl ?_ id
      by_cases hq : 0 = epaddr2dqhidx ⟨i, .in⟩
      · simp [← hq]
      · simp [hq]
  have hlast : Follows u t := by
    rw [report_eq hr]
    exact follows_same rfl rfl rfl id
  exact (hbefore.trans (hloop _ _ hu)).trans hlast

theorem follows_poll {h₁ h₂ : List HwEvent} {r : PollResult}
    (he : ∀ e ∈ h₁ ++ h₂, orderly e = true) (h : Bus.poll s h₁ h₂ = .ok (t, r)) :
    Follows s t := by
  rcases poll_eq s h₁ h₂ with heq | heq <;> rw [heq] at h
  · cases h
    exact follows_same rfl rfl rfl id
  · have hack : Follows s (writeUsbsts s (mask 32 usbstsSre)) := follows_same rfl rfl rfl id
    have hset : Follows s (atSetup s h₁) :=
      hack.trans (follows_hardware fun e he' => he e (List.mem_append_left _ he'))
    have hcomplete : Follows s (atComplete s h₁ h₂) :=
      hset.trans (follows_hardware fun e he' => he e (List.mem_append_right _ he'))
    refine hcomplete.trans (follows_handle (fun hseen => ?_) h)
    rw [seenSetup, BitVec.getLsbD_setWidth] at hseen
    exact (hardware_frame h₂ (atSetup s h₁)).setup 0 (by simpa using hseen)

theorem follows_resetEps {eps : List EndpointAddress} (h : eps.foldlM resetEp s = .ok t) :
    Follows s t := by
  induction eps generalizing s with
  | nil =>
    cases h
    exact .refl _
  | cons ep eps ih =>
    rw [List.foldlM_cons] at h
    obtain ⟨u, hu, h⟩ := bind_ok h
    refine .trans ?_ (ih h)
    obtain ⟨-, rfl⟩ := (resetEp_iff s u ep).mp hu
    exact ⟨rfl, setEndptctrl1_enabled s ep.isOut, id⟩

theorem follows_request {setup : List UInt8} (h : request s setup = .ok t) : Follows s t := by
  unfold request at h
  split at h
  · cases h
    exact .refl _
  · exact follows_resetEps h
  · exact follows_resetEps h
  · cases h
    exact follows_same rfl rfl rfl id
  · cases h

/-- The state in which a read has acknowledged its SETUP. -/
def acknowledged (s : Usbd) (ep : EndpointAddress) (hw : During) : Usbd :=
  hardware (writeEndptsetupstat (takeSetup s ep).1 ((mask 16 ep.index).setWidth 32)) hw.before

theorem follows_takeSetup (s : Usbd) (ep : EndpointAddress) : Follows s (takeSetup s ep).1 := by
  have hcached := takeSetup_cached s ep 0
  rw [takeSetup_eq] at hcached ⊢
  refine follows_same rfl rfl rfl fun hl => hl.imp id fun hc => ?_
  rw [hcached, Bool.and_eq_true] at hc
  exact hc.1

theorem follows_tripwire (q : ℕ) {rounds : List (List HwEvent)}
    (he : ∀ e ∈ rounds.flatten, orderly e = true) : Follows s (tripwire s q rounds).1 := by
  have harm : ∀ v, Follows v (arm v) := fun v => follows_same rfl rfl rfl id
  induction rounds generalizing s with
  | nil => exact harm s
  | cons es rounds ih =>
    rw [List.flatten_cons] at he
    have hhere : Follows s (hardware (arm s) es) :=
      (harm s).trans (follows_hardware fun e he' => he e (List.mem_append_left _ he'))
    unfold tripwire
    simp only
    split
    · exact hhere
    · exact hhere.trans (ih fun e he' => he e (List.mem_append_right _ he'))

theorem follows_acknowledge (s : Usbd) (bits : BitVec 32) :
    Follows s (writeEndptsetupstat s bits) := by
  refine follows_same rfl rfl rfl fun hl => hl.imp (fun hset => ?_) id
  have hset' : (s.endptsetupstat &&& ~~~bits).getLsbD 0 = true := hset
  rw [BitVec.getLsbD_and, Bool.and_eq_true] at hset'
  exact hset'.1

theorem follows_readSetup {q : ℕ} {buf : Lent} {hw : During} {bytes : List UInt8}
    (he : ∀ e ∈ hw.before ++ hw.rounds.flatten, orderly e = true)
    (h : readSetup s ep q buf hw = .ok (t, bytes)) : Follows s t := by
  unfold readSetup at h
  obtain ⟨_, -, h⟩ := bind_ok h
  obtain ⟨v, hv, h⟩ := bind_ok h
  cases h
  have horderly : ∀ e ∈ hw.before, orderly e = true :=
    fun e he' => he e (List.mem_append_left _ he')
  have hbefore := (follows_acknowledge s ((mask 16 ep.index).setWidth 32)).trans
    (follows_hardware horderly)
  have htrip := hbefore.trans (follows_tripwire q fun e he' => he e (List.mem_append_right _ he'))
  have hdisarm : ∀ w, Follows w (clearInterrupt (disarm w)) :=
    fun w => follows_same rfl rfl rfl id
  exact (htrip.trans (hdisarm _)).trans (follows_request hv)

theorem follows_read {buf : Lent} {hw : During} {r : Except UsbError (List UInt8)}
    (he : ∀ e ∈ hw.before ++ hw.priming ++ hw.rounds.flatten, orderly e = true)
    (h : Bus.read s ep buf hw = .ok (t, r)) : Follows s t := by
  have htake := follows_takeSetup s ep
  simp only [List.mem_append] at he
  have hpriming : ∀ e ∈ hw.priming, orderly e = true := fun e he' => he e (.inl (.inr he'))
  rcases read_ok h with ⟨rfl, -, -⟩ |
    ⟨-, ⟨-, bytes, hread, -⟩ | ⟨-, -, bytes, hread, -⟩ | ⟨-, -, hread⟩⟩
  · exact htake
  · refine htake.trans (follows_readSetup (fun e he' => ?_) hread)
    exact he e ((List.mem_append.mp he').imp .inl id)
  · exact htake.trans (follows_readControl hpriming (fun e he' => he e (.inr he')) hread)
  · exact htake.trans (follows_readData hpriming hread)

end UsbArmory.Usb.SetupPackets
