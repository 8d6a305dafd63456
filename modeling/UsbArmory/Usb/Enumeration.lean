import UsbArmory.Usb.EndpointTypes
import UsbArmory.Usb.ResetSteps
import UsbArmory.Usb.Tripwire

/-!
# Control requests in any order

A SET_CONFIGURATION or SET_INTERFACE resets all allocated endpoints, which
have to be enabled then. Setting the device address enables them.
-/

set_option autoImplicit false

namespace UsbArmory.Usb.Enumeration
open UsbArmory.Library.Bits UsbArmory.Library.Run UsbArmory.Usb.Descriptors
open UsbArmory.Usb.Controller UsbArmory.Usb.Bus UsbArmory.Usb.Endpoint UsbArmory.Usb.Effects
open UsbArmory.Usb.Read UsbArmory.Usb.Configure UsbArmory.Usb.Invariant UsbArmory.Usb.Runs
open UsbArmory.Usb.ResetSteps UsbArmory.Usb.Allocation UsbArmory.Usb.EndpointControl
open UsbArmory.Usb.AllocationOrder UsbArmory.Usb.TypeFields UsbArmory.Usb.SetupPackets
open UsbArmory.Usb.Tripwire

/-- The requests for which the driver resets the endpoints. -/
def configures (setup : List UInt8) : Bool :=
  ([[0, 9], [1, 11]] : List (List UInt8)).contains (setup.take 2)

def Addressed (log : List (Call × Response)) : Prop :=
  ∃ addr gaps r, (Call.setDeviceAddress addr gaps, r) ∈ log

/-- The endpoints stay as they are, and the host sends supported requests. -/
def Enumerates : Event → Prop
  | .hw e => orderly e = true
  | .call (.allocEp _ _ _ _) => False
  | .call c => ∀ e, Meanwhile e c → orderly e = true

structure Enumerating (s₀ : Usbd) (x : Session) : Prop where
  used : x.usbd.inner.usedDqhs = s₀.inner.usedDqhs
  enabled : ∀ isOut, x.usbd.endptctrl1.getLsbD (enableBit isOut) = true ↔ Addressed x.log
  waits : Waits x.usbd

variable {l : Layout} {s₀ s t u : Usbd} {rs : List Request} {x y : Session}

theorem addressed_append {log : List (Call × Response)} {c : Call} {r : Response} :
    Addressed (log ++ [(c, r)]) ↔ Addressed log ∨ ∃ addr gaps, c = .setDeviceAddress addr gaps := by
  unfold Addressed
  constructor
  · rintro ⟨addr, gaps, r', hmem⟩
    rcases List.mem_append.mp hmem with hmem | hmem
    · exact .inl ⟨addr, gaps, r', hmem⟩
    · rw [List.mem_singleton] at hmem
      cases hmem
      exact .inr ⟨addr, gaps, rfl⟩
  · rintro (⟨addr, gaps, r', hmem⟩ | ⟨addr, gaps, rfl⟩)
    · exact ⟨addr, gaps, r', List.mem_append_left _ hmem⟩
    · exact ⟨addr, gaps, r, List.mem_append_right _ (List.mem_singleton.mpr rfl)⟩

theorem allocates_latched (h : Allocates s rs t) : Latched t ↔ Latched s := by
  induction h with
  | nil s => exact Iff.rfl
  | cons dir addr r rest h hrest ih =>
    obtain ⟨-, -, d, _, caps, b64s, b512s, addr', dtd, -, -, -, ht⟩ := allocEp_allocated h
    rw [ih, ht]
    exact Iff.rfl

theorem enumerating_start (h : Allocates l.start rs s₀) : Enumerating s₀ ⟨s₀, []⟩ := by
  have hoff : Off (rs.foldl settled l.start.endptctrl1) :=
    off_foldl fun isOut => BitVec.getLsbD_zero
  refine ⟨rfl, fun isOut => ?_, fun hl => ?_⟩
  · rw [allocates_endptctrl1 h, hoff]
    simp [Addressed]
  · rcases (allocates_latched h).mp hl with hl | hl
    · exact absurd hl (by simp [Layout.start])
    · exact absurd hl (by simp [cached, Layout.start])

theorem mem_allocatedEps_of (h : Allocates l.start rs s₀)
    (hu : s.inner.usedDqhs = s₀.inner.usedDqhs)
    {r : Request} (hr : r ∈ rs) : r.ep ∈ allocatedEps s := by
  rw [mem_allocatedEps, hu, ← isEpBeingUsed_iff, allocates_used h]
  exact .inr ⟨r, hr, rfl⟩

theorem enumerating_follows (h : Enumerating s₀ x) (hf : Follows x.usbd t) :
    Enumerating s₀ ⟨t, x.log⟩ :=
  ⟨hf.used.trans h.used, fun b => by rw [hf.enabled, h.enabled], hf.waits h.waits⟩

theorem enumerating_call (h : Enumerating s₀ x) {c : Call} {r : Response}
    (hc : ∀ addr gaps, c ≠ .setDeviceAddress addr gaps) (hf : Follows x.usbd t) :
    Enumerating s₀ ⟨t, x.log ++ [(c, r)]⟩ := by
  have hnext := enumerating_follows h hf
  refine ⟨hnext.used, fun b => ?_, hnext.waits⟩
  rw [hnext.enabled, addressed_append]
  exact ⟨.inl, fun hor => hor.resolve_right fun ⟨addr, gaps, heq⟩ => hc addr gaps heq⟩

theorem follows_reset {wait : List (List HwEvent)} (he : ∀ e ∈ wait.flatten, orderly e = true)
    (h : Bus.reset s wait = .ok t) : Follows s t := by
  obtain ⟨u, hu, rfl⟩ := reset_ok h
  have hcleared : Follows s (cleared s) :=
    (follows_acknowledge s s.endptsetupstat).trans (follows_same rfl rfl rfl id)
  have hflushed : Follows u (flushed u) := follows_same rfl rfl rfl id
  exact (hcleared.trans (follows_waitFor he hu)).trans hflushed

theorem enumerating_addressed (h : Enumerating s₀ x) (addr : BitVec 8)
    {gaps : EndpointAddress → List HwEvent} {r : Response}
    (he : ∀ ep, ∀ e ∈ gaps ep, orderly e = true)
    (hdir : ∀ isOut, ∃ ep ∈ allocatedEps x.usbd, ep.isOut = isOut) :
    Enumerating s₀ ⟨Bus.setDeviceAddress x.usbd addr gaps,
      x.log ++ [(Call.setDeviceAddress addr gaps, r)]⟩ := by
  refine ⟨?_, fun isOut => ?_, waits_setDeviceAddress he addr h.waits⟩
  · rw [(setDeviceAddress_frame x.usbd addr).inner]
    exact h.used
  · rw [enabled_setDeviceAddress, addressed_append]
    exact iff_of_true (.inr (hdir isOut)) (.inr ⟨addr, gaps, rfl⟩)

theorem enumerating_step (h : Enumerating s₀ x) {e : Event} (he : Enumerates e)
    (hdir : ∀ isOut, ∃ ep ∈ allocatedEps x.usbd, ep.isOut = isOut) (hs : step l x e = some y) :
    Enumerating s₀ y := by
  cases e with
  | hw e =>
    obtain ⟨ht, hlog⟩ := step_hw hs
    have hnext := enumerating_follows h (follows_hwStep he ht)
    rw [← hlog] at hnext
    exact hnext
  | call c =>
    obtain ⟨-, r, hc, hlog⟩ := step_call hs
    obtain ⟨t, log⟩ := y
    dsimp only at hc hlog
    subst hlog
    cases c with
    | allocEp dir addr ty n => exact he.elim
    | enable =>
      cases hc
      exact enumerating_call h (fun _ _ heq => by cases heq) (follows_same rfl rfl rfl id)
    | setDeviceAddress addr gaps =>
      cases hc
      exact enumerating_addressed h addr (fun ep e hmem => he e ⟨ep, hmem⟩) hdir
    | reset wait =>
      obtain ⟨u, hu, heq⟩ := map_ok hc
      cases heq
      exact enumerating_call h (fun _ _ heq => by cases heq) (follows_reset he hu)
    | poll h₁ h₂ =>
      obtain ⟨p, hp, heq⟩ := map_ok hc
      cases heq
      exact enumerating_call h (fun _ _ heq => by cases heq) (follows_poll he hp)
    | read ep buf hw =>
      obtain ⟨p, hp, heq⟩ := map_ok hc
      cases heq
      exact enumerating_call h (fun _ _ heq => by cases heq) (follows_read he hp)
    | startWrite ep bytes gap =>
      obtain ⟨p, hp, heq⟩ := map_ok hc
      cases heq
      exact enumerating_call h (fun _ _ heq => by cases heq) (follows_startWrite he hp)

theorem request_iff {setup : List UInt8} (h : supported setup = true) :
    (∃ t, request s setup = .ok t) ↔ (configures setup = true →
      ∀ ep ∈ allocatedEps s, s.endptctrl1.getLsbD (enableBit ep.isOut) = true) := by
  rw [supported, Bool.and_eq_true, decide_eq_true_eq] at h
  obtain ⟨hlen, hkind⟩ := h
  obtain ⟨a, b, c, d, rest, rfl⟩ : ∃ a b c d rest, setup = a::b::c::d::rest := by
    rcases setup with _ | ⟨a, _ | ⟨b, _ | ⟨c, _ | ⟨d, rest⟩⟩⟩⟩
    · cases hlen
    · cases hlen
    · cases hlen
    · cases hlen
    · exact ⟨a, b, c, d, rest, rfl⟩
  have hcases : (a = 0 ∧ b = 5) ∨ (a = 0 ∧ b = 9) ∨ (a = 1 ∧ b = 11) ∨ (a = 128 ∧ b = 6) := by
    simpa using hkind
  rcases hcases with ⟨rfl, rfl⟩ | ⟨rfl, rfl⟩ | ⟨rfl, rfl⟩ | ⟨rfl, rfl⟩
  · exact iff_of_true ⟨s, rfl⟩ fun hconf => by cases hconf
  · rw [← resetEps_iff]
    exact ⟨fun hok _ => hok, fun hok => hok rfl⟩
  · rw [← resetEps_iff]
    exact ⟨fun hok _ => hok, fun hok => hok rfl⟩
  · exact iff_of_true ⟨_, rfl⟩ fun hconf => by cases hconf

theorem read_setup_eq (ep : EndpointAddress) (hv : ep.isValid = true) (buf : Lent) (hw : During)
    (hcap : 8 ≤ buf.cap) (hcached : cached s ep.index = true) : ∃ v bytes,
      v = (tripwire (acknowledged s ep hw) (epaddr2dqhidx ep) hw.rounds).1 ∧
      bytes = (tripwire (acknowledged s ep hw) (epaddr2dqhidx ep) hw.rounds).2 ∧
      Bus.read s ep buf hw = (request (clearInterrupt (disarm v)) bytes).map
        fun t => (t, .ok bytes) := by
  refine ⟨_, _, rfl, rfl, ?_⟩
  have htaken := takeSetup_taken s ep
  rw [hcached] at htaken
  have hq : getDqh ep = some (epaddr2dqhidx ep) := if_pos (of_decide_eq_true hv)
  unfold Bus.read
  rw [show takeSetup s ep = ((takeSetup s ep).1, true) from Prod.ext rfl htaken]
  simp only [hq, if_true, readSetup, require_true (decide_eq_true hcap), ok_bind]
  unfold acknowledged
  cases request (clearInterrupt (disarm _)) _ with
  | error e => rfl
  | ok t => rfl

/-- In every run in which the host only sends supported requests, a read of a SETUP packet returns
it exactly if no endpoint is reset before the device address has been set. -/
theorem requests_answered (l : Layout) (rs : List Request) (s₀ : Usbd) (es : List Event)
    (y : Session) (buf : Lent) (hw : During) (halloc : Allocates l.start rs s₀)
    (hout : ∃ r ∈ rs, r.ep = ⟨0, .out⟩) (hin : ∃ r ∈ rs, r.ep = ⟨0, .in⟩)
    (hes : ∀ e ∈ es, Enumerates e) (hs : exec (step l) es ⟨s₀, []⟩ = some y)
    (hcached : cached y.usbd 0 = true) (hcap : 8 ≤ buf.cap)
    (hhw : ∀ e ∈ hw.before ++ hw.rounds.flatten, orderly e = true) :
    (∃ t bytes, Bus.read y.usbd ⟨0, .out⟩ buf hw = .ok (t, .ok bytes) ∧ bytes.length = 8) ↔
      (configures (packet y.usbd hw) = true → Addressed y.log) := by
  have hmem : ∀ {u : Usbd}, u.inner.usedDqhs = s₀.inner.usedDqhs →
      ∀ isOut, ∃ ep ∈ allocatedEps u, ep.isOut = isOut := by
    intro u hu isOut
    cases isOut with
    | true =>
      obtain ⟨r, hr, hep⟩ := hout
      exact ⟨r.ep, mem_allocatedEps_of halloc hu hr, by rw [hep]; rfl⟩
    | false =>
      obtain ⟨r, hr, hep⟩ := hin
      exact ⟨r.ep, mem_allocatedEps_of halloc hu hr, by rw [hep]; rfl⟩
  have hrun : Enumerating s₀ y := exec_invariant_along
    (fun x e z hx he hz => enumerating_step hx he (hmem hx.used) hz) es
    (enumerating_start halloc) (along_of_forall hes _) hs
  have hused : y.usbd.inner.usedDqhs.getLsbD 0 = true := by
    obtain ⟨r, hr, hep⟩ := hout
    have hall := (mem_allocatedEps _ _).mp (mem_allocatedEps_of halloc hrun.used hr)
    rwa [hep] at hall
  obtain ⟨hpacket, hfollows⟩ := taken_packet hhw hused
  obtain ⟨v, bytes, rfl, rfl, hread⟩ := read_setup_eq ⟨0, .out⟩ rfl buf hw hcap hcached
  rw [show epaddr2dqhidx ⟨0, .out⟩ = 0 from rfl, hpacket] at hread
  have hsup : supported (packet y.usbd hw) = true :=
    lastSetup_supported (fun e he => hhw e (List.mem_append.mpr ((List.mem_append.mp he).imp id
      mem_disturbed))) (hrun.waits (.inr hcached))
  have hlen : (packet y.usbd hw).length = 8 := by
    rw [supported, Bool.and_eq_true, decide_eq_true_eq] at hsup
    exact hsup.1
  generalize (tripwire (acknowledged y.usbd ⟨0, .out⟩ hw) 0 hw.rounds).1 = v at hread hfollows
  have hdone : Follows y.usbd (clearInterrupt (disarm v)) :=
    hfollows.trans (follows_same rfl rfl rfl id)
  have hrequest := request_iff (s := clearInterrupt (disarm v)) hsup
  have henabled : (∀ ep ∈ allocatedEps (clearInterrupt (disarm v)),
      (clearInterrupt (disarm v)).endptctrl1.getLsbD (enableBit ep.isOut) = true) ↔
      Addressed y.log := by
    constructor
    · intro hall
      obtain ⟨ep, hep, -⟩ := hmem (hdone.used.trans hrun.used) true
      exact (hrun.enabled ep.isOut).mp ((hdone.enabled ep.isOut).symm.trans (hall ep hep))
    · exact fun ha ep _ => (hdone.enabled ep.isOut).trans ((hrun.enabled ep.isOut).mpr ha)
  rw [henabled] at hrequest
  rw [← hrequest, hread]
  constructor
  · rintro ⟨t, bytes, hok, -⟩
    obtain ⟨u, hu, -⟩ := map_ok hok
    exact ⟨u, hu⟩
  · rintro ⟨u, hu⟩
    rw [hu]
    exact ⟨u, _, rfl, hlen⟩

def controlPair : List Request := [⟨⟨0, .out⟩, .control, 64⟩, ⟨⟨0, .in⟩, .control, 64⟩]

def setAddress : List UInt8 := [0, 5, 1, 0, 0, 0, 0, 0]
def setConfiguration : List UInt8 := [0, 9, 1, 0, 0, 0, 0, 0]

def sends (setup : List UInt8) : List Event := [.hw (.setup 0 setup), .call (.poll [] [])]

def readsSetup : Event := .call (.read ⟨0, .out⟩ ⟨1024, 8⟩ ⟨[], [], []⟩)

def addressed : List Event :=
  sends setAddress ++ [readsSetup, .call (.setDeviceAddress 1 fun _ => [])] ++
    sends setConfiguration

theorem controlPair_allocates : (allocEps statics.start controlPair).isSome = true := by
  decide

def controlled : Usbd := (allocEps statics.start controlPair).get controlPair_allocates

theorem addressed_runs : (exec (step statics) addressed ⟨controlled, []⟩).isSome = true := by
  decide +kernel

theorem requests_answered_addressed : ∃ t bytes,
    Bus.read ((exec (step statics) addressed ⟨controlled, []⟩).get addressed_runs).usbd ⟨0, .out⟩
      ⟨1024, 8⟩ ⟨[], [], []⟩ = .ok (t, .ok bytes) ∧ bytes.length = 8 :=
  (requests_answered statics controlPair controlled addressed _ ⟨1024, 8⟩ ⟨[], [], []⟩
    (allocates_of_allocEps (Option.some_get controlPair_allocates).symm)
    ⟨_, List.mem_cons_self, rfl⟩ ⟨_, List.mem_cons_of_mem _ List.mem_cons_self, rfl⟩
    (by simp [addressed, sends, readsSetup, Enumerates, Meanwhile, orderly, supported, setAddress,
      setConfiguration])
    (Option.some_get addressed_runs).symm (by decide +kernel) (by decide) (by simp)).mpr
    fun _ => ⟨1, _, .done, List.mem_of_getElem? (i := 2) rfl⟩

theorem configured_runs :
    (exec (step statics) (sends setConfiguration) ⟨controlled, []⟩).isSome = true := by
  decide +kernel

/-- The configuration is the first request. -/
theorem requests_answered_not : (∀ e ∈ sends setConfiguration, Enumerates e) ∧
    Bus.read ((exec (step statics) (sends setConfiguration) ⟨controlled, []⟩).get
      configured_runs).usbd ⟨0, .out⟩ ⟨1024, 8⟩ ⟨[], [], []⟩ = .error .panic :=
  ⟨by simp [sends, Enumerates, Meanwhile, orderly, supported, setConfiguration], rfl⟩

end UsbArmory.Usb.Enumeration
