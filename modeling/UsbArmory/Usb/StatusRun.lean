import UsbArmory.Usb.StatusCalls

/-!
# When a STATUS OUT is reported

A run in which the driver keeps in step reports one STATUS OUT for each
GET_DESCRIPTOR that is answered, after the last packet, and no other.
-/

set_option autoImplicit false

namespace UsbArmory.Usb.StatusRun
open UsbArmory.Library.Bits UsbArmory.Library.Run UsbArmory.Usb.Descriptors
open UsbArmory.Usb.Controller UsbArmory.Usb.Bus UsbArmory.Usb.Endpoint
open UsbArmory.Usb.Poll UsbArmory.Usb.Invariant UsbArmory.Usb.Runs
open UsbArmory.Usb.Rest UsbArmory.Usb.StatusOut UsbArmory.Usb.StatusPoll
open UsbArmory.Usb.StatusCalls

variable {w : Watched} {t : Usbd} {h₁ h₂ : List HwEvent} {r : PollResult}

theorem reported_due (hw : Followed w) (hi : InStep w (.call (.poll h₁ h₂)))
    (hn : ¬reportsReset w.usbd) (hc : Bus.poll w.usbd h₁ h₂ = .ok (t, r))
    {epOut epInComplete epSetup : BitVec 16} (hr : r = .data epOut epInComplete epSetup)
    (hbit : epOut.getLsbD 0 = true) : ∃ q ∈ w.monitor.current,
      q.describes = true ∧ q.sent = q.packets ∧ q.reports = 0 := by
  have htook := took hw.steady.toGood hw.fresh hn hc
  have hnone : (atComplete w.usbd h₁ h₂).endptcomplete.getLsbD 0 = false :=
    rest_incomplete htook rfl hw.steady.rest
  have hresult := htook.polled.result
  rw [hr] at hresult
  cases hresult with
  | data _ _ _ _ hout _ _ => cases hbit.symm.trans ((hout 0 (by decide)).trans hnone)
  | statusOut hb _ hin =>
    have hne : w.usbd.inner.statusOut ≠ 0 := by
      rw [← htook.status]
      exact hb
    obtain ⟨q, hq, hd, h, -, hzero⟩ := flags_due hw.flags hne
    have hlast : ¬q.sent < q.packets := by
      intro hlt
      obtain ⟨i, hyes⟩ := (findsIn_iff _ _ _).mp ((hi hne q hq hlt).resolve_left hn)
      cases hyes.symm.trans (hin i)
    have hsent := h.sent_le
    have hwritten := h.written_le
    exact ⟨q, hq, hd, by omega, hzero⟩

theorem due_reported (hw : Followed w) (hn : ¬reportsReset w.usbd)
    (hc : Bus.poll w.usbd h₁ h₂ = .ok (t, r)) {q : Request} (hq : w.monitor.current = some q)
    (hd : q.describes = true) (hlast : q.sent = q.packets) (hzero : q.reports = 0)
    (hfind : ¬FindsIn w.usbd h₁ h₂) : ∃ epOut epInComplete epSetup,
      r = .data epOut epInComplete epSetup ∧ epOut.getLsbD 0 = true := by
  have htook := took hw.steady.toGood hw.fresh hn hc
  have hflags := hw.flags
  rw [hq] at hflags
  have h := flags_describing hflags hd
  have hsome := h.some_packet
  have hone : (atComplete w.usbd h₁ h₂).inner.statusOut = 1 := by
    rw [htook.status, h.status, if_neg]
    omega
  have hno : ∀ i, (atComplete w.usbd h₁ h₂).endptcomplete.getLsbD (16 + i) = false := by
    intro i
    by_contra hyes
    exact hfind ((findsIn_iff _ _ _).mpr ⟨i, by simpa using hyes⟩)
  cases htook.polled.result with
  | none _ _ hb => cases hb.symm.trans hone
  | statusOut => exact ⟨_, _, _, rfl, by rw [hone]; rfl⟩
  | data epOut epInComplete _ hin _ hstatus =>
    rcases hstatus with hb | hne
    · cases hb.symm.trans hone
    · obtain ⟨i, hi⟩ := (ne_zero_iff _).mp hne
      cases hi.symm.trans ((hin i).trans (hno i))

theorem followed_reported (hw : Followed w) {e : Event} (hi : InStep w e) : Reported w e := by
  cases e with
  | hw e => trivial
  | call c =>
    cases c with
    | poll h₁ h₂ =>
      intro t r hc
      by_cases hn : reportsReset w.usbd
      · rw [poll_reset hn] at hc
        cases hc
        exact ⟨fun _ _ _ hr => (nomatch hr), fun _ _ _ _ _ hr => absurd rfl hr⟩
      · exact ⟨fun _ _ _ hr hbit => reported_due hw hi hn hc hr hbit,
          fun q hq hd hlast hzero _ hfind => due_reported hw hn hc hq hd hlast hzero hfind⟩
    | _ => trivial

/-- Where every step of the run keeps to it, a STATUS OUT is reported after the
data phase of a GET_DESCRIPTOR and not otherwise. -/
theorem reported_of_inStep (l : Layout) (plan : ℕ → ℕ) (hplan : ∀ n, 1 ≤ plan n)
    (es : List Event) (ha : Along (watch l plan) Answers es (begun l))
    (hi : Along (watch l plan) InStep es (begun l)) :
    Along (watch l plan) Reported es (begun l) := by
  refine along_of_invariant (I := Followed) ?_ ?_ es (followed_begun l) (along_and es _ ha hi)
  · intro w e w' hw hp hs
    exact followed_step hplan hw hp.1 hp.2 hs
  · intro w e hw hp
    exact followed_reported hw hp.2

/-- The host sends a SETUP packet and the stack reads it. -/
def asked (setup : List UInt8) : List Event :=
  [.hw (.setup 0 setup), .call (.poll [] []), .call (.read ⟨0, .out⟩ ⟨1024, 8⟩ ⟨[], [], []⟩)]

def allocated : List Event :=
  [.call (.allocEp .out (some ⟨0, .out⟩) .control 64),
    .call (.allocEp .in (some ⟨0, .in⟩) .control 64)]

def answered (bytes : List UInt8) : List Event :=
  [.call (.startWrite ⟨0, .in⟩ bytes []), .hw (.fetch ⟨0, .in⟩), .hw (.load ⟨0, .in⟩),
    .hw (.sent ⟨0, .in⟩ 0), .call (.poll [] [])]

def polled : Event := .call (.poll [] [])

def describe : List UInt8 := [128, 6, 0, 1, 0, 0, 18, 0]
def address : List UInt8 := [0, 5, 1, 0, 0, 0, 0, 0]

def orderly : List Event :=
  allocated ++ asked describe ++ answered [1] ++ answered [2] ++ [polled] ++ asked address ++
    answered [] ++ [polled]

theorem reported_orderly :
    (exec (watch smallLayout fun _ => 2) orderly (begun smallLayout)).isSome = true ∧
      Along (watch smallLayout fun _ => 2) Reported orderly (begun smallLayout) :=
  ⟨by decide +kernel, reported_of_inStep smallLayout (fun _ => 2) (fun _ => by decide) orderly
    (by decide +kernel) (by decide +kernel)⟩

/-- The poll comes between the two packets of a descriptor. -/
def early : List Event := allocated ++ asked describe ++ answered [1]

/-- The host gives up the descriptor and sets the address. -/
def aborted : List Event := allocated ++ asked describe ++ asked address ++ answered []

theorem early_runs :
    (exec (watch smallLayout fun _ => 2) early (begun smallLayout)).isSome = true := by
  decide +kernel

theorem aborted_runs :
    (exec (watch smallLayout fun _ => 2) aborted (begun smallLayout)).isSome = true := by
  decide +kernel

def reportsOut (s : Usbd) : Bool :=
  match Bus.poll s [] [] with
  | .ok (_, .data epOut _ _) => epOut.getLsbD 0
  | _ => false

theorem reported_polled (h : Reported w polled) (hr : reportsOut w.usbd = true) :
    ∃ q ∈ w.monitor.current, q.describes = true ∧ q.sent = q.packets := by
  unfold reportsOut at hr
  split at hr
  next t epOut epInComplete epSetup heq =>
    obtain ⟨q, hq, hd, hsent, -⟩ := (h t _ heq).1 epOut epInComplete epSetup rfl hr
    exact ⟨q, hq, hd, hsent⟩
  next => cases hr

/-- The STATUS OUT is reported after the first packet, and for a request that
has no data phase. -/
theorem early_and_aborted :
    (Along (watch smallLayout fun _ => 2) Answers (early ++ [polled]) (begun smallLayout) ∧
      ¬Along (watch smallLayout fun _ => 2) Reported (early ++ [polled]) (begun smallLayout)) ∧
    (Along (watch smallLayout fun _ => 2) Answers (aborted ++ [polled]) (begun smallLayout) ∧
      ¬Along (watch smallLayout fun _ => 2) Reported (aborted ++ [polled])
        (begun smallLayout)) := by
  refine ⟨⟨by decide +kernel, fun h => ?_⟩, by decide +kernel, fun h => ?_⟩
  · have hlast := along_last early h (Option.some_get early_runs).symm
    exact absurd (reported_polled hlast (by decide +kernel)) (by decide +kernel)
  · have hlast := along_last aborted h (Option.some_get aborted_runs).symm
    exact absurd (reported_polled hlast (by decide +kernel)) (by decide +kernel)

end UsbArmory.Usb.StatusRun
