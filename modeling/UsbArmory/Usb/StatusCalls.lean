import UsbArmory.Usb.BusReset
import UsbArmory.Usb.StatusPoll

/-!
# The STATUS OUT flags from call to call

Polls, writes and reads keep the flags in step with the request that the
monitor follows.
-/

set_option autoImplicit false

namespace UsbArmory.Usb.StatusCalls
open UsbArmory.Library.Bits UsbArmory.Library.Run UsbArmory.Usb.Descriptors
open UsbArmory.Usb.Controller UsbArmory.Usb.Bus UsbArmory.Usb.Endpoint UsbArmory.Usb.Effects
open UsbArmory.Usb.Write UsbArmory.Usb.Poll UsbArmory.Usb.Read UsbArmory.Usb.ReadFrame
open UsbArmory.Usb.Configure UsbArmory.Usb.Invariant UsbArmory.Usb.Runs UsbArmory.Usb.ResetSteps
open UsbArmory.Usb.BusReset UsbArmory.Usb.Rest UsbArmory.Usb.RestCalls
open UsbArmory.Usb.StatusOut UsbArmory.Usb.StatusPoll

variable {l : Layout} {plan : ℕ → ℕ} {w w' : Watched} {s t : Usbd} {m : Monitor}

structure Followed (w : Watched) : Prop where
  steady : Steady Staged w.usbd
  fresh : Fresh (view w.usbd controlIn)
  flags : Flags w.usbd w.monitor.current

theorem observe_poll (plan : ℕ → ℕ) (s : Usbd) (m : Monitor) (h₁ h₂ : List HwEvent)
    (r : PollResult) : (observe plan s m (.poll h₁ h₂) (.polled r)).current =
      m.current.map fun q => after q r := by
  cases r with
  | data => rfl
  | none | reset => exact Option.map_id'.symm

theorem flags_after {o : Option Request} {r : PollResult} (hf : Flags s o)
    (hquiet : Quiet s → Quiet t)
    (hdescribing : ∀ q ∈ o, Describing s q → Describing t (after q r)) :
    Flags t (o.map fun q => after q r) := by
  cases o with
  | none => exact hquiet hf
  | some q =>
    have hsame : (after q r).describes = q.describes := by cases r <;> rfl
    show Flags t (some (after q r))
    rw [Flags, hsame]
    by_cases hd : q.describes = true
    · rw [if_pos hd]
      exact hdescribing q rfl (flags_describing hf hd)
    · rw [Flags, if_neg hd] at hf
      rw [if_neg hd]
      exact hquiet hf

theorem flags_poll (hw : Followed w) {h₁ h₂ : List HwEvent} {r : PollResult}
    (hi : InStep w (.call (.poll h₁ h₂))) (hc : Bus.poll w.usbd h₁ h₂ = .ok (t, r)) :
    Flags t (w.monitor.current.map fun q => after q r) := by
  by_cases hreset : reportsReset w.usbd
  · rw [poll_reset hreset] at hc
    cases hc
    rw [show (w.monitor.current.map fun q => after q .reset) = w.monitor.current from
      Option.map_id']
    exact flags_congr hw.flags rfl rfl fun h => h.congr rfl
  · have htook := took hw.steady.toGood hw.fresh hreset hc
    refine flags_after hw.flags (quiet_poll htook) fun q hq hd => ?_
    refine describing_poll htook hd (rest_incomplete htook rfl hw.steady.rest) fun hne hlt => ?_
    exact (findsIn_iff _ _ _).mp ((hi hne q hq hlt).resolve_left hreset)

theorem flags_startWrite (hw : Followed w) {ep : EndpointAddress} {bytes : List UInt8}
    {gap : List HwEvent} {r : Except UsbError ℕ}
    (ha : Answers w (.call (.startWrite ep bytes gap)))
    (hi : Unrenewed controlIn w.usbd (.startWrite ep bytes gap))
    (hc : Bus.startWrite w.usbd ep bytes gap = .ok (t, r)) :
    Flags t (observe plan w.usbd w.monitor (.startWrite ep bytes gap) (.written r)).current := by
  rcases startWrite_ok hc with ⟨rfl, e, rfl⟩ | ⟨-, rfl⟩
  · exact hw.flags
  · obtain ⟨b64s, b512s, hinner⟩ := startWrite_inner hc
    have hpre : t.inner.preStatusOut = w.usbd.inner.preStatusOut := by rw [hinner]
    have hstatus : t.inner.statusOut = w.usbd.inner.statusOut := by rw [hinner]
    by_cases hep : ep = controlIn
    · simp only [observe, if_pos hep]
      have hflags := hw.flags
      have hanswer := ha hep
      cases ho : w.monitor.current with
      | none =>
        rw [ho] at hflags
        exact ⟨hpre.trans hflags.1, hstatus.trans hflags.2⟩
      | some q =>
        rw [ho] at hflags hanswer
        show Flags t (some { q with written := q.written + 1 })
        by_cases hd : q.describes = true
        · have h := flags_describing hflags hd
          obtain ⟨hlt, heq⟩ := hanswer q rfl hd
          rw [Flags, if_pos hd]
          exact { h with
            sent_le := Nat.le_succ_of_le h.sent_le
            written_le := hlt
            one := by
              show q.written + 1 ≤ q.sent + 1
              omega
            rest := fun hrest => by
              have hnext : q.written + 1 = q.sent := hrest
              omega
            pre := hpre.trans h.pre
            status := hstatus.trans h.status }
        · rw [Flags, if_neg hd] at hflags ⊢
          exact ⟨hpre.trans hflags.1, hstatus.trans hflags.2⟩
    · simp only [observe, if_neg hep]
      exact flags_congr hw.flags hpre hstatus fun h =>
        startWrite_rest rfl (Ne.symm hep) h hi hc

theorem read_setup {ep : EndpointAddress} {buf : Lent} {hw : During}
    {r : Except UsbError (List UInt8)} (hc : Bus.read s ep buf hw = .ok (t, r))
    (ht : takesSetup s ep = true) : r = .ok (setupPacket s ep hw) := by
  obtain ⟨h0, hcached⟩ : ep.index = 0 ∧ cached s 0 = true := by
    simpa [takesSetup] using ht
  have hv : ep.isValid = true := by
    apply decide_eq_true
    unfold epaddr2dqhidx endpoints
    split <;> omega
  rcases read_ok hc with ⟨-, hno, -⟩ | ⟨-, ⟨-, bytes, hr, rfl⟩ | ⟨hno, -⟩ | ⟨hno, -⟩⟩
  · cases hv.symm.trans hno
  · unfold readSetup at hr
    obtain ⟨_, -, hr⟩ := bind_ok hr
    obtain ⟨v, -, hr⟩ := bind_ok hr
    cases hr
    rfl
  · rw [h0] at hno
    cases hcached.symm.trans hno
  · rw [h0] at hno
    cases hcached.symm.trans hno

theorem flags_read (hplan : ∀ n, 1 ≤ plan n) (hw : Followed w) {ep : EndpointAddress}
    {buf : Lent} {during : During} {r : Except UsbError (List UInt8)} (hout : ep.isOut = true)
    (ha : Answers w (.call (.read ep buf during))) (hi : InStep w (.call (.read ep buf during)))
    (hc : Bus.read w.usbd ep buf during = .ok (t, r)) :
    Flags t (observe plan w.usbd w.monitor (.read ep buf during) (.read r)).current := by
  have hread := read_frame hw.steady.single hc
  have hne : controlIn ≠ ep := by
    rintro rfl
    cases hout
  have hrest : AtRest w.usbd controlIn → AtRest t controlIn := fun h =>
    read_rest rfl hne h hi.1 hc
  have hstatus : t.inner.statusOut = w.usbd.inner.statusOut := by rw [hread.inner]
  cases ht : takesSetup w.usbd ep with
  | true =>
    obtain ⟨hzero, hcase⟩ := hi.2 ht
    obtain ⟨h0, hcached⟩ : ep.index = 0 ∧ cached w.usbd 0 = true := by
      simpa [takesSetup] using ht
    have hbytes := read_setup hc ht
    subst hbytes
    simp only [observe, ht, if_true]
    have hpre : t.inner.preStatusOut =
        if isGetDescriptor (setupPacket w.usbd ep during) then 1 else
          w.usbd.inner.preStatusOut := by
      rcases hread.pre with ⟨bytes, -, heq, hpre⟩ | ⟨hno, -⟩
      · cases heq
        exact hpre
      · have hfalse := hno _ rfl
        rw [h0] at hfalse
        cases hcached.symm.trans hfalse
    cases hget : isGetDescriptor (setupPacket w.usbd ep during) with
    | true =>
      rw [hget] at hpre hcase
      exact {
        some_packet := hplan _
        sent_le := Nat.le_refl 0
        written_le := Nat.zero_le _
        one := Nat.zero_le _
        reports_le := Nat.zero_le _
        reported := fun hne => absurd rfl hne
        rest := fun _ => hrest hcase
        pre := hpre
        status := hstatus.trans hzero }
    | false =>
      rw [hget] at hpre hcase
      exact ⟨hpre.trans hcase, hstatus.trans hzero⟩
  | false =>
    have hnot : cached w.usbd ep.index = false := by
      rcases ha with h0 | hno
      · rw [h0]
        simpa [takesSetup, h0] using ht
      · exact hno
    have hpre : t.inner.preStatusOut = w.usbd.inner.preStatusOut := by
      rcases hread.pre with ⟨_, hyes, -⟩ | ⟨-, hpre⟩
      · cases hyes.symm.trans hnot
      · exact hpre
    have hsame : observe plan w.usbd w.monitor (.read ep buf during) (.read r) = w.monitor := by
      cases r with
      | error => rfl
      | ok bytes => simp [observe, ht]
    rw [hsame]
    exact flags_congr hw.flags hpre hstatus hrest

theorem flags_reset {wait : List (List HwEvent)} (hi : InStep w (.call (.reset wait)))
    (hc : Bus.reset w.usbd wait = .ok t) : Quiet t := by
  have hinner := reset_inner hc
  constructor
  · rw [hinner]
    exact hi.2
  · rw [hinner]
    exact hi.1

theorem flags_call (hplan : ∀ n, 1 ≤ plan n) (hw : Followed w) {c : Call} {r : Response}
    (ha : Answers w (.call c)) (hi : InStep w (.call c)) (hal : Allowed l c)
    (hc : call w.usbd c = .ok (t, r)) :
    Flags t (observe plan w.usbd w.monitor c r).current := by
  cases c with
  | allocEp dir addr ty n =>
    obtain ⟨p, hp, heq⟩ := map_ok hc
    cases heq
    rcases allocEp_ok hp with ⟨ht, -⟩ | ⟨ep, hep, -⟩
    · rw [ht]
      exact hw.flags
    · obtain ⟨-, -, d, rest, caps, b64s, b512s, addr, dtd, -, -, -, ht⟩ := hep
      refine flags_congr hw.flags ?_ ?_ fun h => allocEp_rest h hp
      · rw [ht]
      · rw [ht]
  | enable =>
    cases hc
    exact flags_congr hw.flags rfl rfl fun h => h.congr rfl
  | setDeviceAddress addr gaps =>
    cases hc
    have hinner : (Bus.setDeviceAddress w.usbd addr gaps).inner = w.usbd.inner :=
      (setDeviceAddress_frame w.usbd addr).inner
    refine flags_congr hw.flags ?_ ?_ fun h =>
      setDeviceAddress_rest hw.steady.toGood rfl rfl h hi
    · rw [hinner]
    · rw [hinner]
  | reset wait =>
    obtain ⟨v, hv, heq⟩ := map_ok hc
    cases heq
    exact flags_reset hi hv
  | poll h₁ h₂ =>
    obtain ⟨p, hp, heq⟩ := map_ok hc
    cases heq
    rw [observe_poll]
    exact flags_poll hw hi hp
  | read ep buf hw' =>
    obtain ⟨p, hp, heq⟩ := map_ok hc
    cases heq
    exact flags_read hplan hw hal.1 ha hi hp
  | startWrite ep bytes gap =>
    obtain ⟨p, hp, heq⟩ := map_ok hc
    cases heq
    exact flags_startWrite hw ha hi hp

theorem unrenewed_of_inStep {c : Call} (hi : InStep w (.call c)) :
    Unrenewed controlIn w.usbd c := by
  cases c with
  | allocEp | enable | reset | poll => trivial
  | read ep buf hw' => exact hi.1
  | setDeviceAddress addr gaps => exact hi
  | startWrite ep bytes gap => exact hi

theorem followed_step (hplan : ∀ n, 1 ≤ plan n) (hw : Followed w) {e : Event}
    (ha : Answers w e) (hi : InStep w e) (hs : watch l plan w e = some w') : Followed w' := by
  cases e with
  | hw e =>
    obtain ⟨hstep, hm⟩ := watch_hw hs
    have hinner := (hwStep_frame e hstep).inner
    constructor
    · exact steady_hwStep kept_staged hw.steady e hstep
    · exact still_fresh rfl _ _ e hw.fresh hstep
    · rw [hm]
      refine flags_congr hw.flags ?_ ?_ fun h => h.congr (rest_hwStep rfl h hstep)
      · rw [hinner]
      · rw [hinner]
  | call c =>
    obtain ⟨hal, r, hc, hm⟩ := watch_call hs
    constructor
    · exact steady_anyCall kept_staged wipes_staged hw.steady hal hc
    · exact fresh_call hw.steady.toGood hal rfl rfl hw.fresh (unrenewed_of_inStep hi) hc
    · rw [hm]
      exact flags_call hplan hw ha hi hal hc

theorem followed_begun (l : Layout) : Followed (begun l) := by
  have hsteady := steady_start Staged l
  have hblank : view l.start controlIn = blank := hsteady.free controlIn rfl (by
    simp [isEpBeingUsed, Layout.start])
  refine ⟨hsteady, fun hp => ?_, rfl, rfl⟩
  rw [show view (begun l).usbd controlIn = blank from hblank] at hp
  cases hp

end UsbArmory.Usb.StatusCalls
