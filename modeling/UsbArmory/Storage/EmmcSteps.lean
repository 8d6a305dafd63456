import UsbArmory.Storage.EmmcInvariant

/-!
# The invariant over the steps of a call

A raised flag and each access of the driver keep what `Inv` says, if the step
is tidy.
-/

set_option autoImplicit false

namespace UsbArmory.Storage.EmmcSteps
open UsbArmory.Library.Latch UsbArmory.Library.Run UsbArmory.Storage.EmmcCommand
open UsbArmory.Storage.EmmcDriver UsbArmory.Storage.EmmcInvariant

variable {s t : State} {cmd : Command} {id : ℕ} {f : Flag} {word : UInt32} {reading debug : Bool}

theorem owned_after {g : Flag} (h : Owned s.intStatus s.issued g) (hin : id = s.issued ∨ g ≠ f) :
    Owned (s.raise id f word).intStatus s.issued g := by
  rcases hin with rfl | hne
  · exact owned_raise h
  · have hsame : (s.raise id f word).intStatus g = s.intStatus g := raise_of_ne hne
    intro p hp
    rw [hsame] at hp
    exact h p hp

theorem sender_after (h : s.cmdRsp0.sender = s.issued) (hin : id = s.issued ∨ f ≠ .cc) :
    (s.raise id f word).cmdRsp0.sender = s.issued := by
  by_cases hf : f = .cc
  · rw [State.raise, if_pos hf]
    exact hin.resolve_right (not_not_intro hf)
  · rw [State.raise, if_neg hf]
    exact h

theorem during_raise (h : During s cmd)
    (hin : id = s.issued ∨ (f ≠ .cc ∧ f ≠ .dint ∧ (f = .tc → cmd.dataPresent = false))) :
    During (s.raise id f word) cmd where
  cc := owned_after h.cc (hin.imp_right fun hf => hf.1.symm)
  dint := owned_after h.dint (hin.imp_right fun hf => hf.2.1.symm)
  tc hdata := owned_after (h.tc hdata) (hin.imp_right fun hf htc => by
    rw [hf.2.2 htc.symm] at hdata
    cases hdata)
  sender hcc := by
    by_cases hf : f = .cc
    · rw [State.raise, if_pos hf]
      exact hin.resolve_right fun hlate => hlate.1 hf
    · have hsame : (s.raise id f word).intStatus .cc = s.intStatus .cc :=
        raise_of_ne (Ne.symm hf)
      rw [hsame] at hcc
      exact sender_after (h.sender hcc) (.inr hf)

theorem between_raise (h : Between s) (hcc : f ≠ .cc) (hdint : f ≠ .dint)
    (hfailed : failedCommand s ≠ some id) : Between (s.raise id f word) where
  cc := (raise_of_ne hcc.symm).trans h.cc
  dint := (raise_of_ne hdint.symm).trans h.dint
  noneLeft o ho g hin := by
    rcases mem_raise hin with hold | ⟨-, rfl⟩
    · exact h.noneLeft o ho g hold
    · exact hfailed ho

theorem raise_inv (hi : Inv s) (hid : id ≤ s.issued) (hin : InTime s id f) :
    Inv (s.raise id f word) := by
  refine ⟨fun g o ho => ?_, hi.last, ?_⟩
  · rcases mem_raise ho with hold | ⟨-, rfl⟩
    · exact hi.known g o hold
    · exact hid
  obtain ⟨pc, int, rsp0, arg, xfrTyp, issued, last⟩ := s
  have hphase := hi.phase
  have hcall : inFlight pc = true → (id = issued ∨
      (f ≠ .cc ∧ f ≠ .dint ∧ (f = .tc → dataCall pc = false))) := fun _ =>
    hin.imp And.right fun hlate => ⟨hlate.1, hlate.2.1, hlate.2.2.1⟩
  have hsender : inFlight pc = true → (id = issued ∨ f ≠ .cc) := fun hpc =>
    (hcall hpc).imp_right And.left
  cases pc with
  | idle =>
    obtain ⟨hcc, hdint, -, hfailed⟩ := hin.resolve_left fun hown => nomatch hown.1
    exact between_raise hphase hcc hdint (hfailed rfl)
  | entered cmd =>
    obtain ⟨hcc, hdint, htc, hfailed⟩ := hin.resolve_left fun hown => nomatch hown.1
    refine ⟨between_raise hphase.1 hcc hdint (hfailed rfl), fun hdata => ?_⟩
    have hne : Flag.tc ≠ f := fun heq => nomatch hdata.symm.trans (htc heq.symm)
    exact (raise_of_ne hne).trans (hphase.2 hdata)
  | waiting cmd => exact during_raise hphase (hcall rfl)
  | missed cmd => exact during_raise hphase (hcall rfl)
  | completed cmd seen =>
    refine ⟨during_raise hphase.1 (hcall rfl), fun hnone => ?_⟩
    obtain ⟨hseen, hown⟩ := hphase.2 hnone
    exact ⟨hseen, sender_after hown (hsender rfl)⟩
  | acknowledged cmd seen =>
    obtain ⟨hdur, hseen, hown⟩ := hphase
    exact ⟨during_raise hdur (hcall rfl), hseen, sender_after hown (hsender rfl)⟩
  | transferring cmd seen rsp => exact ⟨during_raise hphase.1 (hcall rfl), hphase.2⟩
  | stalled cmd seen rsp => exact ⟨during_raise hphase.1 (hcall rfl), hphase.2⟩
  | transferred cmd seen rsp done => exact ⟨during_raise hphase.1 (hcall rfl), hphase.2⟩

theorem issue_inv {w : UInt32} (hi : Inv s) (hpc : s.pc = .entered cmd) :
    Inv (s.issue cmd w) := by
  have hphase := hi.phase
  simp only [Phase, hpc] at hphase
  obtain ⟨hbetween, htc⟩ := hphase
  refine ⟨fun g o ho => Nat.le_succ_of_le (hi.known g o ho), hi.last, ?_⟩
  exact ⟨owned_nil hbetween.cc, owned_nil hbetween.dint, fun hdata => owned_nil (htc hdata),
    fun hset => absurd hbetween.cc hset⟩

theorem waiting_inv (hi : Inv s) (hpc : s.pc = .waiting cmd) :
    Inv (s.goto (if s.hasCommandCompleted then .completed cmd s.intStatus else .missed cmd)) := by
  have hdur : During s cmd := by
    have hphase := hi.phase
    simpa only [Phase, hpc] using hphase
  refine ⟨hi.known, hi.last, ?_⟩
  by_cases hdone : s.hasCommandCompleted = true
  · rw [if_pos hdone]
    refine ⟨hdur.goto _, fun hnone => ?_⟩
    have hset : isSet s.intStatus .cc = true := by
      rw [State.hasCommandCompleted, waitError_none hnone, Bool.false_or] at hdone
      exact hdone
    exact ⟨owned_mem hdur.cc hset, hdur.sender (isSet_iff.mp hset)⟩
  · rw [if_neg hdone]
    exact hdur.goto _

theorem transferring_inv {seen : IntStatus} {rsp : Reply} (hi : Inv s)
    (hpc : s.pc = .transferring cmd seen rsp) :
    Inv (s.goto (if s.hasTransferCompleted then .transferred cmd seen rsp s.intStatus
      else .stalled cmd seen rsp)) := by
  have hphase := hi.phase
  simp only [Phase, hpc] at hphase
  obtain ⟨hdur, hdata, hown⟩ := hphase
  refine ⟨hi.known, hi.last, ?_⟩
  by_cases hdone : s.hasTransferCompleted = true
  · rw [if_pos hdone]
    refine ⟨hdur.goto _, hown, fun hnone => ?_⟩
    have hset : isSet s.intStatus .tc = true ∧ isSet s.intStatus .dint = true := by
      rw [State.hasTransferCompleted, waitError_none hnone, Bool.false_or,
        Bool.and_eq_true] at hdone
      exact hdone
    exact ⟨owned_mem (hdur.tc hdata) hset.1, owned_mem hdur.dint hset.2⟩
  · rw [if_neg hdone]
    exact ⟨hdur.goto _, hdata, hown⟩

theorem errExit_fail {mask : Flag → Bool} (hmask : mask ∈ errExit s reading)
    (h : s.advance reading = some t) : ∃ e, t = s.fail mask e := by
  cases hpc : s.pc with
  | missed cmd | stalled cmd seen rsp =>
    simp only [errExit, hpc] at hmask
    simp only [State.advance, hpc] at h
    cases reading with
    | true =>
      cases hmask
      cases h
      exact ⟨.timeout, rfl⟩
    | false => cases hmask
  | completed cmd seen | transferred cmd seen rsp done =>
    simp only [errExit, hpc] at hmask
    obtain ⟨⟨mask, e⟩, herr, rfl⟩ := Option.map_eq_some_iff.mp hmask
    simp only [State.advance, hpc, herr] at h
    cases h
    exact ⟨e, rfl⟩
  | acknowledged cmd seen =>
    simp only [errExit, hpc] at hmask
    obtain ⟨e, herr, rfl⟩ := Option.map_eq_some_iff.mp hmask
    simp only [State.advance, hpc, herr] at h
    cases h
    exact ⟨e, rfl⟩
  | _ =>
    simp only [errExit, hpc] at hmask
    cases hmask

theorem errExit_during {mask : Flag → Bool} (hi : Inv s) (hmask : mask ∈ errExit s reading) :
    ∃ cmd, During s cmd := by
  have hphase := hi.phase
  cases hpc : s.pc with
  | idle | entered cmd =>
    simp only [errExit, hpc] at hmask
    cases hmask
  | waiting cmd | missed cmd =>
    simp only [Phase, hpc] at hphase
    exact ⟨cmd, hphase⟩
  | _ =>
    simp only [Phase, hpc] at hphase
    exact ⟨_, hphase.1⟩

theorem completed_inv {seen : IntStatus} (hi : Inv s) (hpc : s.pc = .completed cmd seen)
    (herr : errExit s reading = none) (h : s.advance reading = some t) : Inv t := by
  have hphase := hi.phase
  simp only [Phase, hpc] at hphase
  obtain ⟨hdur, hown⟩ := hphase
  simp only [errExit, hpc, Option.map_eq_none_iff] at herr
  simp only [State.advance, hpc, herr] at h
  cases h
  have hcc : clear s.intStatus (· == .cc) .cc = [] := clear_masked s.intStatus (beq_self_eq_true _)
  refine ⟨known_clear (· == .cc) hi.known, hi.last, ?_, hown herr⟩
  exact ⟨owned_nil hcc, owned_clear _ hdur.dint, fun hdata => owned_clear _ (hdur.tc hdata),
    fun hset => absurd hcc hset⟩

theorem acknowledged_inv {seen : IntStatus} (hi : Inv s) (hpc : s.pc = .acknowledged cmd seen)
    (herr : errExit s reading = none) (htidy : Tidy s (.advance reading))
    (h : s.advance reading = some t) : Inv t := by
  have hphase := hi.phase
  simp only [Phase, hpc] at hphase
  obtain ⟨hdur, hseen, hown⟩ := hphase
  simp only [errExit, hpc, Option.map_eq_none_iff] at herr
  simp only [State.advance, hpc, herr] at h
  by_cases hdata : cmd.dataPresent = true
  · rw [if_pos hdata] at h
    cases h
    exact ⟨hi.known, hi.last, hdur.goto _, hdata, hseen, hown⟩
  · rw [if_neg hdata] at h
    cases h
    refine ok_inv (fun _ => false) hi.known (htidy.2 _ ?_)
      ⟨hseen, hown, fun _ hd => nomatch hd⟩
    simp [okExit, hpc, herr, hdata]

theorem transferred_inv {seen done : IntStatus} {rsp : Reply} (hi : Inv s)
    (hpc : s.pc = .transferred cmd seen rsp done) (herr : errExit s reading = none)
    (htidy : Tidy s (.advance reading)) (h : s.advance reading = some t) : Inv t := by
  have hphase := hi.phase
  simp only [Phase, hpc] at hphase
  obtain ⟨hdur, ⟨hseen, hown⟩, hdone⟩ := hphase
  simp only [errExit, hpc, Option.map_eq_none_iff] at herr
  simp only [State.advance, hpc, herr] at h
  cases h
  refine ok_inv transferDone hi.known (htidy.2 transferDone ?_)
    ⟨hseen, hown, fun d hd => ?_⟩
  · simp [okExit, hpc, herr]
  · cases hd
    exact hdone herr

theorem proceed_inv (hi : Inv s) (herr : errExit s reading = none)
    (htidy : Tidy s (.advance reading)) (h : s.advance reading = some t) : Inv t := by
  have hphase := hi.phase
  have hmissed : ∀ {pc : Pc}, (if reading then some fun _ => false else none : Option (Flag → Bool))
      = none → s.goto pc = (if reading then s.fail (fun _ => false) .timeout else s.goto pc) := by
    intro pc hnone
    cases reading with
    | true => cases hnone
    | false => rfl
  cases hpc : s.pc with
  | idle =>
    simp only [State.advance, hpc] at h
    cases h
  | entered cmd =>
    simp only [State.advance, hpc] at h
    split at h
    · obtain ⟨w, -, rfl⟩ := Option.map_eq_some_iff.mp h
      exact issue_inv hi hpc
    · cases h
      exact hi
  | waiting cmd =>
    simp only [State.advance, hpc] at h
    cases h
    exact waiting_inv hi hpc
  | missed cmd =>
    simp only [Phase, hpc] at hphase
    simp only [errExit, hpc] at herr
    simp only [State.advance, hpc, ← hmissed herr] at h
    cases h
    exact ⟨hi.known, hi.last, hphase.goto _⟩
  | completed cmd seen => exact completed_inv hi hpc herr h
  | acknowledged cmd seen => exact acknowledged_inv hi hpc herr htidy h
  | transferring cmd seen rsp =>
    simp only [State.advance, hpc] at h
    cases h
    exact transferring_inv hi hpc
  | stalled cmd seen rsp =>
    simp only [Phase, hpc] at hphase
    simp only [errExit, hpc] at herr
    simp only [State.advance, hpc, ← hmissed herr] at h
    cases h
    exact ⟨hi.known, hi.last, hphase.1.goto _, hphase.2⟩
  | transferred cmd seen rsp done => exact transferred_inv hi hpc herr htidy h

theorem advance_inv (hi : Inv s) (htidy : Tidy s (.advance reading))
    (h : s.advance reading = some t) : Inv t := by
  cases herr : errExit s reading with
  | some mask =>
    obtain ⟨e, rfl⟩ := errExit_fail herr h
    obtain ⟨cmd, hdur⟩ := errExit_during hi herr
    exact fail_inv e hi.known hdur (htidy.1 mask herr)
  | none => exact proceed_inv hi herr htidy h

theorem clearTc_inv (hi : Inv s) (hpc : s.pc = .idle) : Inv (s.clear (· == .tc)) := by
  have hphase := hi.phase
  simp only [Phase, hpc] at hphase
  refine ⟨known_clear (· == .tc) hi.known, hi.last, ?_⟩
  simp only [Phase, State.clear, hpc]
  exact ⟨clear_nil (· == .tc) hphase.cc, clear_nil (· == .tc) hphase.dint,
    fun id hid g ho => hphase.noneLeft id hid g (clear_subset s.intStatus (· == .tc) ho)⟩

theorem call_inv (hi : Inv s) (hpc : s.pc = .idle) (htidy : Tidy s (.call cmd)) :
    Inv (s.goto (.entered cmd)) := by
  have hphase := hi.phase
  simp only [Phase, hpc] at hphase
  exact ⟨hi.known, hi.last, ⟨hphase.cc, hphase.dint, hphase.noneLeft⟩,
    fun hdata => isSet_eq_false.mp (htidy hdata)⟩

theorem step_inv {e : Event} (hi : Inv s) (htidy : Tidy s e) (h : step debug s e = some t) :
    Inv t := by
  cases e with
  | clearTc =>
    cases hpc : s.pc <;> simp only [step, hpc] at h <;> cases h
    exact clearTc_inv hi hpc
  | call cmd =>
    cases hpc : s.pc <;> simp only [step, hpc] at h
    case idle =>
      unfold State.enter at h
      split at h
      · cases h
      · cases h
        exact call_inv hi hpc htidy
    all_goals cases h
  | advance reading => exact advance_inv hi htidy h
  | raise id f word =>
    simp only [step] at h
    split at h
    · rename_i hid
      cases h
      exact raise_inv hi hid.2 htidy
    · cases h

end UsbArmory.Storage.EmmcSteps
