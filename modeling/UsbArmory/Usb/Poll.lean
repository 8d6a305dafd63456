import UsbArmory.Usb.EndWrite

/-!
# What a poll does

Either the bus reset is reported and nothing else happens, or the completions
latched at the read of ENDPTCOMPLETE are dealt with and the result says which.
-/

set_option autoImplicit false

namespace UsbArmory.Usb.Poll
open UsbArmory.Library.Bits UsbArmory.Usb.Descriptors UsbArmory.Usb.Controller UsbArmory.Usb.Bus
open UsbArmory.Usb.Endpoint UsbArmory.Usb.Effects UsbArmory.Usb.EndWrite Relation

variable {s t : Usbd}

def atSetup (s : Usbd) (h₁ : List HwEvent) : Usbd :=
  hardware (writeUsbsts s (mask 32 usbstsSre)) h₁

def atComplete (s : Usbd) (h₁ h₂ : List HwEvent) : Usbd := hardware (atSetup s h₁) h₂

def seenSetup (s : Usbd) (h₁ : List HwEvent) : BitVec 16 :=
  (atSetup s h₁).endptsetupstat.setWidth 16

/-- The words that the completions leave for the result. -/
def outWord (complete : BitVec 32) : BitVec 32 :=
  if complete >>> 16 ≠ 0 then complete &&& 0xffff else complete

theorem getLsbD_outWord (w : BitVec 32) (j : ℕ) :
    (outWord w).getLsbD j = (w.getLsbD j && decide (j < 16)) := by
  have hmask : (0xffff#32).getLsbD j = decide (j < 16) := by
    by_cases hj : j < 32
    · interval_cases j <;> rfl
    · have hge : ¬j < 16 := by omega
      rw [BitVec.getLsbD_of_ge _ j (Nat.le_of_not_lt hj), decide_eq_false hge]
  unfold outWord
  split
  next =>
    show (w &&& 0xffff#32).getLsbD j = _
    rw [BitVec.getLsbD_and, hmask]
  next hz =>
    by_cases hj : j < 16
    · simp [hj]
    · have hzero : w >>> 16 = 0 := by simpa using hz
      have hbit : (w >>> 16).getLsbD (j - 16) = false := by
        rw [hzero]
        simp
      rw [BitVec.getLsbD_ushiftRight, Nat.add_sub_cancel' (Nat.le_of_not_lt hj)] at hbit
      rw [hbit, Bool.false_and]

theorem mem_inIndices (w : BitVec 32) (i : ℕ) :
    i ∈ oneIndices (w >>> 16) ↔ w.getLsbD (16 + i) = true := by
  rw [mem_oneIndices, BitVec.getLsbD_ushiftRight]

/-- What a poll reports, from the state `b` at the read of ENDPTCOMPLETE. A
STATUS OUT takes the place of the OUT completions where there is no IN
completion. -/
inductive Reported (b : Usbd) (seen : BitVec 16) (t : Usbd) : PollResult → Prop where
  | none (hseen : seen = 0) (hcomplete : b.endptcomplete = 0) (hb : b.inner.statusOut = 0)
      (ht : t.inner.statusOut = 0) : Reported b seen t .none
  | statusOut (hb : b.inner.statusOut ≠ 0) (ht : t.inner.statusOut = 0)
      (hin : ∀ i, b.endptcomplete.getLsbD (16 + i) = false) :
      Reported b seen t (.data b.inner.statusOut 0 seen)
  | data (epOut epInComplete : BitVec 16)
      (hsome : seen ≠ 0 ∨ b.endptcomplete ≠ 0)
      (hin : ∀ i, epInComplete.getLsbD i = b.endptcomplete.getLsbD (16 + i))
      (hout : ∀ i < 16, epOut.getLsbD i = b.endptcomplete.getLsbD i)
      (hstatus : b.inner.statusOut = 0 ∨ epInComplete ≠ 0)
      (ht : ∀ i, t.inner.statusOut.getLsbD i = (b.inner.statusOut.getLsbD i ||
        (b.inner.preStatusOut.getLsbD i && b.endptcomplete.getLsbD (16 + i)))) :
      Reported b seen t (.data epOut epInComplete seen)

structure Polled (b : Usbd) (seen : BitVec 16) (t : Usbd) (r : PollResult) : Prop where
  effect : Effect false b t
  complete : ∀ j, t.endptcomplete.getLsbD j = (b.endptcomplete.getLsbD j && decide (j < 16))
  ended : ∀ i, t.ended (epaddr2dqhidx ⟨i, .in⟩) =
    b.ended (epaddr2dqhidx ⟨i, .in⟩) + (b.endptcomplete.getLsbD (16 + i)).toNat
  setup : t.endptsetupstat = b.endptsetupstat
  cached : t.inner.setupstat = if seen ≠ 0 then some seen else b.inner.setupstat
  noted : t.inner.epInComplete = none
  pre : ∀ i, t.inner.preStatusOut.getLsbD i =
    (b.inner.preStatusOut.getLsbD i && !b.endptcomplete.getLsbD (16 + i))
  dqh : ∀ q, (t.dqhs q).caps = (b.dqhs q).caps ∧ (t.dqhs q).addr = (b.dqhs q).addr ∧
    (t.dqhs q).token = (b.dqhs q).token ∧ (t.dqhs q).page0 = (b.dqhs q).page0
  memory : t.dtd = b.dtd ∧ t.buffer = b.buffer ∧ t.fifo = b.fifo ∧ t.transfers = b.transfers
  pools : t.inner.b64s = b.inner.b64s ∧ t.inner.b512s = b.inner.b512s
  registers : t.endptprime = b.endptprime ∧ t.endptstat = b.endptstat
  view : ∀ ep, ep.isValid = true →
    ep.isOut = true ∨ b.endptcomplete.getLsbD (endptBit ep) = false → view t ep = view b ep
  result : Reported b seen t r

theorem noted_word {u v : Usbd} (b : Usbd) (hnone : v.inner.epInComplete = none)
    (he : Ends (oneIndices (b.endptcomplete >>> 16)) v u) (i : ℕ) :
    (u.inner.epInComplete.getD 0).getLsbD i = b.endptcomplete.getLsbD (16 + i) := by
  rw [he.noted, hnone]
  have hmem := mem_inIndices b.endptcomplete i
  cases hb : b.endptcomplete.getLsbD (16 + i) with
  | true => simp [hmem.mpr hb]
  | false =>
    have hnot : i ∉ oneIndices (b.endptcomplete >>> 16) := fun hi => by simp [hmem.mp hi] at hb
    simp [hnot]

/-- The state at the start of the loop over the IN completions. -/
def beforeLoop (b : Usbd) (sts : BitVec 32) (seen : BitVec 16) : Usbd :=
  noteSetup (if sts &&& mask 32 usbstsPci ≠ 0 then portChange b else b) seen

theorem noteSetup_eq (b : Usbd) (seen : BitVec 16) : noteSetup b seen =
    { b with inner :=
      { b.inner with setupstat := if seen ≠ 0 then some seen else b.inner.setupstat } } := by
  unfold noteSetup
  split <;> rfl

theorem beforeLoop_eq (b : Usbd) (sts : BitVec 32) (seen : BitVec 16) :
    beforeLoop b sts seen =
      { b with
        inner := { b.inner with setupstat := if seen ≠ 0 then some seen else b.inner.setupstat }
        usbsts := (beforeLoop b sts seen).usbsts } := by
  unfold beforeLoop
  rw [noteSetup_eq]
  split <;> rfl

theorem handle_ok {r : PollResult} {b : Usbd} {sts : BitVec 32} {seen : BitVec 16}
    (h : handle b sts seen = .ok (t, r)) :
    ∃ u, (oneIndices (b.endptcomplete >>> 16)).foldlM endWrite (beforeLoop b sts seen) = .ok u ∧
      (t, r) = report u seen (outWord b.endptcomplete) := by
  unfold handle at h
  obtain ⟨u, hu, h⟩ := bind_ok h
  have heq : report u seen (outWord b.endptcomplete) = (t, r) := Except.ok.inj h
  exact ⟨u, hu, heq.symm⟩

theorem outWord_eq_zero {w : BitVec 32} (h : outWord w = 0)
    (hin : ∀ i, w.getLsbD (16 + i) = false) : w = 0 := by
  apply BitVec.eq_of_getLsbD_eq
  intro j _
  by_cases hj : j < 16
  · have hbit := getLsbD_outWord w j
    rw [h, decide_eq_true hj, Bool.and_true] at hbit
    rw [← hbit]
  · have hbit := hin (j - 16)
    rw [Nat.add_sub_cancel' (Nat.le_of_not_lt hj)] at hbit
    rw [hbit]
    simp

theorem reported {u t : Usbd} {r : PollResult} (b : Usbd) (seen : BitVec 16)
    (hin : ∀ i, (u.inner.epInComplete.getD 0).getLsbD i = b.endptcomplete.getLsbD (16 + i))
    (hsome : u.inner.epInComplete.isSome = true → ∃ i, b.endptcomplete.getLsbD (16 + i) = true)
    (hst : ∀ i, u.inner.statusOut.getLsbD i = (b.inner.statusOut.getLsbD i ||
      (b.inner.preStatusOut.getLsbD i && b.endptcomplete.getLsbD (16 + i))))
    (h : (t, r) = report u seen (outWord b.endptcomplete)) : Reported b seen t r := by
  have hquiet : u.inner.epInComplete.getD 0 = 0 →
      (∀ i, b.endptcomplete.getLsbD (16 + i) = false) ∧ u.inner.statusOut = b.inner.statusOut := by
    intro hz
    have hno : ∀ i, b.endptcomplete.getLsbD (16 + i) = false := by
      intro i
      rw [← hin i, hz]
      simp
    refine ⟨hno, BitVec.eq_of_getLsbD_eq fun i _ => ?_⟩
    rw [hst, hno i, Bool.and_false, Bool.or_false]
  unfold report at h
  split at h
  next hany =>
    simp only at h
    split at h
    next hso =>
      cases h
      obtain ⟨hno, heq⟩ := hquiet hso.2
      show Reported b seen _ (.data u.inner.statusOut (u.inner.epInComplete.getD 0) seen)
      rw [hso.2, heq]
      refine .statusOut ?_ rfl hno
      rw [← heq]
      exact hso.1
    next hso =>
      cases h
      refine .data _ _ ?_ hin ?_ ?_ hst
      · rcases hany with hany | hany | hany | hany
        · exact Or.inl hany
        · obtain ⟨i, hi⟩ := hsome hany
          exact Or.inr ((ne_zero_iff _).mpr ⟨_, hi⟩)
        · have hne : u.inner.epInComplete.getD 0 ≠ 0 := fun hz => hso ⟨hany, hz⟩
          obtain ⟨i, hi⟩ := (ne_zero_iff _).mp hne
          rw [hin] at hi
          exact Or.inr ((ne_zero_iff _).mpr ⟨_, hi⟩)
        · obtain ⟨i, hi⟩ := (ne_zero_iff _).mp hany
          rw [getLsbD_outWord, Bool.and_eq_true] at hi
          exact Or.inr ((ne_zero_iff _).mpr ⟨i, hi.1⟩)
      · intro i hi
        rw [BitVec.getLsbD_setWidth, getLsbD_outWord, decide_eq_true hi, Bool.true_and,
          Bool.and_true]
      · by_cases hz : u.inner.epInComplete.getD 0 = 0
        · have heq := (hquiet hz).2
          refine Or.inl ?_
          rw [← heq]
          by_contra hne
          exact hso ⟨hne, hz⟩
        · exact Or.inr hz
  next hnone =>
    cases h
    simp only [not_or, Bool.not_eq_true, ne_eq, not_not] at hnone
    obtain ⟨h1, h2, h3, h4⟩ := hnone
    have hzero : u.inner.epInComplete.getD 0 = 0 := by
      cases he : u.inner.epInComplete with
      | none => rfl
      | some w =>
        rw [he] at h2
        cases h2
    obtain ⟨hno, heq⟩ := hquiet hzero
    refine .none h1 (outWord_eq_zero h4 hno) ?_ h3
    rw [← heq]
    exact h3

theorem report_eq {u t : Usbd} {r : PollResult} {seen : BitVec 16} {complete : BitVec 32}
    (h : (t, r) = report u seen complete) :
    t = { u with inner :=
      { u.inner with
        epInComplete := none
        lastPollWasNone := t.inner.lastPollWasNone
        statusOut := t.inner.statusOut } } := by
  unfold report at h
  split at h
  next =>
    simp only at h
    split at h <;> cases h <;> rfl
  next hnone =>
    cases h
    have he : u.inner.epInComplete = none := by
      simp only [not_or, Bool.not_eq_true, Option.isSome_eq_false_iff, Option.isNone_iff_eq_none]
        at hnone
      exact hnone.2.1
    rw [← he]
    rfl

theorem loop_view {u v : Usbd} (b : Usbd) (hbv : view v = view b) (hut : view t = view u)
    (he : Ends (oneIndices (b.endptcomplete >>> 16)) v u) (ep : EndpointAddress)
    (hvalid : ep.isValid = true)
    (hep : ep.isOut = true ∨ b.endptcomplete.getLsbD (endptBit ep) = false) :
    view t ep = view b ep := by
  have hmem := mem_inIndices b.endptcomplete
  have hnot : ∀ i ∈ oneIndices (b.endptcomplete >>> 16), ep ≠ ⟨i, .in⟩ := by
    intro i hi heq
    subst heq
    rcases hep with hep | hep
    · cases hep
    · have hbit : b.endptcomplete.getLsbD (16 + i) = false := hep
      rw [(hmem i).mp hi] at hbit
      cases hbit
  have hbit : u.endptcomplete.getLsbD (endptBit ep) = v.endptcomplete.getLsbD (endptBit ep) := by
    rw [he.complete]
    have hout : endptBit ep ∉ (oneIndices (b.endptcomplete >>> 16)).map (16 + ·) := by
      intro hm
      obtain ⟨i, hi, heq⟩ := List.mem_map.mp hm
      have hlt := index_lt hvalid
      obtain ⟨index, dir⟩ := ep
      cases dir with
      | out =>
        simp only [endptBit, EndpointAddress.isOut, decide_true, if_true] at heq hlt
        omega
      | «in» =>
        have hidx : i = index := by simpa [endptBit, EndpointAddress.isOut] using heq
        exact hnot i hi (by rw [hidx])
    rw [decide_eq_true hout, Bool.and_true]
  obtain ⟨hdqh, hended⟩ := he.others ep hnot
  rw [hut, ← hbv]
  unfold view
  rw [hdqh, hended, hbit, he.registers.1, he.registers.2, he.memory.2.2.2]

theorem complete_low (w : BitVec 32) (j : ℕ) :
    (w.getLsbD j && decide (j ∉ (oneIndices (w >>> 16)).map (16 + ·))) =
      (w.getLsbD j && decide (j < 16)) := by
  cases hbit : w.getLsbD j with
  | false => simp
  | true =>
    by_cases hlow : j < 16
    · have hnot : j ∉ (oneIndices (w >>> 16)).map (16 + ·) := by
        intro hm
        obtain ⟨i, -, hi⟩ := List.mem_map.mp hm
        omega
      simp [hlow, hnot]
    · have hin : j ∈ (oneIndices (w >>> 16)).map (16 + ·) := by
        apply List.mem_map.mpr
        refine ⟨j - 16, (mem_inIndices w _).mpr ?_, by omega⟩
        rw [Nat.add_sub_cancel' (Nat.le_of_not_lt hlow)]
        exact hbit
      simp [hlow, hin]

section Loop
variable {b u : Usbd} {sts : BitVec 32} {seen : BitVec 16} {r : PollResult}

theorem beforeLoop_effect (hs : Single b) : Effect false b (beforeLoop b sts seen) := by
  rw [beforeLoop_eq]
  exact .same (fun _ => rfl) hs rfl rfl

theorem loop_ends (hs : Single b) (h : (oneIndices (b.endptcomplete >>> 16)).foldlM endWrite
    (beforeLoop b sts seen) = .ok u) :
    Ends (oneIndices (b.endptcomplete >>> 16)) (beforeLoop b sts seen) u := by
  apply endWrites_ends _ (beforeLoop_effect hs).single (nodup_oneIndices _) ?_ h
  intro i hi
  rw [beforeLoop_eq]
  exact (mem_inIndices _ i).mp hi

theorem report_effect (hs : Single u) (h : (t, r) = report u seen (outWord b.endptcomplete)) :
    Effect false u t := by
  rw [report_eq h]
  exact .same (fun _ => rfl) hs rfl rfl

theorem loop_reported (hnone : b.inner.epInComplete = none)
    (he : Ends (oneIndices (b.endptcomplete >>> 16)) (beforeLoop b sts seen) u)
    (h : (t, r) = report u seen (outWord b.endptcomplete)) : Reported b seen t r := by
  have hmem := mem_inIndices b.endptcomplete
  have hclear : (beforeLoop b sts seen).inner.epInComplete = none := by
    rw [beforeLoop_eq]
    exact hnone
  apply reported b seen (noted_word b hclear he) ?_ ?_ h
  · intro hsome
    rw [he.isSome, hclear] at hsome
    cases his : oneIndices (b.endptcomplete >>> 16) with
    | nil => simp [his] at hsome
    | cons i is => exact ⟨i, (hmem i).mp (by rw [his]; exact List.mem_cons_self)⟩
  · intro i
    rw [he.status, beforeLoop_eq]
    simp [hmem]

theorem polled (hs : Single b) (hnone : b.inner.epInComplete = none)
    (h : handle b sts seen = .ok (t, r)) : Polled b seen t r := by
  obtain ⟨u, hu, hr⟩ := handle_ok h
  have hends := loop_ends hs hu
  have heffect := ((beforeLoop_effect hs).trans hends.effect).trans
    (report_effect hends.effect.single hr)
  have hmem := mem_inIndices b.endptcomplete
  have hreported := loop_reported hnone hends hr
  have hview := loop_view (t := t) b (by rw [beforeLoop_eq]; rfl) (by rw [report_eq hr]; rfl) hends
  have ht := report_eq hr
  obtain ⟨-, hcomplete, -, -, hended, -, hpre, hdqh, hmemory, hpools, hsetup, hregisters,
      -⟩ := hends
  rw [beforeLoop_eq] at hcomplete hended hpre hdqh hmemory hpools hsetup hregisters
  refine ⟨heffect, ?_, ?_, ?_, ?_, ?_, ?_, ?_, ?_, ?_, ?_, hview, hreported⟩
  · intro j
    rw [ht, ← complete_low]
    exact hcomplete j
  · intro i
    rw [ht]
    show u.ended _ = _
    rw [hended]
    cases hbit : b.endptcomplete.getLsbD (16 + i) with
    | true => simp [hmem, hbit]
    | false => simp [hmem, hbit]
  · rw [ht]
    exact hsetup.1
  · rw [ht]
    exact hsetup.2
  · rw [ht]
  · intro i
    rw [ht]
    show u.inner.preStatusOut.getLsbD i = _
    rw [hpre]
    simp [hmem]
  · rw [ht]
    exact hdqh
  · rw [ht]
    exact hmemory
  · rw [ht]
    exact hpools
  · rw [ht]
    exact hregisters

end Loop

theorem handle_returns {b : Usbd} (sts : BitVec 32) (seen : BitVec 16)
    (h : ∀ i, b.endptcomplete.getLsbD (16 + i) = true →
      i < 2 ∧ ((b.dqhs (epaddr2dqhidx ⟨i, .in⟩)).getCurrentDtd).isSome = true) :
    (∃ t r, handle b sts seen = .ok (t, r)) ∨
      handle b sts seen = .error .flushAndReset ∧
        ∃ i, b.endptcomplete.getLsbD (16 + i) = true ∧ Failed b i := by
  have hv := beforeLoop_eq b sts seen
  have hd : (beforeLoop b sts seen).dqhs = b.dqhs := by rw [hv]
  have hdtd : (beforeLoop b sts seen).dtd = b.dtd := by rw [hv]
  have hmem := mem_inIndices b.endptcomplete
  have hloop := endWrites_returns (s := beforeLoop b sts seen)
    (oneIndices (b.endptcomplete >>> 16)) (nodup_oneIndices _) (by
      intro i hi
      rw [hd]
      exact h i ((hmem i).mp hi))
  rcases hloop with ⟨u, hu⟩ | ⟨herr, i, hi, d, hcur, hf⟩
  · refine Or.inl ⟨(report u seen (outWord b.endptcomplete)).1,
      (report u seen (outWord b.endptcomplete)).2, ?_⟩
    show ((oneIndices (b.endptcomplete >>> 16)).foldlM endWrite (beforeLoop b sts seen) >>= _) = _
    rw [hu]
    rfl
  · rw [hd] at hcur
    rw [hdtd] at hf
    refine Or.inr ⟨?_, i, (hmem i).mp hi, d, hcur, hf⟩
    show ((oneIndices (b.endptcomplete >>> 16)).foldlM endWrite (beforeLoop b sts seen) >>= _) = _
    rw [herr]
    rfl

theorem poll_reset (h : (writeUsbsts s (mask 32 usbstsSre)).usbsts &&& mask 32 usbstsUri ≠ 0)
    (h₁ h₂ : List HwEvent) :
    poll s h₁ h₂ = .ok (notePoll (writeUsbsts s (mask 32 usbstsSre)) false, .reset) := if_pos h

theorem poll_handle (h : ¬(writeUsbsts s (mask 32 usbstsSre)).usbsts &&& mask 32 usbstsUri ≠ 0)
    (h₁ h₂ : List HwEvent) : poll s h₁ h₂ =
      handle (atComplete s h₁ h₂) (writeUsbsts s (mask 32 usbstsSre)).usbsts (seenSetup s h₁) :=
  if_neg h

theorem poll_eq (s : Usbd) (h₁ h₂ : List HwEvent) :
    poll s h₁ h₂ = .ok (notePoll (writeUsbsts s (mask 32 usbstsSre)) false, .reset) ∨
    poll s h₁ h₂ =
      handle (atComplete s h₁ h₂) (writeUsbsts s (mask 32 usbstsSre)).usbsts (seenSetup s h₁) := by
  by_cases h : (writeUsbsts s (mask 32 usbstsSre)).usbsts &&& mask 32 usbstsUri ≠ 0
  · exact Or.inl (poll_reset h h₁ h₂)
  · exact Or.inr (poll_handle h h₁ h₂)

theorem atSetup_effect (hs : Single s) (h₁ : List HwEvent) : Effect false s (atSetup s h₁) := by
  have hack : Effect false s (writeUsbsts s (mask 32 usbstsSre)) := .same (fun _ => rfl) hs rfl rfl
  exact hack.trans (hardware_effect hack.single h₁)

theorem atComplete_effect (hs : Single s) (h₁ h₂ : List HwEvent) :
    Effect false s (atComplete s h₁ h₂) := by
  have hset := atSetup_effect hs h₁
  exact hset.trans (hardware_effect hset.single h₂)

theorem atSetup_frame (s : Usbd) (h₁ : List HwEvent) : Frame s (atSetup s h₁) := by
  have hack : Frame s (writeUsbsts s (mask 32 usbstsSre)) :=
    ⟨rfl, rfl, fun _ h => h, fun _ h => h, fun _ => ⟨rfl, rfl⟩⟩
  exact hack.trans (hardware_frame h₁ _)

theorem atComplete_frame (s : Usbd) (h₁ h₂ : List HwEvent) : Frame s (atComplete s h₁ h₂) :=
  (atSetup_frame s h₁).trans (hardware_frame h₂ _)

theorem poll_effect (hs : Single s) (hnone : s.inner.epInComplete = none) {h₁ h₂ : List HwEvent}
    {r : PollResult} (h : poll s h₁ h₂ = .ok (t, r)) : Effect false s t := by
  have hat := atComplete_effect hs h₁ h₂
  have hinner : (atComplete s h₁ h₂).inner = s.inner := (atComplete_frame s h₁ h₂).inner
  rcases poll_eq s h₁ h₂ with heq | heq <;> rw [heq] at h
  · cases h
    exact .same (fun _ => rfl) hs rfl rfl
  · have hp := polled hat.single (by rw [hinner]; exact hnone) h
    exact hat.trans hp.effect

end UsbArmory.Usb.Poll
