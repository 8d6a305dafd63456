import UsbArmory.Usb.Effects

/-!
# The completions that a poll deals with

What `end_write` changes, and from it what the loop of `poll` over the bits of
ENDPTCOMPLETE changes: every IN completion in the list is cleared, noted and
released, once.
-/

set_option autoImplicit false

namespace UsbArmory.Usb.EndWrite
open UsbArmory.Library.Bits UsbArmory.Usb.Descriptors UsbArmory.Usb.Controller UsbArmory.Usb.Bus
open UsbArmory.Usb.Endpoint UsbArmory.Usb.Effects Relation

variable {s t : Usbd}

/-- The state after an `end_write` that returns. -/
def endWritten (s : Usbd) (idx d : ℕ) : Usbd :=
  let ep : EndpointAddress := ⟨idx, .in⟩
  let s := clearInterrupt (writeEndptcomplete s (epaddr2endptmask ep))
  let s := scheduleStatusOut (noteInComplete s idx) ((epaddr2endptmask ep >>> 16).setWidth 16)
  releaseDtd s (epaddr2dqhidx ep) d

theorem getDqh_ok {ep : EndpointAddress} {q : ℕ} (h : getDqh ep = some q) :
    q = epaddr2dqhidx ep ∧ ep.isValid = true := by
  unfold getDqh at h
  split at h
  next hv =>
    cases h
    exact ⟨rfl, decide_eq_true hv⟩
  next => cases h

theorem getCurrentDtd_some {q : DQH} {d : ℕ} (h : q.getCurrentDtd = some d) :
    q.currentDtd = d ∧ d % 32 = 0 := by
  unfold DQH.getCurrentDtd at h
  split at h
  next => cases h
  next hz =>
    cases h
    refine ⟨rfl, ?_⟩
    have hzero : q.currentDtd &&& 31 = 0 := by simpa using hz
    rw [show 31 = 2^5-1 from rfl, Nat.and_two_pow_sub_one_eq_mod] at hzero
    exact hzero

theorem checkTransfer_ok {token : Token} {u : Unit} (h : checkTransfer token = .ok u) :
    token.getStatus.failed = false := by
  unfold checkTransfer at h
  split at h
  next => cases h
  next hf => exact (Bool.not_eq_true _).mp hf

theorem endWrite_ok (idx : ℕ) (h : endWrite s idx = .ok t) :
    (⟨idx, .in⟩ : EndpointAddress).isValid = true ∧
    ∃ d, (s.dqhs (epaddr2dqhidx ⟨idx, .in⟩)).getCurrentDtd = some d ∧
      (s.dtd d).token.getStatus.failed = false ∧ t = endWritten s idx d := by
  unfold endWrite at h
  obtain ⟨q, hq, h⟩ := bind_ok h
  obtain ⟨rfl, hv⟩ := getDqh_ok (expect_ok hq)
  obtain ⟨d, hd, h⟩ := bind_ok h
  obtain ⟨u, hu, h⟩ := bind_ok h
  obtain ⟨v, hv', h⟩ := bind_ok h
  unfold setEpInComplete at hv'
  obtain ⟨w, hw, hv'⟩ := bind_ok hv'
  cases hv'
  cases h
  exact ⟨hv, d, expect_ok hd, checkTransfer_ok hu, rfl⟩

theorem setEpInComplete_returns (s : Usbd) (idx : ℕ) (h : idx < 2) :
    setEpInComplete s idx = .ok (noteInComplete s idx) := by
  have hi : require (idx < endpoints / 2) = .ok () := by
    unfold require
    exact if_pos (decide_eq_true h)
  unfold setEpInComplete
  rw [hi]
  rfl

theorem endWrite_returns (idx d : ℕ) (hv : (⟨idx, .in⟩ : EndpointAddress).isValid = true)
    (hd : (s.dqhs (epaddr2dqhidx ⟨idx, .in⟩)).getCurrentDtd = some d)
    (ht : (s.dtd d).token.getStatus.failed = false) :
    endWrite s idx = .ok (endWritten s idx d) := by
  have hq : getDqh ⟨idx, .in⟩ = some (epaddr2dqhidx ⟨idx, .in⟩) := if_pos (of_decide_eq_true hv)
  have hcheck : checkTransfer (s.dtd d).token = .ok () := by
    unfold checkTransfer
    rw [ht]
    rfl
  unfold endWrite
  show (expect (getDqh ⟨idx, .in⟩) >>= _) = _
  rw [hq]
  show (expect (s.dqhs (epaddr2dqhidx ⟨idx, .in⟩)).getCurrentDtd >>= _) = _
  rw [hd]
  show (checkTransfer (s.dtd d).token >>= _) = _
  rw [hcheck]
  show (setEpInComplete _ idx >>= _) = _
  rw [setEpInComplete_returns _ idx (index_lt hv)]
  rfl

theorem endWrite_fails (idx d : ℕ) (hv : (⟨idx, .in⟩ : EndpointAddress).isValid = true)
    (hd : (s.dqhs (epaddr2dqhidx ⟨idx, .in⟩)).getCurrentDtd = some d)
    (ht : (s.dtd d).token.getStatus.failed = true) : endWrite s idx = .error .flushAndReset := by
  have hq : getDqh ⟨idx, .in⟩ = some (epaddr2dqhidx ⟨idx, .in⟩) := if_pos (of_decide_eq_true hv)
  have hcheck : checkTransfer (s.dtd d).token = .error .flushAndReset := by
    unfold checkTransfer
    rw [ht]
    rfl
  unfold endWrite
  show (expect (getDqh ⟨idx, .in⟩) >>= _) = _
  rw [hq]
  show (expect (s.dqhs (epaddr2dqhidx ⟨idx, .in⟩)).getCurrentDtd >>= _) = _
  rw [hd]
  show (checkTransfer (s.dtd d).token >>= _) = _
  rw [hcheck]
  rfl

theorem inMask (idx : ℕ) (h : idx < 2) :
    (epaddr2endptmask ⟨idx, .in⟩ >>> 16).setWidth 16 = mask 16 idx := by
  interval_cases idx <;> rfl

theorem schedule_eq (s : Usbd) (bits : BitVec 16) : scheduleStatusOut s bits =
    { s with inner :=
      { s.inner with
        statusOut := (scheduleStatusOut s bits).inner.statusOut
        preStatusOut := (scheduleStatusOut s bits).inner.preStatusOut } } := by
  unfold scheduleStatusOut
  split <;> rfl

theorem schedule_congr (s u : Usbd) (hp : u.inner.preStatusOut = s.inner.preStatusOut)
    (hs : u.inner.statusOut = s.inner.statusOut) (bits : BitVec 16) :
    (scheduleStatusOut u bits).inner.statusOut = (scheduleStatusOut s bits).inner.statusOut ∧
    (scheduleStatusOut u bits).inner.preStatusOut =
      (scheduleStatusOut s bits).inner.preStatusOut := by
  unfold scheduleStatusOut
  rw [hp]
  split
  next =>
    rw [hs]
    exact ⟨rfl, rfl⟩
  next => exact ⟨hs, hp⟩

theorem schedule_status (s : Usbd) (idx : ℕ) (h : idx < 16) (i : ℕ) :
    (scheduleStatusOut s (mask 16 idx)).inner.statusOut.getLsbD i =
      (s.inner.statusOut.getLsbD i || (s.inner.preStatusOut.getLsbD i && decide (idx = i))) := by
  unfold scheduleStatusOut
  split
  next hp =>
    have hp' := (and_mask_ne_zero s.inner.preStatusOut idx).mp hp
    show (s.inner.statusOut ||| mask 16 idx).getLsbD i = _
    rw [getLsbD_set h]
    by_cases hi : idx = i
    · subst i
      simp [hp']
    · simp [hi]
  next hp =>
    have hp' : s.inner.preStatusOut.getLsbD idx = false := getLsbD_of_and_mask hp
    by_cases hi : idx = i
    · subst i
      simp [hp']
    · simp [hi]

theorem schedule_pre (s : Usbd) (idx : ℕ) (i : ℕ) :
    (scheduleStatusOut s (mask 16 idx)).inner.preStatusOut.getLsbD i =
      (s.inner.preStatusOut.getLsbD i && decide (idx ≠ i)) := by
  unfold scheduleStatusOut
  split
  next hp =>
    show (s.inner.preStatusOut &&& ~~~mask 16 idx).getLsbD i = _
    rw [getLsbD_clear]
  next hp =>
    have hp' : s.inner.preStatusOut.getLsbD idx = false := getLsbD_of_and_mask hp
    by_cases hi : idx = i
    · subst i
      simp [hp']
    · simp [hi]

/-- What the completions of `is` change, and what they leave alone. -/
structure Ends (is : List ℕ) (s t : Usbd) : Prop where
  effect : Effect false s t
  complete : ∀ j, t.endptcomplete.getLsbD j =
    (s.endptcomplete.getLsbD j && decide (j ∉ is.map (16 + ·)))
  noted : ∀ i, (t.inner.epInComplete.getD 0).getLsbD i =
    ((s.inner.epInComplete.getD 0).getLsbD i || decide (i ∈ is))
  isSome : t.inner.epInComplete.isSome = (s.inner.epInComplete.isSome || !is.isEmpty)
  ended : ∀ i, t.ended (epaddr2dqhidx ⟨i, .in⟩) =
    s.ended (epaddr2dqhidx ⟨i, .in⟩) + if i ∈ is then 1 else 0
  status : ∀ i, t.inner.statusOut.getLsbD i =
    (s.inner.statusOut.getLsbD i || (s.inner.preStatusOut.getLsbD i && decide (i ∈ is)))
  pre : ∀ i, t.inner.preStatusOut.getLsbD i =
    (s.inner.preStatusOut.getLsbD i && decide (i ∉ is))
  dqh : ∀ q, (t.dqhs q).caps = (s.dqhs q).caps ∧ (t.dqhs q).addr = (s.dqhs q).addr ∧
    (t.dqhs q).token = (s.dqhs q).token ∧ (t.dqhs q).page0 = (s.dqhs q).page0
  memory : t.dtd = s.dtd ∧ t.buffer = s.buffer ∧ t.fifo = s.fifo ∧ t.transfers = s.transfers
  pools : t.inner.b64s = s.inner.b64s ∧ t.inner.b512s = s.inner.b512s
  setup : t.endptsetupstat = s.endptsetupstat ∧ t.inner.setupstat = s.inner.setupstat
  registers : t.endptprime = s.endptprime ∧ t.endptstat = s.endptstat
  others : ∀ ep : EndpointAddress, (∀ i ∈ is, ep ≠ ⟨i, .in⟩) →
    t.dqhs (epaddr2dqhidx ep) = s.dqhs (epaddr2dqhidx ep) ∧
    t.ended (epaddr2dqhidx ep) = s.ended (epaddr2dqhidx ep)

theorem ends_nil (hs : Single s) : Ends [] s s := by
  constructor <;> simp [Effect.refl hs]

theorem ends_append {is js : List ℕ} {u : Usbd} (h : Ends is s t) (h' : Ends js t u)
    (hd : ∀ i ∈ is, i ∉ js) : Ends (is ++ js) s u := by
  constructor
  · exact h.effect.trans h'.effect
  · intro j
    rw [h'.complete, h.complete]
    by_cases hj : j ∈ is.map (16 + ·) <;> by_cases hj' : j ∈ js.map (16 + ·) <;>
      simp_all [List.map_append]
  · intro i
    rw [h'.noted, h.noted]
    simp [Bool.or_assoc]
  · rw [h'.isSome, h.isSome]
    cases is <;> simp
  · intro i
    rw [h'.ended, h.ended]
    by_cases hi : i ∈ is
    · have hj := hd i hi
      simp [hi, hj]
    · simp [hi]
  · intro i
    rw [h'.status, h.status, h.pre]
    by_cases hi : i ∈ is <;> simp [hi]
  · intro i
    rw [h'.pre, h.pre]
    by_cases hi : i ∈ is <;> simp [hi]
  · intro q
    obtain ⟨h1, h2, h3, h4⟩ := h.dqh q
    obtain ⟨h1', h2', h3', h4'⟩ := h'.dqh q
    exact ⟨h1'.trans h1, h2'.trans h2, h3'.trans h3, h4'.trans h4⟩
  · obtain ⟨h1, h2, h3, h4⟩ := h.memory
    obtain ⟨h1', h2', h3', h4'⟩ := h'.memory
    exact ⟨h1'.trans h1, h2'.trans h2, h3'.trans h3, h4'.trans h4⟩
  · exact ⟨h'.pools.1.trans h.pools.1, h'.pools.2.trans h.pools.2⟩
  · exact ⟨h'.setup.1.trans h.setup.1, h'.setup.2.trans h.setup.2⟩
  · exact ⟨h'.registers.1.trans h.registers.1, h'.registers.2.trans h.registers.2⟩
  · intro ep hep
    obtain ⟨h1, h2⟩ := h.others ep fun i hi => hep i (List.mem_append_left _ hi)
    obtain ⟨h1', h2'⟩ := h'.others ep fun i hi => hep i (List.mem_append_right _ hi)
    exact ⟨h1'.trans h1, h2'.trans h2⟩

theorem endWritten_eq (s : Usbd) (idx d : ℕ) (h : idx < 2) : endWritten s idx d =
    { s with
      inner :=
        { s.inner with
          epInComplete := some (s.inner.epInComplete.getD 0 ||| mask 16 idx)
          statusOut := (scheduleStatusOut s (mask 16 idx)).inner.statusOut
          preStatusOut := (scheduleStatusOut s (mask 16 idx)).inner.preStatusOut }
      usbsts := s.usbsts &&& ~~~mask 32 0
      endptcomplete := s.endptcomplete &&& ~~~mask 32 (16 + idx)
      dqhs := Function.update s.dqhs (epaddr2dqhidx ⟨idx, .in⟩)
        { s.dqhs (epaddr2dqhidx ⟨idx, .in⟩) with currentDtd := noNextDtd, nextDtd := d }
      ended := Function.update s.ended (epaddr2dqhidx ⟨idx, .in⟩)
        (s.ended (epaddr2dqhidx ⟨idx, .in⟩) + 1) } := by
  have hcongr := schedule_congr s
    (noteInComplete (clearInterrupt (writeEndptcomplete s (epaddr2endptmask ⟨idx, .in⟩))) idx)
    rfl rfl (mask 16 idx)
  unfold endWritten
  simp only
  rw [inMask idx h, schedule_eq, hcongr.1, hcongr.2]
  rfl

theorem dqhidx_in (i j : ℕ) : epaddr2dqhidx ⟨i, .in⟩ = epaddr2dqhidx ⟨j, .in⟩ ↔ i = j := by
  constructor
  · intro h
    have heq := epaddr2dqhidx_inj h
    simpa using heq
  · intro h
    rw [h]

theorem endWrite_effect (hs : Single s) (idx d : ℕ)
    (hv : (⟨idx, .in⟩ : EndpointAddress).isValid = true)
    (hc : s.endptcomplete.getLsbD (16 + idx) = true)
    (hd : (s.dqhs (epaddr2dqhidx ⟨idx, .in⟩)).currentDtd = d) (hal : d % 32 = 0) :
    Effect false s (endWritten s idx d) := by
  have hidx : idx < 2 := index_lt hv
  rw [endWritten_eq s idx d hidx]
  apply Effect.one ⟨idx, .in⟩ hv
  · subst hd
    have hmove : Move false ⟨idx, .in⟩ (view s ⟨idx, .in⟩) _ := Move.release _ hc hal
    convert hmove using 1
    simp [view, endptBit, EndpointAddress.isOut, getLsbD_clear, -BitVec.getLsbD_and]
  · intro ep' hv' hne
    have ha := apart hv hv' hne
    have hbit : 16 + idx ≠ endptBit ep' := ha.2
    simp [view, ha.1, hbit, getLsbD_clear, -BitVec.getLsbD_and]
  · intro j hj
    show (s.endptcomplete &&& ~~~mask 32 (16 + idx)).getLsbD j = _
    rw [getLsbD_clear, decide_eq_true (show 16 + idx ≠ j from hj), Bool.and_true]
  · exact hs
  · rfl
  · rfl

theorem endWrite_ends (hs : Single s) (idx : ℕ) (h : endWrite s idx = .ok t)
    (hc : s.endptcomplete.getLsbD (16 + idx) = true) : Ends [idx] s t := by
  obtain ⟨hv, d, hd, -, rfl⟩ := endWrite_ok idx h
  obtain ⟨hcur, hal⟩ := getCurrentDtd_some hd
  have hidx : idx < 2 := index_lt hv
  have heff := endWrite_effect hs idx d hv hc hcur hal
  have heq := endWritten_eq s idx d hidx
  refine ⟨heff, ?_, ?_, ?_, ?_, ?_, ?_, ?_, ?_, ?_, ?_, ?_, ?_⟩ <;> rw [heq]
  · intro j
    show (s.endptcomplete &&& ~~~mask 32 (16 + idx)).getLsbD j = _
    rw [getLsbD_clear]
    simp [eq_comm]
  · intro i
    show (s.inner.epInComplete.getD 0 ||| mask 16 idx).getLsbD i = _
    rw [getLsbD_set (by omega)]
    simp [eq_comm]
  · simp
  · intro i
    by_cases hi : i = idx
    · subst i
      simp
    · have hq : epaddr2dqhidx ⟨i, .in⟩ ≠ epaddr2dqhidx ⟨idx, .in⟩ :=
        fun hq => hi ((dqhidx_in _ _).mp hq)
      simp [hq, hi]
  · intro i
    show (scheduleStatusOut s (mask 16 idx)).inner.statusOut.getLsbD i = _
    rw [schedule_status s idx (by omega)]
    simp [eq_comm]
  · intro i
    show (scheduleStatusOut s (mask 16 idx)).inner.preStatusOut.getLsbD i = _
    rw [schedule_pre s idx]
    simp [eq_comm]
  · intro q
    by_cases hq : q = epaddr2dqhidx ⟨idx, .in⟩
    · subst q
      simp
    · simp [hq]
  · exact ⟨rfl, rfl, rfl, rfl⟩
  · exact ⟨rfl, rfl⟩
  · exact ⟨rfl, rfl⟩
  · exact ⟨rfl, rfl⟩
  · intro ep hep
    have hq : epaddr2dqhidx ep ≠ epaddr2dqhidx ⟨idx, .in⟩ :=
      fun hq => hep idx List.mem_cons_self (epaddr2dqhidx_inj hq)
    simp [hq]

theorem endWrites_ends (is : List ℕ) (hs : Single s) (hn : is.Nodup)
    (hc : ∀ i ∈ is, s.endptcomplete.getLsbD (16 + i) = true) (h : is.foldlM endWrite s = .ok t) :
    Ends is s t := by
  induction is generalizing s with
  | nil =>
    cases h
    exact ends_nil hs
  | cons i is ih =>
    rw [List.foldlM_cons] at h
    obtain ⟨u, hu, h⟩ := bind_ok h
    obtain ⟨hi, hn⟩ := List.nodup_cons.mp hn
    have hend := endWrite_ends hs i hu (hc i List.mem_cons_self)
    have hrest : ∀ j ∈ is, u.endptcomplete.getLsbD (16 + j) = true := by
      intro j hj
      have hne : j ≠ i := fun he => hi (he ▸ hj)
      rw [hend.complete, hc j (List.mem_cons_of_mem _ hj)]
      simp [hne]
    have htail := ih hend.effect.single hn hrest h
    exact ends_append hend htail (by simpa using hi)

/-- The IN transfer of this index has completed with an error. -/
def Failed (s : Usbd) (i : ℕ) : Prop :=
  ∃ d, (s.dqhs (epaddr2dqhidx ⟨i, .in⟩)).getCurrentDtd = some d ∧
    (s.dtd d).token.getStatus.failed = true

theorem endWrites_returns (is : List ℕ) (hn : is.Nodup)
    (h : ∀ i ∈ is, i < 2 ∧ ((s.dqhs (epaddr2dqhidx ⟨i, .in⟩)).getCurrentDtd).isSome = true) :
    (∃ t, is.foldlM endWrite s = .ok t) ∨
      is.foldlM endWrite s = .error .flushAndReset ∧ ∃ i ∈ is, Failed s i := by
  induction is generalizing s with
  | nil => exact Or.inl ⟨s, rfl⟩
  | cons i is ih =>
    obtain ⟨hi, hn⟩ := List.nodup_cons.mp hn
    obtain ⟨hlt, hsome⟩ := h i List.mem_cons_self
    obtain ⟨d, hd⟩ := Option.isSome_iff_exists.mp hsome
    have hv : (⟨i, .in⟩ : EndpointAddress).isValid = true := by
      interval_cases i <;> rfl
    rw [List.foldlM_cons]
    cases hf : (s.dtd d).token.getStatus.failed with
    | true =>
      rw [endWrite_fails i d hv hd hf]
      exact Or.inr ⟨rfl, i, List.mem_cons_self, d, hd, hf⟩
    | false =>
      rw [endWrite_returns i d hv hd hf]
      have heq := endWritten_eq s i d hlt
      have hdqh : ∀ j ∈ is, (endWritten s i d).dqhs (epaddr2dqhidx ⟨j, .in⟩) =
          s.dqhs (epaddr2dqhidx ⟨j, .in⟩) := by
        intro j hj
        have hne : epaddr2dqhidx ⟨j, .in⟩ ≠ epaddr2dqhidx ⟨i, .in⟩ := by
          intro hq
          rw [(dqhidx_in j i).mp hq] at hj
          exact hi hj
        rw [heq]
        exact Function.update_of_ne hne _ _
      have hdtd : (endWritten s i d).dtd = s.dtd := by rw [heq]
      have hrest : ∀ j ∈ is, j < 2 ∧
          (((endWritten s i d).dqhs (epaddr2dqhidx ⟨j, .in⟩)).getCurrentDtd).isSome = true := by
        intro j hj
        rw [hdqh j hj]
        exact h j (List.mem_cons_of_mem _ hj)
      rcases ih hn hrest with hok | ⟨herr, j, hj, d', hd', hf'⟩
      · exact Or.inl hok
      · rw [hdqh j hj] at hd'
        rw [hdtd] at hf'
        exact Or.inr ⟨herr, j, List.mem_cons_of_mem _ hj, d', hd', hf'⟩

end UsbArmory.Usb.EndWrite
