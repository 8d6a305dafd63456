import UsbArmory.Time.Waiting

/-!
# Waiting for a condition, or for a timeout

The condition is looked at, then the logger is flushed and the clock is read,
and an error is returned without another look. Where a delay separates the two
the condition may have become true in time.
-/

set_option autoImplicit false

namespace UsbArmory.Time.Timeout
open UsbArmory.Library.Binary UsbArmory.Library.Sampling UsbArmory.Time.Clock
open UsbArmory.Time.Linearizable UsbArmory.Time.Waiting

/-- A condition that stays true once it is. -/
structure Condition (Moment : Type) [Preorder Moment] where
  holds : Moment → Bool
  stays : ∀ t u, t ≤ u → holds t = true → holds u = true

section Wait
variable {Moment : Type} [Preorder Moment] (c : Counter Moment) (schedule : Schedule Moment)
variable (rounds : ℕ) (cond : Condition Moment) (timeout : Duration)

def Instant.elapsed (start : Instant) : Sampler Empty Duration := do
  let instant ← now c schedule rounds
  instant.durationSince start

/-- The loop of `wait_for_or_timeout`; `memlog_try_flush` takes some time only. -/
def waitForOrTimeoutFrom (start : Instant) : ℕ → Sampler Empty (Except Unit Unit)
  | 0 => throw .endless
  | fuel+1 => do
    let done ← sample schedule cond.holds
    if done then pure (.ok ())
    else
      let elapsed ← Instant.elapsed c schedule rounds start
      if timeout < elapsed then pure (.error ()) else waitForOrTimeoutFrom start fuel

def waitForOrTimeout (fuel : ℕ) : Sampler Empty (Except Unit Unit) := do
  let start ← now c schedule rounds
  waitForOrTimeoutFrom c schedule rounds cond timeout start fuel

/-- The loads at which the loop looks at the condition, unless it has ended before. -/
inductive Polled : ℕ → Prop where
  | first {start : Instant} {k : ℕ} (h : (now c schedule rounds).run 0 = .ok (start, k)) : Polled k
  | next {instant : Instant} {k l : ℕ} (hk : Polled k)
    (h : (now c schedule rounds).run (k+1) = .ok (instant, l)) : Polled l

/-- What the registers show at a load and at the next one. -/
def pair (k : ℕ) : UInt32 × UInt32 :=
  (c.rtcmr (schedule.moment k), c.rtclr (schedule.moment (k+1)))

/-- The clock is read until two pairs agree: from which load, for the value at which, to which. -/
inductive Reading : ℕ → ℕ → ℕ → Prop where
  | settled {k : ℕ} (h : pair c schedule k = pair c schedule (k+2)) : Reading k (k+1) (k+4)
  | again {k m l : ℕ} (h : pair c schedule k ≠ pair c schedule (k+2)) (hr : Reading (k+2) m l) :
    Reading k m l

/-- The loads at which there is a poll if the condition never holds and no timeout ends the loop. -/
inductive PollAt : ℕ → Prop where
  | first {m l : ℕ} (h : Reading c schedule 0 m l) : PollAt l
  | next {k m l : ℕ} (hk : PollAt k) (h : Reading c schedule (k+1) m l) : PollAt l

end Wait

/-- The fewest ticks that the code converts into more than the timeout. -/
def ticksPast (timeout : Duration) : ℕ := 2^15*timeout.secs.toNat +
  if timeout.nanos.toNat < 1953125*(2^15-1)/2^9 then (2^9*(timeout.nanos.toNat+1)+1953124)/1953125
  else 2^15

section Clock
variable {Moment : Type} [Preorder Moment] {c : Counter Moment} {schedule : Schedule Moment}
variable {rounds fuel k l : ℕ} {cond : Condition Moment} {timeout : Duration} {start : Instant}

theorem elapsed_run (hle : start.value.toNat ≤ c.count (schedule.moment k)) {instant : Instant}
    (h : (now c schedule rounds).run k = .ok (instant, l)) :
    ∃ d, instant.durationSince start = .ok d ∧
      (Instant.elapsed c schedule rounds start).run k = .ok (d, l) := by
  obtain ⟨m, hkm, -, hvalue⟩ := now_run h
  have hlater := c.monotone (schedule.monotone hkm)
  have hvalues : start.value ≤ instant.value := by
    rw [UInt64.le_iff_toNat_le, hvalue]
    exact hle.trans hlater
  obtain ⟨d, hd, -⟩ := unchecked_ok instant start
  rw [← durationSince_eq hvalues] at hd
  refine ⟨d, hd, ?_⟩
  rw [Instant.elapsed, run_step h, run_lift, hd]
  rfl

theorem now_later {instant : Instant} (h : (now c schedule rounds).run k = .ok (instant, l)) :
    k < l := by
  obtain ⟨m, hkm, hml, -⟩ := now_run h
  omega

theorem polled_start (hnow : (now c schedule rounds).run 0 = .ok (start, l))
    (h : Polled c schedule rounds k) : start.value.toNat ≤ c.count (schedule.moment k) := by
  obtain ⟨i, -, hil, hvalue⟩ := now_run hnow
  have hlk : l ≤ k := by
    induction h with
    | first h =>
      cases hnow.symm.trans h
      exact le_refl _
    | next _ h ih =>
      have hlater := now_later h
      omega
  rw [hvalue]
  exact c.monotone (schedule.monotone (by omega))

theorem waitFrom_goes (fuel : ℕ) (timeout : Duration) {d : Duration}
    (hcond : cond.holds (schedule.moment k) = false)
    (hd : (Instant.elapsed c schedule rounds start).run (k+1) = .ok (d, l)) :
    (waitForOrTimeoutFrom c schedule rounds cond timeout start (fuel+1)).run k =
      if timeout < d then .ok (.error (), l)
      else (waitForOrTimeoutFrom c schedule rounds cond timeout start fuel).run l := by
  rw [waitForOrTimeoutFrom, run_sample_bind, hcond, if_neg (by decide), run_step hd]
  split
  · rfl
  · rfl

/-- Where the loop looks at the condition in vain it has come from its start, or has ended with
an error before. -/
theorem waitFrom_comes (timeout : Duration) (hnow : (now c schedule rounds).run 0 = .ok (start, l))
    (h : Polled c schedule rounds k) (hcond : cond.holds (schedule.moment k) = false) :
    ∃ n, ∀ fuel,
      (waitForOrTimeoutFrom c schedule rounds cond timeout start (fuel+n)).run l =
        (waitForOrTimeoutFrom c schedule rounds cond timeout start fuel).run k ∨
      ∃ m, (waitForOrTimeoutFrom c schedule rounds cond timeout start (fuel+n)).run l =
        .ok (.error (), m) := by
  induction h with
  | first h =>
    cases hnow.symm.trans h
    exact ⟨0, fun _ => .inl rfl⟩
  | next hk h ih =>
    rename_i instant i j
    have hbefore : cond.holds (schedule.moment i) = false := by
      by_contra htrue
      have hlater := now_later h
      have hstays := cond.stays _ _ (schedule.monotone (by omega : i ≤ j))
        ((Bool.not_eq_false _).mp htrue)
      exact absurd (hstays.symm.trans hcond) (by decide)
    have hle := polled_start hnow hk
    have hnext := c.monotone (schedule.monotone (Nat.le_succ i))
    obtain ⟨d, -, hd⟩ := elapsed_run (hle.trans hnext) h
    obtain ⟨n, hn⟩ := ih hbefore
    refine ⟨n+1, fun fuel => ?_⟩
    have hround := waitFrom_goes fuel timeout hbefore hd
    have hfuel : fuel+(n+1) = fuel+1+n := by omega
    rw [hfuel]
    rcases hn (fuel+1) with hsame | hended
    · rw [hsame, hround]
      split
      · exact .inr ⟨_, rfl⟩
      · exact .inl rfl
    · exact .inr hended

theorem nowFrom_ends (high low : UInt32) (k : ℕ) :
    (nowFrom c schedule fuel high low).run k = .error .endless ∨
    ∃ instant l, (nowFrom c schedule fuel high low).run k = .ok (instant, l) := by
  induction fuel generalizing high low k with
  | zero => exact .inl rfl
  | succ fuel ih =>
    rw [nowFrom, run_sample_bind, run_sample_bind]
    split
    · exact .inr ⟨_, _, rfl⟩
    · exact ih _ _ _

theorem now_ends (c : Counter Moment) (schedule : Schedule Moment) (rounds k : ℕ) :
    (now c schedule rounds).run k = .error .endless ∨
    ∃ instant l, (now c schedule rounds).run k = .ok (instant, l) := by
  rw [now, run_sample_bind, run_sample_bind]
  exact nowFrom_ends _ _ _

theorem pair_iff (c : Counter Moment) (schedule : Schedule Moment) (k : ℕ) :
    (c.rtclr (schedule.moment (k+2+1)) = c.rtclr (schedule.moment (k+1)) ∧
      c.rtcmr (schedule.moment (k+2)) = c.rtcmr (schedule.moment k)) ↔
    pair c schedule k = pair c schedule (k+2) := by
  rw [pair, pair, Prod.mk.injEq, and_comm, eq_comm, @eq_comm _ (c.rtclr _)]

theorem nowFrom_pair (c : Counter Moment) (schedule : Schedule Moment) (fuel k : ℕ) :
    (nowFrom c schedule (fuel+1) (pair c schedule k).1 (pair c schedule k).2).run (k+2) =
      if pair c schedule k = pair c schedule (k+2) then
        .ok (⟨(pair c schedule k).1.toUInt64 <<< 32 ||| (pair c schedule k).2.toUInt64⟩, k+4)
      else (nowFrom c schedule fuel (pair c schedule (k+2)).1 (pair c schedule (k+2)).2).run
        (k+2+2) := by
  rw [nowFrom, run_sample_bind, run_sample_bind]
  by_cases h : pair c schedule k = pair c schedule (k+2)
  · rw [if_pos h]
    exact congrArg (fun p : Sampler Empty Instant => p.run (k+4)) (if_pos ((pair_iff _ _ _).mpr h))
  · rw [if_neg h]
    exact congrArg (fun p : Sampler Empty Instant => p.run (k+4))
      (if_neg fun hpair => h ((pair_iff _ _ _).mp hpair))

theorem now_pair (c : Counter Moment) (schedule : Schedule Moment) (rounds k : ℕ) :
    (now c schedule rounds).run k =
      (nowFrom c schedule rounds (pair c schedule k).1 (pair c schedule k).2).run (k+2) := rfl

theorem pair_value (h : pair c schedule k = pair c schedule (k+2)) :
    ((pair c schedule k).1.toUInt64 <<< 32 ||| (pair c schedule k).2.toUInt64).toNat =
      c.count (schedule.moment (k+1)) := by
  have hhigh : c.rtcmr (schedule.moment k) = c.rtcmr (schedule.moment (k+2)) :=
    congrArg Prod.fst h
  have hsteady : c.rtcmr (schedule.moment (k+1)) = c.rtcmr (schedule.moment k) :=
    rtcmr_steady (schedule.monotone (Nat.le_succ _)) (schedule.monotone (Nat.le_succ _)) hhigh
  rw [pair, ← hsteady]
  exact toNat_joined c _

theorem reading_of_nowFrom {instant : Instant} (h : (nowFrom c schedule fuel
    (pair c schedule k).1 (pair c schedule k).2).run (k+2) = .ok (instant, l)) :
    ∃ m, Reading c schedule k m l ∧ instant.value.toNat = c.count (schedule.moment m) := by
  induction fuel generalizing k with
  | zero => cases h
  | succ fuel ih =>
    rw [nowFrom_pair] at h
    split at h
    next hsame =>
      cases h
      exact ⟨k+1, .settled hsame, pair_value hsame⟩
    next hdiffer =>
      obtain ⟨m, hm, hvalue⟩ := ih h
      exact ⟨m, .again hdiffer hm, hvalue⟩

theorem reading_of_now {instant : Instant}
    (h : (now c schedule rounds).run k = .ok (instant, l)) :
    ∃ m, Reading c schedule k m l ∧ instant.value.toNat = c.count (schedule.moment m) :=
  reading_of_nowFrom h

theorem Reading.runs {m : ℕ} (h : Reading c schedule k m l) :
    ∃ n instant, instant.value.toNat = c.count (schedule.moment m) ∧
      ∀ rounds, n ≤ rounds → (now c schedule rounds).run k = .ok (instant, l) := by
  induction h with
  | settled h =>
    refine ⟨1, _, pair_value h, fun rounds hrounds => ?_⟩
    obtain ⟨fuel, rfl⟩ := Nat.exists_eq_add_of_le' hrounds
    rw [now_pair, nowFrom_pair, if_pos h]
  | again h _ ih =>
    obtain ⟨n, instant, hvalue, hn⟩ := ih
    refine ⟨n+1, instant, hvalue, fun rounds hrounds => ?_⟩
    obtain ⟨fuel, rfl⟩ := Nat.exists_eq_add_of_le' hrounds
    rw [← Nat.add_assoc, now_pair, nowFrom_pair, if_neg h]
    exact hn _ (Nat.le_add_left n fuel)

theorem Polled.pollAt (h : Polled c schedule rounds k) : PollAt c schedule k := by
  induction h with
  | first h =>
    obtain ⟨m, hm, -⟩ := reading_of_now h
    exact .first hm
  | next _ h ih =>
    obtain ⟨m, hm, -⟩ := reading_of_now h
    exact .next ih hm

theorem PollAt.polled (h : PollAt c schedule k) :
    ∃ n, ∀ rounds, n ≤ rounds → Polled c schedule rounds k := by
  induction h with
  | first h =>
    obtain ⟨n, instant, -, hn⟩ := h.runs
    exact ⟨n, fun rounds hrounds => .first (hn rounds hrounds)⟩
  | next _ h ih =>
    obtain ⟨n, hn⟩ := ih
    obtain ⟨n', instant, -, hn'⟩ := h.runs
    exact ⟨max n n', fun rounds hrounds => .next (hn rounds (le_of_max_le_left hrounds))
      (hn' rounds (le_of_max_le_right hrounds))⟩

theorem converted_past {d : Duration} {n : ℕ} (hsecs : d.secs.toNat = n/2^15)
    (hnanos : d.nanos.toNat = 1953125*(n%2^15)/2^9) : timeout < d ↔ ticksPast timeout ≤ n := by
  have hrest : n%2^15 < 2^15 := Nat.mod_lt _ (by decide)
  rw [lt_iff, hsecs, hnanos, ticksPast]
  split_ifs with hsmall
  · omega
  · omega

theorem elapsed_past {later : Instant} {d : Duration} (h : later.durationSince start = .ok d) :
    timeout < d ↔ start.value.toNat+ticksPast timeout ≤ later.value.toNat := by
  have hle : start.value ≤ later.value := by
    by_contra hnot
    rw [Instant.durationSince, ensure, if_neg hnot] at h
    cases h
  obtain ⟨d', hd', hsecs, hnanos⟩ := unchecked_ok later start
  rw [durationSince_eq hle, hd'] at h
  cases h
  have hnat := UInt64.le_iff_toNat_le.mp hle
  rw [converted_past hsecs hnanos, UInt64.toNat_sub_of_le _ _ hle]
  omega

variable (c schedule rounds cond timeout start)

inductive Ended : Except (Stop Empty) (Except Unit Unit × ℕ) → Prop where
  | endless : Ended (.error .endless)
  | ok {k : ℕ} (hk : Polled c schedule rounds k) (h : cond.holds (schedule.moment k) = true) :
    Ended (.ok (.ok (), k+1))
  | error {k l : ℕ} {instant : Instant} {elapsed : Duration} (hk : Polled c schedule rounds k)
    (h : cond.holds (schedule.moment k) = false)
    (hnow : (now c schedule rounds).run (k+1) = .ok (instant, l))
    (hpassed : instant.durationSince start = .ok elapsed) (hlate : timeout < elapsed) :
    Ended (.ok (.error (), l))

variable {c schedule rounds cond timeout start}

theorem waitFrom_ended (hnow : (now c schedule rounds).run 0 = .ok (start, l))
    (hk : Polled c schedule rounds k) : Ended c schedule rounds cond timeout start
      ((waitForOrTimeoutFrom c schedule rounds cond timeout start fuel).run k) := by
  induction fuel generalizing k with
  | zero => exact .endless
  | succ fuel ih =>
    cases hcond : cond.holds (schedule.moment k) with
    | true =>
      rw [waitForOrTimeoutFrom, run_sample_bind, hcond, if_pos rfl]
      exact .ok hk hcond
    | false =>
      rcases now_ends c schedule rounds (k+1) with
        hendless | ⟨instant, m, hread⟩
      · rw [waitForOrTimeoutFrom, run_sample_bind, hcond, if_neg (by decide), Instant.elapsed,
          StateT.run_bind, StateT.run_bind, hendless]
        exact .endless
      · have hnext := c.monotone (schedule.monotone (Nat.le_succ k))
        obtain ⟨d, hd, hrun⟩ := elapsed_run ((polled_start hnow hk).trans hnext) hread
        rw [waitFrom_goes fuel timeout hcond hrun]
        split
        next hlate => exact .error hk hcond hread hd hlate
        next => exact ih (.next hk hread)

theorem wait_ended (c : Counter Moment) (schedule : Schedule Moment) (cond : Condition Moment)
    (timeout : Duration) (rounds fuel : ℕ) :
    (waitForOrTimeout c schedule rounds cond timeout fuel).run 0 = .error .endless ∨
    ∃ start l, (now c schedule rounds).run 0 = .ok (start, l) ∧
      Ended c schedule rounds cond timeout start
        ((waitForOrTimeout c schedule rounds cond timeout fuel).run 0) := by
  rcases now_ends c schedule rounds 0 with
    hendless | ⟨start, l, hnow⟩
  · refine .inl ?_
    rw [waitForOrTimeout, StateT.run_bind, hendless]
    rfl
  · refine .inr ⟨start, l, hnow, ?_⟩
    rw [waitForOrTimeout, run_step hnow]
    exact waitFrom_ended hnow (.first hnow)

end Clock

section Real
variable (schedule : Schedule RealTime) (cond : Condition RealTime) (timeout : Duration)

/-- The condition is false at a moment later than the timeout after the start. -/
def Late : Prop :=
  ∃ t : RealTime, (schedule.moment 0).1+seconds timeout < t.1 ∧ cond.holds t = false

/-- What is returned is so. -/
structure Sound : Prop where
  ok : ∀ rounds fuel n, (waitForOrTimeout rtc schedule rounds cond timeout fuel).run 0 =
    .ok (.ok (), n) → ∃ k, Polled rtc schedule rounds k ∧ k < n ∧
      cond.holds (schedule.moment k) = true
  error : ∀ rounds fuel n, (waitForOrTimeout rtc schedule rounds cond timeout fuel).run 0 =
    .ok (.error (), n) → Late schedule cond timeout
  calm : ∀ rounds fuel message, (waitForOrTimeout rtc schedule rounds cond timeout fuel).run 0 ≠
    .error (.panic message)

/-- The condition holds at every moment later than the timeout after the start. -/
def InTime : Prop :=
  ∀ t : RealTime, (schedule.moment 0).1+seconds timeout < t.1 → cond.holds t = true

/-- Between the reading at the start and the one behind a poll that is in vain the clock does not
take the ticks of the timeout. -/
def Prompt : Prop := ∀ i s k m l, Reading rtc schedule 0 i s → PollAt rtc schedule k →
  Reading rtc schedule (k+1) m l → cond.holds (schedule.moment k) = false →
    rtc.count (schedule.moment m) < rtc.count (schedule.moment i)+ticksPast timeout

variable {schedule cond timeout}

theorem inTime_iff : InTime schedule cond timeout ↔ ¬Late schedule cond timeout := by
  constructor
  · rintro h ⟨t, hlate, hcond⟩
    exact absurd ((h t hlate).symm.trans hcond) (by decide)
  · intro h t hlate
    by_contra hcond
    exact h ⟨t, hlate, (Bool.not_eq_true _).mp hcond⟩

theorem prompt_of_sound (h : Sound schedule cond timeout) (hdue : InTime schedule cond timeout) :
    Prompt schedule cond timeout := by
  intro i s k m l hfirst hpoll hread hcond
  by_contra hlate
  obtain ⟨n, hn⟩ := hpoll.polled
  obtain ⟨n0, start, hstart, hnow⟩ := hfirst.runs
  obtain ⟨n1, instant, hinstant, hthen⟩ := hread.runs
  have hmax : n ≤ n+n0+n1 ∧ n0 ≤ n+n0+n1 ∧ n1 ≤ n+n0+n1 := by omega
  have hk := hn (n+n0+n1) hmax.1
  have hnow := hnow (n+n0+n1) hmax.2.1
  have hthen := hthen (n+n0+n1) hmax.2.2
  obtain ⟨d, hd, hrun⟩ := elapsed_run
    ((polled_start hnow hk).trans (rtc.monotone (schedule.monotone (Nat.le_succ k)))) hthen
  have hpast : timeout < d := by
    rw [elapsed_past hd, hstart, hinstant]
    omega
  have hround := waitFrom_goes 0 timeout hcond hrun
  rw [if_pos hpast] at hround
  obtain ⟨j, hj⟩ := waitFrom_comes timeout hnow hk hcond
  apply inTime_iff.mp hdue
  rcases hj 1 with hsame | ⟨e, hended⟩
  · exact h.error _ _ _ ((run_step hnow).trans (hsame.trans hround))
  · exact h.error _ _ _ ((run_step hnow).trans hended)

/-- A timeout is reported rightly exactly if the condition comes too late, or the clock does not
pass the timeout between a poll that is in vain and the reading behind it. -/
theorem sound_iff_prompt (schedule : Schedule RealTime) (cond : Condition RealTime)
    (timeout : Duration) : Sound schedule cond timeout ↔
      (InTime schedule cond timeout → Prompt schedule cond timeout) := by
  constructor
  · exact prompt_of_sound
  · intro h
    have hended := wait_ended rtc schedule cond timeout
    constructor
    · intro rounds fuel n hrun
      rcases hended rounds fuel with hendless | ⟨start, l, -, he⟩
      · cases hrun.symm.trans hendless
      · rw [hrun] at he
        cases he with
        | ok hk hcond => exact ⟨_, hk, Nat.lt_succ_self _, hcond⟩
    · intro rounds fuel n hrun
      by_contra hnot
      rcases hended rounds fuel with hendless | ⟨start, l, hnow, he⟩
      · cases hrun.symm.trans hendless
      · rw [hrun] at he
        cases he with
        | error hk hcond hread hpassed hlate =>
          obtain ⟨i, hfirst, hstart⟩ := reading_of_now hnow
          obtain ⟨m, hlast, hvalue⟩ := reading_of_now hread
          have hprompt := h (inTime_iff.mpr hnot) i l _ m _ hfirst hk.pollAt hlast hcond
          rw [elapsed_past hpassed, hstart, hvalue] at hlate
          omega
    · intro rounds fuel message hrun
      rcases hended rounds fuel with hendless | ⟨start, l, -, he⟩
      · cases hrun.symm.trans hendless
      · rw [hrun] at he
        cases he

end Real

def ready : Condition RealTime where
  holds t := decide ((1 : ℚ)/2 ≤ t.1)
  stays _ _ htu h := decide_eq_true ((of_decide_eq_true h).trans htu)

def atSecond (n : ℚ) (h : 0 ≤ n ∧ 32768*n < 2^47) : RealTime := ⟨n, h⟩

/-- The first poll is at once, and a delay of three seconds follows. -/
def delayed : Schedule RealTime where
  moment k := if k < 5 then atSecond 0 (by norm_num) else atSecond 3 (by norm_num)
  monotone k m hkm := by
    have hle : atSecond 0 (by norm_num) ≤ atSecond 3 (by norm_num) := by
      show (0 : ℚ) ≤ 3
      norm_num
    dsimp only
    split_ifs
    · exact le_refl _
    · exact hle
    · omega
    · exact le_refl _

theorem rtc_second (n : ℕ) (h : (0 : ℚ) ≤ n ∧ 32768*(n : ℚ) < 2^47) :
    rtc.count (atSecond n h) = 32768*n := by
  show ⌊(32768 : ℚ)*n⌋₊ = _
  exact_mod_cast Nat.floor_natCast (32768*n)

/-- The condition holds half a second before the deadline, and the timeout is reported. -/
theorem delayed_timeout : ¬Late delayed ready ⟨1, 0, by decide⟩ ∧
    (waitForOrTimeout rtc delayed 1 ready ⟨1, 0, by decide⟩ 1).run 0 = .ok (.error (), 9) ∧
    ¬Sound delayed ready ⟨1, 0, by decide⟩ := by
  have hnot : ¬Late delayed ready ⟨1, 0, by decide⟩ := by
    rintro ⟨t, hlate, hcond⟩
    have hsecs : (1 : UInt64).toNat = 1 := rfl
    have hstart : (delayed.moment 0).1 = 0 := rfl
    rw [hstart] at hlate
    norm_num [seconds, hsecs] at hlate
    have hready : (1 : ℚ)/2 ≤ t.1 := by linarith
    exact absurd ((decide_eq_true hready).symm.trans hcond) (by decide)
  have hzero : rtc.count (delayed.moment 0) = 0 := rtc_second 0 (by norm_num)
  have hthree : rtc.count (delayed.moment 5) = 98304 := rtc_second 3 (by norm_num)
  have hnow : (now rtc delayed 1).run 0 = .ok (⟨0⟩, 4) := by
    have hquiet : (now rtc delayed (0+1)).run 0 =
        .ok (⟨UInt64.ofNat (rtc.count (delayed.moment 0))⟩, 0+4) :=
      now_quiet fun i hi => if_pos (by omega)
    rwa [hzero] at hquiet
  have hread : (now rtc delayed 1).run 5 = .ok (⟨98304⟩, 9) := by
    have hquiet : (now rtc delayed (0+1)).run 5 =
        .ok (⟨UInt64.ofNat (rtc.count (delayed.moment 5))⟩, 5+4) :=
      now_quiet fun i hi => if_neg (by omega)
    rwa [hthree] at hquiet
  have hcond : ready.holds (delayed.moment 4) = false := by
    apply decide_eq_false
    show ¬(1 : ℚ)/2 ≤ 0
    norm_num
  have helapsed : (Instant.elapsed rtc delayed 1 ⟨0⟩).run 5 = .ok (⟨3, 0, by decide⟩, 9) := by
    rw [Instant.elapsed, run_step hread]
    rfl
  have hrun : (waitForOrTimeout rtc delayed 1 ready ⟨1, 0, by decide⟩ 1).run 0 =
      .ok (.error (), 9) := by
    rw [waitForOrTimeout, run_step hnow, waitFrom_goes 0 _ hcond helapsed]
    exact if_pos (by decide)
  exact ⟨hnot, hrun, fun h => hnot (h.error 1 1 9 hrun)⟩

end UsbArmory.Time.Timeout
