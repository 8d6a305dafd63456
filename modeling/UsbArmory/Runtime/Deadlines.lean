import UsbArmory.Time.Waiting

/-!
# Deadlines at boot

A wait adds its ticks to the lower word of the clock, and compares the sum with
the lower word from then on. Where the sum overflows it panics, or the wait is
over at once.
-/

set_option autoImplicit false

namespace UsbArmory.Runtime.Deadlines
open UsbArmory.Library.Word UsbArmory.Library.Binary UsbArmory.Library.Sampling
open UsbArmory.Time.Clock UsbArmory.Time.Linearizable UsbArmory.Time.Waiting

/-- In ticks of 32.768 kHz. -/
def timeout : UInt32 := 33

def i2srIif : UInt16 := (1 : UInt16) <<< 1

def i2srIal : UInt16 := (1 : UInt16) <<< 4

inductive FlagState where
  | set
  | clear
  deriving DecidableEq

def expected (flag : UInt16) : FlagState → UInt16
  | .set => flag
  | .clear => 0

/-- What is returned, and what has been written to `I2SR`. -/
structure Waited where
  result : Except Unit UInt16
  written : List UInt16

section Code
variable {Moment : Type} [Preorder Moment] (o : Overflow) (c : Counter Moment)
variable (schedule : Schedule Moment) (i2sr : Moment → UInt16)

def Rtc.now : Sampler Empty UInt32 := sample schedule c.rtclr

def deadline (start ticks : UInt32) : Except (Stop Empty) UInt32 :=
  expect "attempt to add with overflow" (o.add32 start ticks)

/-- The loop of `i2c_wait_for_sr`. -/
def i2cWaitFrom (flag : UInt16) (state : FlagState) (start : UInt32) : ℕ → Sampler Empty Waited
  | 0 => throw .endless
  | fuel+1 => do
    let sr ← sample schedule i2sr
    if sr &&& i2srIal ≠ 0 then pure ⟨.error (), []⟩
    else if sr &&& flag = expected flag state then
      pure ⟨.ok sr, if flag = i2srIif ∧ state = .set then [0] else []⟩
    else
      let now ← Rtc.now c schedule
      let last ← deadline o start timeout
      if last ≤ now then pure ⟨.error (), []⟩ else i2cWaitFrom flag state start fuel

def i2cWaitForSr (flag : UInt16) (state : FlagState) (fuel : ℕ) : Sampler Empty Waited := do
  let start ← Rtc.now c schedule
  i2cWaitFrom o c schedule i2sr flag state start fuel

/-- The loop at the end of `start`. -/
def delayFrom (start : UInt32) : ℕ → Sampler Empty Unit
  | 0 => throw .endless
  | fuel+1 => do
    let now ← Rtc.now c schedule
    let last ← deadline o start 6554
    if now < last then delayFrom start fuel else pure ()

def delay (fuel : ℕ) : Sampler Empty Unit := do
  let start ← Rtc.now c schedule
  delayFrom o c schedule start fuel

end Code

section Word
variable {Moment : Type} [Preorder Moment] {c : Counter Moment} {o : Overflow} {a b : Moment}

/-- A lower word past a sum that has not overflowed is that of a moment as many ticks later. -/
theorem ticks_passed (hab : a ≤ b) {ticks : ℕ} (h : (c.rtclr a).toNat+ticks ≤ (c.rtclr b).toNat) :
    c.count a+ticks ≤ c.count b := by
  have hmono := c.monotone hab
  rw [toNat_rtclr, toNat_rtclr] at h
  omega

theorem deadline_overflow (o : Overflow) (ticks : UInt32) {w : UInt32}
    (h : 2^32 ≤ w.toNat+ticks.toNat) :
    (o = .panics ∧ deadline o w ticks = .error (.panic "attempt to add with overflow")) ∨
    (o = .wraps ∧ ∃ last, deadline o w ticks = .ok last ∧ last ≤ w) := by
  have hw := w.toNat_lt
  have hticks := ticks.toNat_lt
  cases o with
  | panics =>
    refine .inl ⟨rfl, ?_⟩
    rw [deadline, add32_overflow h]
    rfl
  | wraps =>
    refine .inr ⟨rfl, w+ticks, rfl, ?_⟩
    rw [UInt32.le_iff_toNat_le, UInt32.toNat_add]
    omega

theorem deadline_exact (o : Overflow) (ticks : UInt32) {w : UInt32}
    (h : w.toNat+ticks.toNat < 2^32) :
    ∃ last, deadline o w ticks = .ok last ∧ last.toNat = w.toNat+ticks.toNat :=
  expect_add32 o _ h

end Word

/-- The status shows neither the expected flag state nor an arbitration loss. -/
def Idle (flag : UInt16) (state : FlagState) (sr : UInt16) : Prop :=
  sr &&& i2srIal = 0 ∧ sr &&& flag ≠ expected flag state

section Loops
variable {o : Overflow} {schedule : Schedule RealTime} {i2sr : RealTime → UInt16}
variable {flag : UInt16} {state : FlagState} {w last : UInt32} {k m fuel : ℕ}

variable (schedule i2sr flag state k)

/-- How the loop ends that takes its start at the load `k`; an error has its reason. -/
inductive WaitEnded : Except (Stop Empty) (Waited × ℕ) → Prop where
  | endless : WaitEnded (.error .endless)
  | ok (sr : UInt16) (written : List UInt16) (n : ℕ) : WaitEnded (.ok (⟨.ok sr, written⟩, n))
  | lost (written : List UInt16) (m : ℕ) (h : i2sr (schedule.moment (k+2*m+1)) &&& i2srIal ≠ 0) :
    WaitEnded (.ok (⟨.error (), written⟩, k+2*m+2))
  | late (written : List UInt16) (m : ℕ)
    (hidle : ∀ i ≤ m, Idle flag state (i2sr (schedule.moment (k+2*i+1))))
    (hticks : rtc.count (schedule.moment k)+timeout.toNat ≤
      rtc.count (schedule.moment (k+2*m+2))) :
    WaitEnded (.ok (⟨.error (), written⟩, k+2*m+3))

variable {schedule i2sr flag state k}

theorem waitFrom_idle (fuel : ℕ) (hidle : Idle flag state (i2sr (schedule.moment m)))
    (hlast : deadline o w timeout = .ok last) :
    (i2cWaitFrom o rtc schedule i2sr flag state w (fuel+1)).run m =
      if last ≤ rtc.rtclr (schedule.moment (m+1)) then .ok (⟨.error (), []⟩, m+2)
      else (i2cWaitFrom o rtc schedule i2sr flag state w fuel).run (m+2) := by
  rw [i2cWaitFrom, run_sample_bind, if_neg (not_not_intro hidle.1), if_neg hidle.2, Rtc.now,
    run_sample_bind, run_step (by rw [run_lift, hlast]; rfl)]
  split
  · rfl
  · rfl

theorem waitFrom_ended (hw : rtc.rtclr (schedule.moment k) = w)
    (hlast : deadline o w timeout = .ok last) (hsum : last.toNat = w.toNat+timeout.toNat)
    (hbefore : ∀ i < m, Idle flag state (i2sr (schedule.moment (k+2*i+1)))) :
    WaitEnded schedule i2sr flag state k
      ((i2cWaitFrom o rtc schedule i2sr flag state w fuel).run (k+2*m+1)) := by
  induction fuel generalizing m with
  | zero => exact .endless
  | succ fuel ih =>
    by_cases hlost : i2sr (schedule.moment (k+2*m+1)) &&& i2srIal ≠ 0
    · rw [i2cWaitFrom, run_sample_bind, if_pos hlost]
      exact .lost [] m hlost
    · by_cases hdone : i2sr (schedule.moment (k+2*m+1)) &&& flag = expected flag state
      · rw [i2cWaitFrom, run_sample_bind, if_neg hlost, if_pos hdone]
        exact .ok _ _ _
      · have hidle : Idle flag state (i2sr (schedule.moment (k+2*m+1))) :=
          ⟨not_not.mp hlost, hdone⟩
        have hall : ∀ i < m+1, Idle flag state (i2sr (schedule.moment (k+2*i+1))) := by
          intro i hi
          rcases Nat.lt_succ_iff_lt_or_eq.mp hi with hlt | rfl
          · exact hbefore i hlt
          · exact hidle
        rw [waitFrom_idle fuel hidle hlast]
        split
        next hpast =>
          refine .late [] m (fun i hi => hall i (Nat.lt_succ_of_le hi)) ?_
          refine ticks_passed (schedule.monotone (by omega)) ?_
          rw [hw, ← hsum]
          exact UInt32.le_iff_toNat_le.mp hpast
        next => exact ih hall

theorem delayFrom_ended (hw : rtc.rtclr (schedule.moment k) = w)
    (hlast : deadline o w 6554 = .ok last) (hsum : last.toNat = w.toNat+6554) (hkm : k ≤ m) :
    (delayFrom o rtc schedule w fuel).run m = .error .endless ∨
    ∃ n, (delayFrom o rtc schedule w fuel).run m = .ok ((), n+1) ∧
      rtc.count (schedule.moment k)+6554 ≤ rtc.count (schedule.moment n) := by
  induction fuel generalizing m with
  | zero => exact .inl rfl
  | succ fuel ih =>
    rw [delayFrom, Rtc.now, run_sample_bind, run_step (by rw [run_lift, hlast]; rfl)]
    split
    next => exact ih (by omega)
    next hpast =>
      refine .inr ⟨m, rfl, ticks_passed (schedule.monotone hkm) ?_⟩
      rw [hw, ← hsum]
      exact UInt32.le_iff_toNat_le.mp (UInt32.not_lt.mp hpast)

end Loops

/-- The waits that begin when the lower word of the clock is `w`, and `v` for the delay, do not
panic, and end as late as they say. -/
structure Timely (o : Overflow) (w v : UInt32) : Prop where
  wait : ∀ (schedule : Schedule RealTime) (i2sr : RealTime → UInt16) flag state fuel k,
    rtc.rtclr (schedule.moment k) = w → WaitEnded schedule i2sr flag state k
      ((i2cWaitForSr o rtc schedule i2sr flag state fuel).run k)
  delay : ∀ (schedule : Schedule RealTime) fuel k, rtc.rtclr (schedule.moment k) = v →
    (delay o rtc schedule fuel).run k = .error .endless ∨
    ∃ n, (delay o rtc schedule fuel).run k = .ok ((), n+1) ∧
      rtc.count (schedule.moment k)+6554 ≤ rtc.count (schedule.moment n)

/-- The clock does not go on. -/
def still (t : RealTime) : Schedule RealTime where
  moment _ := t
  monotone _ _ _ := le_refl t

def atWord (w : UInt32) : RealTime :=
  ⟨w.toNat/32768, by positivity, by
    have hw : (w.toNat : ℚ) < 2^32 := by exact_mod_cast w.toNat_lt
    linarith⟩

theorem count_atWord (w : UInt32) : rtc.count (atWord w) = w.toNat := by
  show ⌊32768*((w.toNat : ℚ)/32768)⌋₊ = w.toNat
  rw [mul_div_cancel₀ _ (by norm_num)]
  exact Nat.floor_natCast _

theorem rtclr_atWord (w : UInt32) : rtc.rtclr (atWord w) = w := by
  apply UInt32.toNat.inj
  rw [toNat_rtclr, count_atWord]
  exact Nat.mod_eq_of_lt w.toNat_lt

theorem idle_zero : Idle i2srIif .set 0 := ⟨by decide, by decide⟩

theorem wait_still (o : Overflow) {w : UInt32} (h : 2^32 ≤ w.toNat+timeout.toNat) :
    (o = .panics ∧ (i2cWaitForSr o rtc (still (atWord w)) (fun _ => 0) i2srIif .set 1).run 0 =
      .error (.panic "attempt to add with overflow")) ∨
    (o = .wraps ∧ (i2cWaitForSr o rtc (still (atWord w)) (fun _ => 0) i2srIif .set 1).run 0 =
      .ok (⟨.error (), []⟩, 3)) := by
  have hlow : rtc.rtclr ((still (atWord w)).moment 0) = w := rtclr_atWord w
  have hnow : rtc.rtclr ((still (atWord w)).moment 2) = w := rtclr_atWord w
  rw [i2cWaitForSr, Rtc.now, run_sample_bind, hlow]
  rcases deadline_overflow o timeout h with ⟨ho, hlast⟩ | ⟨ho, last, hlast, hle⟩
  · refine .inl ⟨ho, ?_⟩
    rw [i2cWaitFrom, run_sample_bind, if_neg (not_not_intro idle_zero.1), if_neg idle_zero.2,
      Rtc.now, run_sample_bind, StateT.run_bind, run_lift, hlast]
    rfl
  · refine .inr ⟨ho, ?_⟩
    rw [waitFrom_idle 0 idle_zero hlast, hnow, if_pos hle]

theorem wait_overflow (o : Overflow) {w : UInt32} (h : 2^32 ≤ w.toNat+timeout.toNat) :
    ¬WaitEnded (still (atWord w)) (fun _ => 0) i2srIif .set 0
      ((i2cWaitForSr o rtc (still (atWord w)) (fun _ => 0) i2srIif .set 1).run 0) := by
  intro hended
  rcases wait_still o h with ⟨-, hrun⟩ | ⟨-, hrun⟩
  · rw [hrun] at hended
    cases hended
  · rw [hrun] at hended
    generalize hn : 3 = n at hended
    cases hended with
    | lost _ m hlost => exact hlost idle_zero.1
    | late _ m hidle hticks => exact Nat.not_le.mpr (Nat.lt_add_of_pos_right (by decide)) hticks

theorem delay_overflow (o : Overflow) {v : UInt32} (h : 2^32 ≤ v.toNat+6554) :
    ¬((delay o rtc (still (atWord v)) 1).run 0 = .error .endless ∨
      ∃ n, (delay o rtc (still (atWord v)) 1).run 0 = .ok ((), n+1) ∧
        rtc.count ((still (atWord v)).moment 0)+6554 ≤
          rtc.count ((still (atWord v)).moment n)) := by
  have hlow : rtc.rtclr ((still (atWord v)).moment 0) = v := rtclr_atWord v
  have hnow : rtc.rtclr ((still (atWord v)).moment 1) = v := rtclr_atWord v
  rw [delay, Rtc.now, run_sample_bind, hlow, delayFrom, Rtc.now, run_sample_bind, hnow]
  rintro (hendless | ⟨n, -, hticks⟩)
  · rcases deadline_overflow o 6554 h with ⟨-, hlast⟩ | ⟨-, last, hlast, hle⟩
    · rw [StateT.run_bind, run_lift, hlast] at hendless
      cases hendless
    · rw [run_step (by rw [run_lift, hlast]; rfl), if_neg (UInt32.not_lt.mpr hle)] at hendless
      cases hendless
  · have hsame : rtc.count ((still (atWord v)).moment 0)+6554 ≤
        rtc.count ((still (atWord v)).moment 0) := hticks
    omega

/-- The waits at boot keep their time exactly if neither deadline overflows, whether an overflow
panics or wraps. -/
theorem timely_iff (o : Overflow) (w v : UInt32) :
    Timely o w v ↔ w.toNat+33 < 2^32 ∧ v.toNat+6554 < 2^32 := by
  constructor
  · intro h
    constructor
    · by_contra hover
      exact wait_overflow o (Nat.not_lt.mp hover) (h.wait _ _ _ _ _ _ (rtclr_atWord w))
    · by_contra hover
      exact delay_overflow o (Nat.not_lt.mp hover) (h.delay _ _ _ (rtclr_atWord v))
  · rintro ⟨hw, hv⟩
    constructor
    · intro schedule i2sr flag state fuel k hk
      obtain ⟨last, hlast, hsum⟩ := deadline_exact o timeout hw
      rw [i2cWaitForSr, Rtc.now, run_sample_bind, hk]
      exact waitFrom_ended (m := 0) hk hlast hsum (fun i hi => absurd hi (Nat.not_lt_zero i))
    · intro schedule fuel k hk
      obtain ⟨last, hlast, hsum⟩ := deadline_exact o 6554 hv
      rw [delay, Rtc.now, run_sample_bind, hk]
      exact delayFrom_ended hk hlast hsum (Nat.le_succ k)

/-- Ten ticks before the lower word wraps. -/
theorem timely_not : (∀ o, ¬Timely o 4294967286 0) ∧
    (i2cWaitForSr .panics rtc (still (atWord 4294967286)) (fun _ => 0) i2srIif .set 1).run 0 =
      .error (.panic "attempt to add with overflow") ∧
    (i2cWaitForSr .wraps rtc (still (atWord 4294967286)) (fun _ => 0) i2srIif .set 1).run 0 =
      .ok (⟨.error (), []⟩, 3) := by
  have hover : 2^32 ≤ (4294967286 : UInt32).toNat+timeout.toNat := by decide
  refine ⟨fun o h => wait_overflow o hover (h.wait _ _ _ _ _ _ (rtclr_atWord _)), ?_, ?_⟩
  · exact ((wait_still .panics hover).resolve_right fun h => nomatch h.1).2
  · exact ((wait_still .wraps hover).resolve_left fun h => nomatch h.1).2

end UsbArmory.Runtime.Deadlines
