import Mathlib.Data.Rat.Floor
import Mathlib.Tactic.Linarith
import UsbArmory.Time.Linearizable

/-!
# Waiting

A wait counts ticks. The tick in which it begins counts as a whole one, which
is too much where the ticks that are asked for leave no room for it.
-/

set_option autoImplicit false

namespace UsbArmory.Time.Waiting
open UsbArmory.Library.Binary UsbArmory.Library.Sampling UsbArmory.Time.Clock
open UsbArmory.Time.Linearizable

section Ticks
variable {Moment : Type} [Preorder Moment] {c : Counter Moment} {schedule : Schedule Moment}
variable {rounds fuel k l : ℕ} {dur : Duration} {start : Instant}

/-- The fewest ticks that the code converts into the duration or a longer one. -/
def ticksFor (dur : Duration) : ℕ := 2^15*dur.secs.toNat +
  if dur.nanos.toNat ≤ 1953125*(2^15-1)/2^9 then (2^9*dur.nanos.toNat+1953124)/1953125 else 2^15

theorem lt_iff (d dur : Duration) : d < dur ↔ d.secs.toNat < dur.secs.toNat ∨
    (d.secs.toNat = dur.secs.toNat ∧ d.nanos.toNat < dur.nanos.toNat) := by
  show d.secs < dur.secs ∨ (d.secs = dur.secs ∧ d.nanos < dur.nanos) ↔ _
  rw [UInt64.lt_iff_toNat_lt, UInt32.lt_iff_toNat_lt, ← UInt64.toNat_inj]

theorem converted_covers {d : Duration} {n : ℕ} (hsecs : d.secs.toNat = n/2^15)
    (hnanos : d.nanos.toNat = 1953125*(n%2^15)/2^9) : ¬d < dur ↔ ticksFor dur ≤ n := by
  have hrest : n%2^15 < 2^15 := Nat.mod_lt _ (by decide)
  rw [lt_iff, hsecs, hnanos, ticksFor]
  split_ifs with hsmall
  · omega
  · omega

theorem ticksFor_pos (h : dur.secs.toNat ≠ 0 ∨ dur.nanos.toNat ≠ 0) : 0 < ticksFor dur := by
  rw [ticksFor]
  split_ifs with hsmall
  · omega
  · omega

theorem passed_covers (dur : Duration) {later : Instant}
    (hle : start.value.toNat ≤ later.value.toNat) :
    ∃ passed, later.uncheckedDurationSince start = .ok passed ∧
      (¬passed < dur ↔ start.value.toNat+ticksFor dur ≤ later.value.toNat) := by
  obtain ⟨passed, hpassed, hsecs, hnanos⟩ := unchecked_ok later start
  refine ⟨passed, hpassed, ?_⟩
  rw [converted_covers hsecs hnanos, UInt64.toNat_sub_of_le _ _ (UInt64.le_iff_toNat_le.mpr hle)]
  omega

theorem waitFrom_run {i : ℕ} (hik : i ≤ k)
    (hstart : start.value.toNat = c.count (schedule.moment i))
    (h : (waitFrom c schedule rounds start dur fuel).run k = .ok ((), l)) :
    ∃ j, i ≤ j ∧ j < l ∧ c.count (schedule.moment i)+ticksFor dur ≤
      c.count (schedule.moment j) := by
  induction fuel generalizing k with
  | zero => cases h
  | succ fuel ih =>
    rw [waitFrom] at h
    obtain ⟨later, m, hnow, h⟩ := bind_ok h
    obtain ⟨j, hkj, hjm, hvalue⟩ := now_run hnow
    have hij : i ≤ j := hik.trans hkj
    have hle : start.value.toNat ≤ later.value.toNat := by
      rw [hstart, hvalue]
      exact c.monotone (schedule.monotone hij)
    obtain ⟨passed, hpassed, hcovers⟩ := passed_covers dur hle
    rw [run_step (by rw [run_lift, hpassed]; rfl)] at h
    split at h
    next => exact ih (by omega) h
    next hlong =>
      cases h
      refine ⟨j, hij, hjm, ?_⟩
      rw [← hstart, ← hvalue]
      exact hcovers.mp hlong

/-- Between the start of a wait and its end the counter takes the ticks it waits for. -/
theorem wait_run (h : (wait c schedule rounds fuel dur).run k = .ok ((), l)) :
    ∃ i j, k ≤ i ∧ i ≤ j ∧ j < l ∧
      c.count (schedule.moment i)+ticksFor dur ≤ c.count (schedule.moment j) := by
  obtain ⟨start, m, hnow, h⟩ := bind_ok h
  obtain ⟨i, hki, him, hvalue⟩ := now_run hnow
  obtain ⟨j, hij, hjl, hticks⟩ := waitFrom_run him.le hvalue h
  exact ⟨i, j, hki, hij, hjl, hticks⟩

theorem now_quiet {t : Moment} (h : ∀ i < 4, schedule.moment (k+i) = t) :
    (now c schedule (rounds+1)).run k = .ok (⟨UInt64.ofNat (c.count t)⟩, k+4) := by
  have h0 : schedule.moment k = t := h 0 (by decide)
  have h1 : schedule.moment (k+1) = t := h 1 (by decide)
  have h2 : schedule.moment (k+1+1) = t := h 2 (by decide)
  have h3 : schedule.moment (k+1+1+1) = t := h 3 (by decide)
  have hvalue : (c.rtcmr t).toUInt64 <<< 32 ||| (c.rtclr t).toUInt64 =
      UInt64.ofNat (c.count t) := by
    rw [← toNat_joined c t, UInt64.ofNat_toNat]
  rw [now, run_sample_bind, run_sample_bind, nowFrom, run_sample_bind, run_sample_bind, h0, h1, h2,
    h3, if_pos ⟨rfl, rfl⟩, hvalue]
  rfl

/-- Four loads at one moment, and from then on all at another. -/
def twice {a b : Moment} (hab : a ≤ b) : Schedule Moment where
  moment k := if k < 4 then a else b
  monotone k m hkm := by
    dsimp only
    split_ifs
    · exact le_refl _
    · exact hab
    · omega
    · exact le_refl _

theorem wait_twice {a b : Moment} (hab : a ≤ b) (hticks : c.count a+ticksFor dur ≤ c.count b) :
    (wait c (twice hab) 1 1 dur).run 0 = .ok ((), 8) := by
  have hfirst : (now c (twice hab) 1).run 0 = .ok (⟨UInt64.ofNat (c.count a)⟩, 4) :=
    now_quiet fun i hi => if_pos (by omega)
  have hsecond : (now c (twice hab) 1).run 4 = .ok (⟨UInt64.ofNat (c.count b)⟩, 8) :=
    now_quiet fun i hi => if_neg (by omega)
  have hvalue : ∀ t, (UInt64.ofNat (c.count t)).toNat = c.count t := by
    intro t
    have hsmall := c.small t
    rw [UInt64.toNat_ofNat']
    omega
  have hle : (⟨UInt64.ofNat (c.count a)⟩ : Instant).value.toNat ≤
      (⟨UInt64.ofNat (c.count b)⟩ : Instant).value.toNat := by
    rw [hvalue, hvalue]
    exact c.monotone hab
  obtain ⟨passed, hpassed, hcovers⟩ := passed_covers dur hle
  rw [hvalue, hvalue] at hcovers
  rw [wait, run_step hfirst, waitFrom, run_step hsecond, run_step (by rw [run_lift, hpassed]; rfl),
    if_neg (hcovers.mpr hticks)]
  rfl

end Ticks

/-- Seconds since the counter began, up to its last tick. -/
abbrev RealTime := {t : ℚ // 0 ≤ t ∧ 32768*t < 2^47}

def rtc : Counter RealTime where
  count t := ⌊32768*t.1⌋₊
  monotone t u h := Nat.floor_mono (mul_le_mul_of_nonneg_left h (by norm_num))
  small t := by
    have hnonneg : 0 ≤ 32768*t.1 := mul_nonneg (by norm_num) t.2.1
    rw [Nat.floor_lt hnonneg]
    exact_mod_cast t.2.2

def seconds (dur : Duration) : ℚ := dur.secs.toNat+dur.nanos.toNat/10^9

/-- How much of a tick has passed. -/
def phase (start : RealTime) : ℚ := 32768*start.1-rtc.count start

/-- The ticks that a wait asks for leave room for the part of a tick that has passed before it;
the second case is the end of the counter, which no such wait sees. -/
def Covered (dur : Duration) (start : RealTime) : Prop := seconds dur = 0 ∨
  2^47 ≤ rtc.count start+ticksFor dur ∨
    phase start+32768*seconds dur ≤ ticksFor dur

theorem rtc_le (t : RealTime) : (rtc.count t : ℚ) ≤ 32768*t.1 :=
  Nat.floor_le (mul_nonneg (by norm_num) t.2.1)

theorem rtc_lt (t : RealTime) : 32768*t.1 < rtc.count t+1 := Nat.lt_floor_add_one _

/-- The moment at which the counter comes to a number of ticks. -/
def atTick (n : ℕ) (h : n < 2^47) : RealTime :=
  ⟨n/32768, by positivity, by
    rw [mul_div_cancel₀ _ (by norm_num)]
    exact_mod_cast h⟩

theorem rtc_atTick (n : ℕ) (h : n < 2^47) : rtc.count (atTick n h) = n := by
  show ⌊32768*((n : ℚ)/32768)⌋₊ = n
  rw [mul_div_cancel₀ _ (by norm_num), Nat.floor_natCast]

theorem positive_ticks {dur : Duration} (h : seconds dur ≠ 0) : 0 < ticksFor dur := by
  apply ticksFor_pos
  by_contra hzero
  obtain ⟨hsecs, hnanos⟩ := not_or.mp hzero
  apply h
  rw [seconds, not_not.mp hsecs, not_not.mp hnanos]
  norm_num

/-- A wait that does not begin on a tick can end when the counter has taken its ticks. -/
theorem early_end {dur : Duration} {start : RealTime} (h : ¬Covered dur start) :
    ∃ (stop : RealTime) (hstop : start ≤ stop),
      (wait rtc (twice hstop) 1 1 dur).run 0 = .ok ((), 8) ∧
        stop.1-start.1 < seconds dur := by
  obtain ⟨hpositive, hend, hshort⟩ : seconds dur ≠ 0 ∧
      rtc.count start+ticksFor dur < 2^47 ∧
      (ticksFor dur : ℚ) < phase start+32768*seconds dur := by
    simpa [Covered, not_or] using h
  have hticks : (1 : ℚ) ≤ ticksFor dur := by exact_mod_cast positive_ticks hpositive
  have hstop : start ≤ atTick _ hend := by
    have hlt := rtc_lt start
    show start.1 ≤ ((rtc.count start+ticksFor dur : ℕ) : ℚ)/32768
    rw [le_div_iff₀ (by norm_num)]
    push_cast
    linarith
  refine ⟨atTick _ hend, hstop, wait_twice hstop (by rw [rtc_atTick]), ?_⟩
  show ((rtc.count start+ticksFor dur : ℕ) : ℚ)/32768-start.1 < _
  rw [phase] at hshort
  rw [sub_lt_iff_lt_add, div_lt_iff₀ (by norm_num)]
  push_cast
  linarith

/-- A wait lasts at least as long as it is asked to exactly if its ticks cover the duration and
the part of a tick that has passed when it begins. -/
theorem wait_lasts_iff_covered (dur : Duration) (start : RealTime) :
    (∀ (schedule : Schedule RealTime) (rounds fuel n : ℕ) (stop : RealTime),
      start ≤ schedule.moment 0 → (wait rtc schedule rounds fuel dur).run 0 = .ok ((), n) →
      schedule.moment (n-1) ≤ stop → seconds dur ≤ stop.1-start.1) ↔
    Covered dur start := by
  constructor
  · intro hlasts
    by_contra hnot
    obtain ⟨stop, hstop, hrun, hshort⟩ := early_end hnot
    exact absurd (hlasts _ _ _ _ _ (le_refl start) hrun (le_refl stop)) (not_le.mpr hshort)
  · intro hcovered schedule rounds fuel n stop hstart hrun hlast
    obtain ⟨i, j, -, hij, hjn, hticks⟩ := wait_run hrun
    have hbegin : start ≤ schedule.moment i := hstart.trans (schedule.monotone (Nat.zero_le i))
    have hend : schedule.moment j ≤ stop := (schedule.monotone (by omega)).trans hlast
    have hcount : rtc.count start+ticksFor dur ≤ rtc.count stop := calc
      rtc.count start+ticksFor dur ≤ rtc.count (schedule.moment i)+ticksFor dur :=
        Nat.add_le_add_right (rtc.monotone hbegin) _
      _ ≤ rtc.count (schedule.moment j) := hticks
      _ ≤ rtc.count stop := rtc.monotone hend
    rcases hcovered with hzero | hover | hroom
    · rw [hzero]
      exact sub_nonneg.mpr (hbegin.trans ((schedule.monotone hij).trans hend))
    · exact absurd (rtc.small stop) (by omega)
    · have hstop := rtc_le stop
      have hrat : (rtc.count start : ℚ)+ticksFor dur ≤ rtc.count stop := by exact_mod_cast hcount
      rw [phase] at hroom
      linarith

/-- One second, from the middle of a tick. -/
theorem wait_second_short : ∃ (start : RealTime) (schedule : Schedule RealTime),
    start.1 = 1/65536 ∧ start ≤ schedule.moment 0 ∧
    (wait rtc schedule 1 1 ⟨1, 0, by decide⟩).run 0 = .ok ((), 8) ∧
    (schedule.moment 7).1-start.1 < seconds ⟨1, 0, by decide⟩ := by
  have hstart : (0 : ℚ) ≤ 1/65536 ∧ 32768*((1 : ℚ)/65536) < 2^47 := by norm_num
  have hcount : rtc.count ⟨1/65536, hstart⟩ = 0 := by
    show ⌊32768*((1 : ℚ)/65536)⌋₊ = 0
    norm_num
  have hnot : ¬Covered ⟨1, 0, by decide⟩ ⟨1/65536, hstart⟩ := by
    have hsecs : (1 : UInt64).toNat = 1 := rfl
    rw [Covered, phase, hcount]
    norm_num [seconds, ticksFor, hsecs]
  obtain ⟨stop, hstop, hrun, hshort⟩ := early_end hnot
  exact ⟨_, twice hstop, rfl, le_refl _, hrun, hshort⟩

end UsbArmory.Time.Waiting
