import UsbArmory.Time.Clock

/-!
# Instants are linearizable

Two loads of the upper bits that agree leave no room for a carry, so what is
returned was the counter's value when the lower bits were loaded.
-/

set_option autoImplicit false

namespace UsbArmory.Time.Linearizable
open UsbArmory.Library.Binary UsbArmory.Library.Sampling UsbArmory.Time.Clock

variable {Moment : Type} [Preorder Moment] {c : Counter Moment} {schedule : Schedule Moment}
variable {fuel k l : ℕ} {instant : Instant} {high low : UInt32}

theorem toNat_rtcmr (c : Counter Moment) (t : Moment) : (c.rtcmr t).toNat = c.count t/2^32 := by
  have hsmall := c.small t
  rw [Counter.rtcmr, UInt32.toNat_ofNat']
  omega

theorem toNat_rtclr (c : Counter Moment) (t : Moment) : (c.rtclr t).toNat = c.count t%2^32 := by
  rw [Counter.rtclr, UInt32.toNat_ofNat']
  omega

theorem upper_monotone (c : Counter Moment) : Monotone fun t => c.count t/2^32 :=
  fun _ _ h => Nat.div_le_div_right (c.monotone h)

theorem rtcmr_steady {t u v : Moment} (htu : t ≤ u) (huv : u ≤ v) (h : c.rtcmr t = c.rtcmr v) :
    c.rtcmr u = c.rtcmr t := by
  have hcount : c.count t/2^32 = c.count v/2^32 := by
    rw [← toNat_rtcmr, ← toNat_rtcmr, h]
  exact congrArg UInt32.ofNat (steady (upper_monotone c) htu huv hcount)

theorem toNat_joined (c : Counter Moment) (t : Moment) :
    ((c.rtcmr t).toUInt64 <<< 32 ||| (c.rtclr t).toUInt64).toNat = c.count t := by
  have hsmall := c.small t
  have hlow : c.count t%2^32 < 2^32 := Nat.mod_lt _ (by decide)
  have hshift : ((c.rtcmr t).toUInt64 <<< 32).toNat = (c.count t/2^32) <<< 32 := by
    rw [UInt64.toNat_shiftLeft, UInt32.toNat_toUInt64, toNat_rtcmr]
    have hmod : (32 : UInt64).toNat%64 = 32 := rfl
    rw [hmod, Nat.shiftLeft_eq]
    omega
  rw [UInt64.toNat_or, hshift, UInt32.toNat_toUInt64, toNat_rtclr,
    ← Nat.shiftLeft_add_eq_or_of_lt hlow,
    Nat.shiftLeft_eq]
  omega

/-- One round of the loop: it ends with the value at the last load of the lower bits, or goes on
with the pair it has loaded. -/
theorem nowFrom_run {i j : ℕ} (hij : i ≤ j) (hjk : j < k)
    (hhigh : high = c.rtcmr (schedule.moment i)) (hlow : low = c.rtclr (schedule.moment j))
    (h : (nowFrom c schedule fuel high low).run k = .ok (instant, l)) :
    ∃ m, i ≤ m ∧ m < l ∧ instant.value.toNat = c.count (schedule.moment m) := by
  induction fuel generalizing i j k high low with
  | zero => cases h
  | succ fuel ih =>
    rw [nowFrom, run_sample_bind, run_sample_bind] at h
    split at h
    next hsame =>
      cases h
      obtain ⟨-, hagree⟩ := hsame
      have hsteady : c.rtcmr (schedule.moment j) = c.rtcmr (schedule.moment i) :=
        rtcmr_steady (schedule.monotone hij) (schedule.monotone hjk.le)
          (hhigh.symm.trans hagree.symm)
      refine ⟨j, hij, by omega, ?_⟩
      rw [hhigh, hlow, ← hsteady]
      exact toNat_joined c _
    next =>
      obtain ⟨m, hm, hl, hvalue⟩ := ih (Nat.le_succ k) (Nat.lt_succ_self _) rfl rfl h
      exact ⟨m, by omega, hl, hvalue⟩

theorem now_run (h : (now c schedule fuel).run k = .ok (instant, l)) :
    ∃ m, k ≤ m ∧ m < l ∧ instant.value.toNat = c.count (schedule.moment m) := by
  rw [now, run_sample_bind, run_sample_bind] at h
  exact nowFrom_run (Nat.le_succ k) (Nat.lt_succ_self _) rfl rfl h

theorem toNat_nanos (ticks : UInt64) :
    ((1953125 : UInt64)*(ticks%rtcFrequency)/((1 : UInt64) <<< 9)).toUInt32.toNat =
      1953125*(ticks.toNat%2^15)/2^9 := by
  have hfrequency : rtcFrequency.toNat = 2^15 := rfl
  have hshift : ((1 : UInt64) <<< 9).toNat = 2^9 := rfl
  have hfactor : (1953125 : UInt64).toNat = 1953125 := rfl
  have hticks : ticks.toNat%2^15 < 2^15 := Nat.mod_lt _ (by decide)
  have hproduct : 1953125*(ticks.toNat%2^15) < 2^64 := by omega
  have hnanos : 1953125*(ticks.toNat%2^15)/2^9 < 2^32 := by omega
  rw [UInt64.toNat_toUInt32, UInt64.toNat_div, UInt64.toNat_mul, UInt64.toNat_mod, hfrequency,
    hshift, hfactor, Nat.mod_eq_of_lt hproduct, Nat.mod_eq_of_lt hnanos]

theorem unchecked_ok (self earlier : Instant) :
    ∃ d, self.uncheckedDurationSince earlier = .ok d ∧
      d.secs.toNat = (self.value-earlier.value).toNat/2^15 ∧
      d.nanos.toNat = 1953125*((self.value-earlier.value).toNat%2^15)/2^9 := by
  have hticks : (self.value-earlier.value).toNat%2^15 < 2^15 := Nat.mod_lt _ (by decide)
  have hnanos := toNat_nanos (self.value-earlier.value)
  have hlt : ((1953125 : UInt64)*((self.value-earlier.value)%rtcFrequency)/
      ((1 : UInt64) <<< 9)).toUInt32.toNat < 10^9 := by
    rw [hnanos]
    omega
  have hfrequency : rtcFrequency.toNat = 2^15 := rfl
  refine ⟨_, dif_pos hlt, ?_, hnanos⟩
  rw [UInt64.toNat_div, hfrequency]

theorem durationSince_eq {a b : Instant} (h : b.value ≤ a.value) :
    a.durationSince b = a.uncheckedDurationSince b := by
  rw [Instant.durationSince, ensure, if_pos h]
  rfl

/-- What `now` returns is the counter's value at some moment between its first load and its last,
so a later call never returns less, and the duration between the two is always defined. -/
theorem now_linearizable (c : Counter Moment) (schedule : Schedule Moment) {fuel k l : ℕ}
    {instant : Instant} (h : (now c schedule fuel).run k = .ok (instant, l)) :
    (∃ t, schedule.moment k ≤ t ∧ t ≤ schedule.moment (l-1) ∧
      instant.value.toNat = c.count t) ∧
    ∀ (later : Schedule Moment) (fuel' m n : ℕ) (instant' : Instant),
      schedule.moment (l-1) ≤ later.moment m →
      (now c later fuel').run m = .ok (instant', n) →
      instant.value ≤ instant'.value ∧ ∃ d, instant'.durationSince instant = .ok d := by
  obtain ⟨i, hki, hil, hvalue⟩ := now_run h
  have hlast : schedule.moment i ≤ schedule.moment (l-1) := schedule.monotone (by omega)
  refine ⟨⟨schedule.moment i, schedule.monotone hki, hlast, hvalue⟩, ?_⟩
  intro later fuel' m n instant' horder h'
  obtain ⟨j, hmj, -, hvalue'⟩ := now_run h'
  have hmoments : schedule.moment i ≤ later.moment j :=
    hlast.trans (horder.trans (later.monotone hmj))
  have hle : instant.value ≤ instant'.value := by
    rw [UInt64.le_iff_toNat_le, hvalue, hvalue']
    exact c.monotone hmoments
  obtain ⟨d, hd, -⟩ := unchecked_ok instant' instant
  exact ⟨hle, d, (durationSince_eq hle).trans hd⟩

/-- A counter that carries between the first two loads. -/
def carrying : Counter ℕ where
  count t := if t = 0 then 2^32-1 else 2^32
  monotone t u h := by
    dsimp only
    split_ifs <;> omega
  small t := by
    split_ifs <;> decide

def stepwise : Schedule ℕ := ⟨id, monotone_id⟩

theorem now_linearizable_carrying :
    (now carrying stepwise 2).run 0 = .ok (⟨4294967296⟩, 6) ∧
    (now carrying stepwise 1).run 6 = .ok (⟨4294967296⟩, 10) ∧
    (∃ t, 0 ≤ t ∧ t ≤ 5 ∧ (4294967296 : UInt64).toNat = carrying.count t) ∧
    ∃ d, (⟨4294967296⟩ : Instant).durationSince ⟨4294967296⟩ = .ok d := by
  have hfirst : (now carrying stepwise 2).run 0 = .ok (⟨4294967296⟩, 6) := by decide
  have hsecond : (now carrying stepwise 1).run 6 = .ok (⟨4294967296⟩, 10) := by decide
  obtain ⟨hmoment, hlater⟩ := now_linearizable carrying stepwise hfirst
  exact ⟨hfirst, hsecond, hmoment, (hlater stepwise _ _ _ _ (by decide) hsecond).2⟩

end UsbArmory.Time.Linearizable
