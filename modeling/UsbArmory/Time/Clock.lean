import UsbArmory.Library.Sampling

/-!
# The clock

A counter that never goes back, of which a load sees the upper or the lower
bits. Any time may pass between two loads.
-/

set_option autoImplicit false

namespace UsbArmory.Time.Clock
open UsbArmory.Library.Binary UsbArmory.Library.Sampling

structure Counter (Moment : Type) [Preorder Moment] where
  count : Moment → ℕ
  monotone : Monotone count
  small : ∀ t, count t < 2^47

variable {Moment : Type} [Preorder Moment]

def Counter.rtcmr (c : Counter Moment) (t : Moment) : UInt32 := UInt32.ofNat (c.count t/2^32)

def Counter.rtclr (c : Counter Moment) (t : Moment) : UInt32 := UInt32.ofNat (c.count t%2^32)

structure Instant where
  value : UInt64
  deriving DecidableEq, Repr

structure Duration where
  secs : UInt64
  nanos : UInt32
  nanos_lt : nanos.toNat < 10^9
  deriving DecidableEq

instance : LT Duration where
  lt a b := a.secs < b.secs ∨ (a.secs = b.secs ∧ a.nanos < b.nanos)

instance (a b : Duration) : Decidable (a < b) :=
  inferInstanceAs (Decidable (a.secs < b.secs ∨ (a.secs = b.secs ∧ a.nanos < b.nanos)))

def Duration.new (secs : UInt64) (nanos : UInt32) : Except (Stop Empty) Duration :=
  if h : nanos.toNat < 10^9 then pure ⟨secs, nanos, h⟩
  else if secs.toNat+nanos.toNat/10^9 < 2^64 then
    pure ⟨secs+UInt64.ofNat (nanos.toNat/10^9), UInt32.ofNat (nanos.toNat%10^9), by
      have hsmall : nanos.toNat%10^9 < 10^9 := Nat.mod_lt _ (by decide)
      rw [UInt32.toNat_ofNat']
      omega⟩
  else throw (.panic "overflow in Duration::new")

section Now
variable (c : Counter Moment) (schedule : Schedule Moment)

/-- The loop of `now`, with the last pair of loads. -/
def nowFrom : ℕ → UInt32 → UInt32 → Sampler Empty Instant
  | 0, _, _ => throw .endless
  | fuel+1, high, low => do
    let newHigh ← sample schedule c.rtcmr
    let newLow ← sample schedule c.rtclr
    if newLow = low ∧ newHigh = high then pure ⟨high.toUInt64 <<< 32 ||| low.toUInt64⟩
    else nowFrom fuel newHigh newLow

def now (fuel : ℕ) : Sampler Empty Instant := do
  let high ← sample schedule c.rtcmr
  let low ← sample schedule c.rtclr
  nowFrom c schedule fuel high low

end Now

/-- The RTC is clocked at `32_768` Hz. -/
def rtcFrequency : UInt64 := (1 : UInt64) <<< 15

def Instant.uncheckedDurationSince (self earlier : Instant) : Except (Stop Empty) Duration :=
  let ticks := self.value-earlier.value
  Duration.new (ticks/rtcFrequency)
    ((1953125 : UInt64)*(ticks%rtcFrequency)/((1 : UInt64) <<< 9)).toUInt32

def Instant.durationSince (self earlier : Instant) : Except (Stop Empty) Duration := do
  ensure (earlier.value ≤ self.value) "supplied instant is later than self"
  self.uncheckedDurationSince earlier

section Wait
variable (c : Counter Moment) (schedule : Schedule Moment) (rounds : ℕ)

/-- The loop of `wait`. -/
def waitFrom (start : Instant) (dur : Duration) : ℕ → Sampler Empty Unit
  | 0 => throw .endless
  | fuel+1 => do
    let instant ← now c schedule rounds
    let passed ← instant.uncheckedDurationSince start
    if passed < dur then waitFrom start dur fuel else pure ()

def wait (fuel : ℕ) (dur : Duration) : Sampler Empty Unit := do
  let start ← now c schedule rounds
  waitFrom c schedule rounds start dur fuel

end Wait

end UsbArmory.Time.Clock
