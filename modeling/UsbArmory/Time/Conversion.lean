import UsbArmory.Time.Waiting

/-!
# Ticks and nanoseconds

The code makes an eighth of its nanoseconds of the part of a second that is
left: the reduced fraction is `1_953_125 / (1 << 6)`, not `1_953_125 / (1 << 9)`.
-/

set_option autoImplicit false

namespace UsbArmory.Time.Conversion
open UsbArmory.Library.Binary UsbArmory.Time.Clock UsbArmory.Time.Linearizable

/-- `as_nanos` -/
def asNanos (d : Duration) : ℕ := d.secs.toNat*10^9+d.nanos.toNat

/-- The nanoseconds that the code makes of a number of ticks. -/
def converted (n : ℕ) : ℕ := n/2^15*10^9+1953125*(n%2^15)/2^9

theorem converted_strict {n m : ℕ} (h : n < m) : converted n < converted m := by
  have hn : n%2^15 < 2^15 := Nat.mod_lt _ (by decide)
  have hm : m%2^15 < 2^15 := Nat.mod_lt _ (by decide)
  unfold converted
  rcases (Nat.div_le_div_right h.le : n/2^15 ≤ m/2^15).eq_or_lt with hsame | hlater
  · rw [hsame]
    omega
  · omega

theorem converted_add {n : ℕ} (h : 2^15 ∣ n) (m : ℕ) :
    converted (n+m) = converted n+converted m := by
  obtain ⟨k, rfl⟩ := h
  unfold converted
  omega

theorem converted_exact (n : ℕ) : converted n = n*10^9/32768 ↔ 2^15 ∣ n := by
  have hn : n%2^15 < 2^15 := Nat.mod_lt _ (by decide)
  unfold converted
  omega

section Pair
variable {a b c : Instant}

theorem duration_ok (h : b.value ≤ a.value) : ∃ d, a.durationSince b = .ok d ∧
    asNanos d = converted (a.value.toNat-b.value.toNat) := by
  obtain ⟨d, hd, hsecs, hnanos⟩ := unchecked_ok a b
  refine ⟨d, ?_, ?_⟩
  · rw [durationSince_eq h, hd]
  · rw [asNanos, hsecs, hnanos, UInt64.toNat_sub_of_le _ _ h]
    rfl

theorem duration_total (h : b.value ≤ a.value) {d : Duration} (hd : a.durationSince b = .ok d) :
    asNanos d = converted (a.value.toNat-b.value.toNat) := by
  obtain ⟨e, he, htotal⟩ := duration_ok h
  cases hd.symm.trans he
  exact htotal

/-- What the documentation of a duration between two instants leads one to expect. -/
structure Converts (a b : Instant) : Prop where
  floor : ∃ d, a.durationSince b = .ok d ∧ d.nanos.toNat < 10^9 ∧
    asNanos d = (a.value.toNat-b.value.toNat)*10^9/32768
  increases : ∀ (a' b' : Instant) d d', b'.value ≤ a'.value →
    a.value.toNat-b.value.toNat < a'.value.toNat-b'.value.toNat →
    a.durationSince b = .ok d → a'.durationSince b' = .ok d' →
      asNanos d < asNanos d'
  adds : ∀ (c : Instant) d e f, c.value ≤ b.value → a.durationSince b = .ok d →
    b.durationSince c = .ok e → a.durationSince c = .ok f →
      asNanos d+asNanos e = asNanos f ∨
      asNanos d+asNanos e+1 = asNanos f

/-- The conversion is right exactly for whole seconds. -/
theorem converts_iff (a b : Instant) (h : b.value ≤ a.value) :
    Converts a b ↔ 2^15 ∣ a.value.toNat-b.value.toNat := by
  constructor
  · intro hc
    obtain ⟨d, hd, -, hfloor⟩ := hc.floor
    rw [duration_total h hd] at hfloor
    exact (converted_exact _).mp hfloor
  · intro hwhole
    constructor
    · obtain ⟨d, hd, htotal⟩ := duration_ok h
      exact ⟨d, hd, d.nanos_lt, htotal.trans ((converted_exact _).mpr hwhole)⟩
    · intro a' b' d d' h' hlt hd hd'
      rw [duration_total h hd, duration_total h' hd']
      exact converted_strict hlt
    · intro c d e f hc hd he hf
      have hba := UInt64.le_iff_toNat_le.mp h
      have hcb := UInt64.le_iff_toNat_le.mp hc
      have hca : c.value ≤ a.value := UInt64.le_trans hc h
      refine .inl ?_
      rw [duration_total h hd, duration_total hc he, duration_total hca hf,
        ← converted_add hwhole]
      congr 1
      omega

theorem converts_second : Converts ⟨40000⟩ ⟨7232⟩ :=
  (converts_iff ⟨40000⟩ ⟨7232⟩ (by decide)).mpr ⟨1, rfl⟩

/-- One tick is 3814 nanoseconds, and not 30517. -/
theorem converts_tick : ¬∀ a b : Instant, b.value ≤ a.value → Converts a b := by
  intro h
  have hone := (h ⟨1⟩ ⟨0⟩ (by decide)).floor
  obtain ⟨d, hd, -, hfloor⟩ := hone
  rw [duration_total (by decide) hd] at hfloor
  exact absurd hfloor (by decide)

end Pair

end UsbArmory.Time.Conversion
