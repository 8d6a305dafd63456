import UsbArmory.Library.Binary
import UsbArmory.Library.Word
import UsbArmory.Memlog.CircularBuffer

/-!
# Cursors of 32 bits

The logger with the arithmetic of the processor. Some sums wrap and others are
plain additions, whose overflow is a panic where it is checked.
-/

set_option autoImplicit false

namespace UsbArmory.Memlog.Cursors
open UsbArmory.Library.Binary UsbArmory.Library.Word UsbArmory.Memlog.CircularBuffer

structure Buffer where
  mem : ℕ → UInt8
  cap : UInt32
  read : UInt32
  write : UInt32
  cap_dvd : cap.toNat ∣ 2^32

/-- A slice takes up at most half of the address space. -/
structure Slice where
  bytes : List UInt8
  small : bytes.length < 2^31

def Slice.len (s : Slice) : UInt32 := UInt32.ofNat s.bytes.length

section Arithmetic
variable (o : Overflow)

def add (a b : UInt32) : Except (Stop Empty) UInt32 :=
  expect "attempt to add with overflow" (o.add32 a b)

def sub (a b : UInt32) : Except (Stop Empty) UInt32 :=
  expect "attempt to subtract with overflow" (o.sub32 a b)

def Buffer.fits (b : Buffer) (s : Slice) : Prop := s.len ≤ b.read+b.cap-b.write

instance (b : Buffer) (s : Slice) : Decidable (b.fits s) :=
  inferInstanceAs (Decidable (s.len ≤ b.read+b.cap-b.write))

def Buffer.copies (b : Buffer) (s : Slice) : Except (Stop Empty) (List Copy) := do
  let cursor := b.write%b.cap
  let last ← add o cursor s.len
  if last > b.cap then
    let pivot ← sub o last b.cap
    let _ ← sub o s.len pivot
    return [⟨cursor.toNat, s.bytes.take pivot.toNat⟩, ⟨0, s.bytes.drop pivot.toNat⟩]
  else return [⟨cursor.toNat, s.bytes⟩]

def Buffer.push (b : Buffer) (s : Slice) : Except (Stop Empty) Buffer := do
  ensure (b.fits s) "memlog is full; maybe try a bigger buffer? see memlog/src/lib.rs"
  let copies ← b.copies o s
  let write ← add o b.write s.len
  return { b with mem := copies.foldl Copy.apply b.mem, write := write }

/-- The slice that `peek` makes of the cursors it has loaded. -/
def Buffer.shown (b : Buffer) (read write : UInt32) : Except (Stop Empty) (List UInt8) := do
  let rest ← sub o b.cap (read%b.cap)
  let n := min (write-read) rest
  return slice b.mem (read%b.cap).toNat n.toNat

/-- The store of `peek`, where the closure reports `bytesRead`. -/
def Buffer.advance (b : Buffer) (read : UInt32) (shown : List UInt8) (bytesRead : UInt32) :
    Except (Stop Empty) Buffer := do
  let read ← add o read (min bytesRead (UInt32.ofNat shown.length))
  return { b with read := read }

end Arithmetic

section Exact
variable {o : Overflow} {b b' : Buffer} {s : Slice} {read write : UInt32}

theorem len_toNat (s : Slice) : s.len.toNat = s.bytes.length := by
  have hsmall := s.small
  rw [Slice.len, UInt32.toNat_ofNat']
  omega

theorem cap_pos (b : Buffer) : 0 < b.cap.toNat := by
  rcases Nat.eq_zero_or_pos b.cap.toNat with hzero | hpos
  · have hdvd := b.cap_dvd
    rw [hzero] at hdvd
    exact absurd (Nat.eq_zero_of_zero_dvd hdvd) (by decide)
  · exact hpos

theorem cap_le (b : Buffer) : b.cap.toNat ≤ 2^31 := by
  obtain ⟨k, hk⟩ := b.cap_dvd
  have hlt : b.cap.toNat < 2^32 := b.cap.toNat_lt
  have hpos := cap_pos b
  rcases (by omega : k = 0 ∨ k = 1 ∨ 2 ≤ k) with rfl | rfl | htwo
  · omega
  · omega
  · have hmul := Nat.mul_le_mul_left b.cap.toNat htwo
    omega

theorem add_exact (a c : UInt32) (h : a.toNat+c.toNat < 2^32) :
    ∃ d, add o a c = .ok d ∧ d.toNat = a.toNat+c.toNat := expect_add32 o _ h

theorem add_overflow {a c : UInt32} (h : 2^32 ≤ a.toNat+c.toNat) :
    add .panics a c = .error (.panic "attempt to add with overflow") := by
  rw [add, add32_overflow h]
  rfl

theorem sub_exact {a c : UInt32} (h : c.toNat ≤ a.toNat) :
    sub o a c = .ok (a-c) ∧ (a-c).toNat = a.toNat-c.toNat := by
  have hle : c ≤ a := UInt32.le_iff_toNat_le.mpr h
  refine ⟨?_, UInt32.toNat_sub_of_le _ _ hle⟩
  rw [sub, sub32_exact o hle]
  rfl

theorem toNat_free (h : (b.write-b.read).toNat ≤ b.cap.toNat) :
    (b.read+b.cap-b.write).toNat = b.cap.toNat-(b.write-b.read).toNat := by
  have hcap := cap_le b
  have hr := b.read.toNat_lt
  have hw := b.write.toNat_lt
  have hpending := UInt32.toNat_sub b.write b.read
  rw [UInt32.toNat_sub, UInt32.toNat_add]
  omega

theorem toNat_cursor (b : Buffer) (c : UInt32) : (c%b.cap).toNat = c.toNat%b.cap.toNat :=
  UInt32.toNat_mod _ _

theorem copies_exact (h : s.bytes.length ≤ b.cap.toNat) :
    b.copies o s = .ok (CircularBuffer.copies b.cap.toNat b.write.toNat s.bytes) := by
  have hcap := cap_le b
  have hlen := len_toNat s
  have hcursor := toNat_cursor b b.write
  have hlt := Nat.mod_lt b.write.toNat (cap_pos b)
  obtain ⟨last, hlast, hsum⟩ := add_exact (o := o) (b.write%b.cap) s.len (by omega)
  rw [hlen, hcursor] at hsum
  simp only [Buffer.copies, CircularBuffer.copies, hlast]
  show (if last > b.cap then _ else _) = _
  by_cases hgt : last > b.cap
  · have hgt' : b.cap.toNat < last.toNat := UInt32.lt_iff_toNat_lt.mp hgt
    obtain ⟨hpivot, hdiff⟩ := sub_exact (o := o) (a := last) (c := b.cap) (by omega)
    obtain ⟨hrest, -⟩ := sub_exact (o := o) (a := s.len) (c := last-b.cap) (by omega)
    rw [if_pos hgt, if_pos (by omega), hpivot]
    show (sub o s.len (last-b.cap) >>= _) = _
    rw [hrest, hdiff, hsum, hcursor]
    rfl
  · have hle : ¬b.cap.toNat < last.toNat := fun hlt => hgt (UInt32.lt_iff_toNat_lt.mpr hlt)
    rw [if_neg hgt, if_neg (by omega), hcursor]
    rfl

/-- A push panics on a message that does not fit, or where its last addition overflows. -/
theorem push_cases (h : (b.write-b.read).toNat ≤ b.cap.toNat) (s : Slice) :
    (¬b.fits s ∧ ∃ message, b.push o s = .error (.panic message)) ∨
    (b.fits s ∧ b.push o s = (add o b.write s.len).map fun write =>
      { b with
        mem := (CircularBuffer.copies b.cap.toNat b.write.toNat s.bytes).foldl Copy.apply b.mem
        write := write }) := by
  by_cases hfits : b.fits s
  · refine .inr ⟨hfits, ?_⟩
    have hle := UInt32.le_iff_toNat_le.mp hfits
    rw [toNat_free h, len_toNat] at hle
    unfold Buffer.push ensure
    rw [if_pos hfits]
    show (b.copies o s >>= _) = _
    rw [copies_exact (by omega)]
    show (add o b.write s.len >>= _) = _
    rcases add o b.write s.len with err | write
    · rfl
    · rfl
  · refine .inl ⟨hfits, "memlog is full; maybe try a bigger buffer? see memlog/src/lib.rs", ?_⟩
    unfold Buffer.push ensure
    rw [if_neg hfits]
    rfl

end Exact

end UsbArmory.Memlog.Cursors
