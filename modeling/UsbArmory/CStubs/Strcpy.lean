import UsbArmory.Library.Binary
import UsbArmory.Library.CStrings

/-!
# The `strcpy` stub

`memcpy` comes from elsewhere and is a parameter; what is asked of it is what C
asks.
-/

set_option autoImplicit false

namespace UsbArmory.CStubs.Strcpy
open UsbArmory.Library.Word UsbArmory.Library.Binary UsbArmory.Library.CStrings

/-- The pointer that is returned, and the memory. -/
abbrev Memcpy := Memory → UInt32 → UInt32 → UInt32 → UInt32 × Memory

/-- The bytes are copied if both ranges can be accessed and do not overlap. -/
def Copies (memcpy : Memcpy) : Prop := ∀ (m : Memory) (dst src n : UInt32),
  Room m dst.toNat n.toNat → Room m src.toNat n.toNat →
    Apart dst.toNat n.toNat src.toNat n.toNat →
      (memcpy m dst src n).1 = dst ∧
      (∀ i, i < n.toNat → (memcpy m dst src n).2.bytes (dst.toNat+i) = m.bytes (src.toNat+i)) ∧
      Same m (memcpy m dst src n).2 dst.toNat n.toNat

section Stubs
variable (o : Overflow) (memcpy : Memcpy) (m : Memory)

/-- The loop of `strlen`; it is an error to read a byte that cannot be accessed. -/
def strlenFrom (s : ℕ) (n : UInt32) : Except (Stop Unit) UInt32 :=
  match h : m.bytes s with
  | none => .error (.error ())
  | some c =>
    if c ≠ 0 then do
      let n ← expect "attempt to add with overflow" (o.add32 n 1)
      strlenFrom (s+1) n
    else pure n
termination_by 2^32-s
decreasing_by
  have hs := m.bounded s c h
  omega

def strlen (s : UInt32) : Except (Stop Unit) UInt32 := strlenFrom o m s.toNat 0

def strcpy (dst src : UInt32) : Except (Stop Unit) (UInt32 × Memory) := do
  let n ← strlen o m src
  pure (memcpy m dst src n)

end Stubs

variable {o : Overflow} {memcpy : Memcpy} {m : Memory} {dst src n : UInt32} {s : List UInt8}

theorem strlenFrom_end {a : ℕ} (h : m.bytes a = some 0) : strlenFrom o m a n = .ok n := by
  rw [strlenFrom]
  split
  next hnone => cases hnone.symm.trans h
  next c hc =>
    cases hc.symm.trans h
    rfl

theorem strlenFrom_step {a : ℕ} {c : UInt8} (h : m.bytes a = some c) (hc : c ≠ 0) :
    strlenFrom o m a n = (do
      let n ← expect "attempt to add with overflow" (o.add32 n 1)
      strlenFrom o m (a+1) n) := by
  rw [strlenFrom]
  split
  next hnone => cases hnone.symm.trans h
  next d hd =>
    cases hd.symm.trans h
    exact if_pos hc

theorem strlenFrom_string {a : ℕ} (h : CString m a s) (k : ℕ) (hk : k ≤ s.length)
    (hn : n.toNat = k) : ∃ len, strlenFrom o m (a+k) n = .ok len ∧ len.toNat = s.length := by
  induction hd : s.length-k generalizing k n with
  | zero =>
    obtain rfl : k = s.length := by omega
    exact ⟨n, strlenFrom_end (string_end h), hn⟩
  | succ d ih =>
    have hfits := string_fits h
    have hone : (1 : UInt32).toNat = 1 := rfl
    obtain ⟨c, hc, -, hbyte⟩ := string_byte (i := k) h (by omega)
    obtain ⟨n', hadd, hn'⟩ := expect_add32 (ε := Unit) o "attempt to add with overflow"
      (a := n) (b := 1) (by omega)
    obtain ⟨len, hlen, hcount⟩ := ih (n := n') (k+1) (by omega) (by omega) (by omega)
    refine ⟨len, ?_, hcount⟩
    rw [strlenFrom_step hbyte hc, bind_of_ok hadd]
    exact hlen

theorem strlen_string (h : CString m src.toNat s) :
    ∃ len, strlen o m src = .ok len ∧ len.toNat = s.length :=
  strlenFrom_string h 0 (Nat.zero_le _) rfl

/-- What `strcpy` does: it copies the bytes of the string, and not the zero behind them. -/
theorem strcpy_bytes (hcopies : Copies memcpy) (hsrc : CString m src.toNat s)
    (hroom : Room m dst.toNat (s.length+1))
    (hapart : Apart dst.toNat (s.length+1) src.toNat (s.length+1)) :
    ∃ m', strcpy o memcpy m dst src = .ok (dst, m') ∧
      (∀ i, i < s.length → m'.bytes (dst.toNat+i) = s[i]?) ∧ Same m m' dst.toNat s.length := by
  obtain ⟨len, hlen, hcount⟩ := strlen_string (o := o) hsrc
  have hshort : s.length ≤ s.length+1 := Nat.le_succ _
  have hranges : Apart dst.toNat len.toNat src.toNat len.toNat := by
    rw [hcount]
    rcases hapart with h | h
    · exact .inl (by omega)
    · exact .inr (by omega)
  obtain ⟨hreturn, hbytes, hsame⟩ := hcopies m dst src len
    (hcount ▸ room_le hroom hshort) (hcount ▸ room_le (string_room hsrc) hshort) hranges
  rw [hcount] at hbytes hsame
  refine ⟨(memcpy m dst src len).2, ?_, ?_, hsame⟩
  · rw [strcpy, bind_of_ok hlen]
    exact congrArg (fun p => Except.ok (p, (memcpy m dst src len).2)) hreturn
  · intro i hi
    obtain ⟨c, -, hc, hbyte⟩ := string_byte hsrc hi
    rw [hbytes i hi, hbyte, hc]

/-- The destination reads as the string, nothing else has changed, and its address is returned. -/
def Copied (m : Memory) (dst : UInt32) (s : List UInt8)
    (r : Except (Stop Unit) (UInt32 × Memory)) : Prop :=
  ∃ m', r = .ok (dst, m') ∧ (∀ t, CString m' dst.toNat t ↔ t = s) ∧
    Same m m' dst.toNat (s.length+1)

/-- A copy is right exactly if a zero stood behind its bytes already. -/
theorem copied_iff_zeroed (hcopies : Copies memcpy) (o : Overflow) (hsrc : CString m src.toNat s)
    (hroom : Room m dst.toNat (s.length+1))
    (hapart : Apart dst.toNat (s.length+1) src.toNat (s.length+1)) :
    Copied m dst s (strcpy o memcpy m dst src) ↔ m.bytes (dst.toNat+s.length) = some 0 := by
  obtain ⟨m', hrun, hbytes, hsame⟩ := strcpy_bytes (o := o) hcopies hsrc hroom hapart
  have hbehind : m'.bytes (dst.toNat+s.length) = m.bytes (dst.toNat+s.length) :=
    hsame _ (.inr (Nat.le_refl _))
  constructor
  · rintro ⟨m'', hrun', hreads, -⟩
    cases hrun.symm.trans hrun'
    rw [← hbehind]
    exact string_end ((hreads s).mpr rfl)
  · intro hzero
    have hstring : CString m' dst.toNat s :=
      string_of_bytes hsrc.1 hbytes (hbehind.trans hzero)
    refine ⟨m', hrun, fun t => ⟨fun ht => string_unique ht hstring, ?_⟩, ?_⟩
    · rintro rfl
      exact hstring
    · intro b hb
      exact hsame b (hb.imp_right fun h => by omega)

/-- A `memcpy` that reads all bytes before it writes them; what cannot be accessed stays so. -/
def copy : Memcpy := fun m dst src n => (dst,
  { bytes := fun a => if dst.toNat ≤ a ∧ a < dst.toNat+n.toNat ∧ (m.bytes a).isSome = true then
      m.bytes (src.toNat+(a-dst.toNat)) else m.bytes a
    bounded := by
      intro a b hb
      split at hb
      next hin =>
        obtain ⟨c, hc⟩ := Option.isSome_iff_exists.mp hin.2.2
        exact m.bounded a c hc
      next => exact m.bounded a b hb })

theorem copies_copy : Copies copy := by
  intro m dst src n hdst _ _
  refine ⟨rfl, fun i hi => ?_, fun a ha => if_neg fun hin => ?_⟩
  · have hin : dst.toNat ≤ dst.toNat+i ∧ dst.toNat+i < dst.toNat+n.toNat ∧
        (m.bytes (dst.toNat+i)).isSome = true := ⟨by omega, by omega, hdst i hi⟩
    have hoffset : dst.toNat+i-dst.toNat = i := by omega
    show (if _ then _ else _) = _
    rw [if_pos hin, hoffset]
  · rcases ha with ha | ha
    · omega
    · omega

/-- The string `h` at `0x100`, and two bytes for its copy behind it. -/
def page (behind : UInt8) : Memory :=
  .block 0x100 [0x68, 0, 0x41, behind] (show 0x100+4 ≤ 2^32 by decide)

theorem page_string (behind : UInt8) : CString (page behind) (0x100 : UInt32).toNat [0x68] := by
  refine string_of_bytes (by decide) ?_ rfl
  rintro (_ | i) hi
  · rfl
  · exact absurd hi (by simp)

theorem page_room (behind : UInt8) : Room (page behind) (0x102 : UInt32).toNat 2 := by
  rintro (_ | _ | i) hi
  · rfl
  · rfl
  · omega

theorem copied_iff_zeroed_page : Copies copy ∧ CString (page 0) (0x100 : UInt32).toNat [0x68] ∧
    Room (page 0) (0x102 : UInt32).toNat 2 ∧
    Apart (0x102 : UInt32).toNat 2 (0x100 : UInt32).toNat 2 ∧
    (page 0).bytes ((0x102 : UInt32).toNat+1) = some 0 ∧
    Copied (page 0) 0x102 [0x68] (strcpy .panics copy (page 0) 0x102 0x100) := by
  have hiff := copied_iff_zeroed copies_copy .panics (page_string 0) (page_room 0)
    (show Apart (0x102 : UInt32).toNat 2 (0x100 : UInt32).toNat 2 from .inr (by decide))
  exact ⟨copies_copy, page_string 0, page_room 0, .inr (by decide), rfl, hiff.mpr rfl⟩

/-- Behind the copy of `h` stands what stood there before. -/
theorem copy_unterminated : CString (page 0x42) (0x100 : UInt32).toNat [0x68] ∧
    Room (page 0x42) (0x102 : UInt32).toNat 2 ∧
    Apart (0x102 : UInt32).toNat 2 (0x100 : UInt32).toNat 2 ∧
    ∃ m', strcpy .panics copy (page 0x42) 0x102 0x100 = .ok (0x102, m') ∧
      m'.bytes 0x102 = some 0x68 ∧ m'.bytes 0x103 = some 0x42 ∧
      ¬Copied (page 0x42) 0x102 [0x68] (strcpy .panics copy (page 0x42) 0x102 0x100) := by
  have hapart : Apart (0x102 : UInt32).toNat 2 (0x100 : UInt32).toNat 2 := .inr (by decide)
  obtain ⟨m', hrun, hbytes, hsame⟩ :=
    strcpy_bytes (o := .panics) copies_copy (page_string 0x42) (page_room 0x42) hapart
  have hbehind : m'.bytes 0x103 = some 0x42 := (hsame 0x103 (.inr (by decide))).trans rfl
  refine ⟨page_string 0x42, page_room 0x42, hapart, m', hrun, hbytes 0 (by decide), hbehind, ?_⟩
  rintro ⟨m'', hrun', hreads, -⟩
  cases hrun.symm.trans hrun'
  have hend : m'.bytes 0x103 = some 0 := string_end ((hreads [0x68]).mpr rfl)
  cases hend.symm.trans hbehind

end UsbArmory.CStubs.Strcpy
