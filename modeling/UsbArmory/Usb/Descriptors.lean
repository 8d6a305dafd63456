import Mathlib.Tactic.Common
import Mathlib.Tactic.IntervalCases
import UsbArmory.Library.Bits

/-!
# Queue heads and transfer descriptors

The data structures that the driver shares with the USB controller. Pointers
are addresses. `none` stands for a failed assertion.
-/

set_option autoImplicit false

namespace UsbArmory.Usb.Descriptors
open UsbArmory.Library.Bits

structure Token where
  inner : BitVec 32
  deriving DecidableEq

abbrev Status := BitVec 8

def Status.active : Status := 1#8 <<< 7
def Status.isActive (s : Status) : Bool := s &&& (1#8 <<< 7) ≠ 0
def Status.isHalted (s : Status) : Bool := s &&& (1#8 <<< 6) ≠ 0
def Status.hasDataBufferError (s : Status) : Bool := s &&& (1#8 <<< 5) ≠ 0
def Status.hasTransactionError (s : Status) : Bool := s &&& (1#8 <<< 3) ≠ 0
def Status.hasErrors (s : Status) : Bool := s.hasDataBufferError || s.hasTransactionError

def Status.failed (s : Status) : Bool := s.isActive || s.hasErrors || s.isHalted

def Token.empty : Token := ⟨0⟩

def Token.setTotalBytes (t : Token) (n : ℕ) : Option Token :=
  if n < 0x5000 then
    some ⟨(t.inner &&& ~~~(0xffff#32 <<< 16)) ||| (BitVec.ofNat 32 n <<< 16)⟩
  else none

def Token.getTotalBytes (t : Token) : ℕ := ((t.inner >>> 16).setWidth 16).toNat
def Token.setIoc (t : Token) : Token := ⟨t.inner ||| 1#32 <<< 15⟩
def Token.getStatus (t : Token) : Status := t.inner.setWidth 8

def Token.setStatus (t : Token) (s : Status) : Token :=
  ⟨(t.inner &&& ~~~0xff#32) ||| s.setWidth 32⟩

/-- The token of a new transfer of `n` bytes. -/
def activeToken (n : ℕ) : Option Token :=
  (Token.empty.setTotalBytes n).map fun t => (t.setStatus Status.active).setIoc

def noNextDtd : ℕ := 1

structure DTD where
  nextDtd : ℕ
  token : Token
  page0 : ℕ
  page1 : ℕ
  pages : List ℕ
  deriving DecidableEq

def DTD.new : DTD := ⟨noNextDtd, Token.empty, 0, 0, [0, 0, 0]⟩

def DTD.setPages (d : DTD) (ptr : ℕ) : DTD :=
  let addr := ptr / 0x1000 * 0x1000 + 0x1000
  { d with
    page0 := ptr
    page1 := addr
    pages := [addr + 0x1000, addr + 0x2000, addr + 0x3000] }

/-- `Caps::new` followed by `set_ios` when asked for. -/
def capsNew (maxPacketSize : ℕ) (ios : Bool) : Option (BitVec 32) :=
  if maxPacketSize ≤ 0x400 then
    let inner := (0#32 <<< 30) ||| (0#32 <<< 29) ||| (BitVec.ofNat 32 maxPacketSize <<< 16)
    some (if ios then inner ||| 1#32 <<< 15 else inner)
  else none

/-- `page0` is the buffer pointer of the overlay. -/
structure DQH where
  caps : BitVec 32
  currentDtd : ℕ
  nextDtd : ℕ
  token : Token
  page0 : ℕ
  setup : List UInt8
  addr : Option ℕ

def DQH.new : DQH := ⟨0, 1, 1, Token.empty, 0, List.replicate 8 0, none⟩

def DQH.getMaxPacketSize (q : DQH) : ℕ := ((q.caps >>> 16).setWidth 16).toNat

/-- A value that is not aligned is garbage. -/
def DQH.getCurrentDtd (q : DQH) : Option ℕ :=
  if q.currentDtd &&& 0b11111 ≠ 0 then none else some q.currentDtd

def DQH.getNextDtd (q : DQH) : Option ℕ := if q.nextDtd = noNextDtd then none else some q.nextDtd
def DQH.clearCurrentDtd (q : DQH) : DQH := { q with currentDtd := noNextDtd }

def DQH.setNextDtd (q : DQH) (dtd : Option ℕ) : DQH :=
  { q with nextDtd := dtd.getD noNextDtd }

theorem getElem_ofNat {w : ℕ} (n j : ℕ) (h : j < w) : (BitVec.ofNat w n)[j] = n.testBit j := by
  rw [← BitVec.getLsbD_eq_getElem, BitVec.getLsbD_ofNat]
  simp [h]

theorem upper_half (w : BitVec 32) (n : ℕ) (hn : n < 2^16)
    (h : ∀ j < 16, w.getLsbD (16+j) = n.testBit j) : ((w >>> 16).setWidth 16).toNat = n := by
  have heq : (w >>> 16).setWidth 16 = BitVec.ofNat 16 n := by
    apply BitVec.eq_of_getLsbD_eq
    intro j hj
    rw [BitVec.getLsbD_ofNat, BitVec.getLsbD_setWidth, BitVec.getLsbD_ushiftRight, h j hj]
  rw [heq, BitVec.toNat_ofNat, Nat.mod_eq_of_lt hn]

theorem getTotalBytes_activeToken (n : ℕ) (t : Token) (h : activeToken n = some t) :
    t.getTotalBytes = n := by
  simp only [activeToken, Token.setTotalBytes] at h
  split at h
  next hn =>
    cases h
    apply upper_half
    · omega
    · intro j hj
      simp only [Token.setIoc, Token.setStatus, Token.empty, Status.active]
      interval_cases j <;> simp <;> simp [getElem_ofNat]
  next => cases h

theorem getMaxPacketSize_capsNew (n : ℕ) (ios : Bool) (caps : BitVec 32)
    (h : capsNew n ios = some caps) : ((caps >>> 16).setWidth 16).toNat = n := by
  simp only [capsNew] at h
  split at h
  next hn =>
    cases h
    apply upper_half
    · omega
    · intro j hj
      cases ios <;> interval_cases j <;> simp <;> simp [getElem_ofNat]
  next => cases h

theorem activeToken_some {n : ℕ} (h : n < 0x5000) : ∃ token, activeToken n = some token := by
  unfold activeToken Token.setTotalBytes
  rw [if_pos h]
  exact ⟨_, rfl⟩

theorem activeToken_lt {n : ℕ} {token : Token} (h : activeToken n = some token) : n < 0x5000 := by
  unfold activeToken Token.setTotalBytes at h
  split at h
  next hn => exact hn
  next => cases h

theorem getTotalBytes_retired (t : Token) (status : Status) {n : ℕ} (hn : n < 0x5000) :
    (((t.setTotalBytes n).getD t).setStatus status).getTotalBytes = n := by
  unfold Token.setTotalBytes
  rw [if_pos hn, Option.getD_some]
  apply upper_half
  · omega
  · intro j hj
    simp only [Token.setStatus]
    interval_cases j <;> simp <;> simp [getElem_ofNat]

theorem getStatus_setStatus (t : Token) (status : Status) :
    (t.setStatus status).getStatus = status := by
  apply BitVec.eq_of_getLsbD_eq
  intro j hj
  simp only [Token.getStatus, Token.setStatus]
  interval_cases j <;> simp

theorem getCurrentDtd_of_aligned (q : DQH) (h : q.currentDtd % 32 = 0) :
    q.getCurrentDtd = some q.currentDtd := by
  have hmod : q.currentDtd &&& 0b11111 = 0 := by
    rw [show 0b11111 = 2^5-1 from rfl, Nat.and_two_pow_sub_one_eq_mod]
    exact h
  simp [DQH.getCurrentDtd, hmod]

theorem getCurrentDtd_noNextDtd (q : DQH) (h : q.currentDtd = noNextDtd) :
    q.getCurrentDtd = none := by
  simp [DQH.getCurrentDtd, h, noNextDtd]

end UsbArmory.Usb.Descriptors
