import Mathlib.Algebra.Ring.Nat
import UsbArmory.Usb.Read

/-!
# The pages of a transfer descriptor

A descriptor names the first page of its buffer from an address on and the
four pages behind it. Addresses are `usize` values of 32 bits.
-/

set_option autoImplicit false

namespace UsbArmory.Usb.Pages
open UsbArmory.Usb.Descriptors UsbArmory.Usb.Controller UsbArmory.Usb.Bus UsbArmory.Usb.Read

/-- A sum that fits a `usize`. -/
def addUsize (a b : ℕ) : Option ℕ := if a + b < 2^32 then some (a + b) else none

/-- The loop over the last pages, from the address of the page before them. -/
def nextPages (addr : ℕ) : ℕ → Option (List ℕ)
  | 0 => some []
  | n+1 => do
    let addr ← addUsize addr 0x1000
    let pages ← nextPages addr n
    return addr::pages

/-- `set_pages` with the checks of its additions. -/
def trySetPages (d : DTD) (ptr : ℕ) : Option DTD := do
  let addr ← addUsize (ptr / 0x1000 * 0x1000) 0x1000
  let pages ← nextPages addr 3
  return { d with page0 := ptr, page1 := addr, pages := pages }

/-- The byte is in the first page behind its address, or in one of the others. -/
def Covered (d : DTD) (b : ℕ) : Prop :=
  d.page0 ≤ b ∧ b < (d.page0 / 0x1000 + 1) * 0x1000 ∨
    ∃ page ∈ d.page1::d.pages, page ≤ b ∧ b < page + 0x1000

/-- The descriptor of a transfer of `n` bytes: its token and its pages. -/
def describe (d : DTD) (addr n : ℕ) : Option DTD := do
  let token ← activeToken n
  trySetPages { d with token := token } addr

/-- A descriptor of `n` bytes with all of them in its pages. -/
def Covers (d d' : DTD) (addr n : ℕ) : Prop :=
  describe d addr n = some d' ∧ ∀ b, addr ≤ b → b < addr + n → Covered d' b

/-- The descriptor that a read of endpoint 0 primes covers the buffer. -/
def ControlCovers (s : Usbd) (ep : EndpointAddress) (d : ℕ) (buf : Lent) : Prop :=
  ∃ token, activeToken buf.cap = some token ∧
    Covers (s.dtd d) ((controlReady s ep d token buf.addr).dtd d) buf.addr buf.cap

theorem addUsize_of_lt {a b : ℕ} (h : a + b < 2^32) : addUsize a b = some (a + b) := if_pos h

theorem addUsize_of_ge {a b : ℕ} (h : 2^32 ≤ a + b) : addUsize a b = none :=
  if_neg (Nat.not_lt.mpr h)

theorem nextPages_of_lt {addr : ℕ} (n : ℕ) (h : addr + n * 0x1000 < 2^32) :
    nextPages addr n = some ((List.range n).map fun k => addr + (k + 1) * 0x1000) := by
  induction n generalizing addr with
  | zero => rfl
  | succ n ih =>
    rw [nextPages, addUsize_of_lt (by omega), List.range_succ_eq_map]
    simp only [Option.bind_eq_bind, Option.bind_some]
    rw [ih (by omega)]
    simp [Function.comp_def]
    omega

theorem nextPages_of_ge {addr : ℕ} (n : ℕ) (hlt : addr < 2^32) (h : 2^32 ≤ addr + n * 0x1000) :
    nextPages addr n = none := by
  induction n generalizing addr with
  | zero => omega
  | succ n ih =>
    rw [nextPages]
    by_cases hnext : addr + 0x1000 < 2^32
    · rw [addUsize_of_lt hnext]
      simp [ih hnext (by omega)]
    · rw [addUsize_of_ge (by omega)]
      rfl

/-- The pages are computed without an overflow exactly if the last of them has an address. -/
theorem trySetPages_eq (d : DTD) (ptr : ℕ) :
    trySetPages d ptr = if ptr < 2^32 - 0x4000 then some (d.setPages ptr) else none := by
  rw [trySetPages]
  by_cases hfirst : ptr / 0x1000 * 0x1000 + 0x1000 < 2^32
  · rw [addUsize_of_lt hfirst]
    simp only [Option.bind_eq_bind, Option.bind_some]
    by_cases hlast : ptr / 0x1000 * 0x1000 + 0x1000 + 3 * 0x1000 < 2^32
    · rw [nextPages_of_lt 3 hlast, if_pos (by omega)]
      rfl
    · rw [nextPages_of_ge 3 hfirst (by omega), if_neg (by omega)]
      rfl
  · rw [addUsize_of_ge (by omega), if_neg (by omega)]
    rfl

theorem covered_setPages (d : DTD) {ptr b : ℕ} (h : ptr ≤ b) :
    Covered (d.setPages ptr) b ↔ b < ptr / 0x1000 * 0x1000 + 0x5000 := by
  simp only [Covered, DTD.setPages, List.mem_cons, List.not_mem_nil, or_false]
  constructor
  · rintro (⟨-, hb⟩ | ⟨page, hpage, -, hb⟩)
    · omega
    · rcases hpage with hp | hp | hp | hp <;> omega
  · intro hb
    by_cases hfirst : b < (ptr / 0x1000 + 1) * 0x1000
    · exact .inl ⟨h, hfirst⟩
    · refine .inr ⟨b / 0x1000 * 0x1000, ?_, ?_⟩ <;> omega

theorem covers_setPages (d : DTD) (addr n : ℕ) :
    (∀ b, addr ≤ b → b < addr + n → Covered (d.setPages addr) b) ↔
      addr % 0x1000 + n ≤ 0x5000 := by
  constructor
  · intro hall
    by_contra hlong
    have hlast := hall (addr + n - 1) (by omega) (by omega)
    rw [covered_setPages d (by omega)] at hlast
    omega
  · intro hfits b hb hend
    rw [covered_setPages d hb]
    omega

theorem activeToken_isSome (n : ℕ) :
    (activeToken n).isSome = (Token.empty.setTotalBytes n).isSome := by
  simp [activeToken]

theorem covers_iff (d : DTD) {addr n : ℕ} {token : Token} (h : activeToken n = some token) :
    Covers d ({ d with token := token }.setPages addr) addr n ↔
      addr < 0xFFFFC000 ∧ addr % 0x1000 + n ≤ 0x5000 := by
  rw [Covers, covers_setPages, describe, h, Option.bind_eq_bind, Option.bind_some, trySetPages_eq]
  simp

/-- The pages of a transfer cover its buffer exactly if that ends in the fifth page and the fifth
page has an address; so do those of a read of endpoint 0. -/
theorem pages_cover (n : ℕ) :
    (∀ (d : DTD) (addr : ℕ), (∃ d', Covers d d' addr n) ↔
      (Token.empty.setTotalBytes n).isSome = true ∧
        addr < 0xFFFFC000 ∧ addr % 0x1000 + n ≤ 0x5000) ∧
    ∀ (s : Usbd) (ep : EndpointAddress) (d addr : ℕ), ControlCovers s ep d ⟨addr, n⟩ ↔
      (Token.empty.setTotalBytes n).isSome = true ∧
        addr < 0xFFFFC000 ∧ addr % 0x1000 + n ≤ 0x5000 := by
  rw [← activeToken_isSome]
  cases htoken : activeToken n with
  | none => simp [Covers, ControlCovers, describe, htoken]
  | some token =>
    refine ⟨fun d addr => ?_, fun s ep d addr => ?_⟩
    · rw [← covers_iff d htoken, Option.isSome_some, and_iff_right rfl]
      refine ⟨?_, fun h => ⟨_, h⟩⟩
      rintro ⟨d', hcovers⟩
      have hset := hcovers.1
      rw [describe, htoken, Option.bind_eq_bind, Option.bind_some, trySetPages_eq] at hset
      split at hset
      next =>
        obtain rfl := Option.some.inj hset
        exact hcovers
      next => cases hset
    · have hready : (controlReady s ep d token addr).dtd d =
          { s.dtd d with token := token }.setPages addr := by
        simp [controlReady, Usbd.setDqh, Usbd.setDtd]
      simp only [ControlCovers, htoken, Option.some.injEq, exists_eq_left', hready,
        covers_iff (s.dtd d) htoken, Option.isSome_some, true_and]

/-- A buffer behind the start of a page, and one in the last pages of the address space. -/
theorem pages_cover_not :
    (Token.empty.setTotalBytes 0x4FFF).isSome = true ∧
    trySetPages DTD.new 0x80000002 = some (DTD.new.setPages 0x80000002) ∧
    ¬Covered (DTD.new.setPages 0x80000002) (0x80000002 + 0x4FFE) ∧
    (Token.empty.setTotalBytes 64).isSome = true ∧ trySetPages DTD.new 0xFFFFC000 = none := by
  refine ⟨rfl, rfl, ?_, rfl, rfl⟩
  rw [covered_setPages DTD.new (by decide)]
  decide

end UsbArmory.Usb.Pages
