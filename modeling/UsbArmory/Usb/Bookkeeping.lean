import UsbArmory.Usb.Books
import UsbArmory.Usb.Transfer

/-!
# Calls keep the books

What each call of the driver enters in the books of the static buffers. Only
an allocation and a first write take a buffer.
-/

set_option autoImplicit false

namespace UsbArmory.Usb.Bookkeeping
open UsbArmory.Library.Bits UsbArmory.Usb.Descriptors UsbArmory.Usb.Controller UsbArmory.Usb.Bus
open UsbArmory.Usb.Endpoint UsbArmory.Usb.Effects UsbArmory.Usb.EndWrite UsbArmory.Usb.Poll
open UsbArmory.Usb.Write UsbArmory.Usb.Read UsbArmory.Usb.ReadFrame UsbArmory.Usb.Configure
open UsbArmory.Usb.Runs UsbArmory.Usb.Invariant UsbArmory.Usb.Memory UsbArmory.Usb.Transfer
open UsbArmory.Usb.Books Relation

variable {l : Layout} {s t u : Usbd} {ep : EndpointAddress}

theorem books_congr (h64 : t.inner.b64s = s.inner.b64s) (h512 : t.inner.b512s = s.inner.b512s)
    (hdqh : ∀ q, (t.dqhs q).caps = (s.dqhs q).caps ∧ (t.dqhs q).addr = (s.dqhs q).addr) :
    books t = books s := by
  have hsize : ∀ q, (t.dqhs q).getMaxPacketSize = (s.dqhs q).getMaxPacketSize := by
    intro q
    rw [DQH.getMaxPacketSize, DQH.getMaxPacketSize, (hdqh q).1]
  have haddr : bufferOf t = bufferOf s := funext fun ep => (hdqh _).2
  simp only [books, h64, h512, hsize, haddr]

theorem books_frame (h : Frame s t) : books t = books s :=
  books_congr (by rw [h.inner]) (by rw [h.inner]) h.dqh

theorem entries_of_eq (h : books t = books s) : Entries l s t := by
  rw [Entries, h]

theorem mem_holders (hv : ep.isValid = true) (hne : ep ≠ controlOut) : ep ∈ holders := by
  obtain ⟨i, d⟩ := ep
  have hi : i < 2 := index_lt hv
  interval_cases i <;> cases d
  · exact absurd rfl hne
  · decide
  · decide
  · decide

theorem popBuffer_entry {n a : ℕ} (h : popBuffer s n = .ok (a, t)) :
    (n ≤ 64 ∧ s.inner.b64s = a::t.inner.b64s ∧ t = { s with inner.b64s := t.inner.b64s }) ∨
      64 < n ∧ n ≤ 512 ∧ s.inner.b512s = a::t.inner.b512s ∧
        t = { s with inner.b512s := t.inner.b512s } := by
  unfold popBuffer at h
  split at h
  next h64 =>
    split at h
    next => cases h
    next a' rest hpool =>
      cases h
      exact .inl ⟨h64, hpool, rfl⟩
  next h64 =>
    split at h
    next h512 =>
      split at h
      next => cases h
      next a' rest hpool =>
        cases h
        exact .inr ⟨Nat.lt_of_not_le h64, h512, hpool, rfl⟩
    next => cases h

theorem entries_take {n a : ℕ} (h : popBuffer s n = .ok (a, u)) (hep : ep ∈ holders)
    (hnone : bufferOf s ep = none) (hsize : (books s).size ep = n)
    (hbooks : books t = (books u).setAddr ep a) : Entries l s t := by
  rw [Entries, hbooks]
  subst hsize
  rcases popBuffer_entry h with ⟨h64, hpool, heq⟩ | ⟨hmore, h512, hpool, heq⟩
  · have hentry := Entry.take64 (l := l) (books s) ep a _ hpool hep hnone h64
    rw [heq]
    exact .single hentry
  · have hentry := Entry.take512 (l := l) (books s) ep a _ hpool hep hnone hmore h512
    rw [heq]
    exact .single hentry

theorem books_setAddr (s : Usbd) (ep : EndpointAddress) (a : ℕ) :
    books (s.setDqh (epaddr2dqhidx ep) { s.dqhs (epaddr2dqhidx ep) with addr := some a }) =
      (books s).setAddr ep a := by
  have hsize : ∀ ep', (books (s.setDqh (epaddr2dqhidx ep)
      { s.dqhs (epaddr2dqhidx ep) with addr := some a })).size ep' = (books s).size ep' := by
    intro ep'
    by_cases he : ep' = ep
    · subst he
      simp [books, Usbd.setDqh, DQH.getMaxPacketSize]
    · simp [books, Usbd.setDqh, dqhidx_ne he]
  have haddr : ∀ ep', (books (s.setDqh (epaddr2dqhidx ep)
      { s.dqhs (epaddr2dqhidx ep) with addr := some a })).addr ep' =
        ((books s).setAddr ep a).addr ep' := by
    intro ep'
    by_cases he : ep' = ep
    · subst he
      simp [books, Ledger.setAddr, bufferOf, Usbd.setDqh]
    · simp [books, Ledger.setAddr, bufferOf, Usbd.setDqh, he, dqhidx_ne he]
  have heq := congrArg₂ (Ledger.mk s.inner.b64s s.inner.b512s) (funext hsize) (funext haddr)
  exact heq

theorem books_prime (s : Usbd) (ep : EndpointAddress) (gap : List HwEvent) :
    books (prime s ep gap) = books s := books_frame (prime_frame s ep gap)

theorem setAddr_same {b : Ledger} {a : ℕ} (h : b.addr ep = some a) : b.setAddr ep a = b := by
  rw [Ledger.setAddr, ← h, Function.update_eq_self]

theorem setAddr_setAddr (b : Ledger) (ep : EndpointAddress) (a : ℕ) :
    (b.setAddr ep a).setAddr ep a = b.setAddr ep a := by
  simp [Ledger.setAddr]

theorem entries_startWrite (hin : ep.isOut = false) {bytes : List UInt8} {gap : List HwEvent}
    {r : Except UsbError ℕ} (h : startWrite s ep bytes gap = .ok (t, r)) : Entries l s t := by
  unfold startWrite at h
  split at h
  next =>
    cases h
    exact entries_of_eq rfl
  next q hq =>
    obtain ⟨rfl, hv⟩ := getDqh_ok hq
    dsimp only at h
    split at h
    next =>
      cases h
      exact entries_of_eq rfl
    next =>
      split at h
      next =>
        cases h
        exact entries_of_eq rfl
      next =>
        obtain ⟨d, -, h⟩ := bind_ok h
        obtain ⟨p, hp, h⟩ := bind_ok h
        obtain ⟨a, v⟩ := p
        obtain ⟨token, -, h⟩ := bind_ok h
        have ht : books t = (books v).setAddr ep a := by
          cases h
          rw [books_prime]
          exact books_setAddr _ ep a
        have hne : ep ≠ controlOut := by
          rintro rfl
          cases hin
        unfold staticBuffer at hp
        split at hp
        next a' haddr =>
          cases hp
          exact entries_of_eq (ht.trans (setAddr_same haddr))
        next hnone =>
          obtain ⟨p, hp', hp⟩ := bind_ok hp
          obtain ⟨a', w⟩ := p
          cases hp
          refine entries_take hp' (mem_holders hv hne) hnone rfl ?_
          rw [ht, books_setAddr, setAddr_setAddr]

theorem books_setSize (s : Usbd) (ep : EndpointAddress) {n : ℕ} {caps : BitVec 32}
    (h : capsNew n true = some caps) :
    books (s.setDqh (epaddr2dqhidx ep) { s.dqhs (epaddr2dqhidx ep) with caps := caps }) =
      (books s).setSize ep n := by
  have hcaps := getMaxPacketSize_capsNew n true caps h
  have hsize : ∀ ep', (books (s.setDqh (epaddr2dqhidx ep)
      { s.dqhs (epaddr2dqhidx ep) with caps := caps })).size ep' =
        ((books s).setSize ep n).size ep' := by
    intro ep'
    by_cases he : ep' = ep
    · subst he
      simpa [books, Ledger.setSize, Usbd.setDqh, DQH.getMaxPacketSize] using hcaps
    · simp [books, Ledger.setSize, Usbd.setDqh, he, dqhidx_ne he]
  have haddr : ∀ ep', (books (s.setDqh (epaddr2dqhidx ep)
      { s.dqhs (epaddr2dqhidx ep) with caps := caps })).addr ep' = (books s).addr ep' := by
    intro ep'
    by_cases he : ep' = ep
    · subst he
      simp [books, bufferOf, Usbd.setDqh]
    · simp [books, bufferOf, Usbd.setDqh, dqhidx_ne he]
  have heq := congrArg₂ (Ledger.mk s.inner.b64s s.inner.b512s) (funext hsize) (funext haddr)
  exact heq

theorem books_setNextDtd (s : Usbd) (q : ℕ) (d : Option ℕ) :
    books (s.setDqh q ((s.dqhs q).setNextDtd d)) = books s := by
  refine books_congr ?_ ?_ fun q' => ?_
  · rfl
  · rfl
  · by_cases hq : q' = q
    · subst hq
      simp [Usbd.setDqh, DQH.setNextDtd]
    · simp [Usbd.setDqh, hq]

/-- A new endpoint gets its size, and an OUT endpoint other than 0 its buffer. -/
structure Opened (l : Layout) (s : Usbd) (ep : EndpointAddress) (n : ℕ) (t : Usbd) : Prop where
  entries : Entries l s t
  size : (books t).size ep = n
  addr : (bufferOf t ep = none ↔ (ep.isOut = true → ep.index = 0))
  others : ∀ ep', ep' ≠ ep → (books t).size ep' = (books s).size ep' ∧
    bufferOf t ep' = bufferOf s ep'

theorem opened_of_size (hnone : bufferOf s ep = none) {n : ℕ} (h0 : ep.isOut = true → ep.index = 0)
    (h : books t = (books s).setSize ep n) : Opened l s ep n t := by
  have haddr : bufferOf t = bufferOf s := congrArg Ledger.addr h
  refine ⟨?_, ?_, ?_, fun ep' hne => ⟨?_, ?_⟩⟩
  · rw [Entries, h]
    exact .single (.size _ ep n hnone)
  · simp [h, Ledger.setSize]
  · rw [haddr]
    exact iff_of_true hnone h0
  · simp [h, Ledger.setSize, hne]
  · rw [haddr]

theorem opened_of_take (hv : ep.isValid = true) (hnone : bufferOf s ep = none) {n a : ℕ}
    (hout : ep.isOut = true) (h0 : ep.index ≠ 0) (hsize : books u = (books s).setSize ep n)
    {v : Usbd} (hpop : popBuffer u n = .ok (a, v)) (h : books t = (books v).setAddr ep a) :
    Opened l s ep n t := by
  have hne : ep ≠ controlOut := by
    rintro rfl
    exact h0 rfl
  have haddr : bufferOf u ep = none := by
    rw [← hnone]
    exact congrFun (congrArg Ledger.addr hsize) ep
  have hsizeof : (books u).size ep = n := by simp [hsize, Ledger.setSize]
  have htake : Entries l u t := entries_take hpop (mem_holders hv hne) haddr hsizeof h
  have hfirst : Entries l s u := by
    rw [Entries, hsize]
    exact .single (.size _ ep n hnone)
  have hpopped : (books v).size = (books u).size ∧ (books v).addr = (books u).addr := by
    rcases popBuffer_entry hpop with ⟨-, -, heq⟩ | ⟨-, -, -, heq⟩ <;> rw [heq] <;> exact ⟨rfl, rfl⟩
  have hbuf : bufferOf t = Function.update (bufferOf u) ep (some a) := by
    rw [show bufferOf t = (books t).addr from rfl, h, Ledger.setAddr, hpopped.2]
    rfl
  have hsizet : (books t).size = (books u).size := by
    rw [h, ← hpopped.1]
    rfl
  refine ⟨hfirst.trans htake, ?_, ?_, fun ep' hne' => ⟨?_, ?_⟩⟩
  · rw [hsizet, hsizeof]
  · simp [hbuf, hout, h0]
  · rw [hsizet, hsize]
    simp [Ledger.setSize, hne']
  · rw [hbuf, Function.update_of_ne hne']
    exact congrFun (congrArg Ledger.addr hsize) ep'

theorem installDtd_opened (hv : ep.isValid = true) (hnone : bufferOf s ep = none) {n : ℕ}
    (h : installDtd s ep n = .ok t) : Opened l s ep n t := by
  unfold installDtd at h
  obtain ⟨caps, hcaps, h⟩ := bind_ok h
  obtain ⟨p, hp, h⟩ := bind_ok h
  obtain ⟨d, u⟩ := p
  dsimp only at h
  obtain ⟨rest, hpool, rfl⟩ := popDtd_ok hp
  have hsize := books_setSize s ep (expect_ok hcaps)
  split at h
  next hout =>
    obtain ⟨v, hv', h⟩ := bind_ok h
    unfold installBuffer at hv'
    obtain ⟨p, hp, hv'⟩ := bind_ok hv'
    obtain ⟨a, w⟩ := p
    dsimp only at hv'
    obtain ⟨token, -, hv'⟩ := bind_ok hv'
    have hbooks : books v = (books w).setAddr ep a := by
      cases hv'
      exact books_setAddr _ ep a
    have ht : books t = books v := by
      cases h
      exact books_setNextDtd v (epaddr2dqhidx ep) (some d)
    refine opened_of_take hv hnone hout.1 hout.2 ?_ hp (ht.trans hbooks)
    exact hsize
  next hout =>
    have ht : books t = (books s).setSize ep n := by
      cases h
      exact (books_setNextDtd _ (epaddr2dqhidx ep) (some d)).trans hsize
    refine opened_of_size hnone (fun hyes => ?_) ht
    by_contra hne
    exact hout ⟨hyes, hne⟩

theorem allocEp_opened (hbare : ∀ ep, isEpBeingUsed s ep = false → bufferOf s ep = none)
    {dir : UsbDirection} {addr : Option EndpointAddress} {ty : EndpointType} {n : ℕ}
    (h : allocEp s dir addr ty n = .ok (t, .ok ep)) : Opened l s ep n t := by
  unfold allocEp at h
  obtain ⟨_, -, h⟩ := bind_ok h
  split at h
  next e he => cases h
  next ep' hep =>
    obtain ⟨hv, hfree⟩ := chooseEp_ok hep
    obtain ⟨u, hu, h⟩ := bind_ok h
    have hopened := installDtd_opened (l := l) hv (hbare ep' hfree) hu
    dsimp only at h
    split at h
    next =>
      obtain ⟨v, hv', h⟩ := bind_ok h
      obtain ⟨c, rfl⟩ := configureEp_eq hv'
      cases h
      exact ⟨hopened.entries, hopened.size, hopened.addr, hopened.others⟩
    next =>
      cases h
      exact ⟨hopened.entries, hopened.size, hopened.addr, hopened.others⟩

theorem books_released (s : Usbd) (ep : EndpointAddress) (d : ℕ) :
    books (released s ep d) = books s := by
  refine books_congr ?_ ?_ fun q => ?_
  · rfl
  · rfl
  · by_cases hq : q = epaddr2dqhidx ep
    · subst hq
      simp [released, releaseDtd, clearInterrupt, writeEndptcomplete, writeUsbsts, Usbd.setDqh,
        DQH.clearCurrentDtd, DQH.setNextDtd]
    · simp [released, releaseDtd, clearInterrupt, writeEndptcomplete, writeUsbsts, Usbd.setDqh, hq]

theorem books_controlPrimed (s : Usbd) (ep : EndpointAddress) (d : ℕ) (token : Token) (addr : ℕ)
    (gap : List HwEvent) :
    books (controlPrimed s ep d token addr gap) = (books s).setAddr ep addr := by
  rw [controlPrimed, books_prime]
  exact books_setAddr _ ep addr

theorem entries_read (hs : Single s) (hout : ep.isOut = true) {buf : Lent} {hw : During}
    (hbuf : buf.addr ∉ l.b64s ++ l.b512s) {r : Except UsbError (List UInt8)}
    (h : Bus.read s ep buf hw = .ok (t, r)) : Entries l s t := by
  have htake : books (takeSetup s ep).1 = books s := by
    rw [takeSetup_eq]
    rfl
  have htaken := takeSetup_effect hs ep
  rw [Entries, ← htake]
  rcases read_ok h with ⟨rfl, -, -⟩ |
    ⟨hv, ⟨-, bytes, hread, -⟩ | ⟨-, h0, bytes, hread, -⟩ | ⟨-, h0, hread⟩⟩
  · exact .refl
  · have hspec := readSetup_spec htaken.single hread
    exact entries_of_eq (books_congr (by rw [hspec.inner]) (by rw [hspec.inner]) hspec.dqh)
  · obtain ⟨-, d, token, u, -, -, hwait, rfl⟩ := readControl_ok hread
    obtain rfl := out_zero hout h0
    rw [books_released, books_frame (waitFor_frame _ hw.rounds hwait), books_controlPrimed]
    exact .single (.lend _ buf.addr hbuf)
  · rcases readData_ok hread with ⟨-, rfl, -⟩ | ⟨-, d, addr, token, _, -, -, -, rfl, -⟩
    · exact .refl
    · rw [reprimed, books_prime, books_released]
      exact .refl

theorem books_poll (hs : Single s) (hnone : s.inner.epInComplete = none) {h₁ h₂ : List HwEvent}
    {r : PollResult} (h : Bus.poll s h₁ h₂ = .ok (t, r)) : books t = books s := by
  rcases poll_eq s h₁ h₂ with heq | heq <;> rw [heq] at h
  · cases h
    rfl
  · have hframe := atComplete_frame s h₁ h₂
    have hp := polled (atComplete_effect hs h₁ h₂).single (by rw [hframe.inner]; exact hnone) h
    refine (books_congr hp.pools.1 hp.pools.2 fun q => ?_).trans (books_frame hframe)
    exact ⟨(hp.dqh q).1, (hp.dqh q).2.1⟩

theorem books_setDeviceAddress (s : Usbd) (addr : BitVec 8)
    (gaps : EndpointAddress → List HwEvent) :
    books (Bus.setDeviceAddress s addr gaps) = books s :=
  books_frame (setDeviceAddress_frame s addr)

/-- The endpoints that have not been allocated have no buffer. -/
def Bare (s : Usbd) : Prop := ∀ ep, isEpBeingUsed s ep = false → bufferOf s ep = none

end UsbArmory.Usb.Bookkeeping
