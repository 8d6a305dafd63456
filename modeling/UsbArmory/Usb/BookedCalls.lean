import UsbArmory.Usb.Bookkeeping
import UsbArmory.Usb.ResetSteps

/-!
# Any call keeps the books

The entries of a call of the driver, and that endpoints which have not been
allocated stay without a buffer.
-/

set_option autoImplicit false

namespace UsbArmory.Usb.BookedCalls
open UsbArmory.Usb.Descriptors UsbArmory.Usb.Controller UsbArmory.Usb.Bus
open UsbArmory.Usb.Endpoint UsbArmory.Usb.Effects UsbArmory.Usb.Poll UsbArmory.Usb.Write
open UsbArmory.Usb.Read UsbArmory.Usb.Configure UsbArmory.Usb.Runs UsbArmory.Usb.Invariant
open UsbArmory.Usb.Memory UsbArmory.Usb.Transfer UsbArmory.Usb.Books UsbArmory.Usb.Bookkeeping
open UsbArmory.Usb.ResetSteps

variable {P : EndpointAddress → ℕ → View → Prop} {l : Layout} {s t : Usbd} {ep : EndpointAddress}

theorem next_used (h : Good P s) (hv : ep.isValid = true) {d : ℕ}
    (hd : (s.dqhs (epaddr2dqhidx ep)).getNextDtd = some d) : isEpBeingUsed s ep = true := by
  by_contra hu
  obtain ⟨hnext, hne⟩ := getNextDtd_some hd
  have hone : (view s ep).next = noNextDtd := by
    rw [h.free ep hv ((Bool.not_eq_true _).mp hu)]
    rfl
  exact hne (hnext.symm.trans hone)

theorem bare_congr (h : Bare s) (hu : t.inner.usedDqhs = s.inner.usedDqhs)
    (hbuf : ∀ ep, bufferOf t ep = bufferOf s ep ∨ isEpBeingUsed s ep = true) : Bare t := by
  intro ep hfree
  rw [isEpBeingUsed_congr hu] at hfree
  rcases hbuf ep with heq | hused
  · rw [heq]
    exact h ep hfree
  · rw [hfree] at hused
    cases hused

theorem bare_books (h : Bare s) (hu : t.inner.usedDqhs = s.inner.usedDqhs)
    (hb : books t = books s) : Bare t :=
  bare_congr h hu fun ep => .inl (congrFun (congrArg Ledger.addr hb) ep)

theorem bare_startWrite (hG : Good P s) (h : Bare s) {bytes : List UInt8} {gap : List HwEvent}
    {r : Except UsbError ℕ} (hc : Bus.startWrite s ep bytes gap = .ok (t, r)) : Bare t := by
  rcases startWrite_ok hc with ⟨rfl, -⟩ |
    ⟨⟨hv, -, -, d, addr, token, b64s, b512s, hd, -, -, rfl⟩, -⟩
  · exact h
  · have hwritten : Bare (written s ep bytes d addr token b64s b512s) := by
      refine bare_congr h rfl fun ep' => ?_
      by_cases he : ep' = ep
      · rw [he]
        exact .inr (next_used hG hv hd)
      · exact .inl (by simp [bufferOf, written, dqhidx_ne he])
    refine bare_books hwritten ?_ (books_prime _ ep gap)
    rw [(prime_frame _ ep gap).inner]

theorem bare_read (hP : Kept P) (hS : Steady P s) (h : Bare s) (hout : ep.isOut = true)
    {buf : Lent} {hw : During} {r : Except UsbError (List UInt8)}
    (hc : Bus.read s ep buf hw = .ok (t, r)) : Bare t := by
  have hG := hS.toGood
  have hused := (read_effect (hS.stable hP) hout hc).used
  have htake := takeSetup_effect hG.single ep
  have heq := takeSetup_eq s ep
  have hbooks : books (takeSetup s ep).1 = books s := by
    rw [heq]
    rfl
  have hG' : Good P (takeSetup s ep).1 := by
    refine good_effect hP hG htake ?_
    rw [heq]
    exact hG.noted
  rcases read_ok hc with ⟨rfl, -, -⟩ |
    ⟨hv, ⟨-, bytes, hread, -⟩ | ⟨-, h0, bytes, hread, -⟩ | ⟨-, h0, hread⟩⟩
  · exact bare_books h htake.used hbooks
  · have hspec := readSetup_spec htake.single hread
    refine bare_books h hused (Eq.trans ?_ hbooks)
    exact books_congr (by rw [hspec.inner]) (by rw [hspec.inner]) hspec.dqh
  · obtain ⟨-, d, token, u, hd, -, hwait, rfl⟩ := readControl_ok hread
    refine bare_congr h hused fun ep' => ?_
    by_cases he : ep' = ep
    · rw [he, ← isEpBeingUsed_congr htake.used]
      exact .inr (next_used hG' hv hd)
    · refine .inl ?_
      have hb : books (released u ep d) = (books s).setAddr ep buf.addr := by
        rw [books_released, books_frame (waitFor_frame _ hw.rounds hwait), books_controlPrimed,
          hbooks]
      exact (congrFun (congrArg Ledger.addr hb) ep').trans (Function.update_of_ne he _ _)
  · refine bare_books h hused (Eq.trans ?_ hbooks)
    rcases readData_ok hread with ⟨-, rfl, -⟩ | ⟨-, d, addr, token, _, -, -, -, rfl, -⟩
    · rfl
    · rw [reprimed, books_prime, books_released]
      rfl

theorem bare_allocated (h : Bare s) (ha : Allocated s ep t) {n : ℕ}
    (hopened : Opened l s ep n t) : Bare t := by
  have hused := allocated_used ha
  intro ep' hfree
  have hne : ep' ≠ ep := by
    rintro rfl
    rw [(hused ep').mpr (.inr rfl)] at hfree
    cases hfree
  rw [(hopened.others ep' hne).2]
  apply h
  rw [← Bool.not_eq_true]
  intro hu
  rw [(hused ep').mpr (.inl hu)] at hfree
  cases hfree

theorem books_reset {wait : List (List HwEvent)} (h : Bus.reset s wait = .ok t) :
    books t = books s ∧ t.inner.usedDqhs = s.inner.usedDqhs := by
  obtain ⟨u, hu, rfl⟩ := reset_ok h
  have hframe := waitFor_frame _ wait hu
  have hbooks : books u = books (cleared s) := books_frame hframe
  exact ⟨hbooks, congrArg Inner.usedDqhs hframe.inner⟩

theorem entries_call (hG : Good P s) (h : Bare s) {c : Call} {r : Response} (ha : Allowed l c)
    (hc : call s c = .ok (t, r)) : Entries l s t := by
  cases c with
  | allocEp dir addr ty n =>
    obtain ⟨⟨u, res⟩, hp, heq⟩ := map_ok hc
    cases heq
    rcases allocEp_ok hp with ⟨rfl, e, rfl⟩ | ⟨ep, hep, rfl⟩
    · exact entries_of_eq rfl
    · exact (allocEp_opened h hp).entries
  | enable =>
    cases hc
    exact entries_of_eq rfl
  | setDeviceAddress addr gaps =>
    cases hc
    exact entries_of_eq (books_setDeviceAddress s addr gaps)
  | reset wait =>
    obtain ⟨u, hu, heq⟩ := map_ok hc
    cases heq
    exact entries_of_eq (books_reset hu).1
  | poll h₁ h₂ =>
    obtain ⟨⟨u, res⟩, hp, heq⟩ := map_ok hc
    cases heq
    exact entries_of_eq (books_poll hG.single hG.noted hp)
  | read ep buf hw =>
    obtain ⟨⟨u, res⟩, hp, heq⟩ := map_ok hc
    cases heq
    exact entries_read hG.single ha.1 ha.2 hp
  | startWrite ep bytes gap =>
    obtain ⟨⟨u, res⟩, hp, heq⟩ := map_ok hc
    cases heq
    exact entries_startWrite ha hp

theorem bare_call (hP : Kept P) (hS : Steady P s) (h : Bare s) {c : Call} {r : Response}
    (ha : Allowed l c) (hc : call s c = .ok (t, r)) : Bare t := by
  have hG := hS.toGood
  cases c with
  | allocEp dir addr ty n =>
    obtain ⟨⟨u, res⟩, hp, heq⟩ := map_ok hc
    cases heq
    rcases allocEp_ok hp with ⟨rfl, e, rfl⟩ | ⟨ep, hep, rfl⟩
    · exact h
    · exact bare_allocated (l := l) h hep (allocEp_opened h hp)
  | enable =>
    cases hc
    exact bare_books h rfl rfl
  | setDeviceAddress addr gaps =>
    cases hc
    refine bare_books h ?_ (books_setDeviceAddress s addr gaps)
    rw [(setDeviceAddress_frame s addr).inner]
  | reset wait =>
    obtain ⟨u, hu, heq⟩ := map_ok hc
    cases heq
    exact bare_books h (books_reset hu).2 (books_reset hu).1
  | poll h₁ h₂ =>
    obtain ⟨⟨u, res⟩, hp, heq⟩ := map_ok hc
    cases heq
    exact bare_books h (poll_effect hG.single hG.noted hp).used (books_poll hG.single hG.noted hp)
  | read ep buf hw =>
    obtain ⟨⟨u, res⟩, hp, heq⟩ := map_ok hc
    cases heq
    exact bare_read hP hS h ha.1 hp
  | startWrite ep bytes gap =>
    obtain ⟨⟨u, res⟩, hp, heq⟩ := map_ok hc
    cases heq
    exact bare_startWrite hG h hp

end UsbArmory.Usb.BookedCalls
