import UsbArmory.Usb.Allocation

/-!
# Endpoints that can be used

The buffer of an IN endpoint is taken by its first write. Whether all writes
find one depends on how many endpoints draw from the same pool.
-/

set_option autoImplicit false

namespace UsbArmory.Usb.Usable
open UsbArmory.Usb.Descriptors UsbArmory.Usb.Controller UsbArmory.Usb.Bus UsbArmory.Usb.Endpoint
open UsbArmory.Usb.Effects UsbArmory.Usb.Write UsbArmory.Usb.Invariant UsbArmory.Usb.Memory
open UsbArmory.Usb.Books UsbArmory.Usb.Bookkeeping UsbArmory.Usb.BookedCalls UsbArmory.Usb.Ownership
open UsbArmory.Usb.Allocation Relation

/-- A write, with what the controller does before it and while it primes. -/
structure Written where
  before : List HwEvent
  ep : EndpointAddress
  bytes : List UInt8
  gap : List HwEvent

def writes (s : Usbd) (ws : List Written) : Except Halt Usbd :=
  ws.foldlM (fun s w => (startWrite (hardware s w.before) w.ep w.bytes w.gap).map Prod.fst) s

/-- A packet for an IN endpoint that has been allocated. -/
def Permitted (rs : List Request) (w : Written) : Prop :=
  w.ep.isOut = false ∧ ∃ r ∈ rs, r.ep = w.ep ∧ w.bytes.length ≤ r.size

def wants64 (rs : List Request) (ep : EndpointAddress) : Bool :=
  rs.any fun r => r.ep = ep && r.size ≤ 64

def wants512 (rs : List Request) (ep : EndpointAddress) : Bool :=
  rs.any fun r => r.ep = ep && 64 < r.size

/-- Every IN packet has a class of buffers, and the pools have one for each endpoint. -/
def Fits (l : Layout) (rs : List Request) : Prop :=
  (∀ r ∈ rs, r.ep.isOut = false → r.size ≤ 512) ∧
    holders.countP (wants64 rs) ≤ l.b64s.length ∧ holders.countP (wants512 rs) ≤ l.b512s.length

def holds64 (b : Ledger) (ep : EndpointAddress) : Bool :=
  (b.size ep).ble 64 && (b.addr ep).isSome

def holds512 (b : Ledger) (ep : EndpointAddress) : Bool :=
  !(b.size ep).ble 64 && (b.addr ep).isSome

/-- The buffers of the pools and those of the endpoints. -/
def Stocked (l : Layout) (b : Ledger) : Prop :=
  b.b64s.length + holders.countP (holds64 b) = l.b64s.length ∧
    b.b512s.length + holders.countP (holds512 b) = l.b512s.length

variable {l : Layout} {s t u : Usbd} {rs : List Request} {ep : EndpointAddress} {b b' : Ledger}

theorem countP_update {p p' : EndpointAddress → Bool} (hep : ep ∈ holders) (hp : p ep = false)
    (hp' : p' ep = true) (hother : ∀ ep', ep' ≠ ep → p' ep' = p ep') :
    holders.countP p' = holders.countP p + 1 := by
  have hcases : ep = ⟨0, .in⟩ ∨ ep = ⟨1, .out⟩ ∨ ep = ⟨1, .in⟩ := by simpa [holders] using hep
  rcases hcases with rfl | rfl | rfl
  · simp [holders, List.countP_cons, hp, hp', hother ⟨1, .out⟩ (by decide),
      hother ⟨1, .in⟩ (by decide)]
  · simp [holders, List.countP_cons, hp, hp', hother ⟨0, .in⟩ (by decide),
      hother ⟨1, .in⟩ (by decide)]
    omega
  · simp [holders, List.countP_cons, hp, hp', hother ⟨0, .in⟩ (by decide),
      hother ⟨1, .out⟩ (by decide)]
    omega

theorem countP_lt {p q : EndpointAddress → Bool} (hep : ep ∈ holders) (hp : p ep = false)
    (hq : q ep = true) (h : ∀ ep', p ep' = true → q ep' = true) :
    holders.countP p < holders.countP q := by
  have hmore : holders.countP (fun ep' => p ep' || ep' = ep) = holders.countP p + 1 :=
    countP_update hep hp (by simp) fun ep' hne => by simp [hne]
  have hle : holders.countP (fun ep' => p ep' || ep' = ep) ≤ holders.countP q := by
    apply List.countP_mono_left
    intro ep' _ hor
    rw [Bool.or_eq_true, decide_eq_true_eq] at hor
    rcases hor with hor | rfl
    · exact h ep' hor
    · exact hq
  omega

theorem stocked_setAddr (b : Ledger) (ep : EndpointAddress) (a : ℕ) {ep' : EndpointAddress}
    (hne : ep' ≠ ep) : holds64 (b.setAddr ep a) ep' = holds64 b ep' ∧
      holds512 (b.setAddr ep a) ep' = holds512 b ep' := by
  simp [holds64, holds512, Ledger.setAddr, hne]

theorem stocked_entry (h : Stocked l b) (he : Entry l b b') : Stocked l b' := by
  cases he with
  | lend a ha =>
    have hother : ∀ ep ∈ holders, (b.setAddr controlOut a).addr ep = b.addr ep := by
      intro ep hep
      have hne : ep ≠ controlOut := by
        rintro rfl
        revert hep
        decide
      simp [Ledger.setAddr, hne]
    have h64 : ∀ ep ∈ holders, holds64 (b.setAddr controlOut a) ep = true ↔
        holds64 b ep = true := by
      intro ep hep
      rw [holds64, hother ep hep]
      rfl
    have h512 : ∀ ep ∈ holders,
        holds512 (b.setAddr controlOut a) ep = true ↔ holds512 b ep = true := by
      intro ep hep
      rw [holds512, hother ep hep]
      rfl
    rw [Stocked, List.countP_congr h64, List.countP_congr h512]
    exact h
  | size ep n hnone =>
    have h64 : ∀ ep' ∈ holders, holds64 (b.setSize ep n) ep' = true ↔ holds64 b ep' = true := by
      intro ep' _
      by_cases he : ep' = ep
      · subst he
        simp [holds64, Ledger.setSize, hnone]
      · simp [holds64, Ledger.setSize, he]
    have h512 : ∀ ep' ∈ holders, holds512 (b.setSize ep n) ep' = true ↔ holds512 b ep' = true := by
      intro ep' _
      by_cases he : ep' = ep
      · subst he
        simp [holds512, Ledger.setSize, hnone]
      · simp [holds512, Ledger.setSize, he]
    rw [Stocked, List.countP_congr h64, List.countP_congr h512]
    exact h
  | take64 ep a rest hpool hep hnone hsize =>
    obtain ⟨h64, h512⟩ := h
    rw [hpool, List.length_cons] at h64
    have hmore : holders.countP (holds64 ({ b with b64s := rest }.setAddr ep a)) =
        holders.countP (holds64 b) + 1 :=
      countP_update hep (by simp [holds64, hnone]) (by simp [holds64, Ledger.setAddr, hsize])
        fun ep' hne => (stocked_setAddr b ep a hne).1
    have hsame : ∀ ep' ∈ holders, holds512 ({ b with b64s := rest }.setAddr ep a) ep' = true ↔
        holds512 b ep' = true := by
      intro ep' _
      by_cases he : ep' = ep
      · subst he
        simp [holds512, Ledger.setAddr, hnone, hsize]
      · simp [holds512, Ledger.setAddr, he]
    rw [Stocked, hmore, List.countP_congr hsame]
    refine ⟨?_, h512⟩
    show rest.length + _ = _
    omega
  | take512 ep a rest hpool hep hnone hmore hsize =>
    obtain ⟨h64, h512⟩ := h
    rw [hpool, List.length_cons] at h512
    have hble : (b.size ep).ble 64 = false := by
      rw [← Bool.not_eq_true, Nat.ble_eq]
      omega
    have hone : holders.countP (holds512 ({ b with b512s := rest }.setAddr ep a)) =
        holders.countP (holds512 b) + 1 :=
      countP_update hep (by simp [holds512, hnone]) (by simp [holds512, Ledger.setAddr, hble])
        fun ep' hne => (stocked_setAddr b ep a hne).2
    have hsame : ∀ ep' ∈ holders, holds64 ({ b with b512s := rest }.setAddr ep a) ep' = true ↔
        holds64 b ep' = true := by
      intro ep' _
      by_cases he : ep' = ep
      · subst he
        simp [holds64, Ledger.setAddr, hnone, hmore]
      · simp [holds64, Ledger.setAddr, he]
    rw [Stocked, hone, List.countP_congr hsame]
    refine ⟨h64, ?_⟩
    show rest.length + _ = _
    omega

theorem stocked_entries (h : Stocked l (books s)) (he : Entries l s t) : Stocked l (books t) := by
  have hany : ∀ b', ReflTransGen (Entry l) (books s) b' → Stocked l b' := by
    intro b' he
    induction he with
    | refl => exact h
    | tail _ hstep ih => exact stocked_entry ih hstep
  exact hany _ he

theorem stocked_start (l : Layout) : Stocked l (books l.start) := by
  have hnone : ∀ ep, (books l.start).addr ep = none := fun ep => rfl
  have h64 : holders.countP (holds64 (books l.start)) = 0 :=
    List.countP_eq_zero.mpr fun ep _ => by simp [holds64, hnone]
  have h512 : holders.countP (holds512 (books l.start)) = 0 :=
    List.countP_eq_zero.mpr fun ep _ => by simp [holds512, hnone]
  rw [Stocked, h64, h512]
  exact ⟨List.length_reverse, List.length_reverse⟩

structure Supplied (l : Layout) (rs : List Request) (s : Usbd) : Prop where
  ready : Ready s
  bare : Bare s
  stocked : Stocked l (books s)
  used : ∀ ep, isEpBeingUsed s ep = true ↔ ∃ r ∈ rs, r.ep = ep
  size : ∀ r ∈ rs, (books s).size r.ep = r.size ∧ r.size ≤ 0x400

theorem supplied_installed (h : Installed l l.start rs t) : Supplied l rs t := by
  refine ⟨h.ready, h.bare, stocked_entries (stocked_start l) h.entries, fun ep => ?_, h.size⟩
  have hunused : isEpBeingUsed l.start ep = false := by simp [isEpBeingUsed, Layout.start]
  rw [h.used, hunused]
  simp

theorem supplied_congr (h : Supplied l rs s) (hready : Ready t) (hbare : Bare t)
    (hentries : Entries l s t) (hu : t.inner.usedDqhs = s.inner.usedDqhs)
    (hsize : (books t).size = (books s).size) : Supplied l rs t := by
  refine ⟨hready, hbare, stocked_entries h.stocked hentries, fun ep => ?_, fun r hr => ?_⟩
  · rw [isEpBeingUsed_congr hu]
    exact h.used ep
  · rw [hsize]
    exact h.size r hr

theorem popBuffer_ready (hfits : Fits l rs) (h : Supplied l rs s) {r : Request} (hr : r ∈ rs)
    (hin : r.ep.isOut = false) (hnone : bufferOf s r.ep = none) :
    ∃ a u, popBuffer s (s.dqhs (epaddr2dqhidx r.ep)).getMaxPacketSize = .ok (a, u) := by
  obtain ⟨hsize, h64, h512⟩ := hfits
  have hmax := hsize r hr hin
  have hn : (s.dqhs (epaddr2dqhidx r.ep)).getMaxPacketSize = r.size := (h.size r hr).1
  have hv := h.ready.valid r.ep ((h.used r.ep).mpr ⟨r, hr, rfl⟩)
  have hep : r.ep ∈ holders := by
    refine mem_holders hv ?_
    intro he
    rw [he] at hin
    cases hin
  have hholds : ∀ ep, ((books s).addr ep).isSome = true → ∃ r' ∈ rs, r'.ep = ep ∧
      (books s).size ep = r'.size := by
    intro ep hsome
    have hu : isEpBeingUsed s ep = true := by
      by_contra hu
      have hbare : (books s).addr ep = none := h.bare ep ((Bool.not_eq_true _).mp hu)
      rw [hbare] at hsome
      cases hsome
    obtain ⟨r', hr', rfl⟩ := (h.used ep).mp hu
    exact ⟨r', hr', rfl, (h.size r' hr').1⟩
  rw [hn, popBuffer]
  by_cases hsmall : r.size ≤ 64
  · rw [if_pos hsmall]
    have hlt : holders.countP (holds64 (books s)) < holders.countP (wants64 rs) := by
      refine countP_lt hep ?_ ?_ fun ep hp => ?_
      · simp [holds64, books, hnone]
      · rw [wants64, List.any_eq_true]
        exact ⟨r, hr, by simp [hsmall]⟩
      · rw [holds64, Bool.and_eq_true, Nat.ble_eq] at hp
        obtain ⟨r', hr', heq, hsize'⟩ := hholds ep hp.2
        rw [wants64, List.any_eq_true]
        exact ⟨r', hr', by simp [heq, ← hsize', hp.1]⟩
    have hstock : s.inner.b64s.length + holders.countP (holds64 (books s)) = l.b64s.length :=
      h.stocked.1
    cases hpool : s.inner.b64s with
    | nil =>
      rw [hpool, List.length_nil] at hstock
      omega
    | cons a rest => exact ⟨a, _, rfl⟩
  · rw [if_neg hsmall, if_pos hmax]
    have hlt : holders.countP (holds512 (books s)) < holders.countP (wants512 rs) := by
      refine countP_lt hep ?_ ?_ fun ep hp => ?_
      · simp [holds512, books, hnone]
      · rw [wants512, List.any_eq_true]
        exact ⟨r, hr, by simp [Nat.lt_of_not_le hsmall]⟩
      · rw [holds512, Bool.and_eq_true, Bool.not_eq_true', ← Bool.not_eq_true, Nat.ble_eq] at hp
        obtain ⟨r', hr', heq, hsize'⟩ := hholds ep hp.2
        rw [hsize'] at hp
        rw [wants512, List.any_eq_true]
        exact ⟨r', hr', by simp [heq, Nat.lt_of_not_le hp.1]⟩
    have hstock : s.inner.b512s.length + holders.countP (holds512 (books s)) = l.b512s.length :=
      h.stocked.2
    cases hpool : s.inner.b512s with
    | nil =>
      rw [hpool, List.length_nil] at hstock
      omega
    | cons a rest => exact ⟨a, _, rfl⟩

theorem startWrite_returns (h : Supplied l rs s) {r : Request} (hr : r ∈ rs) {bytes : List UInt8}
    (hlen : bytes.length ≤ r.size)
    (hbuf : bufferOf s r.ep = none → (s.dqhs (epaddr2dqhidx r.ep)).getCurrentDtd = none →
      ∃ a u, popBuffer s (s.dqhs (epaddr2dqhidx r.ep)).getMaxPacketSize = .ok (a, u))
    (gap : List HwEvent) : ∃ t res, startWrite s r.ep bytes gap = .ok (t, res) := by
  have hu := (h.used r.ep).mpr ⟨r, hr, rfl⟩
  have hv := h.ready.valid r.ep hu
  obtain ⟨hn, hmax⟩ := h.size r hr
  have hn' : (s.dqhs (epaddr2dqhidx r.ep)).getMaxPacketSize = r.size := hn
  obtain ⟨token, htoken⟩ := activeToken_some (show bytes.length < 0x5000 by omega)
  unfold startWrite
  rw [show getDqh r.ep = some (epaddr2dqhidx r.ep) from if_pos (of_decide_eq_true hv)]
  dsimp only
  rw [if_neg (by omega)]
  cases hcur : (s.dqhs (epaddr2dqhidx r.ep)).getCurrentDtd with
  | some d => exact ⟨_, _, rfl⟩
  | none =>
    obtain ⟨d, hd⟩ : ∃ d, (s.dqhs (epaddr2dqhidx r.ep)).getNextDtd = some d := by
      obtain ⟨d, hd, -, hphase⟩ := h.ready.held r.ep hu
      have hnext := (slot_next hd hphase.slot (getCurrentDtd_none hcur)).2
      refine ⟨d, ?_⟩
      have hne : (s.dqhs (epaddr2dqhidx r.ep)).nextDtd ≠ noNextDtd := by
        rw [show (s.dqhs (epaddr2dqhidx r.ep)).nextDtd = d from hnext]
        exact ne_noNextDtd hd
      rw [DQH.getNextDtd, if_neg hne]
      exact congrArg some hnext
    rw [hd]
    cases haddr : (s.dqhs (epaddr2dqhidx r.ep)).addr with
    | some a =>
      have hstatic : ∀ n, staticBuffer s (epaddr2dqhidx r.ep) n = .ok (a, s) := by
        intro n
        rw [staticBuffer, haddr]
      rw [hstatic, htoken]
      exact ⟨_, _, rfl⟩
    | none =>
      obtain ⟨a, u, hpop⟩ := hbuf haddr hcur
      rw [staticBuffer, haddr, hpop, htoken]
      exact ⟨_, _, rfl⟩

theorem supplied_hardware (h : Supplied l rs s) (es : List HwEvent) :
    Supplied l rs (hardware s es) := by
  have hframe := hardware_frame es s
  have hb := books_frame hframe
  have heff : Effect false s (hardware s es) := hardware_effect h.ready.single es
  refine supplied_congr h (steady_effect kept_phase h.ready heff ?_)
    (bare_books h.bare heff.used hb)
    (entries_of_eq hb) heff.used (by rw [hb])
  rw [hframe.inner]
  exact h.ready.noted

theorem supplied_startWrite (h : Supplied l rs s) (hin : ep.isOut = false) {bytes : List UInt8}
    {gap : List HwEvent} {res : Except UsbError ℕ}
    (hw : startWrite s ep bytes gap = .ok (t, res)) : Supplied l rs t := by
  have heff := startWrite_effect (h.ready.stable kept_phase) hin hw
  refine supplied_congr h (steady_startWrite kept_phase h.ready hin hw)
    (bare_startWrite h.ready.toGood h.bare hw) (entries_startWrite hin hw) heff.used ?_
  rcases startWrite_ok hw with ⟨rfl, -⟩ | ⟨⟨-, -, -, d, addr, token, b64s, b512s, -, -, -, rfl⟩, -⟩
  · rfl
  · rw [books_prime]
    funext ep'
    by_cases he : ep' = ep
    · subst he
      simp [books, written, DQH.getMaxPacketSize]
    · simp [books, written, Transfer.dqhidx_ne he]

theorem writes_return (hfits : Fits l rs) (ws : List Written) (hws : ∀ w ∈ ws, Permitted rs w)
    (h : Supplied l rs s) : ∃ u, writes s ws = .ok u := by
  induction ws generalizing s with
  | nil => exact ⟨s, rfl⟩
  | cons w ws ih =>
    obtain ⟨hin, r, hr, hep, hlen⟩ := hws w List.mem_cons_self
    have hbefore := supplied_hardware h w.before
    obtain ⟨t, res, hw⟩ := startWrite_returns hbefore hr hlen
      (fun hnone _ => popBuffer_ready hfits hbefore hr (by rw [hep]; exact hin) hnone) w.gap
    rw [hep] at hw
    obtain ⟨u, hu⟩ := ih (fun w' hw' => hws w' (List.mem_cons_of_mem w hw'))
      (supplied_startWrite hbefore hin hw)
    refine ⟨u, ?_⟩
    rw [writes, List.foldlM_cons, hw]
    exact hu

end UsbArmory.Usb.Usable
