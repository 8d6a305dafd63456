import UsbArmory.Usb.Memory

/-!
# The books of the static buffers

The pools, the packet sizes and the buffers of the endpoints, with the entries
that the driver makes: a size is set before a buffer is there, and a buffer is
taken from the pool for its size. Endpoint 0 reads into memory that it is lent.
-/

set_option autoImplicit false

namespace UsbArmory.Usb.Books
open UsbArmory.Usb.Descriptors UsbArmory.Usb.Controller UsbArmory.Usb.Bus UsbArmory.Usb.Endpoint
open UsbArmory.Usb.Effects UsbArmory.Usb.Memory Relation

structure Ledger where
  b64s : List ℕ
  b512s : List ℕ
  size : EndpointAddress → ℕ
  addr : EndpointAddress → Option ℕ

def books (s : Usbd) : Ledger where
  b64s := s.inner.b64s
  b512s := s.inner.b512s
  size ep := (s.dqhs (epaddr2dqhidx ep)).getMaxPacketSize
  addr := bufferOf s

def holders : List EndpointAddress := [⟨0, .in⟩, ⟨1, .out⟩, ⟨1, .in⟩]

def Ledger.setSize (b : Ledger) (ep : EndpointAddress) (n : ℕ) : Ledger :=
  { b with size := Function.update b.size ep n }

def Ledger.setAddr (b : Ledger) (ep : EndpointAddress) (a : ℕ) : Ledger :=
  { b with addr := Function.update b.addr ep (some a) }

inductive Entry (l : Layout) : Ledger → Ledger → Prop where
  | lend (b : Ledger) (a : ℕ) (h : a ∉ l.b64s ++ l.b512s) : Entry l b (b.setAddr controlOut a)
  | size (b : Ledger) (ep : EndpointAddress) (n : ℕ) (h : b.addr ep = none) :
    Entry l b (b.setSize ep n)
  | take64 (b : Ledger) (ep : EndpointAddress) (a : ℕ) (rest : List ℕ) (h : b.b64s = a::rest)
    (hep : ep ∈ holders) (hnone : b.addr ep = none) (hsize : b.size ep ≤ 64) :
    Entry l b ({ b with b64s := rest }.setAddr ep a)
  | take512 (b : Ledger) (ep : EndpointAddress) (a : ℕ) (rest : List ℕ) (h : b.b512s = a::rest)
    (hep : ep ∈ holders) (hnone : b.addr ep = none) (hmore : 64 < b.size ep)
    (hsize : b.size ep ≤ 512) : Entry l b ({ b with b512s := rest }.setAddr ep a)

def Entries (l : Layout) (s t : Usbd) : Prop := ReflTransGen (Entry l) (books s) (books t)

variable {l : Layout} {s t : Usbd} {ep : EndpointAddress} {b b' : Ledger}

/-- No buffer is held twice, or is too small for the packets of its endpoint. -/
structure Balanced (l : Layout) (b : Ledger) : Prop where
  nodup : (b.b64s ++ b.b512s).Nodup
  in64 : ∀ a ∈ b.b64s, a ∈ l.b64s
  in512 : ∀ a ∈ b.b512s, a ∈ l.b512s
  held : ∀ ep a, b.addr ep = some a → a ∈ l.b64s ++ l.b512s →
    a ∉ b.b64s ++ b.b512s ∧ b.size ep ≤ (l.start.buffer a).length
  own : ∀ ep ep' a, a ∈ l.b64s ++ l.b512s → b.addr ep = some a → b.addr ep' = some a → ep = ep'

theorem length_buffer (l : Layout) (a : ℕ) :
    (l.start.buffer a).length = if a ∈ l.b64s then 64 else 512 := List.length_replicate

theorem balanced_take (h : Balanced l b) {ep : EndpointAddress} {a : ℕ} {b64s b512s : List ℕ}
    (hpool : (b64s ++ b512s).Nodup) (h64 : ∀ c ∈ b64s, c ∈ b.b64s) (h512 : ∀ c ∈ b512s, c ∈ b.b512s)
    (ha : a ∈ b.b64s ++ b.b512s) (hnot : a ∉ b64s ++ b512s)
    (hfits : b.size ep ≤ (l.start.buffer a).length) :
    Balanced l (({ b with b64s := b64s, b512s := b512s } : Ledger).setAddr ep a) := by
  have hsub : ∀ c ∈ b64s ++ b512s, c ∈ b.b64s ++ b.b512s := by
    intro c hc
    rw [List.mem_append] at hc ⊢
    exact hc.imp (h64 c) (h512 c)
  have hother : ∀ ep' c, ep' ≠ ep → b.addr ep' = some c → c ∈ l.b64s ++ l.b512s → c ≠ a := by
    rintro ep' c - hc hstatic rfl
    exact (h.held ep' c hc hstatic).1 ha
  refine ⟨hpool, fun c hc => h.in64 c (h64 c hc), fun c hc => h.in512 c (h512 c hc),
    fun ep' c hc hstatic => ?_, fun ep' ep'' c hstatic hc hc' => ?_⟩
  · by_cases he : ep' = ep
    · subst he
      have hac : a = c := by simpa [Ledger.setAddr] using hc
      subst hac
      exact ⟨hnot, hfits⟩
    · have hc' : b.addr ep' = some c := by simpa [Ledger.setAddr, he] using hc
      obtain ⟨hout, hsize⟩ := h.held ep' c hc' hstatic
      exact ⟨fun hmem => hout (hsub c hmem), hsize⟩
  · by_cases he : ep' = ep <;> by_cases he' : ep'' = ep
    · rw [he, he']
    · subst he
      have hac : a = c := by simpa [Ledger.setAddr] using hc
      have hold : b.addr ep'' = some c := by simpa [Ledger.setAddr, he'] using hc'
      exact absurd hac.symm (hother ep'' c he' hold hstatic)
    · subst he'
      have hac : a = c := by simpa [Ledger.setAddr] using hc'
      have hold : b.addr ep' = some c := by simpa [Ledger.setAddr, he] using hc
      exact absurd hac.symm (hother ep' c he hold hstatic)
    · have hold : b.addr ep' = some c := by simpa [Ledger.setAddr, he] using hc
      have hold' : b.addr ep'' = some c := by simpa [Ledger.setAddr, he'] using hc'
      exact h.own ep' ep'' c hstatic hold hold'

theorem balanced_entry (h : Balanced l b) (he : Entry l b b') : Balanced l b' := by
  cases he with
  | lend a ha =>
    have hold : ∀ ep c, (b.setAddr controlOut a).addr ep = some c → c ∈ l.b64s ++ l.b512s →
        b.addr ep = some c := by
      intro ep c hc hstatic
      by_cases hep : ep = controlOut
      · subst hep
        have hac : a = c := by simpa [Ledger.setAddr] using hc
        exact absurd (hac ▸ hstatic) ha
      · simpa [Ledger.setAddr, hep] using hc
    exact ⟨h.nodup, h.in64, h.in512,
      fun ep c hc hstatic => h.held ep c (hold ep c hc hstatic) hstatic,
      fun ep ep' c hstatic hc hc' =>
        h.own ep ep' c hstatic (hold ep c hc hstatic) (hold ep' c hc' hstatic)⟩
  | size ep n hnone =>
    refine ⟨h.nodup, h.in64, h.in512, fun ep' c hc hstatic => ?_, h.own⟩
    have hne : ep' ≠ ep := by
      rintro rfl
      have hsome : b.addr ep' = some c := hc
      rw [hnone] at hsome
      cases hsome
    have hsize : (b.setSize ep n).size ep' = b.size ep' := by simp [Ledger.setSize, hne]
    rw [hsize]
    exact h.held ep' c hc hstatic
  | take64 ep a rest hpool hep hnone hsize =>
    have hnodup := h.nodup
    rw [hpool, List.cons_append, List.nodup_cons] at hnodup
    have hmem : a ∈ b.b64s := by simp [hpool]
    refine balanced_take h hnodup.2 (fun c hc => ?_) (fun c hc => hc) (by simp [hpool]) hnodup.1 ?_
    · rw [hpool]
      exact List.mem_cons_of_mem a hc
    · rw [length_buffer, if_pos (h.in64 a hmem)]
      exact hsize
  | take512 ep a rest hpool hep hnone hmore hsize =>
    have hnodup := h.nodup
    rw [hpool, List.nodup_middle, List.nodup_cons] at hnodup
    refine balanced_take h hnodup.2 (fun c hc => hc) (fun c hc => ?_) (by simp [hpool]) hnodup.1 ?_
    · rw [hpool]
      exact List.mem_cons_of_mem a hc
    · have hmem : a ∈ l.b512s := h.in512 a (by simp [hpool])
      have hnot : a ∉ l.b64s := fun h64 =>
        (List.nodup_append.mp l.buffers_nodup).2.2 a h64 a hmem rfl
      rw [length_buffer, if_neg hnot]
      exact hsize

theorem balanced_start (l : Layout) : Balanced l (books l.start) := by
  have hnone : ∀ ep, (books l.start).addr ep = none := fun ep => rfl
  refine ⟨?_, fun a ha => List.mem_reverse.mp ha, fun a ha => List.mem_reverse.mp ha,
    fun ep a ha => ?_, fun ep ep' a _ ha => ?_⟩
  · show (l.b64s.reverse ++ l.b512s.reverse).Nodup
    have hperm : List.Perm (l.b64s.reverse ++ l.b512s.reverse) (l.b64s ++ l.b512s) :=
      (List.reverse_perm _).append (List.reverse_perm _)
    exact hperm.nodup_iff.mpr l.buffers_nodup
  · rw [hnone] at ha
    cases ha
  · rw [hnone] at ha
    cases ha

theorem balanced_entries (h : Balanced l (books s)) (he : Entries l s t) :
    Balanced l (books t) := by
  have hany : ∀ b', ReflTransGen (Entry l) (books s) b' → Balanced l b' := by
    intro b' he
    induction he with
    | refl => exact h
    | tail _ hstep ih => exact balanced_entry ih hstep
  exact hany _ he

end UsbArmory.Usb.Books
