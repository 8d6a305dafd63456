import UsbArmory.Usb.Invariant

/-!
# Who owns the memory

The buffer of an IN endpoint is its own: it is not in a pool any more, no other
endpoint has it, and the pages of the OUT endpoints are elsewhere. From its
priming to its completion a transfer therefore carries the bytes of one write.
-/

set_option autoImplicit false

namespace UsbArmory.Usb.Memory
open UsbArmory.Library.Bits UsbArmory.Usb.Descriptors UsbArmory.Usb.Controller UsbArmory.Usb.Bus
open UsbArmory.Usb.Endpoint UsbArmory.Usb.Effects UsbArmory.Usb.Invariant Relation

variable {l : Layout} {s t : Usbd} {ep : EndpointAddress} {acc : List (List UInt8)}

def pool (s : Usbd) : List ℕ := s.inner.b64s ++ s.inner.b512s

def bufferOf (s : Usbd) (ep : EndpointAddress) : Option ℕ := (s.dqhs (epaddr2dqhidx ep)).addr

structure InBuffers (l : Layout) (s : Usbd) : Prop where
  nodup : (pool s).Nodup
  static : ∀ a ∈ pool s, a ∈ l.b64s ++ l.b512s
  taken : ∀ ep a, ep.isOut = false → bufferOf s ep = some a →
    a ∈ l.b64s ++ l.b512s ∧ a ∉ pool s
  own : ∀ ep ep' a, ep.isOut = false → ep'.isOut = false → bufferOf s ep = some a →
    bufferOf s ep' = some a → ep = ep'

def Foreign (s : Usbd) (a : ℕ) : Prop :=
  a ∉ pool s ∧ ∀ ep, ep.isOut = false → bufferOf s ep ≠ some a

/-- The pages that the controller may write for an OUT endpoint. -/
structure OutPages (s : Usbd) (ep : EndpointAddress) : Prop where
  buffer : ∀ a, bufferOf s ep = some a → Foreign s a
  loaded : (view s ep).stat = true → Foreign s (s.dqhs (epaddr2dqhidx ep)).page0
  next : (view s ep).prime = true ∨ ep.index ≠ 0 → isEpBeingUsed s ep = true →
    ∀ d, d % 32 = 0 → Slot d (view s ep) → Foreign s (s.dtd d).page0

def Holds (s : Usbd) (ep : EndpointAddress) (token : Token) (page0 : ℕ) (bytes : List UInt8) :
    Prop :=
  bufferOf s ep = some page0 ∧ token.getTotalBytes = bytes.length ∧
    (s.buffer page0).take bytes.length = bytes

/-- The writes `acc` that an IN endpoint has accepted are the transfers that it
has completed and the one that is under way. -/
structure Carries (s : Usbd) (ep : EndpointAddress) (acc : List (List UInt8)) : Prop where
  idle : (view s ep).prime = false → (view s ep).stat = false →
    acc = s.transfers (epaddr2dqhidx ep)
  primed : (view s ep).prime = true → ∃ bytes, acc = s.transfers (epaddr2dqhidx ep) ++ [bytes] ∧
    Holds s ep (s.dtd (view s ep).next).token (s.dtd (view s ep).next).page0 bytes
  loaded : (view s ep).stat = true → ∃ bytes, acc = s.transfers (epaddr2dqhidx ep) ++ [bytes] ∧
    Holds s ep (s.dqhs (epaddr2dqhidx ep)).token (s.dqhs (epaddr2dqhidx ep)).page0 bytes ∧
    ∀ f, s.fifo (epaddr2dqhidx ep) = some f → f = bytes

structure Owned (l : Layout) (s : Usbd) : Prop where
  inside : InBuffers l s
  outside : ∀ ep, ep.isValid = true → ep.isOut = true → OutPages s ep

/-- The pools and the buffers of the IN endpoints stay. -/
structure Keeps (s t : Usbd) : Prop where
  pools : t.inner.b64s = s.inner.b64s ∧ t.inner.b512s = s.inner.b512s
  buffers : ∀ ep, ep.isOut = false → bufferOf t ep = bufferOf s ep

theorem Keeps.of_frame (h : Frame s t) : Keeps s t :=
  ⟨by rw [h.inner]; exact ⟨rfl, rfl⟩, fun ep _ => (h.dqh (epaddr2dqhidx ep)).2⟩

theorem Keeps.pool (h : Keeps s t) : pool t = pool s := by
  unfold Memory.pool
  rw [h.pools.1, h.pools.2]

theorem Keeps.foreign (h : Keeps s t) {a : ℕ} (hf : Foreign s a) : Foreign t a := by
  refine ⟨?_, fun ep hin => ?_⟩
  · rw [h.pool]
    exact hf.1
  · rw [h.buffers ep hin]
    exact hf.2 ep hin

theorem Keeps.inside (h : Keeps s t) (hi : InBuffers l s) : InBuffers l t := by
  refine ⟨?_, ?_, fun ep a hin ha => ?_, fun ep ep' a hin hin' ha ha' => ?_⟩
  · rw [h.pool]
    exact hi.nodup
  · rw [h.pool]
    exact hi.static
  · rw [h.buffers ep hin] at ha
    rw [h.pool]
    exact hi.taken ep a hin ha
  · rw [h.buffers ep hin] at ha
    rw [h.buffers ep' hin'] at ha'
    exact hi.own ep ep' a hin hin' ha ha'

theorem outPages_congr (hk : Keeps s t) (ho : OutPages s ep) (hview : view t ep = view s ep)
    (hused : t.inner.usedDqhs = s.inner.usedDqhs) (hbuf : bufferOf t ep = bufferOf s ep)
    (hpage : (t.dqhs (epaddr2dqhidx ep)).page0 = (s.dqhs (epaddr2dqhidx ep)).page0)
    (hdtd : ∀ d, d % 32 = 0 → Slot d (view s ep) → (t.dtd d).page0 = (s.dtd d).page0) :
    OutPages t ep := by
  refine ⟨fun a ha => ?_, fun hst => ?_, fun hp hu d hd hs => ?_⟩
  · rw [hbuf] at ha
    exact hk.foreign (ho.buffer a ha)
  · rw [hview] at hst
    rw [hpage]
    exact hk.foreign (ho.loaded hst)
  · rw [hview] at hp hs
    rw [isEpBeingUsed_congr hused] at hu
    rw [hdtd d hd hs]
    exact hk.foreign (ho.next hp hu d hd hs)

theorem carries_congr (hc : Carries s ep acc) (hview : view t ep = view s ep)
    (hdqh : (t.dqhs (epaddr2dqhidx ep)).token = (s.dqhs (epaddr2dqhidx ep)).token ∧
      (t.dqhs (epaddr2dqhidx ep)).page0 = (s.dqhs (epaddr2dqhidx ep)).page0 ∧
      (t.dqhs (epaddr2dqhidx ep)).addr = (s.dqhs (epaddr2dqhidx ep)).addr)
    (htr : t.transfers (epaddr2dqhidx ep) = s.transfers (epaddr2dqhidx ep))
    (hfifo : t.fifo (epaddr2dqhidx ep) = s.fifo (epaddr2dqhidx ep))
    (hdtd : (view s ep).prime = true → t.dtd (view s ep).next = s.dtd (view s ep).next)
    (hbuf : ∀ a, bufferOf s ep = some a → t.buffer a = s.buffer a) : Carries t ep acc := by
  have hholds : ∀ token page0 bytes, Holds s ep token page0 bytes →
      Holds t ep token page0 bytes := by
    intro token page0 bytes h
    refine ⟨?_, h.2.1, ?_⟩
    · show (t.dqhs (epaddr2dqhidx ep)).addr = _
      rw [hdqh.2.2]
      exact h.1
    · rw [hbuf page0 h.1]
      exact h.2.2
  refine ⟨fun hp hst => ?_, fun hp => ?_, fun hst => ?_⟩
  · rw [hview] at hp hst
    rw [htr]
    exact hc.idle hp hst
  · rw [hview] at hp
    obtain ⟨bytes, hacc, h⟩ := hc.primed hp
    rw [htr, hview, hdtd hp]
    exact ⟨bytes, hacc, hholds _ _ _ h⟩
  · rw [hview] at hst
    obtain ⟨bytes, hacc, h, hf⟩ := hc.loaded hst
    rw [htr, hdqh.1, hdqh.2.1, hfifo]
    exact ⟨bytes, hacc, hholds _ _ _ h, hf⟩

theorem phased_used (h : Phased s) (hv : ep.isValid = true)
    (hb : (view s ep).prime = true ∨ (view s ep).stat = true) : isEpBeingUsed s ep = true := by
  by_contra hu
  rw [h.free ep hv ((Bool.not_eq_true _).mp hu)] at hb
  rcases hb with hb | hb <;> cases hb

/-- No IN endpoint is primed while a transfer of it is under way. -/
def Once (s : Usbd) : Prop := ∀ ep, ep.isValid = true → ep.isOut = false →
  (view s ep).prime = true → (view s ep).stat = false ∧ (view s ep).complete = false

theorem once_view (h : Once s)
    (hview : ∀ ep, ep.isValid = true → ep.isOut = false → view t ep = view s ep) : Once t := by
  intro ep hv hin hp
  rw [hview ep hv hin] at hp ⊢
  exact h ep hv hin hp

theorem once_hwStep (h : Once s) (hs : Single s) (e : HwEvent) (he : hwStep s e = some t) :
    Once t := by
  intro ep hv hin hp
  have hold := h ep hv hin
  cases hwStep_happens he with
  | fetch x hvx hprime =>
    by_cases hep : ep = x
    · subst x
      by_cases hn : (s.dqhs (epaddr2dqhidx ep)).nextDtd = noNextDtd
      · rw [fetch_skip_self s ep hn] at hp
        cases hp
      · rw [fetch_self hs ep hv hn] at hp
        cases hp
    · rw [fetch_other s x hvx ep hv hep] at hp ⊢
      exact hold hp
  | load x hvx hin' hstat => exact hold hp
  | sent x status bytes hvx hin' hstat hfifo =>
    by_cases hep : ep = x
    · subst x
      rw [retire_self s ep hv status 0 bytes] at hp
      cases ((mask_ne_zero_iff _ ep).mp hstat).symm.trans (hold hp).1
    · rw [retire_other s x hvx status 0 bytes ep hv hep] at hp ⊢
      exact hold hp
  | received x status bytes hvx hout hstat hlen =>
    have hep : ep ≠ x := by
      rintro rfl
      cases hin.symm.trans hout
    have hview := retire_other s x hvx status
      ((s.dqhs (epaddr2dqhidx x)).token.getTotalBytes - bytes.length) bytes ep hv hep
    have hp' : (view s ep).prime = true := (congrArg View.prime hview).symm.trans hp
    obtain ⟨hstat', hcomplete⟩ := hold hp'
    exact ⟨(congrArg View.stat hview).trans hstat', (congrArg View.complete hview).trans hcomplete⟩
  | setup index bytes hused hlen => exact hold hp
  | status bits => exact hold hp

theorem phased_primed (h : Phased s) (ho : Once s) (hv : ep.isValid = true)
    (hin : ep.isOut = false) (hp : (view s ep).prime = true) :
    (view s ep).next % 32 = 0 ∧ Slot (view s ep).next (view s ep) := by
  obtain ⟨d, hd, -, hph⟩ := h.held ep (phased_used h hv (Or.inl hp))
  obtain ⟨hstat, hcomplete⟩ := ho ep hv hin hp
  generalize view s ep = v at hp hph hstat hcomplete ⊢
  cases hph with
  | idle n => cases hp
  | primed n => exact ⟨hd, Or.inl ⟨rfl, rfl⟩⟩
  | loaded n p hr => cases hstat
  | done n p hr => cases hcomplete

theorem phased_loaded (h : Phased s) (hv : ep.isValid = true) (hst : (view s ep).stat = true) :
    (view s ep).current % 32 = 0 ∧ Slot (view s ep).current (view s ep) := by
  obtain ⟨d, hd, -, hph⟩ := h.held ep (phased_used h hv (Or.inr hst))
  generalize view s ep = v at hst hph ⊢
  cases hph with
  | idle n => cases hst
  | primed n => cases hst
  | loaded n p hr => exact ⟨hd, Or.inr ⟨rfl, rfl⟩⟩
  | done n p hr => cases hst

theorem next_ne_current (h : Phased s) (ho : Once s) {ep ep' : EndpointAddress}
    (hv : ep.isValid = true) (hv' : ep'.isValid = true) (hin : ep.isOut = false)
    (hp : (view s ep).prime = true) (hst : (view s ep').stat = true) (hne : ep' ≠ ep) :
    (view s ep).next ≠ (view s ep').current := by
  intro heq
  obtain ⟨hd, hs⟩ := phased_primed h ho hv hin hp
  obtain ⟨-, hs'⟩ := phased_loaded h hv' hst
  rw [← heq] at hs'
  have hused := phased_used h hv (Or.inl hp)
  have hused' := phased_used h hv' (Or.inr hst)
  exact hne (h.own ep ep' _ hd hused hused' hs hs').symm

end UsbArmory.Usb.Memory
