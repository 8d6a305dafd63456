import UsbArmory.Usb.Accepted

/-!
# A transfer in flight

A write is accepted as long as the descriptor of the endpoint is not current,
and it becomes current only when the controller fetches it. A second write
before that overwrites the first; after it, every write is refused until the
transfer has been dealt with.
-/

set_option autoImplicit false

namespace UsbArmory.Usb.InFlight
open UsbArmory.Library.Bits UsbArmory.Library.Run UsbArmory.Usb.Descriptors
open UsbArmory.Usb.Controller UsbArmory.Usb.Bus UsbArmory.Usb.Endpoint UsbArmory.Usb.Effects
open UsbArmory.Usb.Write UsbArmory.Usb.Configure UsbArmory.Usb.Runs UsbArmory.Usb.Invariant
open UsbArmory.Usb.Memory UsbArmory.Usb.Transfer UsbArmory.Usb.Delivery UsbArmory.Usb.Accepted

variable {l : Layout} {s t : Usbd} {ep : EndpointAddress} {acc : List (List UInt8)}
variable {bytes : List UInt8} {d : ℕ}

structure WriteBuffers (l : Layout) (s : Usbd) (ep : EndpointAddress) (addr : ℕ) (t : Usbd) :
    Prop where
  inside : InBuffers l t
  foreign : ∀ b, Foreign s b → Foreign t b
  alone : ∀ ep', ep'.isOut = false → ep' ≠ ep → bufferOf s ep' ≠ some addr

theorem writeBuffers {addr : ℕ} {b64s b512s : List ℕ} (hi : InBuffers l s) (hin : ep.isOut = false)
    (hb : Buffered s (epaddr2dqhidx ep) addr b64s b512s) (hpool : pool t = b64s ++ b512s)
    (hself : bufferOf t ep = some addr)
    (hothers : ∀ ep', ep' ≠ ep → bufferOf t ep' = bufferOf s ep') : WriteBuffers l s ep addr t := by
  rcases hb with ⟨hold, rfl, rfl⟩ | ⟨-, htaken⟩
  · have hbuf : ∀ ep', bufferOf t ep' = bufferOf s ep' := by
      intro ep'
      by_cases he : ep' = ep
      · rw [he, hself]
        exact hold.symm
      · exact hothers ep' he
    have hpool' : pool t = pool s := hpool
    refine ⟨⟨?_, ?_, fun ep' a hin' ha => ?_, fun ep' ep'' a hin' hin'' ha ha' => ?_⟩,
      fun b hf => ⟨?_, fun ep' hin' => ?_⟩, fun ep' hin' hne ha => ?_⟩
    · rw [hpool']
      exact hi.nodup
    · rw [hpool']
      exact hi.static
    · rw [hbuf] at ha
      rw [hpool']
      exact hi.taken ep' a hin' ha
    · rw [hbuf] at ha ha'
      exact hi.own ep' ep'' a hin' hin'' ha ha'
    · rw [hpool']
      exact hf.1
    · rw [hbuf]
      exact hf.2 ep' hin'
    · exact hne (hi.own ep' ep addr hin' hin ha hold)
  · obtain ⟨ha, hnot, hnodup, hsub⟩ := taken_pool htaken hi.nodup
    rw [← hpool] at hnot hnodup hsub
    have halone : ∀ ep', ep'.isOut = false → ep' ≠ ep → bufferOf s ep' ≠ some addr := by
      intro ep' hin' _ hb
      exact (hi.taken ep' addr hin' hb).2 ha
    refine ⟨⟨hnodup, fun b hb => hi.static b (hsub b hb), fun ep' b hin' hb => ?_,
      fun ep' ep'' b hin' hin'' hb hb' => ?_⟩, fun b hf => ?_, halone⟩
    · by_cases he : ep' = ep
      · rw [he, hself] at hb
        cases hb
        exact ⟨hi.static addr ha, hnot⟩
      · rw [hothers ep' he] at hb
        obtain ⟨hstatic, hout⟩ := hi.taken ep' b hin' hb
        exact ⟨hstatic, fun hmem => hout (hsub b hmem)⟩
    · by_cases he : ep' = ep <;> by_cases he' : ep'' = ep
      · rw [he, he']
      · rw [he, hself] at hb
        rw [hothers ep'' he', ← hb] at hb'
        exact absurd hb' (halone ep'' hin'' he')
      · rw [he', hself] at hb'
        rw [hothers ep' he, ← hb'] at hb
        exact absurd hb (halone ep' hin' he)
      · rw [hothers ep' he] at hb
        rw [hothers ep'' he'] at hb'
        exact hi.own ep' ep'' b hin' hin'' hb hb'
    · apply taken_foreign hsub ha (fun ep' hin' => ?_) hf
      by_cases he : ep' = ep
      · rw [he]
        exact Or.inr hself
      · exact Or.inl (hothers ep' he)

/-- The memory of a write that has been accepted, with the endpoint primed at once. -/
structure Filled (l : Layout) (s : Usbd) (ep : EndpointAddress) (bytes : List UInt8) (d : ℕ)
    (t : Usbd) : Prop where
  self : view t ep = { view s ep with prime := true }
  others : ∀ ep', ep'.isValid = true → ep' ≠ ep → view t ep' = view s ep'
  dqh : ∀ ep', ep' ≠ ep → t.dqhs (epaddr2dqhidx ep') = s.dqhs (epaddr2dqhidx ep')
  dtd : ∀ d', d' ≠ d → t.dtd d' = s.dtd d'
  holds : Holds t ep (t.dtd d).token (t.dtd d).page0 bytes
  memory : t.fifo = s.fifo ∧ t.transfers = s.transfers
  buffers : ∃ addr, WriteBuffers l s ep addr t ∧ ∀ a, a ≠ addr → t.buffer a = s.buffer a

theorem filled_primed (h : Tidy l s) (hv : ep.isValid = true) (hin : ep.isOut = false) {d addr : ℕ}
    {token : Token} {b64s b512s : List ℕ} (hbuf : Buffered s (epaddr2dqhidx ep) addr b64s b512s)
    (htoken : activeToken bytes.length = some token) :
    Filled l s ep bytes d (primed (written s ep bytes d addr token b64s b512s) ep) := by
  have hself : bufferOf (primed (written s ep bytes d addr token b64s b512s) ep) ep =
      some addr := by
    simp [bufferOf, primed, writeEndptprime, written]
  have hdqh : ∀ ep', ep' ≠ ep →
      (primed (written s ep bytes d addr token b64s b512s) ep).dqhs (epaddr2dqhidx ep') =
        s.dqhs (epaddr2dqhidx ep') := by
    intro ep' hne
    simp [primed, writeEndptprime, written, dqhidx_ne hne]
  refine ⟨?_, fun ep' hv' hne => ?_, hdqh, fun d' hne => ?_, ⟨?_, ?_, ?_⟩, ⟨rfl, rfl⟩, addr, ?_,
    fun a hne => ?_⟩
  · rw [primed_self _ ep hv, written_view]
  · rw [primed_other _ ep hv ep' hv' hne, written_view]
  · simp [primed, writeEndptprime, written, hne]
  · rw [hself]
    simp [primed, writeEndptprime, written, DTD.setPages]
  · simpa [primed, writeEndptprime, written, DTD.setPages] using
      getTotalBytes_activeToken bytes.length token htoken
  · simp [primed, writeEndptprime, written, DTD.setPages]
  · refine writeBuffers h.owned.inside hin hbuf rfl hself fun ep' hne => ?_
    unfold bufferOf
    rw [hdqh ep' hne]
  · simp [primed, writeEndptprime, written, hne]

theorem Filled.dtd_other (hf : Filled l s ep bytes d t) (h : Tidy l s) (hv : ep.isValid = true)
    (hd : d % 32 = 0) (hs : Slot d (view s ep)) {ep' : EndpointAddress} (hv' : ep'.isValid = true)
    (hne : ep' ≠ ep) {d' : ℕ} (hd' : d' % 32 = 0) (hs' : Slot d' (view s ep')) :
    t.dtd d' = s.dtd d' := by
  apply hf.dtd
  rintro rfl
  have hused := slot_used h.ready hv hd hs
  exact hne (h.ready.own ep' ep d' hd (slot_used h.ready hv' hd' hs') hused hs' hs)

theorem Filled.outPages (hf : Filled l s ep bytes d t) (h : Tidy l s) (hv : ep.isValid = true)
    (hd : d % 32 = 0) (hs : Slot d (view s ep)) (hused : t.inner.usedDqhs = s.inner.usedDqhs)
    {ep' : EndpointAddress} (hv' : ep'.isValid = true) (hout : ep'.isOut = true) (hne : ep' ≠ ep) :
    OutPages t ep' := by
  obtain ⟨addr, hbufs, -⟩ := hf.buffers
  have ho := h.owned.outside ep' hv' hout
  refine ⟨fun a hb => ?_, fun hst => ?_, fun hp hu d' hd' hs' => ?_⟩
  · unfold bufferOf at hb
    rw [hf.dqh ep' hne] at hb
    exact hbufs.foreign a (ho.buffer a hb)
  · rw [hf.others ep' hv' hne] at hst
    rw [hf.dqh ep' hne]
    exact hbufs.foreign _ (ho.loaded hst)
  · rw [hf.others ep' hv' hne] at hp hs'
    rw [isEpBeingUsed_congr hused] at hu
    rw [hf.dtd_other h hv hd hs hv' hne hd' hs']
    exact hbufs.foreign _ (ho.next hp hu d' hd' hs')

theorem Filled.carries (hf : Filled l s ep bytes d t) (hnext : (view s ep).next = d)
    (hrest : AtRest s ep) (hc : Carries s ep acc) : Carries t ep (acc ++ [bytes]) := by
  refine ⟨fun hp => ?_, fun _ => ⟨bytes, ?_, ?_⟩, fun hst => ?_⟩
  · rw [hf.self] at hp
    cases hp
  · rw [hc.idle hrest.prime hrest.stat, hf.memory.2]
  · have hn : (view t ep).next = d := by rw [hf.self, ← hnext]
    rw [hn]
    exact hf.holds
  · rw [hf.self] at hst
    cases hst.symm.trans hrest.stat

theorem Filled.carries_other (hf : Filled l s ep bytes d t) (h : Tidy l s) (hv : ep.isValid = true)
    (hd : d % 32 = 0) (hs : Slot d (view s ep)) {ep' : EndpointAddress} (hv' : ep'.isValid = true)
    (hin : ep'.isOut = false) (hne : ep' ≠ ep) (hc : Carries s ep' acc) : Carries t ep' acc := by
  obtain ⟨addr, hbufs, hbuffer⟩ := hf.buffers
  apply carries_congr hc (hf.others ep' hv' hne)
  · rw [hf.dqh ep' hne]
    exact ⟨rfl, rfl, rfl⟩
  · rw [hf.memory.2]
  · rw [hf.memory.1]
  · intro hp
    obtain ⟨hd', hs'⟩ := phased_primed h.ready h.once hv' hin hp
    exact hf.dtd_other h hv hd hs hv' hne hd' hs'
  · intro a hb
    apply hbuffer
    rintro rfl
    exact hbufs.alone ep' hin hne hb

/-- A state in which an endpoint has been given this write to carry. -/
structure Gives (l : Layout) (s : Usbd) (ep : EndpointAddress) (bytes : List UInt8) (t : Usbd) :
    Prop where
  tidy : Tidy l t
  self : ∀ acc, Carries s ep acc → Carries t ep (acc ++ [bytes])
  others : ∀ ep', ep'.isValid = true → ep'.isOut = false → ep' ≠ ep → ∀ acc,
    Carries s ep' acc → Carries t ep' acc

theorem Gives.onward {u : Usbd} (h : Gives l s ep bytes t) (hv : ep.isValid = true)
    (hin : ep.isOut = false) (ho : Onward l t u) : Gives l s ep bytes u :=
  ⟨ho.tidy, fun acc hc => ho.carries ep _ hv hin (h.self acc hc), fun ep' hv' hin' hne acc hc =>
    ho.carries ep' acc hv' hin' (h.others ep' hv' hin' hne acc hc)⟩

theorem Filled.gives (hf : Filled l s ep bytes d t) (h : Tidy l s) (hv : ep.isValid = true)
    (hin : ep.isOut = false) (hd : d % 32 = 0) (hs : Slot d (view s ep))
    (hnext : (view s ep).next = d) (hrest : AtRest s ep) (hready : Phased t)
    (hused : t.inner.usedDqhs = s.inner.usedDqhs) : Gives l s ep bytes t := by
  obtain ⟨addr, hbufs, -⟩ := hf.buffers
  have honce : Once t := by
    intro ep' hv' hin' hp
    by_cases he : ep' = ep
    · subst ep'
      rw [hf.self]
      exact ⟨hrest.stat, hrest.complete⟩
    · rw [hf.others ep' hv' he] at hp ⊢
      exact h.once ep' hv' hin' hp
  refine ⟨⟨hready, honce, hbufs.inside, fun ep' hv' hout => ?_⟩, fun acc hc => ?_,
    fun ep' hv' hin' hne acc hc => ?_⟩
  · exact hf.outPages h hv hd hs hused hv' hout (in_ne_out hin hout).symm
  · exact hf.carries hnext hrest hc
  · exact hf.carries_other h hv hd hs hv' hin' hne hc

theorem fetch_primed {x : EndpointAddress} (hv : ep.isValid = true) (hvx : x.isValid = true)
    (hne : ep ≠ x) (s : Usbd) : fetch (primed s ep) x = primed (fetch s x) ep := by
  have hbits : (s.endptprime ||| epaddr2endptmask ep) &&& ~~~epaddr2endptmask x =
      (s.endptprime &&& ~~~epaddr2endptmask x) ||| epaddr2endptmask ep := by
    refine BitVec.eq_of_getLsbD_eq fun j hj => ?_
    rw [epaddr2endptmask_eq, epaddr2endptmask_eq, getLsbD_clear, getLsbD_set (endptBit_lt hv),
      getLsbD_set (endptBit_lt hv), getLsbD_clear]
    have hbit := (apart hv hvx hne.symm).2
    by_cases hx : endptBit x = j
    · have hep : endptBit ep ≠ j := fun hep => hbit (hep.trans hx.symm)
      simp [hx, hep]
    · simp [hx]
  unfold fetch primed writeEndptprime
  simp only
  rw [hbits]
  split <;> rfl

theorem hwStep_primed (hv : ep.isValid = true) (hclear : (view s ep).prime = false) {e : HwEvent}
    (h : hwStep s e = some t) : hwStep (primed s ep) e = some (primed t ep) ∧
      (view t ep).prime = false := by
  cases hwStep_happens h with
  | fetch x hvx hprime =>
    have hset := (mask_ne_zero_iff _ x).mp hprime
    have hne : ep ≠ x := by
      rintro rfl
      cases hset.symm.trans hclear
    refine ⟨?_, ?_⟩
    · have hset' : (primed s ep).endptprime &&& epaddr2endptmask x ≠ 0 :=
        (mask_ne_zero_iff _ x).mpr
          ((congrArg View.prime (primed_other s ep hv x hvx hne.symm)).trans hset)
      rw [← fetch_primed hv hvx hne]
      exact if_pos ⟨hvx, hset'⟩
    · rw [fetch_other s x hvx ep hv hne]
      exact hclear
  | load x hvx hin hstat => exact ⟨if_pos ⟨hvx, hin, hstat⟩, hclear⟩
  | sent x status bytes hvx hin hstat hfifo =>
    refine ⟨?_, hclear⟩
    show (if _ then Option.map _ _ else none) = _
    rw [if_pos ⟨hvx, hin, hstat⟩, show (primed s ep).fifo (epaddr2dqhidx x) = some bytes from hfifo]
    rfl
  | received x status bytes hvx hout hstat hlen =>
    exact ⟨if_pos ⟨hvx, hout, hstat, hlen⟩, hclear⟩
  | setup index bytes hused hlen => exact ⟨if_pos ⟨hused, hlen⟩, hclear⟩
  | status bits => exact ⟨rfl, hclear⟩

theorem hardware_primed (hv : ep.isValid = true) (gap : List HwEvent) (s : Usbd)
    (hclear : (view s ep).prime = false) :
    ∃ gap', hardware (primed s ep) gap' = primed (hardware s gap) ep := by
  induction gap generalizing s with
  | nil => exact ⟨[], rfl⟩
  | cons e gap ih =>
    cases he : hwStep s e with
    | none =>
      have hskip : hardware s (e :: gap) = hardware s gap := by
        unfold hardware
        rw [List.foldl_cons, he, Option.getD_none]
      rw [hskip]
      exact ih s hclear
    | some t =>
      have hstep : hardware s (e :: gap) = hardware t gap := by
        unfold hardware
        rw [List.foldl_cons, he, Option.getD_some]
      obtain ⟨he', hclear'⟩ := hwStep_primed hv hclear he
      obtain ⟨gap', hgap'⟩ := ih t hclear'
      refine ⟨e :: gap', ?_⟩
      rw [hstep, ← hgap']
      unfold hardware
      rw [List.foldl_cons, he', Option.getD_some]

theorem prime_eq (hv : ep.isValid = true) (hclear : (view s ep).prime = false)
    (gap : List HwEvent) : ∃ gap', hardware (primed s ep) gap' = primed (hardware s gap) ep ∧
      prime s ep gap = writeEndptprime (hardware (primed s ep) gap') s.endptprime := by
  obtain ⟨gap', hgap'⟩ := hardware_primed hv gap s hclear
  refine ⟨gap', hgap', ?_⟩
  rw [hgap']
  unfold prime primed writeEndptprime
  simp only
  rw [BitVec.or_comm s.endptprime, BitVec.or_assoc]

theorem accepted_atRest (h : Tidy l s) (hv : ep.isValid = true)
    (hcur : (view s ep).current % 32 ≠ 0) (hidle : (view s ep).prime = false) {d : ℕ}
    (hnext : (view s ep).next = d) (hne : d ≠ noNextDtd) :
    d % 32 = 0 ∧ Slot d (view s ep) ∧ AtRest s ep := by
  have hu : isEpBeingUsed s ep = true := by
    by_contra hu
    have hblank := h.ready.free ep hv ((Bool.not_eq_true _).mp hu)
    exact hne (hnext.symm.trans (by rw [hblank]; rfl))
  obtain ⟨d₀, hd₀, -, hph⟩ := h.ready.held ep hu
  have heq : d₀ = d := (slot_next hd₀ hph.slot hcur).2.symm.trans hnext
  subst d₀
  refine ⟨hd₀, hph.slot, ?_⟩
  show Quiet (view s ep)
  generalize view s ep = v at hcur hidle hph ⊢
  cases hph with
  | idle n => exact ⟨rfl, rfl, rfl⟩
  | primed n => cases hidle
  | loaded n p hr => exact absurd hd₀ hcur
  | done n p hr => exact absurd hd₀ hcur

theorem accepted_gives (h : Tidy l s) (hs : Stable s) (hin : ep.isOut = false)
    (hidle : (view s ep).prime = false) {gap : List HwEvent} (hgap : InsUnfetched s gap)
    (ha : Write.Accepted s ep bytes gap t) : Gives l s ep bytes t := by
  have heff := accepted_effect hs hin ha
  have hslotted := accepted_slot hs ha
  obtain ⟨hv, -, hfree, d, addr, token, b64s, b512s, hd, hbuf, htoken, rfl⟩ := ha
  obtain ⟨hnext, hne⟩ := getNextDtd_some hd
  obtain ⟨hd₀, hslot, hrest⟩ :=
    accepted_atRest h hv (getCurrentDtd_none hfree) hidle hnext hne
  have hviews := written_view s ep bytes d addr token b64s b512s
  have hsingle := written_single hs.single ep bytes d addr token b64s b512s
  have hprimed : Effect false s (primed (written s ep bytes d addr token b64s b512s) ep) := by
    have hfirst : Effect false s (written s ep bytes d addr token b64s b512s) :=
      .same hviews hsingle rfl rfl
    exact hfirst.trans (primed_effect hsingle hv (in_ne hin) (hslotted.congr (hviews ep)))
  have hgives : Gives l s ep bytes (primed (written s ep bytes d addr token b64s b512s) ep) :=
    (filled_primed h hv hin hbuf htoken).gives h hv hin hd₀ hslot hnext hrest
      (good_effect kept_phase h.ready hprimed h.ready.noted) rfl
  -- the bit is set before the gap, and the other bits are set again behind it
  have hclear : (view (written s ep bytes d addr token b64s b512s) ep).prime = false := by
    rw [hviews]
    exact hidle
  obtain ⟨gap', hcommute, heq⟩ := prime_eq hv hclear gap
  have hnoted : (prime (written s ep bytes d addr token b64s b512s) ep gap).inner.epInComplete =
      none := by
    rw [(prime_frame _ ep gap).inner]
    exact h.ready.noted
  have hready := good_effect kept_phase h.ready heff hnoted
  rw [heq] at hready ⊢
  have hwait := onward_hardware hgives.tidy gap'
  refine hgives.onward hv hin (hwait.trans (onward_endptprime hwait.tidy _ hready
    (fun x hvx hinx hbit => ?_) fun x hvx hout hbit d' hd' hs' => ?_))
  · rw [hcommute]
    by_cases hx : x = ep
    · subst x
      rw [primed_self _ ep hv]
    · rw [primed_other _ ep hv x hvx hx, prime_hardware hvx gap (hgap x hvx hinx hbit), hviews]
      exact hbit
  · obtain ⟨hu, hs'⟩ := later_slot hgives.tidy gap' hvx hd' hs'
    apply later_foreign _ gap'
    have hother := primed_other (written s ep bytes d addr token b64s b512s) ep hv x hvx
      (in_ne_out hin hout).symm
    refine (hgives.tidy.owned.outside x hvx hout).next (Or.inl ?_) hu d' hd' hs'
    rw [hother]
    exact hbit

end UsbArmory.Usb.InFlight
