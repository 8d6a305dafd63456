import UsbArmory.Usb.BookedCalls

/-!
# Who owns the descriptors and the buffers

Every endpoint that has been allocated has one descriptor of its own, the
others are in the pool; a static buffer has one owner and is large enough.
-/

set_option autoImplicit false

namespace UsbArmory.Usb.Ownership
open UsbArmory.Library.Run UsbArmory.Usb.Descriptors UsbArmory.Usb.Controller UsbArmory.Usb.Bus
open UsbArmory.Usb.Endpoint UsbArmory.Usb.Effects UsbArmory.Usb.Poll UsbArmory.Usb.Write
open UsbArmory.Usb.Read UsbArmory.Usb.Configure UsbArmory.Usb.Runs UsbArmory.Usb.Invariant
open UsbArmory.Usb.Memory UsbArmory.Usb.Transfer UsbArmory.Usb.Books UsbArmory.Usb.Bookkeeping
open UsbArmory.Usb.BookedCalls

variable {P : EndpointAddress → ℕ → View → Prop} {l : Layout} {s t : Usbd} {ep : EndpointAddress}

def endpoint? : Response → Option EndpointAddress
  | .allocated (.ok ep) => some ep
  | _ => none

/-- The endpoints that `alloc_ep` has returned. -/
def allocated (log : List (Call × Response)) : List EndpointAddress :=
  log.filterMap fun p => endpoint? p.2

/-- No transfer is under way, and none has to be dealt with. -/
def Idle (v : View) : Prop := v.prime = false ∧ v.stat = false ∧ v.complete = false

structure Exclusive (l : Layout) (y : Session) : Prop where
  descriptor : ∀ ep ∈ allocated y.log, ∃ d ∈ l.dtds, d ∉ y.usbd.inner.dtds ∧
    (∀ d' ∈ l.dtds, Slot d' (view y.usbd ep) ↔ d' = d) ∧
    (Idle (view y.usbd ep) → (view y.usbd ep).next = d)
  descriptorOwn : ∀ ep ∈ allocated y.log, ∀ ep' ∈ allocated y.log, ∀ d ∈ l.dtds,
    Slot d (view y.usbd ep) → Slot d (view y.usbd ep') → ep = ep'
  count : y.usbd.inner.dtds.length + (allocated y.log).length = l.dtds.length
  bufferFree : ∀ ep a, bufferOf y.usbd ep = some a → a ∈ l.b64s ++ l.b512s → a ∉ pool y.usbd
  bufferOwn : ∀ ep ep' a, a ∈ l.b64s ++ l.b512s → bufferOf y.usbd ep = some a →
    bufferOf y.usbd ep' = some a → ep = ep'
  bufferSize : ∀ ep a, bufferOf y.usbd ep = some a → a ∈ l.b64s ++ l.b512s →
    (y.usbd.dqhs (epaddr2dqhidx ep)).getMaxPacketSize ≤ (l.start.buffer a).length
  used : ∀ ep, isEpBeingUsed y.usbd ep = true ↔ ep ∈ allocated y.log
  refused : ∀ dir addr ty n t e,
    allocEp y.usbd dir addr ty n = .ok (t, .error e) → t = y.usbd

structure Owning (l : Layout) (y : Session) : Prop where
  ready : Ready y.usbd
  bare : Bare y.usbd
  balanced : Balanced l (books y.usbd)
  used : ∀ ep, isEpBeingUsed y.usbd ep = true ↔ ep ∈ allocated y.log
  count : y.usbd.inner.dtds.length + (allocated y.log).length = l.dtds.length
  free : ∀ d ∈ y.usbd.inner.dtds, d ∈ l.dtds
  held : ∀ ep, isEpBeingUsed y.usbd ep = true → ∃ d ∈ l.dtds, Slot d (view y.usbd ep)

theorem owning_effect {x y : Session} (h : Owning l x) {free : Bool}
    (he : Effect free x.usbd y.usbd) (hready : Ready y.usbd) (hbare : Bare y.usbd)
    (hentries : Entries l x.usbd y.usbd) (hlog : allocated y.log = allocated x.log) :
    Owning l y := by
  refine ⟨hready, hbare, balanced_entries h.balanced hentries, fun ep => ?_, ?_, ?_,
    fun ep hu => ?_⟩
  · rw [isEpBeingUsed_congr he.used, hlog]
    exact h.used ep
  · rw [he.dtds, hlog]
    exact h.count
  · rw [he.dtds]
    exact h.free
  · rw [isEpBeingUsed_congr he.used] at hu
    obtain ⟨d, hd, hslot⟩ := h.held ep hu
    exact ⟨d, hd, slot_moves (l.dtds_aligned d hd) hslot (he.moves ep (h.ready.valid ep hu))⟩

theorem allocated_append (log : List (Call × Response)) (c : Call) (r : Response) :
    allocated (log ++ [(c, r)]) = allocated log ++ (endpoint? r).toList := by
  rw [allocated, List.filterMap_append]
  cases h : endpoint? r <;> simp [h, allocated]

theorem owning_allocated {x y : Session} (h : Owning l x) (ha : Allocated x.usbd ep y.usbd)
    (hready : Ready y.usbd) {n : ℕ} (hopened : Opened l x.usbd ep n y.usbd)
    (hlog : allocated y.log = allocated x.log ++ [ep]) : Owning l y := by
  obtain ⟨d, rest, hpool, hrest, hview⟩ := allocated_view ha
  have hused := allocated_used ha
  have hblank := h.ready.free ep ha.valid ha.fresh
  have hd : d ∈ l.dtds := h.free d (by rw [hpool]; exact List.mem_cons_self)
  refine ⟨hready, bare_allocated h.bare ha hopened,
    balanced_entries h.balanced hopened.entries, fun ep' => ?_, ?_, fun d' hd' => ?_,
    fun ep' hu => ?_⟩
  · rw [hused, h.used, hlog]
    simp
  · have hcount := h.count
    rw [hpool, List.length_cons] at hcount
    rw [hrest, hlog, List.length_append, List.length_singleton]
    omega
  · rw [hrest] at hd'
    exact h.free d' (by rw [hpool]; exact List.mem_cons_of_mem d hd')
  · rcases (hused ep').mp hu with hu | rfl
    · have hne : ep' ≠ ep := by
        rintro rfl
        rw [ha.fresh] at hu
        cases hu
      rw [allocated_other ha ep' hne]
      exact h.held ep' hu
    · refine ⟨d, hd, ?_⟩
      rw [hview, hblank]
      exact .inl ⟨rfl, rfl⟩

theorem owning_call {x : Session} {c : Call} {r : Response} (h : Owning l x) (ha : Allowed l c)
    (hr : c.isReset = false) (hc : call x.usbd c = .ok (t, r)) :
    Owning l ⟨t, x.log ++ [(c, r)]⟩ := by
  have hready := steady_call kept_phase h.ready ha hr hc
  have hbare := bare_call kept_phase h.ready h.bare ha hc
  have hentries := entries_call h.ready.toGood h.bare ha hc
  have hsame : endpoint? r = none → allocated (x.log ++ [(c, r)]) = allocated x.log := by
    intro hnone
    rw [allocated_append, hnone]
    simp
  cases c with
  | allocEp dir addr ty n =>
    obtain ⟨⟨u, res⟩, hp, heq⟩ := map_ok hc
    cases heq
    rcases allocEp_ok hp with ⟨rfl, e, rfl⟩ | ⟨ep, hep, rfl⟩
    · have hsame' : Effect false x.usbd x.usbd := Effect.refl h.ready.single
      exact owning_effect h hsame' hready hbare hentries (hsame rfl)
    · refine owning_allocated h hep hready (allocEp_opened h.bare hp) ?_
      rw [allocated_append]
      rfl
  | enable =>
    cases hc
    have he : Effect false x.usbd (Bus.enable x.usbd) :=
      .same (fun _ => rfl) h.ready.single rfl rfl
    exact owning_effect h he hready hbare hentries (hsame rfl)
  | setDeviceAddress addr gaps =>
    cases hc
    have he : Effect false x.usbd (Bus.setDeviceAddress x.usbd addr gaps) :=
      setDeviceAddress_effect (h.ready.stable kept_phase) addr
        (allocatedEps_slotted kept_phase h.ready.toGood)
    exact owning_effect h he hready hbare hentries (hsame rfl)
  | reset wait => cases hr
  | poll h₁ h₂ =>
    obtain ⟨⟨u, res⟩, hp, heq⟩ := map_ok hc
    cases heq
    have he := poll_effect h.ready.single h.ready.noted hp
    exact owning_effect h he hready hbare hentries (hsame rfl)
  | read ep buf hw =>
    obtain ⟨⟨u, res⟩, hp, heq⟩ := map_ok hc
    cases heq
    have he := read_effect (h.ready.stable kept_phase) ha.1 hp
    exact owning_effect h he hready hbare hentries (hsame rfl)
  | startWrite ep bytes gap =>
    obtain ⟨⟨u, res⟩, hp, heq⟩ := map_ok hc
    cases heq
    have he := startWrite_effect (h.ready.stable kept_phase) ha hp
    exact owning_effect h he hready hbare hentries (hsame rfl)

theorem owning_step {x y : Session} {e : Event} (h : Owning l x) (hr : e.isReset = false)
    (hs : step l x e = some y) : Owning l y := by
  cases e with
  | hw e =>
    obtain ⟨hhw, hlog⟩ := step_hw hs
    have he : Effect false x.usbd y.usbd := hwStep_effect h.ready.single e hhw
    have hb := books_frame (hwStep_frame e hhw)
    exact owning_effect h he (steady_hwStep kept_phase h.ready e hhw) (bare_books h.bare he.used hb)
      (entries_of_eq hb) (by rw [hlog])
  | call c =>
    obtain ⟨ha, r, hc, hlog⟩ := step_call hs
    have hnext := owning_call h ha hr hc
    rw [← hlog] at hnext
    exact hnext

theorem owning_start (l : Layout) : Owning l (start l) := by
  have hunused : ∀ ep, isEpBeingUsed l.start ep = false := by
    intro ep
    simp [isEpBeingUsed, Layout.start]
  refine ⟨steady_start _ l, fun ep _ => rfl, balanced_start l, fun ep => ?_, ?_,
    fun d hd => List.mem_reverse.mp hd, fun ep hu => ?_⟩
  · simp [start, hunused, allocated]
  · simp [start, Layout.start, allocated]
  · rw [show isEpBeingUsed (start l).usbd ep = false from hunused ep] at hu
    cases hu

theorem phase_idle {r : Bool} {d : ℕ} {v : View} (h : Phase r d v) (hi : Idle v) : v.next = d := by
  obtain ⟨hp, hst, hc⟩ := hi
  cases h with
  | idle n => rfl
  | primed n => cases hp
  | loaded n p hr => cases hst
  | done n p hr => cases hc

theorem exclusive_of_owning {y : Session} (h : Owning l y) : Exclusive l y := by
  refine ⟨fun ep hep => ?_, fun ep hep ep' hep' d hd hs hs' => ?_, h.count, ?_, h.balanced.own, ?_,
    h.used, ?_⟩
  · have hu := (h.used ep).mpr hep
    obtain ⟨d, hd, hslot⟩ := h.held ep hu
    have hal := l.dtds_aligned d hd
    obtain ⟨d', hal', hnot, hphase⟩ := h.ready.held ep hu
    obtain rfl := slot_unique hal' hal hphase.slot hslot
    refine ⟨d', hd, hnot, fun d'' hd'' => ⟨fun hs => ?_, ?_⟩, phase_idle hphase⟩
    · exact slot_unique (l.dtds_aligned d'' hd'') hal hs hslot
    · rintro rfl
      exact hslot
  · exact h.ready.own ep ep' d (l.dtds_aligned d hd) ((h.used ep).mpr hep) ((h.used ep').mpr hep')
      hs hs'
  · exact fun ep a ha hstatic => (h.balanced.held ep a ha hstatic).1
  · exact fun ep a ha hstatic => (h.balanced.held ep a ha hstatic).2
  · intro dir addr ty n t e hc
    rcases allocEp_ok hc with ⟨rfl, -⟩ | ⟨ep, -, hok⟩
    · rfl
    · cases hok

/-- In every run without a bus reset, descriptors and buffers have one owner. -/
theorem ownership_exclusive (l : Layout) (es : List Event) (y : Session)
    (hr : ∀ e ∈ es, e.isReset = false) (hs : exec (step l) es (start l) = some y) :
    Exclusive l y := by
  have hrun : Along (step l) (fun _ e => e.isReset = false) es (start l) := along_of_forall hr _
  exact exclusive_of_owning (exec_invariant_along (I := Owning l)
    (fun _ _ _ hx he hy => owning_step hx he hy) es (owning_start l) hrun hs)

/-- All endpoints, a transfer on one of them and a read of another. -/
def fourEndpoints : List Event :=
  [.call (.allocEp .out (some ⟨0, .out⟩) .control 64),
    .call (.allocEp .in (some ⟨0, .in⟩) .control 64), .call (.allocEp .in none .bulk 64),
    .call (.allocEp .out none .bulk 512), .call (.startWrite ⟨0, .in⟩ [1, 2] []),
    .hw (.fetch ⟨0, .in⟩), .hw (.load ⟨0, .in⟩), .hw (.sent ⟨0, .in⟩ 0), .call (.poll [] []),
    .call (.allocEp .in none .bulk 64), .call (.read ⟨1, .out⟩ ⟨1024, 64⟩ ⟨[], [], []⟩)]

theorem fourEndpoints_runs :
    (exec (step smallLayout) fourEndpoints (start smallLayout)).isSome = true := by
  decide

theorem ownership_exclusive_fourEndpoints : Exclusive smallLayout
    ((exec (step smallLayout) fourEndpoints (start smallLayout)).get fourEndpoints_runs) :=
  ownership_exclusive smallLayout fourEndpoints _ (by decide)
    (Option.some_get fourEndpoints_runs).symm

end UsbArmory.Usb.Ownership
