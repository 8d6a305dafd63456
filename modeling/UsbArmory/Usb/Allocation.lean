import UsbArmory.Usb.Ownership

/-!
# Allocations in a row

What the driver has set up after some calls of `alloc_ep` that have returned
`Ok`, whatever their order.
-/

set_option autoImplicit false

namespace UsbArmory.Usb.Allocation
open UsbArmory.Usb.Descriptors UsbArmory.Usb.Controller UsbArmory.Usb.Bus UsbArmory.Usb.Endpoint
open UsbArmory.Usb.Configure UsbArmory.Usb.Invariant UsbArmory.Usb.Memory UsbArmory.Usb.Books
open UsbArmory.Usb.Bookkeeping UsbArmory.Usb.BookedCalls Relation

structure Request where
  ep : EndpointAddress
  ty : EndpointType
  size : ℕ
  deriving DecidableEq

/-- Calls of `alloc_ep` that all return `Ok`. -/
inductive Allocates : Usbd → List Request → Usbd → Prop where
  | nil (s : Usbd) : Allocates s [] s
  | cons {s t u : Usbd} (dir : UsbDirection) (addr : Option EndpointAddress) (r : Request)
    (rest : List Request) (h : allocEp s dir addr r.ty r.size = .ok (t, .ok r.ep))
    (hrest : Allocates t rest u) : Allocates s (r::rest) u

variable {l : Layout} {s t u : Usbd} {rs : List Request} {ep : EndpointAddress}

structure Installed (l : Layout) (s : Usbd) (rs : List Request) (u : Usbd) : Prop where
  ready : Ready u
  bare : Bare u
  entries : Entries l s u
  used : ∀ ep, isEpBeingUsed u ep = true ↔ isEpBeingUsed s ep = true ∨ ∃ r ∈ rs, r.ep = ep
  fresh : ∀ r ∈ rs, isEpBeingUsed s r.ep = false
  nodup : (rs.map Request.ep).Nodup
  valid : ∀ r ∈ rs, r.ep.isValid = true
  size : ∀ r ∈ rs, (books u).size r.ep = r.size ∧ r.size ≤ 0x400
  buffer : ∀ r ∈ rs, bufferOf u r.ep = none ↔ (r.ep.isOut = true → r.ep.index = 0)
  others : ∀ ep, (∀ r ∈ rs, r.ep ≠ ep) →
    (books u).size ep = (books s).size ep ∧ bufferOf u ep = bufferOf s ep
  current : ∀ ep, (view u ep).current = (view s ep).current

theorem allocEp_size {dir : UsbDirection} {addr : Option EndpointAddress} {ty : EndpointType}
    {n : ℕ} (h : allocEp s dir addr ty n = .ok (t, .ok ep)) : n ≤ 0x400 := by
  unfold allocEp at h
  obtain ⟨_, -, h⟩ := bind_ok h
  split at h
  next e he => cases h
  next ep' hep =>
    obtain ⟨u, hu, -⟩ := bind_ok h
    obtain ⟨caps, hcaps, -⟩ := bind_ok hu
    have hsome := expect_ok hcaps
    unfold capsNew at hsome
    split at hsome
    next hle => exact hle
    next => cases hsome

theorem allocEp_allocated {dir : UsbDirection} {addr : Option EndpointAddress} {ty : EndpointType}
    {n : ℕ} (h : allocEp s dir addr ty n = .ok (t, .ok ep)) : Allocated s ep t := by
  rcases allocEp_ok h with ⟨-, e, he⟩ | ⟨ep', ha, heq⟩
  · cases he
  · cases heq
    exact ha

theorem allocated_current (h : Allocated s ep t) (ep' : EndpointAddress) :
    (view t ep').current = (view s ep').current := by
  by_cases he : ep' = ep
  · obtain ⟨d, rest, -, -, hview⟩ := allocated_view h
    rw [he, hview]
  · rw [allocated_other h ep' he]

theorem installed (hready : Ready s) (hbare : Bare s) (h : Allocates s rs u) :
    Installed l s rs u := by
  induction h with
  | nil s =>
    exact ⟨hready, hbare, .refl, by simp, by simp, List.nodup_nil, by simp, by simp, by simp,
      fun _ _ => ⟨rfl, rfl⟩, fun _ => rfl⟩
  | @cons s t u dir addr r rest h hrest ih =>
    have ha := allocEp_allocated h
    have hopened := allocEp_opened (l := l) hbare h
    have hused := allocated_used ha
    have hbare' : Bare t := bare_allocated hbare ha hopened
    have hgood : Phased t := good_allocated kept_phase hready.toGood ha
    have hi := ih ⟨hgood, allocEp_rest hready.rest h⟩ hbare'
    have hnew : ∀ r' ∈ rest, r'.ep ≠ r.ep := by
      intro r' hr' heq
      have hfree := hi.fresh r' hr'
      rw [heq, (hused r.ep).mpr (.inr rfl)] at hfree
      cases hfree
    obtain ⟨hsize, hbuf⟩ := hi.others r.ep hnew
    refine ⟨hi.ready, hi.bare, hopened.entries.trans hi.entries, fun ep => ?_, ?_, ?_, ?_, ?_, ?_,
      fun ep hother => ?_, fun ep => (hi.current ep).trans (allocated_current ha ep)⟩
    · rw [hi.used, hused, or_assoc]
      simp only [List.mem_cons, exists_eq_or_imp]
      exact or_congr_right (or_congr_left eq_comm)
    · simp only [List.mem_cons, forall_eq_or_imp]
      refine ⟨ha.fresh, fun r' hr' => ?_⟩
      rw [← Bool.not_eq_true]
      intro hu
      have hfree := hi.fresh r' hr'
      rw [(hused _).mpr (.inl hu)] at hfree
      cases hfree
    · rw [List.map_cons, List.nodup_cons]
      refine ⟨fun hmem => ?_, hi.nodup⟩
      obtain ⟨r', hr', heq⟩ := List.mem_map.mp hmem
      exact hnew r' hr' heq
    · simp only [List.mem_cons, forall_eq_or_imp]
      exact ⟨ha.valid, hi.valid⟩
    · simp only [List.mem_cons, forall_eq_or_imp]
      exact ⟨⟨hsize.trans hopened.size, allocEp_size h⟩, hi.size⟩
    · simp only [List.mem_cons, forall_eq_or_imp]
      exact ⟨by rw [hbuf]; exact hopened.addr, hi.buffer⟩
    · simp only [List.mem_cons, forall_eq_or_imp] at hother
      obtain ⟨hsize', hbuf'⟩ := hi.others ep hother.2
      obtain ⟨hsize'', hbuf''⟩ := hopened.others ep (Ne.symm hother.1)
      exact ⟨hsize'.trans hsize'', hbuf'.trans hbuf''⟩

/-- The calls that ask for each endpoint by its address. -/
def allocEps (s : Usbd) : List Request → Option Usbd
  | [] => some s
  | r::rs =>
    match allocEp s r.ep.dir (some r.ep) r.ty r.size with
    | .ok (t, .ok ep) => if ep = r.ep then allocEps t rs else none
    | _ => none

theorem allocates_of_allocEps (h : allocEps s rs = some t) : Allocates s rs t := by
  induction rs generalizing s with
  | nil =>
    cases h
    exact .nil _
  | cons r rs ih =>
    unfold allocEps at h
    split at h
    next t' ep hcall =>
      split at h
      next he =>
        rw [he] at hcall
        exact .cons r.ep.dir (some r.ep) r rs hcall (ih h)
      next => cases h
    next => cases h

/-- The descriptors and buffers of `Usbd::take`. -/
def statics : Layout :=
  ⟨[64, 128, 192, 256], [320, 384], [448, 960], by decide, by decide, by decide⟩

end UsbArmory.Usb.Allocation
