import UsbArmory.Usb.Usable

/-!
# Pools that are exhausted

The first write of every IN endpoint takes a buffer. If all of them return,
the pools had one for each endpoint.
-/

set_option autoImplicit false

namespace UsbArmory.Usb.Exhaustion
open UsbArmory.Usb.Descriptors UsbArmory.Usb.Controller UsbArmory.Usb.Bus UsbArmory.Usb.Endpoint
open UsbArmory.Usb.Write UsbArmory.Usb.EndWrite UsbArmory.Usb.Invariant UsbArmory.Usb.Memory
open UsbArmory.Usb.Books UsbArmory.Usb.Bookkeeping UsbArmory.Usb.Ownership
open UsbArmory.Usb.Allocation UsbArmory.Usb.Usable UsbArmory.Usb.Transfer

variable {l : Layout} {s t u : Usbd} {rs : List Request} {ep : EndpointAddress}

def Quiet (s : Usbd) : Prop := ∀ ep, (s.dqhs (epaddr2dqhidx ep)).getCurrentDtd = none

theorem startWrite_takes (hv : ep.isValid = true) (hquiet : Quiet s) {res : Except UsbError ℕ}
    (h : startWrite s ep [] [] = .ok (t, res)) : (bufferOf t ep).isSome = true ∧
      (bufferOf s ep = none → (books s).size ep ≤ 512) ∧ Quiet t ∧
      ∀ ep', (bufferOf s ep').isSome = true → (bufferOf t ep').isSome = true := by
  unfold startWrite at h
  rw [show getDqh ep = some (epaddr2dqhidx ep) from if_pos (of_decide_eq_true hv)] at h
  dsimp only at h
  rw [List.length_nil, if_neg (Nat.not_lt_zero _), hquiet ep] at h
  obtain ⟨d, -, h⟩ := bind_ok h
  obtain ⟨⟨a, v⟩, hp, h⟩ := bind_ok h
  obtain ⟨token, -, h⟩ := bind_ok h
  have hsize : bufferOf s ep = none → (books s).size ep ≤ 512 := by
    intro hnone
    rw [staticBuffer, show (s.dqhs (epaddr2dqhidx ep)).addr = none from hnone] at hp
    obtain ⟨⟨a', w⟩, hp', -⟩ := bind_ok hp
    rcases popBuffer_entry hp' with ⟨h64, -⟩ | ⟨-, h512, -⟩
    · exact h64.trans (by decide)
    · exact h512
  obtain ⟨b64s, b512s, -, rfl⟩ := staticBuffer_ok hp
  cases h
  refine ⟨?_, hsize, fun ep' => ?_, fun ep' hsome => ?_⟩
  · simp [bufferOf, prime, hardware, writeEndptprime, Usbd.setDqh]
  · by_cases he : ep' = ep
    · subst he
      simpa [prime, hardware, writeEndptprime, Usbd.setDqh, Usbd.setDtd, Usbd.fillBuffer,
        DQH.getCurrentDtd] using hquiet ep'
    · simpa [prime, hardware, writeEndptprime, Usbd.setDqh, Usbd.setDtd, Usbd.fillBuffer,
        dqhidx_ne he] using hquiet ep'
  · by_cases he : ep' = ep
    · subst he
      simp [bufferOf, prime, hardware, writeEndptprime, Usbd.setDqh]
    · simpa [bufferOf, prime, hardware, writeEndptprime, Usbd.setDqh, Usbd.setDtd, Usbd.fillBuffer,
        dqhidx_ne he] using hsome

def firstWrites (eps : List EndpointAddress) : List Written := eps.map fun ep => ⟨[], ep, [], []⟩

theorem firstWrites_take (eps : List EndpointAddress) (hquiet : Quiet s) (h : Supplied l rs s)
    (heps : ∀ ep ∈ eps, ep.isOut = false ∧ ep.isValid = true)
    (hw : writes s (firstWrites eps) = .ok u) : Supplied l rs u ∧
      (∀ ep ∈ eps, (bufferOf u ep).isSome = true) ∧
      ∀ ep, (bufferOf s ep).isSome = true → (bufferOf u ep).isSome = true := by
  induction eps generalizing s with
  | nil =>
    cases hw
    exact ⟨h, by simp, fun _ hsome => hsome⟩
  | cons ep eps ih =>
    obtain ⟨hin, hv⟩ := heps ep List.mem_cons_self
    rw [writes, firstWrites, List.map_cons, List.foldlM_cons] at hw
    obtain ⟨t, ht, hw⟩ := bind_ok hw
    obtain ⟨⟨t', res⟩, ht, rfl⟩ := Runs.map_ok ht
    obtain ⟨htaken, -, hquiet', hkeep⟩ := startWrite_takes hv hquiet ht
    obtain ⟨hu, htake, hkeep'⟩ := ih hquiet' (supplied_startWrite h hin ht)
      (fun ep' hep' => heps ep' (List.mem_cons_of_mem ep hep')) hw
    refine ⟨hu, fun ep' hep' => ?_, fun ep' hsome => hkeep' ep' (hkeep ep' hsome)⟩
    rcases List.mem_cons.mp hep' with rfl | hep'
    · exact hkeep' ep' htaken
    · exact htake ep' hep'

/-- An IN endpoint whose first write returns has packets for which there are buffers. -/
theorem size_of_firstWrite (h : Installed l l.start rs t) (hquiet : Quiet t) {r : Request}
    (hr : r ∈ rs) (hin : r.ep.isOut = false) (hw : writes t (firstWrites [r.ep]) = .ok u) :
    r.size ≤ 512 := by
  have hnone : bufferOf t r.ep = none := by
    refine (h.buffer r hr).mpr fun hout => ?_
    rw [hin] at hout
    cases hout
  obtain ⟨v, hv, -⟩ := bind_ok hw
  obtain ⟨⟨v', res⟩, hv, -⟩ := Runs.map_ok hv
  have htakes := (startWrite_takes (h.valid r hr) hquiet hv).2.1 hnone
  rwa [(h.size r hr).1] at htakes

theorem held_of_wanted (h : Installed l l.start rs t) (hu : Supplied l rs u)
    (hin : ∀ r ∈ rs, r.ep.isOut = false → (bufferOf u r.ep).isSome = true)
    (hkeep : ∀ ep, (bufferOf t ep).isSome = true → (bufferOf u ep).isSome = true) {r : Request}
    (hr : r ∈ rs) (hep : r.ep ∈ holders) :
    (books u).size r.ep = r.size ∧ ((books u).addr r.ep).isSome = true := by
  refine ⟨(hu.size r hr).1, ?_⟩
  cases hdir : r.ep.isOut with
  | false => exact hin r hr hdir
  | true =>
    apply hkeep
    rw [Option.isSome_iff_ne_none]
    intro hnone
    have h0 := (h.buffer r hr).mp hnone hdir
    have hne : r.ep ≠ controlOut := by
      intro he
      rw [he] at hep
      revert hep
      decide
    apply hne
    obtain ⟨⟨i, dir⟩, ty, size⟩ := r
    cases dir with
    | out => exact congrArg (EndpointAddress.mk · .out) h0
    | «in» => cases hdir

/-- All endpoints that have been allocated can be written exactly if the pools suffice. -/
theorem usable_iff_fits (l : Layout) (rs : List Request) (t : Usbd) (h : Allocates l.start rs t) :
    (∀ ws, (∀ w ∈ ws, Permitted rs w) → ∃ u, writes t ws = .ok u) ↔ Fits l rs := by
  have hi := installed (l := l) (steady_start _ l) (fun _ _ => rfl) h
  have hsup := supplied_installed hi
  refine ⟨fun hall => ?_, fun hfits ws hws => writes_return hfits ws hws hsup⟩
  have hquiet : Quiet t := fun ep => getCurrentDtd_noNextDtd _ (hi.current ep)
  have hperm : ∀ eps : List EndpointAddress, (∀ ep ∈ eps, ep.isOut = false ∧ ∃ r ∈ rs, r.ep = ep) →
      ∃ u, writes t (firstWrites eps) = .ok u := by
    intro eps heps
    apply hall
    intro w hw
    obtain ⟨ep, hep, rfl⟩ := List.mem_map.mp hw
    obtain ⟨hin, r, hr, heq⟩ := heps ep hep
    exact ⟨hin, r, hr, heq, Nat.zero_le _⟩
  have hins : ∀ ep ∈ (rs.map Request.ep).filter (fun ep => ep.isOut = false),
      ep.isOut = false ∧ ∃ r ∈ rs, r.ep = ep := by
    intro ep hep
    rw [List.mem_filter, List.mem_map, decide_eq_true_eq] at hep
    exact ⟨hep.2, hep.1⟩
  obtain ⟨u, hu⟩ := hperm _ hins
  obtain ⟨hsup', htake, hkeep⟩ := firstWrites_take _ hquiet hsup (fun ep hep => by
    obtain ⟨hin, r, hr, rfl⟩ := hins ep hep
    exact ⟨hin, hi.valid r hr⟩) hu
  have hin : ∀ r ∈ rs, r.ep.isOut = false → (bufferOf u r.ep).isSome = true := by
    intro r hr hdir
    apply htake
    rw [List.mem_filter, decide_eq_true_eq]
    exact ⟨List.mem_map_of_mem hr, hdir⟩
  refine ⟨fun r hr hdir => ?_, ?_, ?_⟩
  · obtain ⟨v, hv⟩ := hperm [r.ep] fun ep hep => by
      rw [List.mem_singleton] at hep
      rw [hep]
      exact ⟨hdir, r, hr, rfl⟩
    exact size_of_firstWrite hi hquiet hr hdir hv
  · have hle : holders.countP (wants64 rs) ≤ holders.countP (holds64 (books u)) := by
      apply List.countP_mono_left
      intro ep hep hwants
      rw [wants64, List.any_eq_true] at hwants
      obtain ⟨r, hr, hwants⟩ := hwants
      rw [Bool.and_eq_true, decide_eq_true_eq, decide_eq_true_eq] at hwants
      obtain ⟨rfl, hsize⟩ := hwants
      obtain ⟨hn, haddr⟩ := held_of_wanted hi hsup' hin hkeep hr hep
      rw [holds64, hn, haddr, Bool.and_true, Nat.ble_eq]
      exact hsize
    have hstock := hsup'.stocked.1
    omega
  · have hle : holders.countP (wants512 rs) ≤ holders.countP (holds512 (books u)) := by
      apply List.countP_mono_left
      intro ep hep hwants
      rw [wants512, List.any_eq_true] at hwants
      obtain ⟨r, hr, hwants⟩ := hwants
      rw [Bool.and_eq_true, decide_eq_true_eq, decide_eq_true_eq] at hwants
      obtain ⟨rfl, hsize⟩ := hwants
      obtain ⟨hn, haddr⟩ := held_of_wanted hi hsup' hin hkeep hr hep
      rw [holds512, hn, haddr, Bool.and_true, Bool.not_eq_true', ← Bool.not_eq_true, Nat.ble_eq]
      omega
    have hstock := hsup'.stocked.2
    omega

/-- A control endpoint with packets of 64 bytes and a pair with 512. -/
def controlAndBulk : List Request :=
  [⟨⟨0, .out⟩, .control, 64⟩, ⟨⟨0, .in⟩, .control, 64⟩, ⟨⟨1, .in⟩, .bulk, 512⟩,
    ⟨⟨1, .out⟩, .bulk, 512⟩]

theorem controlAndBulk_allocates : (allocEps statics.start controlAndBulk).isSome = true := by
  decide

def pairWrites : List Written := [⟨[], ⟨0, .in⟩, [1], []⟩, ⟨[], ⟨1, .in⟩, [2], []⟩]

theorem usable_iff_fits_controlAndBulk : ∃ u, writes ((allocEps statics.start controlAndBulk).get
    controlAndBulk_allocates) pairWrites = .ok u :=
  (usable_iff_fits statics controlAndBulk _
    (allocates_of_allocEps (Option.some_get controlAndBulk_allocates).symm)).mpr
    ⟨by decide, by decide, by decide⟩ pairWrites
    (by simp [pairWrites, controlAndBulk, Permitted, EndpointAddress.isOut])

/-- A control endpoint and a pair, all with packets of 64 bytes. -/
def controlAndPair : List Request :=
  [⟨⟨0, .out⟩, .control, 64⟩, ⟨⟨0, .in⟩, .control, 64⟩, ⟨⟨1, .in⟩, .bulk, 64⟩,
    ⟨⟨1, .out⟩, .bulk, 64⟩]

/-- The second IN endpoint finds no buffer. -/
theorem usable_controlAndPair_not : ∃ t, Allocates statics.start controlAndPair t ∧
    (∀ w ∈ pairWrites, Permitted controlAndPair w) ∧ writes t pairWrites = .error .panic :=
  ⟨_, allocates_of_allocEps rfl, by simp [pairWrites, controlAndPair, Permitted,
    EndpointAddress.isOut], rfl⟩

end UsbArmory.Usb.Exhaustion
