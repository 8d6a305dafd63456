import UsbArmory.Usb.Allocation
import UsbArmory.Usb.EndpointControl

/-!
# Allocations in any order

Whether calls of `alloc_ep` all return `Ok` does not depend on their order;
what they leave in the register of endpoint 1 does.
-/

set_option autoImplicit false

namespace UsbArmory.Usb.AllocationOrder
open UsbArmory.Usb.Descriptors UsbArmory.Usb.Controller UsbArmory.Usb.Bus UsbArmory.Usb.Endpoint
open UsbArmory.Usb.Write UsbArmory.Usb.Configure UsbArmory.Usb.Invariant
open UsbArmory.Usb.Allocation UsbArmory.Usb.EndpointControl

variable {s t u : Usbd} {rs rs' : List Request} {r : Request} {ep : EndpointAddress}

def HasBuffer (s : Usbd) (n : ℕ) : Prop := ∃ p, popBuffer s n = .ok p

theorem hasBuffer_congr {n : ℕ} (h : HasBuffer s n) (h64 : t.inner.b64s = s.inner.b64s)
    (h512 : t.inner.b512s = s.inner.b512s) : HasBuffer t n := by
  obtain ⟨p, hp⟩ := h
  unfold popBuffer at hp
  unfold HasBuffer popBuffer
  rw [h64, h512]
  split at hp
  next hle =>
    rw [if_pos hle]
    split at hp
    next => cases hp
    next a rest hpool => exact ⟨_, rfl⟩
  next hgt =>
    rw [if_neg hgt]
    split at hp
    next hle =>
      rw [if_pos hle]
      split at hp
      next => cases hp
      next a rest hpool => exact ⟨_, rfl⟩
    next => cases hp

/-- What a call of `alloc_ep` needs, a descriptor apart. -/
structure Free (s : Usbd) (r : Request) : Prop where
  type : r.ty ≠ .isochronous
  valid : r.ep.isValid = true
  fresh : isEpBeingUsed s r.ep = false
  size : r.size ≤ 0x400
  buffer : dataOut r.ep = true → HasBuffer s r.size

theorem dataOut_iff : dataOut ep = true ↔ ep.isOut = true ∧ ep.index ≠ 0 := by
  simp [dataOut]

theorem installDtd_buffer {n : ℕ} (hre : dataOut ep = true) (h : installDtd s ep n = .ok t) :
    HasBuffer s n := by
  unfold installDtd at h
  obtain ⟨caps, -, h⟩ := bind_ok h
  obtain ⟨⟨d, v⟩, hp, h⟩ := bind_ok h
  obtain ⟨rest, -, rfl⟩ := popDtd_ok hp
  dsimp only at h
  rw [if_pos (dataOut_iff.mp hre)] at h
  obtain ⟨w, hw, -⟩ := bind_ok h
  obtain ⟨p, hp', -⟩ := bind_ok hw
  have hbuf : HasBuffer _ n := ⟨p, hp'⟩
  exact hasBuffer_congr hbuf rfl rfl

theorem allocEp_free {dir : UsbDirection} {addr : Option EndpointAddress}
    (h : allocEp s dir addr r.ty r.size = .ok (t, .ok r.ep)) : Free s r := by
  have ha := allocEp_allocated h
  have hsize := allocEp_size h
  unfold allocEp at h
  obtain ⟨_, hty, h⟩ := bind_ok h
  split at h
  next e he => cases h
  next ep hep =>
    obtain ⟨v, hv, h⟩ := bind_ok h
    have heq : ep = r.ep := by
      dsimp only at h
      split at h
      next =>
        obtain ⟨w, -, h⟩ := bind_ok h
        cases h
        rfl
      next =>
        cases h
        rfl
    subst heq
    exact ⟨of_decide_eq_true (require_ok hty), ha.valid, ha.fresh, hsize,
      fun hre => installDtd_buffer hre hv⟩

theorem popDtd_cons {d : ℕ} {rest : List ℕ} (h : s.inner.dtds = d::rest) :
    popDtd s = .ok (d, { s with inner.dtds := rest }) := by
  unfold popDtd
  rw [h]

theorem capsNew_le {n : ℕ} (h : n ≤ 0x400) : ∃ caps, capsNew n true = some caps := by
  unfold capsNew
  rw [if_pos h]
  exact ⟨_, rfl⟩

theorem installBuffer_returns {q d n : ℕ} (h : HasBuffer s n) (hn : n ≤ 0x400) :
    ∃ t, installBuffer s q d n = .ok t := by
  obtain ⟨p, hp⟩ := h
  obtain ⟨token, htoken⟩ := activeToken_some (show n < 0x5000 by omega)
  unfold installBuffer
  apply bind_returns hp
  apply bind_returns (expect_some htoken)
  exact ⟨_, rfl⟩

theorem installDtd_returns (h : Free s r) (hd : s.inner.dtds ≠ []) :
    ∃ t, installDtd s r.ep r.size = .ok t := by
  obtain ⟨d, rest, hpool⟩ := List.exists_cons_of_ne_nil hd
  obtain ⟨caps, hcaps⟩ := capsNew_le h.size
  unfold installDtd
  apply bind_returns (expect_some hcaps)
  apply bind_returns
  · exact popDtd_cons hpool
  by_cases hre : dataOut r.ep = true
  · simp only [if_pos (dataOut_iff.mp hre)]
    apply bind_all_return
    · exact installBuffer_returns (hasBuffer_congr (h.buffer hre) rfl rfl) h.size
    · exact fun v => ⟨_, rfl⟩
  · simp only [if_neg (mt dataOut_iff.mpr hre)]
    exact ⟨_, rfl⟩

theorem allocEp_returns (h : Free s r) (hd : s.inner.dtds ≠ []) :
    ∃ t, allocEp s r.ep.dir (some r.ep) r.ty r.size = .ok (t, .ok r.ep) := by
  obtain ⟨v, hv⟩ := installDtd_returns h hd
  have hvalid : getDqh r.ep ≠ none := by
    rw [getDqh, if_pos (of_decide_eq_true h.valid)]
    exact Option.some_ne_none _
  have hchoose : chooseEp s r.ep.dir (some r.ep) = .ok r.ep := by
    simp [chooseEp, hvalid, h.fresh]
  have hty : decide (r.ty ≠ .isochronous) = true := decide_eq_true h.type
  unfold allocEp
  by_cases h0 : r.ep.index = 0
  · simp only [require_true hty, ok_bind, hchoose, hv, ne_eq, h0, not_true_eq_false, if_false]
    exact ⟨_, rfl⟩
  · have h1 : r.ep.index = 1 := by
      have hlt := index_lt h.valid
      omega
    simp only [require_true hty, ok_bind, hchoose, hv, ne_eq, h0, not_false_eq_true, if_true,
      configureEp_one _ h1]
    exact ⟨_, rfl⟩

/-- The register after a call of `alloc_ep`. -/
def settled (ctrl : BitVec 32) (r : Request) : BitVec 32 :=
  if r.ep.index = 0 then ctrl else configured ctrl r.ep.isOut r.ty

/-- What a call of `alloc_ep` changes. -/
structure Granted (s : Usbd) (r : Request) (t : Usbd) : Prop where
  dtds : ∃ d, s.inner.dtds = d::t.inner.dtds
  used : ∀ ep, isEpBeingUsed t ep = true ↔ isEpBeingUsed s ep = true ∨ ep = r.ep
  pools : dataOut r.ep = false → t.inner.b64s = s.inner.b64s ∧ t.inner.b512s = s.inner.b512s
  ctrl : t.endptctrl1 = settled s.endptctrl1 r

theorem installDtd_pools {n : ℕ} (hre : dataOut ep = false) (h : installDtd s ep n = .ok t) :
    t.inner.b64s = s.inner.b64s ∧ t.inner.b512s = s.inner.b512s := by
  unfold installDtd at h
  obtain ⟨caps, -, h⟩ := bind_ok h
  obtain ⟨⟨d, v⟩, hp, h⟩ := bind_ok h
  obtain ⟨rest, -, rfl⟩ := popDtd_ok hp
  dsimp only at h
  rw [if_neg (mt dataOut_iff.mpr (ne_true_of_eq_false hre))] at h
  cases h
  exact ⟨rfl, rfl⟩

theorem allocEp_granted {dir : UsbDirection} {addr : Option EndpointAddress}
    (h : allocEp s dir addr r.ty r.size = .ok (t, .ok r.ep)) : Granted s r t := by
  have ha := allocEp_allocated h
  have hused := allocated_used ha
  obtain ⟨-, -, d, rest, caps, b64s, b512s, addr', dtd, hpool, -, -, ht⟩ := ha
  have hdtds : s.inner.dtds = d::t.inner.dtds := by
    rw [hpool, ht]
  unfold allocEp at h
  obtain ⟨_, -, h⟩ := bind_ok h
  split at h
  next e he => cases h
  next ep hep =>
    obtain ⟨v, hv, h⟩ := bind_ok h
    have hctrl : v.endptctrl1 = s.endptctrl1 := by
      obtain ⟨_, _, _, _, _, _, _, -, -, -, rfl⟩ := installDtd_ok hv
      rfl
    have hpools := fun hre => installDtd_pools hre hv
    dsimp only at h
    split at h
    next h0 =>
      obtain ⟨w, hw, h⟩ := bind_ok h
      have h1 : ep.index = 1 := by
        have hlt := index_lt (chooseEp_ok hep).1
        omega
      rw [configureEp_one _ h1] at hw
      cases hw
      cases h
      refine ⟨⟨d, hdtds⟩, hused, hpools, ?_⟩
      rw [settled, if_neg h0, ← hctrl]
      rfl
    next h0 =>
      cases h
      refine ⟨⟨d, hdtds⟩, hused, hpools, ?_⟩
      rw [settled, if_pos (not_not.mp h0), ← hctrl]
      rfl

/-- Room for endpoints, in whatever order they are allocated. -/
structure Room (s : Usbd) (rs : List Request) : Prop where
  nodup : (rs.map Request.ep).Nodup
  free : ∀ r ∈ rs, Free s r
  dtds : rs.length ≤ s.inner.dtds.length

theorem room_perm (hp : rs'.Perm rs) (h : Room s rs) : Room s rs' :=
  ⟨(hp.map _).nodup_iff.mpr h.nodup, fun r hr => h.free r (hp.mem_iff.mp hr),
    le_of_eq_of_le hp.length_eq h.dtds⟩

theorem dataOut_unique {ep' : EndpointAddress} (hv : ep.isValid = true) (hv' : ep'.isValid = true)
    (hre : dataOut ep = true) (hre' : dataOut ep' = true) : ep = ep' := by
  obtain ⟨hout, h0⟩ := dataOut_iff.mp hre
  obtain ⟨hout', h0'⟩ := dataOut_iff.mp hre'
  have hlt := index_lt hv
  have hlt' := index_lt hv'
  apply endptBit_inj hv hv'
  rw [endptBit, endptBit, if_pos hout, if_pos hout']
  omega

theorem free_granted {r' : Request} (h : Free s r) (hg : Granted s r' t) (h' : r'.ep.isValid = true)
    (hne : r.ep ≠ r'.ep) : Free t r := by
  refine ⟨h.type, h.valid, ?_, h.size, fun hre => ?_⟩
  · rw [← Bool.not_eq_true, hg.used, not_or, Bool.not_eq_true]
    exact ⟨h.fresh, hne⟩
  · have hother : dataOut r'.ep = false := by
      rw [← Bool.not_eq_true]
      exact fun hre' => hne (dataOut_unique h.valid h' hre hre')
    obtain ⟨h64, h512⟩ := hg.pools hother
    exact hasBuffer_congr (h.buffer hre) h64 h512

theorem free_of_granted {r' : Request} (h : Free t r) (hg : Granted s r' t)
    (h' : r'.ep.isValid = true) : Free s r ∧ r.ep ≠ r'.ep := by
  have hunused : ¬(isEpBeingUsed s r.ep = true ∨ r.ep = r'.ep) := by
    rw [← hg.used, h.fresh]
    exact Bool.false_ne_true
  obtain ⟨hfresh, hne⟩ := not_or.mp hunused
  refine ⟨⟨h.type, h.valid, (Bool.not_eq_true _).mp hfresh, h.size, fun hre => ?_⟩, hne⟩
  have hother : dataOut r'.ep = false := by
    rw [← Bool.not_eq_true]
    exact fun hre' => hne (dataOut_unique h.valid h' hre hre')
  obtain ⟨h64, h512⟩ := hg.pools hother
  exact hasBuffer_congr (h.buffer hre) h64.symm h512.symm

theorem room_of_allocates (h : Allocates s rs t) : Room s rs := by
  induction h with
  | nil s => exact ⟨List.nodup_nil, by simp, Nat.zero_le _⟩
  | cons dir addr r rest h hrest ih =>
    have hfree := allocEp_free h
    have hg := allocEp_granted h
    have hothers := fun r' hr' => free_of_granted (ih.free r' hr') hg hfree.valid
    refine ⟨?_, ?_, ?_⟩
    · rw [List.map_cons, List.nodup_cons]
      refine ⟨fun hmem => ?_, ih.nodup⟩
      obtain ⟨r', hr', heq⟩ := List.mem_map.mp hmem
      exact (hothers r' hr').2 heq
    · rw [List.forall_mem_cons]
      exact ⟨hfree, fun r' hr' => (hothers r' hr').1⟩
    · obtain ⟨d, hd⟩ := hg.dtds
      rw [hd, List.length_cons, List.length_cons]
      exact Nat.succ_le_succ ih.dtds

theorem allocates_of_room (h : Room s rs) : ∃ t, Allocates s rs t := by
  induction rs generalizing s with
  | nil => exact ⟨s, .nil s⟩
  | cons r rest ih =>
    have hfree := h.free r List.mem_cons_self
    have hnodup := h.nodup
    rw [List.map_cons, List.nodup_cons] at hnodup
    have hpos : s.inner.dtds ≠ [] := by
      rw [← List.length_pos_iff]
      exact lt_of_lt_of_le (Nat.succ_pos _) h.dtds
    obtain ⟨t, ht⟩ := allocEp_returns hfree hpos
    have hg := allocEp_granted ht
    have hroom : Room t rest := by
      refine ⟨hnodup.2, fun r' hr' => ?_, ?_⟩
      · refine free_granted (h.free r' (List.mem_cons_of_mem _ hr')) hg hfree.valid fun heq => ?_
        exact hnodup.1 (heq ▸ List.mem_map_of_mem hr')
      · obtain ⟨d, hd⟩ := hg.dtds
        have hle := h.dtds
        rw [hd, List.length_cons, List.length_cons] at hle
        exact Nat.le_of_succ_le_succ hle
    obtain ⟨u, hu⟩ := ih hroom
    exact ⟨u, .cons r.ep.dir (some r.ep) r rest ht hu⟩

theorem allocates_perm (hp : rs'.Perm rs) (h : Allocates s rs t) : ∃ t', Allocates s rs' t' :=
  allocates_of_room (room_perm hp (room_of_allocates h))

theorem allocates_endptctrl1 (h : Allocates s rs t) :
    t.endptctrl1 = rs.foldl settled s.endptctrl1 := by
  induction h with
  | nil s => rfl
  | cons dir addr r rest h hrest ih => rw [ih, List.foldl_cons, (allocEp_granted h).ctrl]

theorem allocates_used (h : Allocates s rs t) (ep : EndpointAddress) :
    isEpBeingUsed t ep = true ↔ isEpBeingUsed s ep = true ∨ ∃ r ∈ rs, r.ep = ep := by
  induction h with
  | nil s => simp
  | cons dir addr r rest h hrest ih =>
    rw [ih, (allocEp_granted h).used, or_assoc]
    simp only [List.mem_cons, exists_eq_or_imp]
    exact or_congr_right (or_congr_left eq_comm)

end UsbArmory.Usb.AllocationOrder
