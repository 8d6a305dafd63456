import UsbArmory.Usb.AllocationOrder

/-!
# The type fields after allocations

At most two of the requests are for endpoint 1. The second one overwrites the
type of the first, and RXT only gains bits.
-/

set_option autoImplicit false

namespace UsbArmory.Usb.TypeFields
open UsbArmory.Usb.Controller UsbArmory.Usb.Bus UsbArmory.Usb.Endpoint UsbArmory.Usb.Allocation
open UsbArmory.Usb.EndpointControl UsbArmory.Usb.AllocationOrder

def ofOne (rs : List Request) : List Request := rs.filter fun r => r.ep.index = 1

variable {rs : List Request} {r r' : Request} {c : BitVec 32}

theorem mem_ofOne : r ∈ ofOne rs ↔ r ∈ rs ∧ r.ep.index = 1 := by
  rw [ofOne, List.mem_filter, decide_eq_true_eq]

theorem off_settled (h : Off c) : Off (settled c r) := by
  unfold settled
  split
  · exact h
  · exact off_configured h

theorem off_foldl (h : Off c) : Off (rs.foldl settled c) := by
  induction rs generalizing c with
  | nil => exact h
  | cons r rs ih => exact ih (off_settled h)

theorem foldl_ofOne (hv : ∀ r ∈ rs, r.ep.isValid = true) :
    (ofOne rs).foldl settled c = rs.foldl settled c := by
  induction rs generalizing c with
  | nil => rfl
  | cons r rs ih =>
    have hlt := index_lt (hv r List.mem_cons_self)
    have ih' (c' : BitVec 32) := ih (c := c') fun r' hr' => hv r' (List.mem_cons_of_mem _ hr')
    by_cases h1 : r.ep.index = 1
    · rw [ofOne, List.filter_cons_of_pos (by simpa using h1)]
      exact ih' _
    · have h0 : r.ep.index = 0 := by omega
      rw [ofOne, List.filter_cons_of_neg (by simpa using h1), List.foldl_cons, settled, if_pos h0]
      exact ih' c

theorem settled_one (h1 : r.ep.index = 1) : settled c r = configured c r.ep.isOut r.ty := by
  rw [settled, h1, if_neg Nat.one_ne_zero]

theorem ofOne_cases (hn : (rs.map Request.ep).Nodup) : ofOne rs = [] ∨
    (∃ r, ofOne rs = [r]) ∨ ∃ r r', ofOne rs = [r, r'] ∧ r'.ep.isOut = !r.ep.isOut := by
  have hsub : ((ofOne rs).map Request.ep).Nodup := (List.filter_sublist.map _).nodup hn
  have hone : ∀ r ∈ ofOne rs, r.ep.index = 1 := fun r hr => (mem_ofOne.mp hr).2
  have hdir : ∀ r ∈ ofOne rs, ∀ r' ∈ ofOne rs, r.ep ≠ r'.ep → r'.ep.isOut = !r.ep.isOut := by
    intro r hr r' hr' hne
    have hi := (hone r hr).trans (hone r' hr').symm
    obtain ⟨⟨i, d⟩, ty, n⟩ := r
    obtain ⟨⟨i', d'⟩, ty', n'⟩ := r'
    cases hi
    cases d <;> cases d' <;> first | rfl | exact absurd rfl hne
  generalize ofOne rs = data at hsub hdir ⊢
  rcases data with _ | ⟨r, _ | ⟨r', _ | ⟨r'', rest⟩⟩⟩
  · exact .inl rfl
  · exact .inr (.inl ⟨r, rfl⟩)
  · rw [List.map_cons, List.map_cons, List.nodup_cons] at hsub
    have hne : r.ep ≠ r'.ep := fun heq => hsub.1 (heq ▸ List.mem_cons_self)
    exact .inr (.inr ⟨r, r', rfl, hdir r (by simp) r' (by simp) hne⟩)
  · -- a third request would be for one of the two directions
    simp only [List.map_cons, List.nodup_cons, List.mem_cons, not_or] at hsub
    obtain ⟨⟨hne, hne', -⟩, ⟨hne'', -⟩, -⟩ := hsub
    have h1 := hdir r (by simp) r' (by simp) hne
    have h2 := hdir r (by simp) r'' (by simp) hne'
    have h3 := hdir r' (by simp) r'' (by simp) hne''
    rw [h2, h1, Bool.not_not] at h3
    exact absurd h3.symm (by simp)

theorem clear_or (x : BitVec 2) : 0 ||| x = x := BitVec.zero_or

theorem typeField_single (hoff : Off c) (h1 : r.ep.index = 1) :
    typeField (settled c r) r.ep.isOut =
        (if r.ep.isOut then typeField c true else 0) ||| typeCode r.ty ∧
      typeField (settled c r) (!r.ep.isOut) =
        (if r.ep.isOut then 0 else typeField c true) ||| typeCode .bulk := by
  rw [settled_one h1, typeField_configured hoff, typeField_configured_other hoff]
  cases r.ep.isOut <;> exact ⟨rfl, rfl⟩

theorem typeField_two (hoff : Off c) (h1 : r.ep.index = 1) (h1' : r'.ep.index = 1)
    (hdir : r'.ep.isOut = !r.ep.isOut) :
    typeField (settled (settled c r) r') r.ep.isOut =
        (if r.ep.isOut then typeField c true ||| typeCode r.ty else 0) ||| typeCode .bulk ∧
      typeField (settled (settled c r) r') (!r.ep.isOut) =
        (if r.ep.isOut then 0 else typeField c true ||| typeCode .bulk) ||| typeCode r'.ty := by
  obtain ⟨hown, hother⟩ := typeField_single hoff h1
  have hoff' : Off (settled c r) := off_settled hoff
  have hown' := typeField_configured hoff' r'.ep.isOut r'.ty
  have hother' := typeField_configured_other hoff' r'.ep.isOut r'.ty
  rw [← settled_one h1', hdir] at hown' hother'
  rw [Bool.not_not] at hother'
  rw [hown', hother', hown, hother]
  cases r.ep.isOut <;> exact ⟨rfl, rfl⟩

theorem rxt_settled (hoff : Off c) (r : Request) :
    typeField c true ||| typeField (settled c r) true = typeField (settled c r) true := by
  have hor : ∀ x y : BitVec 2, x ||| (x ||| y) = x ||| y := by decide
  by_cases h0 : r.ep.index = 0
  · rw [settled, if_pos h0, BitVec.or_self]
  · rw [settled, if_neg h0]
    cases hout : r.ep.isOut with
    | true => rw [typeField_configured hoff, if_pos rfl, hor]
    | false =>
      have hother := typeField_configured_other hoff false r.ty
      rw [Bool.not_false, if_neg Bool.false_ne_true] at hother
      rw [hother, hor]

theorem rxt_foldl (hoff : Off c) (rs : List Request) :
    typeField c true ||| typeField (rs.foldl settled c) true =
      typeField (rs.foldl settled c) true := by
  induction rs generalizing c with
  | nil => exact BitVec.or_self
  | cons r rs ih =>
    have hrest := ih (off_settled (r := r) hoff)
    rw [List.foldl_cons, ← hrest, ← BitVec.or_assoc, rxt_settled hoff]

/-- The bulk type has one bit, which the other types of endpoint 1 have unless it is control. -/
theorem bulk_or {ty : EndpointType} (hty : ty ≠ .isochronous) :
    typeCode .bulk ||| typeCode ty = typeCode ty ↔ ty ≠ .control := by
  cases ty with
  | control => decide
  | isochronous => exact absurd rfl hty
  | bulk => decide
  | interrupt => decide

theorem typeCode_inj {ty ty' : EndpointType} (h : typeCode ty = typeCode ty') : ty = ty' := by
  cases ty <;> cases ty' <;> first | rfl | exact absurd h (by decide)

end UsbArmory.Usb.TypeFields
