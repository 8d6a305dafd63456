import UsbArmory.Usb.TypeFields

/-!
# Types and enable bits of endpoint 1

The register of endpoint 1 after the allocations and the device address, and
when it has the types that have been asked for.
-/

set_option autoImplicit false

namespace UsbArmory.Usb.EndpointTypes
open UsbArmory.Usb.Descriptors UsbArmory.Usb.Controller UsbArmory.Usb.Bus UsbArmory.Usb.Endpoint
open UsbArmory.Usb.Configure UsbArmory.Usb.Invariant UsbArmory.Usb.Allocation
open UsbArmory.Usb.EndpointControl UsbArmory.Usb.AllocationOrder UsbArmory.Usb.TypeFields

structure Matches (rs : List Request) (ctrl : BitVec 32) : Prop where
  typed : ∀ r ∈ rs, r.ep.index = 1 → typeField ctrl r.ep.isOut = typeCode r.ty
  unused : ∀ r ∈ rs, r.ep.index = 1 →
    (∀ r' ∈ rs, r'.ep.index = 1 → r'.ep.isOut = r.ep.isOut) →
    typeField ctrl (!r.ep.isOut) ≠ typeCode .control
  enabled : ∀ isOut, ctrl.getLsbD (enableBit isOut) = true ↔
    ∃ r ∈ rs, r.ep.index = 1 ∧ r.ep.isOut = isOut

/-- The requests with which the driver gets there: OUT1 has all type bits that RXT has already,
IN1 is a bulk endpoint and OUT1 not a control endpoint if there are both, and endpoint 0 has no
direction that endpoint 1 does not have. -/
structure Arranged (c : BitVec 32) (rs : List Request) : Prop where
  prior : ∀ r ∈ rs, r.ep.index = 1 → r.ep.isOut = true →
    typeField c true ||| typeCode r.ty = typeCode r.ty
  pair : ∀ r ∈ rs, ∀ r' ∈ rs, r.ep.index = 1 → r'.ep.index = 1 → r.ep.isOut = false →
    r'.ep.isOut = true → r.ty = .bulk ∧ r'.ty ≠ .control
  covered : ∀ r ∈ rs, r.ep.index = 0 → ∃ r' ∈ rs, r'.ep.index = 1 ∧ r'.ep.isOut = r.ep.isOut

variable {l : Layout} {s t t' : Usbd} {rs rs' : List Request} {r r' : Request} {c : BitVec 32}
variable {addr : BitVec 8} {gaps gaps' : EndpointAddress → List HwEvent}

theorem typed_of_arranged (hoff : Off c) (hroom : Room s rs) (ha : Arranged c rs) (hr : r ∈ rs)
    (h1 : r.ep.index = 1) : typeField (rs.foldl settled c) r.ep.isOut = typeCode r.ty := by
  have hmem := mem_ofOne.mpr ⟨hr, h1⟩
  rw [← foldl_ofOne fun r hr => (hroom.free r hr).valid]
  rcases ofOne_cases hroom.nodup with hnil | ⟨r₀, hone⟩ | ⟨r₁, r₂, htwo, hdir⟩
  · rw [hnil] at hmem
    cases hmem
  · rw [hone, List.mem_singleton] at hmem
    subst hmem
    rw [hone, List.foldl_cons, List.foldl_nil, (typeField_single hoff h1).1]
    cases hout : r.ep.isOut with
    | true => exact ha.prior r hr h1 hout
    | false => exact clear_or _
  · obtain ⟨hr₁, hi₁⟩ : r₁ ∈ rs ∧ r₁.ep.index = 1 := mem_ofOne.mp (by simp [htwo])
    obtain ⟨hr₂, hi₂⟩ : r₂ ∈ rs ∧ r₂.ep.index = 1 := mem_ofOne.mp (by simp [htwo])
    obtain ⟨hfirst, hsecond⟩ := typeField_two hoff hi₁ hi₂ hdir
    rw [htwo, List.foldl_cons, List.foldl_cons, List.foldl_nil]
    rw [htwo, List.mem_cons, List.mem_singleton] at hmem
    cases hout : r₁.ep.isOut with
    | true =>
      rw [hout] at hdir hfirst hsecond
      have hbulk := (bulk_or (hroom.free r₁ hr₁).type).mpr
          (ha.pair r₂ hr₂ r₁ hr₁ hi₂ hi₁ hdir hout).2
      rcases hmem with rfl | rfl
      · rw [hout, hfirst, if_pos rfl, ha.prior r hr h1 hout, BitVec.or_comm, hbulk]
      · rw [hdir, hsecond, if_pos rfl, clear_or]
    | false =>
      rw [hout] at hdir hfirst hsecond
      obtain ⟨hty, hnot⟩ := ha.pair r₁ hr₁ r₂ hr₂ hi₁ hi₂ hout hdir
      rcases hmem with rfl | rfl
      · rw [hout, hfirst, if_neg Bool.false_ne_true, clear_or, hty]
      · rw [hdir, hsecond, if_neg Bool.false_ne_true, BitVec.or_assoc,
          (bulk_or (hroom.free r hr).type).mpr hnot, ha.prior r hr h1 hdir]

theorem unused_settled (hoff : Off c) (hroom : Room s rs) (hr : r ∈ rs) (h1 : r.ep.index = 1)
    (hall : ∀ r' ∈ rs, r'.ep.index = 1 → r'.ep.isOut = r.ep.isOut) :
    typeField (rs.foldl settled c) (!r.ep.isOut) ≠ typeCode .control := by
  have hbulk : ∀ x : BitVec 2, x ||| typeCode .bulk ≠ typeCode .control := by decide
  have hmem := mem_ofOne.mpr ⟨hr, h1⟩
  rw [← foldl_ofOne fun r hr => (hroom.free r hr).valid]
  rcases ofOne_cases hroom.nodup with hnil | ⟨r₀, hone⟩ | ⟨r₁, r₂, htwo, hdir⟩
  · rw [hnil] at hmem
    cases hmem
  · rw [hone, List.mem_singleton] at hmem
    subst hmem
    rw [hone, List.foldl_cons, List.foldl_nil, (typeField_single hoff h1).2]
    exact hbulk _
  · obtain ⟨hr₁, hi₁⟩ : r₁ ∈ rs ∧ r₁.ep.index = 1 := mem_ofOne.mp (by simp [htwo])
    obtain ⟨hr₂, hi₂⟩ : r₂ ∈ rs ∧ r₂.ep.index = 1 := mem_ofOne.mp (by simp [htwo])
    rw [hall r₁ hr₁ hi₁, hall r₂ hr₂ hi₂] at hdir
    exact absurd hdir (by simp)

/-- The types with which the register has been left show how both directions were asked for. -/
theorem pair_of_typed (hoff : Off c) (hroom : Room s rs)
    (htyped : ∀ r ∈ rs, r.ep.index = 1 →
      typeField (rs.foldl settled c) r.ep.isOut = typeCode r.ty)
    (horder : typeField (rs.reverse.foldl settled c) false = typeField (rs.foldl settled c) false)
    (hr : r ∈ rs) (hr' : r' ∈ rs) (h1 : r.ep.index = 1) (h1' : r'.ep.index = 1)
    (hin : r.ep.isOut = false) (hout : r'.ep.isOut = true) : r.ty = .bulk ∧ r'.ty ≠ .control := by
  have hbits : ∀ x b y : BitVec 2, (x ||| y) ||| b = y → b ||| y = y := by decide
  have hbits' : ∀ x b y : BitVec 2, (x ||| b) ||| y = y → b ||| y = y := by decide
  have hty := htyped r hr h1
  have hty' := htyped r' hr' h1'
  have hmem := mem_ofOne.mpr ⟨hr, h1⟩
  have hmem' := mem_ofOne.mpr ⟨hr', h1'⟩
  have hv : ∀ r ∈ rs, r.ep.isValid = true := fun r hr => (hroom.free r hr).valid
  rw [hin] at hty
  rw [hout] at hty'
  rw [← foldl_ofOne fun r hr => hv r (List.mem_reverse.mp hr), ofOne, List.filter_reverse,
    ← ofOne, hty] at horder
  rw [← foldl_ofOne hv] at hty hty'
  rcases ofOne_cases hroom.nodup with hnil | ⟨r₀, hone⟩ | ⟨r₁, r₂, htwo, hdir⟩
  · rw [hnil] at hmem
    cases hmem
  · rw [hone, List.mem_singleton] at hmem hmem'
    rw [hmem, ← hmem', hout] at hin
    cases hin
  · rw [htwo, List.mem_cons, List.mem_singleton] at hmem hmem'
    rw [htwo] at hty hty' horder
    cases hout₁ : r₁.ep.isOut with
    | true =>
      rw [hout₁] at hdir
      obtain rfl : r = r₂ := hmem.resolve_left (by rintro rfl; simp [hin] at hout₁)
      obtain rfl : r' = r₁ := hmem'.resolve_right (by rintro rfl; simp [hin] at hout)
      have hfirst := (typeField_two hoff h1' h1 (by rw [hout, hin]; rfl)).1
      have hback := (typeField_two hoff h1 h1' (by rw [hout, hin]; rfl)).1
      rw [hout, if_pos rfl] at hfirst
      rw [hin, if_neg Bool.false_ne_true, clear_or] at hback
      exact ⟨(typeCode_inj (hback.symm.trans horder)).symm,
        (bulk_or (hroom.free r' hr').type).mp (hbits _ _ _ (hfirst.symm.trans hty'))⟩
    | false =>
      rw [hout₁] at hdir
      obtain rfl : r = r₁ := hmem.resolve_right (by rintro rfl; simp [hin] at hdir)
      obtain rfl : r' = r₂ := hmem'.resolve_left (by rintro rfl; simp [hin] at hout)
      obtain ⟨hfirst, hsecond⟩ := typeField_two hoff h1 h1' (by rw [hout, hin]; rfl)
      rw [hin, if_neg Bool.false_ne_true] at hfirst hsecond
      rw [clear_or] at hfirst
      exact ⟨(typeCode_inj (hfirst.symm.trans hty)).symm,
        (bulk_or (hroom.free r' hr').type).mp (hbits' _ _ _ (hsecond.symm.trans hty'))⟩

/-- The driver as it starts, with what the register has then. -/
def startWith (l : Layout) (c : BitVec 32) : Usbd := { l.start with endptctrl1 := c }

theorem mem_allocatedEps_start (h : Allocates (startWith l c) rs t) (ep : EndpointAddress) :
    ep ∈ allocatedEps t ↔ ∃ r ∈ rs, r.ep = ep := by
  have hunused : isEpBeingUsed (startWith l c) ep = false := by
    simp [isEpBeingUsed, startWith, Layout.start]
  rw [mem_allocatedEps, ← isEpBeingUsed_iff, allocates_used h, hunused]
  simp

theorem foldl_outside {i : ℕ} (hi : Outside i) : (rs.foldl settled c).getLsbD i = c.getLsbD i := by
  induction rs generalizing c with
  | nil => rfl
  | cons r rs ih =>
    rw [List.foldl_cons, ih, settled]
    split
    · rfl
    · exact configured_outside hi

theorem outside_setDeviceAddress (h : Allocates (startWith l c) rs t) {i : ℕ} (hi : Outside i) :
    (setDeviceAddress t addr gaps).endptctrl1.getLsbD i =
      (c.getLsbD i || rs.any fun r => enableBit r.ep.isOut = i) := by
  have hany : (allocatedEps t).any (fun ep => enableBit ep.isOut = i) =
      rs.any fun r => enableBit r.ep.isOut = i := by
    rw [Bool.eq_iff_iff, List.any_eq_true, List.any_eq_true]
    simp only [mem_allocatedEps_start h]
    constructor
    · rintro ⟨ep, ⟨r, hr, rfl⟩, heq⟩
      exact ⟨r, hr, heq⟩
    · rintro ⟨r, hr, heq⟩
      exact ⟨r.ep, ⟨r, hr, rfl⟩, heq⟩
  rw [setDeviceAddress_endptctrl1, hany, allocates_endptctrl1 h, foldl_outside hi]
  rfl

theorem typeField_final (h : Allocates (startWith l c) rs t) (isOut : Bool) :
    typeField (setDeviceAddress t addr gaps).endptctrl1 isOut =
      typeField (rs.foldl settled c) isOut := by
  rw [typeField_setDeviceAddress, allocates_endptctrl1 h]
  rfl

theorem enabled_final (hoff : Off c) (h : Allocates (startWith l c) rs t) (isOut : Bool) :
    (setDeviceAddress t addr gaps).endptctrl1.getLsbD (enableBit isOut) = true ↔
      ∃ r ∈ rs, r.ep.isOut = isOut := by
  have hinj : ∀ b b' : Bool, enableBit b = enableBit b' ↔ b = b' := by decide
  rw [outside_setDeviceAddress h (enableBit_outside isOut), hoff, Bool.false_or, List.any_eq_true]
  simp only [decide_eq_true_eq, hinj]

theorem arranged_perm (hp : rs'.Perm rs) (h : Arranged c rs) : Arranged c rs' := by
  constructor
  · exact fun r hr => h.prior r (hp.mem_iff.mp hr)
  · exact fun r hr r' hr' => h.pair r (hp.mem_iff.mp hr) r' (hp.mem_iff.mp hr')
  · intro r hr h0
    obtain ⟨r', hr', hcov⟩ := h.covered r (hp.mem_iff.mp hr) h0
    exact ⟨r', hp.mem_iff.mpr hr', hcov⟩

theorem arranged_same (hoff : Off c) (ha : Arranged c rs) (hp : rs'.Perm rs)
    (h : Allocates (startWith l c) rs t) (h' : Allocates (startWith l c) rs' t') :
    (setDeviceAddress t' addr gaps').endptctrl1 = (setDeviceAddress t addr gaps).endptctrl1 := by
  have hroom := room_of_allocates h
  have hroom' := room_of_allocates h'
  apply ctrl_ext
  · intro isOut
    rw [typeField_final h, typeField_final h']
    have hv : ∀ r ∈ rs, r.ep.isValid = true := fun r hr => (hroom.free r hr).valid
    have hdata : (ofOne rs').Perm (ofOne rs) := hp.filter _
    by_cases hdir : ∃ r ∈ rs, r.ep.index = 1 ∧ r.ep.isOut = isOut
    · obtain ⟨r, hr, h1, rfl⟩ := hdir
      rw [typed_of_arranged hoff hroom ha hr h1,
        typed_of_arranged hoff hroom' (arranged_perm hp ha) (hp.mem_iff.mpr hr) h1]
    · rw [← foldl_ofOne hv, ← foldl_ofOne fun r hr => hv r (hp.mem_iff.mp hr)]
      rcases ofOne_cases hroom.nodup with hnil | ⟨r, hone⟩ | ⟨r, r', htwo, hother⟩
      · rw [hnil] at hdata ⊢
        rw [hdata.eq_nil]
      · rw [hone] at hdata ⊢
        rw [List.perm_singleton.mp hdata]
      · obtain ⟨hr, hi⟩ : r ∈ rs ∧ r.ep.index = 1 := mem_ofOne.mp (by simp [htwo])
        obtain ⟨hr', hi'⟩ : r' ∈ rs ∧ r'.ep.index = 1 := mem_ofOne.mp (by simp [htwo])
        have hne : r.ep.isOut ≠ isOut := fun heq => hdir ⟨r, hr, hi, heq⟩
        have hne' : r'.ep.isOut ≠ isOut := fun heq => hdir ⟨r', hr', hi', heq⟩
        rw [hother] at hne'
        revert hne hne'
        cases r.ep.isOut <;> cases isOut <;> simp
  · intro i hi
    rw [outside_setDeviceAddress h hi, outside_setDeviceAddress h' hi, hp.any_eq]

/-- After the device address the register is the one asked for, in whatever order the endpoints
have been allocated, exactly if the requests are arranged. -/
theorem types_match_iff (l : Layout) (c : BitVec 32) (addr : BitVec 8)
    (gaps : EndpointAddress → List HwEvent) (rs : List Request) (t : Usbd) (hoff : Off c)
    (h : Allocates (startWith l c) rs t) :
    (Matches rs (setDeviceAddress t addr gaps).endptctrl1 ∧
        ∀ rs' t' gaps', rs'.Perm rs → Allocates (startWith l c) rs' t' →
          (setDeviceAddress t' addr gaps').endptctrl1 = (setDeviceAddress t addr gaps).endptctrl1) ↔
      Arranged c rs := by
  have hroom := room_of_allocates h
  constructor
  · rintro ⟨hmatch, hsame⟩
    have htyped : ∀ r ∈ rs, r.ep.index = 1 →
        typeField (rs.foldl settled c) r.ep.isOut = typeCode r.ty := by
      intro r hr h1
      rw [← typeField_final h]
      exact hmatch.typed r hr h1
    constructor
    · intro r hr h1 hout
      have hr1 := htyped r hr h1
      rw [hout] at hr1
      rw [← hr1, rxt_foldl hoff]
    · intro r hr r' hr' h1 h1' hin hout
      obtain ⟨t', ht'⟩ := allocates_perm (List.reverse_perm rs) h
      have horder : typeField (rs.reverse.foldl settled c) false =
          typeField (rs.foldl settled c) false := by
        rw [← typeField_final h, ← typeField_final ht',
          hsame rs.reverse t' gaps (List.reverse_perm rs) ht']
      exact pair_of_typed hoff hroom htyped horder hr hr' h1 h1' hin hout
    · intro r hr _
      exact (hmatch.enabled r.ep.isOut).mp ((enabled_final hoff h r.ep.isOut).mpr ⟨r, hr, rfl⟩)
  · intro ha
    refine ⟨⟨fun r hr h1 => ?_, fun r hr h1 hall => ?_, fun isOut => ?_⟩,
      fun rs' t' gaps' hp h' => arranged_same hoff ha hp h h'⟩
    · rw [typeField_final h]
      exact typed_of_arranged hoff hroom ha hr h1
    · rw [typeField_final h]
      exact unused_settled hoff hroom hr h1 hall
    · rw [enabled_final hoff h]
      refine ⟨?_, fun hone => ?_⟩
      · rintro ⟨r, hr, rfl⟩
        by_cases h0 : r.ep.index = 0
        · exact ha.covered r hr h0
        · have hlt := index_lt (hroom.free r hr).valid
          exact ⟨r, hr, by omega, rfl⟩
      · obtain ⟨r, hr, -, hout⟩ := hone
        exact ⟨r, hr, hout⟩

def bulkPair : List Request :=
  [⟨⟨0, .out⟩, .control, 8⟩, ⟨⟨0, .in⟩, .control, 8⟩, ⟨⟨1, .in⟩, .bulk, 64⟩,
    ⟨⟨1, .out⟩, .bulk, 64⟩]

theorem bulkPair_allocates : (allocEps (startWith statics 0) bulkPair).isSome = true := by
  decide

theorem types_match_iff_bulkPair : Matches bulkPair (setDeviceAddress
    ((allocEps (startWith statics 0) bulkPair).get bulkPair_allocates) 5 fun _ => []).endptctrl1 :=
  ((types_match_iff statics 0 5 (fun _ => []) bulkPair _ (by unfold Off; decide)
    (allocates_of_allocEps (Option.some_get bulkPair_allocates).symm)).mpr
    ⟨by decide, by decide, by decide⟩).1

/-- An interrupt endpoint that is asked for before a bulk endpoint. -/
def interruptFirst : List Request := [⟨⟨1, .in⟩, .interrupt, 8⟩, ⟨⟨1, .out⟩, .bulk, 64⟩]

/-- It becomes a bulk endpoint, and stays what it is in the other order. -/
theorem types_match_interruptFirst_not : ∃ t t', Allocates (startWith statics 0) interruptFirst t ∧
    Allocates (startWith statics 0) interruptFirst.reverse t' ∧
    ¬Matches interruptFirst (setDeviceAddress t 5 fun _ => []).endptctrl1 ∧
    (setDeviceAddress t' 5 fun _ => []).endptctrl1 ≠
      (setDeviceAddress t 5 fun _ => []).endptctrl1 := by
  refine ⟨_, _, allocates_of_allocEps rfl, allocates_of_allocEps rfl, fun h => ?_, by decide⟩
  have htyped := h.typed ⟨⟨1, .in⟩, .interrupt, 8⟩ (by decide) rfl
  revert htyped
  decide

end UsbArmory.Usb.EndpointTypes
