import UsbArmory.Usb.Configure

/-!
# The control register of endpoint 1

The two type fields and the two enable bits of ENDPTCTRL1, and what the
allocations and the device address do to them.
-/

set_option autoImplicit false

namespace UsbArmory.Usb.EndpointControl
open UsbArmory.Library.Bits UsbArmory.Usb.Descriptors UsbArmory.Usb.Controller UsbArmory.Usb.Bus
open UsbArmory.Usb.Endpoint UsbArmory.Usb.Configure

def typeOffset (isOut : Bool) : ℕ := if isOut then 2 else 18

def typeField (ctrl : BitVec 32) (isOut : Bool) : BitVec 2 := ctrl.extractLsb' (typeOffset isOut) 2

def typeCode (ty : EndpointType) : BitVec 2 := (typeBits ty).setWidth 2

theorem typeBits_eq (ty : EndpointType) : typeBits ty = (typeCode ty).setWidth 32 := by
  cases ty <;> rfl

theorem getLsbD_typeBits (ty : EndpointType) {i : ℕ} (hi : i < 32) :
    (typeBits ty).getLsbD i = (typeCode ty).getLsbD i := by
  rw [typeBits_eq, BitVec.getLsbD_setWidth]
  simp [hi]

theorem getLsbD_three {i : ℕ} (hi : i < 32) : (0b11#32).getLsbD i = decide (i < 2) := by
  have hbits := getLsbD_typeBits .interrupt hi
  rw [show typeCode .interrupt = BitVec.allOnes 2 from rfl, BitVec.getLsbD_allOnes] at hbits
  exact hbits

theorem getLsbD_setType (ctrl : BitVec 32) (isOut : Bool) (ty : EndpointType) {i : ℕ}
    (hi : i < 32) : (setType ctrl isOut (typeBits ty)).getLsbD i =
      if typeOffset isOut ≤ i ∧ i < typeOffset isOut + 2 then
        (isOut && ctrl.getLsbD i || (typeCode ty).getLsbD (i - typeOffset isOut))
      else ctrl.getLsbD i := by
  have htop : ∀ j, 2 ≤ j → (typeCode ty).getLsbD j = false :=
    fun j hj => BitVec.getLsbD_of_ge _ j hj
  cases isOut with
  | true =>
    simp only [setType, typeOffset, if_true, BitVec.getLsbD_or, BitVec.getLsbD_and,
      BitVec.getLsbD_not, BitVec.getLsbD_shiftLeft]
    by_cases hlo : i < 2
    · simp [hi, hlo]
    · rw [getLsbD_typeBits ty (by omega)]
      by_cases hup : i < 4
      · simp [hi, hlo, hup]
      · simp [hi, hlo, hup, htop (i - 2) (by omega)]
  | false =>
    simp only [setType, typeOffset, Bool.false_eq_true, if_false, BitVec.getLsbD_or,
      BitVec.getLsbD_and, BitVec.getLsbD_not, BitVec.getLsbD_shiftLeft, Bool.false_and,
      Bool.false_or]
    by_cases hlo : i < 18
    · simp [hi, hlo]
    · rw [getLsbD_typeBits ty (by omega), getLsbD_three (by omega)]
      by_cases hup : i < 20
      · have hin : i - 18 < 2 := by omega
        simp [hi, hlo, hup, hin]
      · have hout : ¬i - 18 < 2 := by omega
        simp [hi, hlo, hup, hout, htop (i - 18) (by omega)]

theorem getLsbD_typeField (ctrl : BitVec 32) (isOut : Bool) (i : ℕ) :
    (typeField ctrl isOut).getLsbD i = (decide (i < 2) && ctrl.getLsbD (typeOffset isOut + i)) := by
  rw [typeField, BitVec.getLsbD_extractLsb']

theorem typeField_setType (ctrl : BitVec 32) (isOut : Bool) (ty : EndpointType) :
    typeField (setType ctrl isOut (typeBits ty)) isOut =
      (if isOut then typeField ctrl isOut else 0) ||| typeCode ty := by
  apply BitVec.eq_of_getLsbD_eq
  intro i hi
  have hlt : typeOffset isOut + i < 32 := by
    unfold typeOffset
    split <;> omega
  rw [getLsbD_typeField, getLsbD_setType _ _ _ hlt, BitVec.getLsbD_or]
  cases isOut with
  | true =>
    rw [if_pos rfl, getLsbD_typeField]
    simp [hi]
  | false => simp [hi]

theorem typeField_setType_other (ctrl : BitVec 32) (isOut : Bool) (ty : EndpointType) :
    typeField (setType ctrl isOut (typeBits ty)) (!isOut) = typeField ctrl (!isOut) := by
  apply BitVec.eq_of_getLsbD_eq
  intro i hi
  have hlt : typeOffset (!isOut) + i < 32 := by
    unfold typeOffset
    split <;> omega
  have hout : ¬(typeOffset isOut ≤ typeOffset (!isOut) + i ∧
      typeOffset (!isOut) + i < typeOffset isOut + 2) := by
    cases isOut <;> simp only [typeOffset, Bool.not_true, Bool.not_false, Bool.false_eq_true,
      if_true, if_false] <;> omega
  rw [getLsbD_typeField, getLsbD_typeField, getLsbD_setType _ _ _ hlt, if_neg hout]

def Outside (i : ℕ) : Prop := ∀ isOut, ¬(typeOffset isOut ≤ i ∧ i < typeOffset isOut + 2)

theorem setType_outside (ctrl : BitVec 32) (isOut : Bool) (ty : EndpointType) {i : ℕ}
    (hi : Outside i) : (setType ctrl isOut (typeBits ty)).getLsbD i = ctrl.getLsbD i := by
  by_cases hlt : i < 32
  · rw [getLsbD_setType _ _ _ hlt, if_neg (hi isOut)]
  · rw [BitVec.getLsbD_of_ge _ i (by omega), BitVec.getLsbD_of_ge _ i (by omega)]

def enableBit (isOut : Bool) : ℕ := if isOut then rxe else txe

theorem enableBit_outside (isOut : Bool) : Outside (enableBit isOut) := by
  intro isOut'
  cases isOut <;> cases isOut' <;> decide

theorem ctrl_ext {c c' : BitVec 32} (hf : ∀ isOut, typeField c isOut = typeField c' isOut)
    (ho : ∀ i, Outside i → c.getLsbD i = c'.getLsbD i) : c = c' := by
  apply BitVec.eq_of_getLsbD_eq
  intro i _
  by_cases hi : Outside i
  · exact ho i hi
  · unfold Outside at hi
    push Not at hi
    obtain ⟨isOut, hlo, hup⟩ := hi
    have hlt : i - typeOffset isOut < 2 := by omega
    have heq : typeOffset isOut + (i - typeOffset isOut) = i := by omega
    have hbit (ctrl : BitVec 32) :
        (typeField ctrl isOut).getLsbD (i - typeOffset isOut) = ctrl.getLsbD i := by
      rw [getLsbD_typeField, heq, decide_eq_true hlt, Bool.true_and]
    rw [← hbit c, ← hbit c', hf]

def Off (ctrl : BitVec 32) : Prop := ∀ isOut, ctrl.getLsbD (enableBit isOut) = false

/-- The register after `configure_ep`. -/
def configured (ctrl : BitVec 32) (isOut : Bool) (ty : EndpointType) : BitVec 32 :=
  if setType ctrl isOut (typeBits ty) &&& mask 32 (enableBit (!isOut)) = 0 then
    setType (setType ctrl isOut (typeBits ty)) (!isOut) (typeBits .bulk)
  else setType ctrl isOut (typeBits ty)

theorem configureEp_one (s : Usbd) {ep : EndpointAddress} (h1 : ep.index = 1) (ty : EndpointType) :
    configureEp s ep ty = .ok { s with endptctrl1 := configured s.endptctrl1 ep.isOut ty } := by
  unfold configureEp configured enableBit
  rw [h1]
  cases ep.isOut <;> rfl

variable {c : BitVec 32} {isOut : Bool} {ty : EndpointType}

theorem configured_outside {i : ℕ} (hi : Outside i) :
    (configured c isOut ty).getLsbD i = c.getLsbD i := by
  unfold configured
  split
  · rw [setType_outside _ _ _ hi, setType_outside _ _ _ hi]
  · rw [setType_outside _ _ _ hi]

theorem off_configured (h : Off c) : Off (configured c isOut ty) := by
  intro isOut'
  rw [configured_outside (enableBit_outside isOut')]
  exact h isOut'

theorem configured_off (h : Off c) : configured c isOut ty =
    setType (setType c isOut (typeBits ty)) (!isOut) (typeBits .bulk) := by
  unfold configured
  rw [if_pos]
  by_contra hne
  have hbit := (and_mask_ne_zero _ _).mp hne
  rw [setType_outside _ _ _ (enableBit_outside _), h] at hbit
  cases hbit

theorem typeField_configured (h : Off c) (isOut : Bool) (ty : EndpointType) :
    typeField (configured c isOut ty) isOut =
      (if isOut then typeField c isOut else 0) ||| typeCode ty := by
  have hother := typeField_setType_other (setType c isOut (typeBits ty)) (!isOut) .bulk
  rw [Bool.not_not] at hother
  rw [configured_off h, hother, typeField_setType]

theorem typeField_configured_other (h : Off c) (isOut : Bool) (ty : EndpointType) :
    typeField (configured c isOut ty) (!isOut) =
      (if isOut then 0 else typeField c (!isOut)) ||| typeCode .bulk := by
  rw [configured_off h, typeField_setType, typeField_setType_other]
  cases isOut <;> rfl

theorem hwStep_endptctrl1 {s t : Usbd} {e : HwEvent} (h : hwStep s e = some t) :
    t.endptctrl1 = s.endptctrl1 := by
  cases hwStep_happens h with
  | fetch ep hv hprime =>
    unfold fetch
    simp only
    split <;> rfl
  | load ep hv hin hstat => rfl
  | sent ep status bytes hv hin hstat hfifo => rfl
  | received ep status bytes hv hout hstat hlen => rfl
  | setup index bytes hused hlen => rfl
  | status bits => rfl

theorem hardware_endptctrl1 (s : Usbd) (es : List HwEvent) :
    (hardware s es).endptctrl1 = s.endptctrl1 :=
  hardware_invariant (I := fun t => t.endptctrl1 = s.endptctrl1)
    (fun _ _ _ hs ht => (hwStep_endptctrl1 ht).trans hs) es s rfl

theorem prime_endptctrl1 (s : Usbd) (ep : EndpointAddress) (gap : List HwEvent) :
    (prime s ep gap).endptctrl1 = s.endptctrl1 := hardware_endptctrl1 s gap

variable {gaps : EndpointAddress → List HwEvent}

theorem enableEp_endptctrl1 (s : Usbd) (ep : EndpointAddress) :
    (enableEp gaps s ep).endptctrl1 = s.endptctrl1 ||| mask 32 (enableBit ep.isOut) := by
  unfold enableEp enableBit
  cases hout : ep.isOut with
  | true =>
    by_cases h0 : ep.index = 0 <;> simp [h0, setEndptctrl1, prime_endptctrl1]
  | false => simp [setEndptctrl1]

theorem enableBit_lt (isOut : Bool) : enableBit isOut < 32 := by
  cases isOut <;> decide

theorem enableEps_endptctrl1 (eps : List EndpointAddress) (s : Usbd) (i : ℕ) :
    (eps.foldl (enableEp gaps) s).endptctrl1.getLsbD i =
      (s.endptctrl1.getLsbD i || eps.any fun ep => enableBit ep.isOut = i) := by
  induction eps generalizing s with
  | nil => simp
  | cons ep eps ih =>
    rw [List.foldl_cons, ih, enableEp_endptctrl1, getLsbD_set (enableBit_lt _), List.any_cons,
      Bool.or_assoc]

theorem writeDeviceaddr_endptctrl1 (s : Usbd) (bits : BitVec 32) :
    (writeDeviceaddr s bits).endptctrl1 = s.endptctrl1 := rfl

theorem setDeviceAddress_endptctrl1 (s : Usbd) (addr : BitVec 8) (i : ℕ) :
    (setDeviceAddress s addr gaps).endptctrl1.getLsbD i =
      (s.endptctrl1.getLsbD i || (allocatedEps s).any fun ep => enableBit ep.isOut = i) := by
  unfold setDeviceAddress
  rw [enableEps_endptctrl1, writeDeviceaddr_endptctrl1]

theorem typeField_setDeviceAddress (s : Usbd) (addr : BitVec 8) (isOut : Bool) :
    typeField (setDeviceAddress s addr gaps).endptctrl1 isOut = typeField s.endptctrl1 isOut := by
  apply BitVec.eq_of_getLsbD_eq
  intro i hi
  have hany : ((allocatedEps s).any fun ep => enableBit ep.isOut = typeOffset isOut + i) =
      false := by
    rw [List.any_eq_false]
    intro ep _ heq
    rw [decide_eq_true_eq] at heq
    exact enableBit_outside ep.isOut isOut ⟨by omega, by omega⟩
  rw [getLsbD_typeField, getLsbD_typeField, setDeviceAddress_endptctrl1, hany, Bool.or_false]

theorem enabled_setDeviceAddress (s : Usbd) (addr : BitVec 8) (isOut : Bool) :
    (setDeviceAddress s addr gaps).endptctrl1.getLsbD (enableBit isOut) = true ↔
      s.endptctrl1.getLsbD (enableBit isOut) = true ∨ ∃ ep ∈ allocatedEps s, ep.isOut = isOut := by
  have hinj : ∀ b b' : Bool, enableBit b = enableBit b' ↔ b = b' := by decide
  rw [setDeviceAddress_endptctrl1, Bool.or_eq_true, List.any_eq_true]
  simp only [decide_eq_true_eq, hinj]

def toggleBit (isOut : Bool) : ℕ := if isOut then rxr else txr

theorem toggleBit_lt (isOut : Bool) : toggleBit isOut < 32 := by
  cases isOut <;> decide

theorem toggleBit_ne (isOut isOut' : Bool) : toggleBit isOut ≠ enableBit isOut' := by
  cases isOut <;> cases isOut' <;> decide

theorem require_enabled (w : BitVec 32) (i : ℕ) :
    require (w &&& mask 32 i ≠ 0) = require (w.getLsbD i) := by
  congr 1
  rw [Bool.eq_iff_iff, decide_eq_true_iff, and_mask_ne_zero]

theorem resetEp_iff (s t : Usbd) (ep : EndpointAddress) : resetEp s ep = .ok t ↔
    s.endptctrl1.getLsbD (enableBit ep.isOut) = true ∧
      t = setEndptctrl1 s (mask 32 (toggleBit ep.isOut)) := by
  have heq : resetEp s ep = (require (s.endptctrl1.getLsbD (enableBit ep.isOut)) >>= fun _ =>
      .ok (setEndptctrl1 s (mask 32 (toggleBit ep.isOut)))) := by
    rw [← require_enabled]
    unfold resetEp
    cases ep.isOut <;> rfl
  rw [heq]
  constructor
  · intro h
    obtain ⟨_, he, ht⟩ := bind_ok h
    cases ht
    exact ⟨require_ok he, rfl⟩
  · rintro ⟨he, rfl⟩
    rw [require_true he, ok_bind]

theorem setEndptctrl1_enabled (s : Usbd) (isOut isOut' : Bool) :
    (setEndptctrl1 s (mask 32 (toggleBit isOut))).endptctrl1.getLsbD (enableBit isOut') =
      s.endptctrl1.getLsbD (enableBit isOut') := by
  rw [setEndptctrl1, getLsbD_set (toggleBit_lt isOut), decide_eq_false (toggleBit_ne isOut isOut'),
    Bool.or_false]

theorem resetEps_iff (eps : List EndpointAddress) (s : Usbd) :
    (∃ t, eps.foldlM resetEp s = .ok t) ↔
      ∀ ep ∈ eps, s.endptctrl1.getLsbD (enableBit ep.isOut) = true := by
  induction eps generalizing s with
  | nil => simp [pure, Except.pure]
  | cons ep eps ih =>
    rw [List.foldlM_cons, List.forall_mem_cons]
    constructor
    · rintro ⟨t, ht⟩
      obtain ⟨u, hu, ht⟩ := bind_ok ht
      obtain ⟨he, rfl⟩ := (resetEp_iff s u ep).mp hu
      refine ⟨he, fun ep' hep' => ?_⟩
      rw [← setEndptctrl1_enabled s ep.isOut]
      exact (ih _).mp ⟨t, ht⟩ ep' hep'
    · rintro ⟨he, hrest⟩
      obtain ⟨t, ht⟩ := (ih (setEndptctrl1 s (mask 32 (toggleBit ep.isOut)))).mpr fun ep' hep' => by
        rw [setEndptctrl1_enabled]
        exact hrest ep' hep'
      exact bind_returns ((resetEp_iff s _ ep).mpr ⟨he, rfl⟩) ⟨t, ht⟩

end UsbArmory.Usb.EndpointControl
