import UsbArmory.Storage.EmmcTake

/-!
# A card that is brought up

The states of a card by the eMMC standard, and what a host has to respect: a
command in a state that has it, a data transfer over as many lines as the card
drives, and neither a reset nor other dividers while the clock runs. A monitor
follows the card and the registers of the host through `eMMC::take`.
-/

set_option autoImplicit false

namespace UsbArmory.Storage.Bringup
open UsbArmory.Library.Binary UsbArmory.Library.Trace UsbArmory.Library.Monitor
open UsbArmory.Storage.EmmcCommand UsbArmory.Storage.EmmcBlocks UsbArmory.Storage.EmmcTake

/-- What a card keeps; `width` is the byte `BUS_WIDTH` of its EXT_CSD. -/
structure Card where
  state : CardState
  rca : UInt16
  blockLen : UInt32
  width : UInt32
deriving DecidableEq

/-- In idle, with the address and the width after power on. -/
def Card.idle : Card := ⟨.idle, 1, 512, 0⟩

/-- `SWITCH` with the access mode 3 writes the byte that the argument names. -/
def switched (data : UInt32) : Option UInt32 :=
  if data >>> 24 = 3 ∧ (data >>> 16) &&& 0xff = 183 then some ((data >>> 8) &&& 0xff) else none

/-- The state behind a command, `none` where the card does not accept it. -/
def Card.accept (c : Card) : Command → Option Card
  | .goIdleState => some .idle
  | .sendOpCond _ => if c.state = .idle then some c else none
  | .allSendCid => if c.state = .ready then some { c with state := .identification } else none
  | .setRelativeAddr rca =>
    if c.state = .identification then some { c with state := .standby, rca := rca.val } else none
  | .selectCard rca =>
    if c.state = .standby ∧ rca.map Subtype.val = some c.rca then
      some { c with state := .transfer }
    else none
  | .setBlockLen len => if c.state = .transfer then some { c with blockLen := len } else none
  | .switch data =>
    if c.state = .transfer then some { c with width := (switched data).getD c.width } else none
  | .sendStatus rca =>
    if (c.state = .standby ∨ c.state = .transfer) ∧ rca.val = c.rca then some c else none
  | .sendCsd rca => if c.state = .standby ∧ rca.val = c.rca then some c else none
  | .sendExtCsd | .readSingleBlock _ | .writeSingleBlock _ =>
    if c.state = .transfer then some c else none

/-- The lines that the host uses, in the code of the card. -/
def hostWidth (protCtrl : UInt32) : UInt32 := (protCtrl &&& dtwMask) >>> dtwOffset

def dividerBits : UInt32 := dvsMask ||| sdclkfsMask

/-- The bits of `SYS_CTRL` that may change only while the clock is gated. -/
def clockBits : UInt32 := dividerBits ||| rsta

/-- What the monitor remembers: the card, what has been written to the registers of the host, and
what `SYS_CTRL` has been read as. -/
structure Seen where
  card : Card
  protCtrl : UInt32
  vendSpec : UInt32
  sysCtrl : UInt32
  sysRead : UInt32
  sound : Bool

def Seen.command (seen : Seen) (cmd : Command) : Seen :=
  match seen.card.accept cmd with
  | some card =>
    { seen with
      card := card
      sound := seen.sound && (!cmd.dataPresent || hostWidth seen.protCtrl == card.width) }
  | none => { seen with sound := false }

def track (seen : Seen) : InitOp → Seen
  | .card (.command cmd) => seen.command cmd
  | .ocr word =>
    if seen.card.state = .idle ∧ word &&& ocrRdy ≠ 0 then
      { seen with card := { seen.card with state := .ready } }
    else seen
  | .load .sysCtrl value => { seen with sysRead := value }
  | .store .protCtrl value => { seen with protCtrl := value }
  | .store .vendSpec value => { seen with vendSpec := value }
  | .store .sysCtrl value =>
    { seen with
      sysCtrl := value
      sound := seen.sound &&
        (value &&& clockBits == seen.sysRead &&& clockBits || seen.vendSpec &&& cken == 0) }
  | _ => seen

/-! Bits of a register -/

theorem or_and (a b m : UInt32) : (a ||| b) &&& m = a &&& m ||| b &&& m := by
  apply UInt32.toBitVec_inj.mp
  apply BitVec.eq_of_getLsbD_eq
  intro i _
  simp only [UInt32.toBitVec_and, UInt32.toBitVec_or, BitVec.getLsbD_and, BitVec.getLsbD_or,
    Bool.and_or_distrib_right]

theorem cleared_and (r m : UInt32) : r &&& ~~~m &&& m = 0 := by
  rw [UInt32.and_assoc, UInt32.not_and_self, UInt32.and_zero]

theorem or_and_disjoint {m d : UInt32} (h : d &&& m = 0) (r : UInt32) :
    (r ||| d) &&& m = r &&& m := by
  rw [or_and, h, UInt32.or_zero]

theorem hostWidth_dtw (width : Width) (r : UInt32) :
    hostWidth ((r &&& ~~~dtwMask) ||| width.dtw.toUInt32 <<< dtwOffset) = width.dtw.toUInt32 := by
  rw [hostWidth, or_and, cleared_and, UInt32.zero_or]
  cases width <;> decide

theorem set_and (r m : UInt32) : (r ||| m) &&& m = m := by
  apply UInt32.toBitVec_inj.mp
  apply BitVec.eq_of_getLsbD_eq
  intro i _
  rw [UInt32.toBitVec_and, UInt32.toBitVec_or, BitVec.getLsbD_and, BitVec.getLsbD_or]
  cases r.toBitVec.getLsbD i <;> simp

def divided (f : Frequency) : UInt32 :=
  f.dividers.1 <<< sdclkfsOffset ||| f.dividers.2 <<< dvsOffset

theorem setDividers_bits (f : Frequency) (r : UInt32) :
    setDividers f r &&& dividerBits = divided f := by
  have hdvs : ~~~sdclkfsMask &&& dividerBits = dvsMask := by decide
  have hbits : (r &&& ~~~dvsMask ||| f.dividers.2 <<< dvsOffset) &&& dvsMask =
      f.dividers.2 <<< dvsOffset := by
    rw [or_and, cleared_and, UInt32.zero_or]
    cases f <;> decide
  show ((r &&& ~~~dvsMask ||| f.dividers.2 <<< dvsOffset) &&& ~~~sdclkfsMask |||
    f.dividers.1 <<< sdclkfsOffset) &&& dividerBits = divided f
  rw [or_and, UInt32.and_assoc, hdvs, hbits]
  cases f <;> decide

/-! What the steps of the driver keep -/

section Steps
variable {P Q R : Seen → Prop} (debug : Bool) (b : Board) (fuel : ℕ)

theorem meets_sendCommand {c : Controller} {cmd : Command} (hseen : ∀ seen, P seen → R seen)
    (hcmd : ∀ seen, P seen → Q (seen.command cmd)) (hstop : ∀ seen, Q seen → R seen) :
    Meets (fun seen op => track seen (.card op)) P (sendCommand debug c cmd) (fun _ => Q) R := by
  have hread : Meets (fun seen op => track seen (.card op)) P
      (operation fun before => (.intStatus (c.cc before), .ok (c.cc before)) : Io Error Bool)
      (fun _ => P) R := meets_operation (fun _ _ _ _ hp => hp) fun _ _ _ _ hp => hseen _ hp
  have hsend : Meets (fun seen op => track seen (.card op)) P
      (operation fun before => (.command cmd, answer (c.responds before cmd))) (fun _ => Q) R :=
    meets_operation (fun _ _ _ _ hp => hcmd _ hp) fun _ _ _ _ hp => hstop _ (hcmd _ hp)
  unfold sendCommand
  cases debug with
  | false => exact hsend
  | true =>
    refine meets_bind hread fun cc => ?_
    exact meets_bind (meets_ensure (fun _ hp _ => hp) hseen) fun _ => hsend

theorem meets_send {cmd : Command} (hseen : ∀ seen, P seen → R seen)
    (hcmd : ∀ seen, P seen → Q (seen.command cmd)) (hstop : ∀ seen, Q seen → R seen) :
    Meets track P (send debug b cmd) (fun _ => Q) R :=
  meets_within fun _ => meets_sendCommand debug hseen hcmd hstop

theorem meets_rmw {r : EmmcTake.Register} {f : UInt32 → UInt32}
    (h : ∀ seen v, P seen → Q (track (track seen (.load r v)) (.store r (f v)))) :
    Meets track P (rmw b r f) (fun _ => Q) R := by
  have hload : Meets track P (load b r)
      (fun v seen => Q (track seen (.store r (f v)))) R :=
    meets_operation (by rintro before v ⟨⟩ seen hp; exact h seen _ hp) nofun
  exact meets_bind hload fun v =>
    meets_operation (fun _ _ _ _ hq => hq) nofun

theorem meets_poll {r : EmmcTake.Register} {done : UInt32 → Bool}
    (h : ∀ seen v, P seen → P (track seen (.load r v))) (hstop : ∀ seen, P seen → R seen) :
    Meets track P (poll b r done fuel) (fun _ => P) R := by
  induction fuel with
  | zero => exact meets_throw hstop
  | succ fuel ih =>
    have hload : Meets track P (load b r) (fun _ => P) R :=
      meets_operation (fun _ _ _ seen hp => h seen _ hp) nofun
    refine meets_bind hload fun v => ?_
    cases done v with
    | false => exact ih
    | true => exact meets_pure fun _ hp => hp

theorem meets_wait {ms : ℕ} : Meets track P (wait ms) (fun _ => P) R :=
  meets_operation (fun _ _ _ _ hp => hp) nofun

end Steps

/-! The stages of bringing up a card -/

def Sound (seen : Seen) : Prop := seen.sound = true

/-- The card, the lines that the host drives, and the dividers that the clock runs by if they are
known: only a change of the frequency names them. -/
structure Stage (card : Card) (width : UInt32) (f : Option Frequency) (seen : Seen) : Prop where
  sound : seen.sound = true
  card_eq : seen.card = card
  width_eq : hostWidth seen.protCtrl = width
  running : seen.vendSpec &&& cken = cken
  dividers : ∀ g ∈ f, seen.sysCtrl &&& dividerBits = divided g

structure Wired (card : Card) (width : UInt32) (seen : Seen) : Prop where
  sound : seen.sound = true
  card_eq : seen.card = card
  width_eq : hostWidth seen.protCtrl = width

section Stages
variable (debug : Bool) (b : Board) (fuel : ℕ) {card card' : Card} {width : UInt32}
  {f : Option Frequency}

theorem Stage.command {cmd : Command} {seen : Seen} (h : Stage card width f seen)
    (haccept : card.accept cmd = some card')
    (hdata : cmd.dataPresent = true → width = card'.width) :
    Stage card' width f (seen.command cmd) := by
  have hsound : (!cmd.dataPresent || hostWidth seen.protCtrl == card'.width) = true := by
    rw [h.width_eq]
    cases hcmd : cmd.dataPresent with
    | false => rfl
    | true => rw [hdata hcmd, beq_self_eq_true]; rfl
  rw [Seen.command, h.card_eq, haccept]
  exact ⟨by simp only [h.sound, hsound, Bool.and_self], rfl, h.width_eq, h.running, h.dividers⟩

theorem stage_send {cmd : Command} (haccept : card.accept cmd = some card')
    (hdata : cmd.dataPresent = true → width = card'.width) :
    Meets track (Stage card width f) (send debug b cmd) (fun _ => Stage card' width f) Sound :=
  meets_send debug b (fun _ h => h.sound) (fun _ h => h.command haccept hdata) fun _ h => h.sound

theorem wired_changeFrequency (f : Frequency) :
    Meets track (Wired card width) (changeFrequency b fuel f) (fun _ => Stage card width f)
      Sound := by
  have hpoll : ∀ P : Seen → Prop, (∀ seen, P seen → Sound seen) →
      Meets track P (poll b .presState (fun v => v &&& sdstb ≠ 0) fuel) (fun _ => P) Sound :=
    fun P => meets_poll b fuel fun _ _ hp => hp
  refine meets_bind (hpoll _ fun _ h => h.sound) fun _ => ?_
  refine meets_bind (Q := fun _ seen => Wired card width seen ∧ seen.vendSpec &&& cken = 0)
    (meets_rmw b fun seen v h => ⟨⟨h.sound, h.card_eq, h.width_eq⟩, cleared_and v cken⟩) fun _ => ?_
  refine meets_bind (Q := fun _ seen => Wired card width seen ∧
      seen.sysCtrl &&& dividerBits = divided f) (meets_rmw b ?_) fun _ => ?_
  · rintro seen v ⟨hwired, hgated⟩
    refine ⟨⟨?_, hwired.card_eq, hwired.width_eq⟩, setDividers_bits f v⟩
    show (seen.sound && (_ || seen.vendSpec &&& cken == 0)) = true
    rw [hwired.sound, hgated, beq_self_eq_true, Bool.or_true, Bool.and_true]
  · refine meets_bind (hpoll _ fun _ h => h.1.sound) fun _ => ?_
    refine meets_rmw b fun seen v h =>
      ⟨h.1.sound, h.1.card_eq, h.1.width_eq, set_and v cken, ?_⟩
    rintro g ⟨⟩
    exact h.2

theorem changeBusWidth_wires (w : Width) :
    Meets track (fun seen => Sound seen ∧ seen.card = card) (changeBusWidth debug b w false)
      (fun _ => Wired card w.dtw.toUInt32) Sound := by
  exact meets_rmw b fun seen v h => ⟨h.1, h.2, hostWidth_dtw w v⟩

theorem softwareReset_stage :
    Meets track (fun seen => Sound seen ∧ seen.card = card) (softwareReset debug b fuel)
      (fun _ => Stage card 0 none) Sound := by
  have hstop : ∀ seen, Sound seen ∧ seen.card = card → Sound seen := fun _ h => h.1
  refine meets_bind (meets_poll b fuel (fun _ _ h => h) hstop) fun _ => ?_
  refine meets_bind (Q := fun _ seen => (Sound seen ∧ seen.card = card) ∧
    seen.vendSpec &&& cken = 0) (meets_rmw b fun _ v h => ⟨h, cleared_and v cken⟩) fun _ => ?_
  refine meets_bind (Q := fun _ seen => Sound seen ∧ seen.card = card) (meets_rmw b ?_) fun _ => ?_
  · rintro seen v ⟨⟨hsound, hcard⟩, hgated⟩
    refine ⟨?_, hcard⟩
    show (seen.sound && (_ || seen.vendSpec &&& cken == 0)) = true
    rw [show seen.sound = true from hsound, hgated, beq_self_eq_true, Bool.or_true, Bool.and_true]
  refine meets_bind (meets_poll b fuel (fun _ _ h => h) hstop) fun _ => ?_
  refine meets_bind (changeBusWidth_wires debug b .b1) fun _ => ?_
  refine meets_bind (wired_changeFrequency b fuel .k400) fun _ => ?_
  -- the initialisation clocks change neither the dividers nor the reset bit
  refine meets_bind meets_wait fun _ => meets_rmw b fun seen v h => ⟨?_, h.2, h.3, h.4, nofun⟩
  have hkept : (v ||| inita) &&& clockBits = v &&& clockBits := or_and_disjoint (by decide) v
  show (seen.sound && ((v ||| inita) &&& clockBits == v &&& clockBits || _)) = true
  rw [h.sound, hkept, beq_self_eq_true, Bool.true_or, Bool.and_true]

theorem resetCards_stage :
    Meets track (Stage card width f) (resetCards debug b) (fun _ => Stage .idle width f) Sound := by
  have hsend : Meets track (Stage card width f) (send debug b .goIdleState)
      (fun _ => Stage .idle width f) Sound := stage_send debug b rfl nofun
  exact meets_bind hsend fun _ => meets_pure fun _ h => h

theorem Stage.ready {seen : Seen} {word : UInt32} (h : Stage .idle width f seen)
    (hready : word &&& ocrRdy ≠ 0) :
    Stage { Card.idle with state := .ready } width f (track seen (.ocr word)) := by
  have hidle : seen.card.state = .idle := by rw [h.card_eq]; rfl
  rw [track, if_pos ⟨hidle, hready⟩]
  exact ⟨h.sound, by rw [h.card_eq], h.width_eq, h.running, h.dividers⟩

theorem Stage.busy {seen : Seen} {word : UInt32} (h : Stage card width f seen)
    (hbusy : ¬word &&& ocrRdy ≠ 0) : Stage card width f (track seen (.ocr word)) := by
  rw [track, if_neg fun hready => hbusy hready.2]
  exact h

theorem validate_stage :
    Meets track (Stage .idle width f) (validate debug b fuel)
      (fun _ => Stage { Card.idle with state := .ready } width f) Sound := by
  induction fuel with
  | zero => exact meets_throw fun _ h => h.sound
  | succ fuel ih =>
    refine meets_bind (stage_send debug b rfl nofun) fun ocr => ?_
    by_cases hready : ocr &&& ocrRdy ≠ 0
    · refine meets_bind (meets_operation (Q := fun _ =>
        Stage { Card.idle with state := .ready } width f) ?_ nofun) fun _ => ?_
      · exact fun _ _ _ _ h => h.ready hready
      · rw [if_pos hready]
        exact meets_pure fun _ h => h
    · refine meets_bind (meets_operation (Q := fun _ => Stage .idle width f) ?_ nofun) fun _ => ?_
      · exact fun _ _ _ _ h => h.busy hready
      rw [if_neg hready]
      refine meets_bind (meets_operation (Q := fun _ => Stage .idle width f) ?_ nofun)
        fun late => ?_
      · exact fun _ _ _ _ h => h
      cases late with
      | true => exact meets_throw fun _ h => h.sound
      | false => exact meets_bind meets_wait fun _ => ih

theorem registerCards_stage :
    Meets track (Stage { Card.idle with state := .ready } width f) (registerCards debug b)
      (fun _ => Stage { Card.idle with state := .standby, rca := 2 } width f) Sound := by
  refine meets_bind (stage_send debug b rfl nofun) fun _ => ?_
  exact meets_bind (stage_send debug b rfl nofun) fun _ => meets_pure fun _ h => h

theorem selectCard_stage (emmc : Emmc) :
    Meets track (Stage { Card.idle with state := .standby, rca := 2 } width f)
      (selectCard debug b emmc rca)
      (fun e seen => e.selected = some rca ∧
        Stage { Card.idle with state := .transfer, rca := 2 } width f seen) Sound := by
  have hcard : Meets track (Stage { Card.idle with state := .standby, rca := 2 } width f)
      (ensure (rca = rca) "assertion failed: rca == RCA" : Init Unit)
      (fun _ => Stage { Card.idle with state := .standby, rca := 2 } width f) Sound :=
    meets_ensure (fun _ h _ => h) fun _ h => h.sound
  refine meets_bind hcard fun _ => ?_
  refine meets_bind (stage_send debug b rfl nofun) fun _ => ?_
  refine meets_bind (stage_send debug b rfl nofun) fun _ => ?_
  exact meets_pure fun _ h => ⟨rfl, h⟩

/-- The card as the driver leaves it: selected, and with eight lines. -/
def Card.selected : Card := ⟨.transfer, 2, 512, 2⟩

theorem changeBusWidth_widens :
    Meets track (Stage { Card.idle with state := .transfer, rca := 2 } 0 f)
      (changeBusWidth debug b .b8 true) (fun _ => Wired .selected 2) Sound := by
  have hswitch : Meets track (Stage { Card.idle with state := .transfer, rca := 2 } 0 f)
      (send debug b (.switch 0x03B70200)) (fun _ => Stage .selected 0 f) Sound :=
    stage_send debug b rfl nofun
  refine meets_bind hswitch fun _ => ?_
  exact meets_rmw b fun seen v h => ⟨h.sound, h.card_eq, hostWidth_dtw .b8 v⟩

variable {P : Seen → Prop}

theorem statusOf_meets {rsp : UInt32} {R : Seen → Prop} (hstop : ∀ seen, P seen → R seen) :
    Meets (fun seen op => track seen (.card op)) P (statusOf rsp) (fun _ => P) R := by
  unfold statusOf
  cases Status.ofBits rsp with
  | ok status => exact meets_pure fun _ h => h
  | error status => exact meets_throw hstop

theorem prepare_meets {c : Controller} {dtdsel addr : UInt32} {R : Seen → Prop}
    (hstop : ∀ seen, P seen → R seen) :
    Meets (fun seen op => track seen (.card op)) P (prepare c fuel dtdsel addr) (fun _ => P) R := by
  have hstep : ∀ op, (∀ seen, track seen (.card op) = seen) →
      Meets (fun seen op => track seen (.card op)) P (step op) (fun _ => P) R :=
    fun op hop => meets_operation (fun _ _ _ seen h => (hop seen).symm ▸ h) nofun
  have hdla : ∀ fuel, Meets (fun seen op => track seen (.card op)) P (waitDla c fuel)
      (fun _ => P) R := by
    intro fuel
    induction fuel with
    | zero => exact meets_throw hstop
    | succ fuel ih =>
      refine meets_bind (meets_operation (Q := fun _ => P) (fun _ _ _ _ h => h) nofun) fun dla => ?_
      cases dla with
      | true => exact ih
      | false => exact meets_pure fun _ h => h
  refine meets_bind (hstep _ fun _ => rfl) fun _ => ?_
  refine meets_bind (hdla fuel) fun _ => ?_
  refine meets_bind (hstep _ fun _ => rfl) fun _ => ?_
  refine meets_bind (hstep _ fun _ => rfl) fun _ => ?_
  refine meets_bind (hstep _ fun _ => rfl) fun _ => ?_
  exact hstep _ fun _ => rfl

theorem transferState_stage {c : Controller} {emmc : Emmc} {addr : UInt32}
    (hemmc : emmc.selected = some rca) :
    Meets (fun seen op => track seen (.card op)) (Stage .selected 2 f)
      (transferState debug c emmc addr) (fun _ => Stage .selected 2 f) Sound := by
  have hsound : ∀ seen, Stage .selected 2 f seen → Sound seen := fun _ h => h.sound
  have hstatus : Meets (fun seen op => track seen (.card op)) (Stage .selected 2 f)
      (getCardStatus debug c rca) (fun _ => Stage .selected 2 f) Sound :=
    meets_bind (meets_sendCommand debug hsound (fun _ h => h.command rfl nofun) hsound)
      fun _ => statusOf_meets hsound
  have htail : Meets (fun seen op => track seen (.card op)) (Stage .selected 2 f)
      (do
        let status ← getCardStatus debug c rca
        if !Status.readyForData status || status.state ≠ .transfer then
          throw (.error (.err .notInTransferState))
        pure rca) (fun _ => Stage .selected 2 f) Sound := by
    refine meets_bind hstatus fun status => ?_
    by_cases hready : !Status.readyForData status || status.state ≠ .transfer
    · rw [if_pos hready]
      exact meets_bind (meets_throw hsound) fun _ => meets_pure fun _ h => h
    · rw [if_neg hready]
      exact meets_pure fun _ h => h
  unfold transferState
  simp only [selectedRca, hemmc, pure_bind]
  cases debug with
  | false => exact htail
  | true => exact meets_bind (meets_ensure (fun _ h _ => h) hsound) fun _ => htail

theorem readSingleBlock_stage {c : Controller} {emmc : Emmc} {addr : UInt32}
    (hemmc : emmc.selected = some rca) :
    Meets (fun seen op => track seen (.card op)) (Stage .selected 2 f)
      (readSingleBlock debug c fuel emmc none addr) (fun _ => Stage .selected 2 f) Sound := by
  have hsound : ∀ seen, Stage .selected 2 f seen → Sound seen := fun _ h => h.sound
  refine meets_bind (transferState_stage debug hemmc) fun _ => ?_
  refine meets_bind (prepare_meets fuel hsound) fun _ => ?_
  refine meets_bind (meets_sendCommand (Q := Stage .selected 2 f) debug hsound ?_ hsound)
    fun _ => ?_
  · exact fun _ h => h.command rfl fun _ => rfl
  · exact meets_bind (statusOf_meets hsound) fun _ => meets_pure fun _ h => h

theorem bringUp_stage :
    Meets track (fun seen => Sound seen ∧ seen.card = card) (bringUp debug b fuel)
      (fun emmc seen => emmc.selected = some rca ∧ Stage .selected 2 (some .m20) seen) Sound := by
  have hstop : ∀ seen, Sound seen ∧ seen.card = card → Sound seen := fun _ h => h.1
  refine meets_bind (meets_operation (Q := fun _ seen => Sound seen ∧ seen.card = card)
    (fun _ _ _ _ h => h) nofun) fun sbmr1 => ?_
  refine meets_bind (meets_ensure (S := fun _ seen => Sound seen ∧ seen.card = card)
    (fun _ h _ => h) hstop) fun _ => ?_
  refine meets_bind (meets_operation (Q := fun _ seen => Sound seen ∧ seen.card = card)
    (fun _ _ _ _ h => h) nofun) fun _ => ?_
  refine meets_bind (meets_rmw (Q := fun seen => Sound seen ∧ seen.card = card) b
    fun _ _ h => h) fun _ => ?_
  refine meets_bind (softwareReset_stage debug b fuel) fun _ => ?_
  refine meets_bind (meets_mapStop (resetCards_stage debug b)) fun _ => ?_
  refine meets_bind (meets_mapStop (validate_stage debug b fuel)) fun _ => ?_
  refine meets_bind (meets_mapStop (registerCards_stage debug b)) fun _ => ?_
  refine meets_bind (meets_mapStop (selectCard_stage debug b fresh)) fun emmc => ?_
  refine meets_fact fun hemmc => ?_
  refine meets_bind (meets_mapStop (changeBusWidth_widens debug b)) fun _ => ?_
  refine meets_bind (wired_changeFrequency b fuel .m20) fun _ => ?_
  refine meets_bind (meets_mapStop (meets_within fun _ =>
    readSingleBlock_stage debug fuel hemmc)) fun _ => ?_
  refine meets_bind (meets_operation (Q := fun _ => Stage .selected 2 (some .m20))
    (fun _ _ _ _ h => h) nofun) fun extCsd => ?_
  exact meets_pure fun _ h => ⟨hemmc, h⟩

/-- From any state of the card, and whatever the board answers: every command is one that the card
accepts where it is, no data go over lines that the other side does not use, and neither a reset
nor other dividers meet a running clock. Where `take` returns the driver, its card is the selected
one, with eight lines on both sides and a running clock of 20 MHz. -/
theorem take_brings (available : Bool) (seen : Seen) (hsound : seen.sound = true) :
    Does (take debug b fuel available) fun ops result =>
      (ops.foldl track seen).sound = true ∧
      ∀ emmc, result = .ok (some (.ok emmc)) →
        emmc.selected = some rca ∧ Stage .selected 2 (some .m20) (ops.foldl track seen) := by
  have htake : Meets track (fun st => Sound st ∧ st.card = seen.card)
      (take debug b fuel available)
      (fun result st => Sound st ∧ ∀ emmc, result = some (.ok emmc) →
        emmc.selected = some rca ∧ Stage .selected 2 (some .m20) st) Sound := by
    cases available with
    | false => exact meets_pure fun _ h => ⟨h.1, nofun⟩
    | true =>
      refine meets_bind (bringUp_stage debug b fuel) fun emmc => meets_pure fun st h => ?_
      refine ⟨h.2.sound, ?_⟩
      rintro other ⟨⟩
      exact h
  refine (htake seen ⟨hsound, rfl⟩).imp fun ops result h => ?_
  cases result with
  | ok a =>
    refine ⟨(h.1 a rfl).1, ?_⟩
    rintro emmc ⟨⟩
    exact (h.1 _ rfl).2 emmc rfl
  | error stop => exact ⟨h.2 stop rfl, nofun⟩

end Stages

/-- A card that is ready for data at once, and a clock that is always stable. -/
def ideal : Board where
  controller _ :=
    { cc := fun _ => false
      responds := fun _ cmd => match cmd with
        | .sendOpCond _ => some (.ok ⟨ocrRdy, 0⟩ (fun _ => []) none)
        | _ => some (.ok ⟨0x900, 0⟩ (fun _ => []) none)
      dla := fun _ => false
      late := fun _ => false }
  register _ r := match r with
    | .presState => sdstb
    | _ => 0
  bootMode _ := 0
  late _ := false
  addr := 0x80000000
  extCsd _ i := if i = 213 then 1 else 0

def bootedBlocks (result : Except (Stop (Fault Error)) (Option (Except Error Emmc))) :
    Option UInt32 :=
  match result with
  | .ok (some (.ok emmc)) => some emmc.blocks
  | _ => none

theorem take_brings_ideal :
    ∃ emmc after, perform (take true ideal 1 true) [] = (.ok (some (.ok emmc)), after) ∧
      emmc.blocks = 256 ∧
      Stage .selected 2 (some .m20) (after.foldl track ⟨.idle, 0, 0, 0, 0, true⟩) := by
  obtain ⟨ops, hops, -, hstage⟩ := take_brings true ideal 1 true ⟨.idle, 0, 0, 0, 0, true⟩ rfl []
  have hrun : bootedBlocks (perform (take true ideal 1 true) []).1 = some 256 := by decide +kernel
  match hresult : (perform (take true ideal 1 true) []).1 with
  | .ok (some (.ok emmc)) =>
    rw [hresult] at hrun
    exact ⟨emmc, ops, Prod.ext hresult hops, Option.some.inj hrun, (hstage emmc hresult).2⟩
  | .ok (some (.error _)) | .ok none | .error _ =>
    rw [hresult] at hrun
    cases hrun

end UsbArmory.Storage.Bringup
