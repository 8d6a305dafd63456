import UsbArmory.Library.Run
import UsbArmory.Storage.EmmcDriver

/-!
# Which command a latched flag belongs to

Between two calls nothing that a wait looks for is latched. During a call only
its own command has raised the flags of the waits, and the response register
holds its own response from the moment `CC` is set.
-/

set_option autoImplicit false

namespace UsbArmory.Storage.EmmcInvariant
open UsbArmory.Library.Latch UsbArmory.Storage.EmmcCommand UsbArmory.Storage.EmmcDriver

variable {s t : State} {cmd : Command} {mask : Flag → Bool} {debug : Bool}

/-- The command is issued and its call has not returned. -/
def inFlight : Pc → Bool
  | .idle | .entered _ => false
  | _ => true

def dataCall : Pc → Bool
  | .idle => false
  | .entered cmd | .waiting cmd | .missed cmd | .completed cmd _ | .acknowledged cmd _
  | .transferring cmd _ _ | .stalled cmd _ _ | .transferred cmd _ _ _ => cmd.dataPresent

/-- The command of the last call, if that call returned an error. -/
def failedCommand (s : State) : Option ℕ :=
  match s.last with
  | some (id, .err _) => some id
  | _ => none

/-- The bits that the step clears if it returns an error. -/
def errExit (s : State) (reading : Bool) : Option (Flag → Bool) :=
  match s.pc with
  | .missed _ | .stalled _ _ _ => if reading then some fun _ => false else none
  | .completed _ seen => (waitError seen).map Prod.fst
  | .acknowledged cmd _ => (cardError cmd s.cmdRsp0).map fun _ _ => false
  | .transferred _ _ _ done => (waitError done).map Prod.fst
  | _ => none

/-- The bits that the step clears if it returns a response. -/
def okExit (s : State) : Option (Flag → Bool) :=
  match s.pc with
  | .acknowledged cmd _ =>
    if cmd.dataPresent || (cardError cmd s.cmdRsp0).isSome then none else some fun _ => false
  | .transferred _ _ _ done => if (waitError done).isSome then none else some transferDone
  | _ => none

/-- A flag that comes while its command is in flight, or that no later call
takes for its own. -/
def InTime (s : State) (id : ℕ) (f : Flag) : Prop :=
  (inFlight s.pc = true ∧ id = s.issued) ∨
    (f ≠ .cc ∧ f ≠ .dint ∧ (f = .tc → dataCall s.pc = false) ∧
      (inFlight s.pc = false → failedCommand s ≠ some id))

/-- A step that leaves no flag behind for a later call. -/
def Tidy (s : State) : Event → Prop
  | .clearTc => True
  | .call cmd => cmd.dataPresent = true → isSet s.intStatus .tc = false
  | .advance reading =>
    (∀ mask ∈ errExit s reading, Within s.intStatus s.issued mask) ∧
      ∀ mask ∈ okExit s, ∀ f, f = .cc ∨ f = .dint → isSet s.intStatus f = true → mask f = true
  | .raise id f _ => InTime s id f

def NoneLeft (s : State) : Prop := ∀ id ∈ failedCommand s, Absent s.intStatus id

/-- A call that returned a response waited for the flags of its own command. -/
def Attributed : ℕ × Outcome → Prop
  | (id, .ok rsp seen done) =>
    id ∈ seen .cc ∧ rsp.sender = id ∧ ∀ d ∈ done, id ∈ d .tc ∧ id ∈ d .dint
  | (_, .err _) => True

structure Between (s : State) : Prop where
  cc : s.intStatus .cc = []
  dint : s.intStatus .dint = []
  noneLeft : NoneLeft s

structure During (s : State) (cmd : Command) : Prop where
  cc : Owned s.intStatus s.issued .cc
  dint : Owned s.intStatus s.issued .dint
  tc : cmd.dataPresent = true → Owned s.intStatus s.issued .tc
  sender : s.intStatus .cc ≠ [] → s.cmdRsp0.sender = s.issued

def Phase (s : State) : Prop :=
  match s.pc with
  | .idle => Between s
  | .entered cmd => Between s ∧ (cmd.dataPresent = true → s.intStatus .tc = [])
  | .waiting cmd | .missed cmd => During s cmd
  | .completed cmd seen => During s cmd ∧
      (waitError seen = none → s.issued ∈ seen .cc ∧ s.cmdRsp0.sender = s.issued)
  | .acknowledged cmd seen => During s cmd ∧ s.issued ∈ seen .cc ∧ s.cmdRsp0.sender = s.issued
  | .transferring cmd seen rsp | .stalled cmd seen rsp =>
    During s cmd ∧ cmd.dataPresent = true ∧ s.issued ∈ seen .cc ∧ rsp.sender = s.issued
  | .transferred cmd seen rsp done =>
    During s cmd ∧ (s.issued ∈ seen .cc ∧ rsp.sender = s.issued) ∧
      (waitError done = none → s.issued ∈ done .tc ∧ s.issued ∈ done .dint)

structure Inv (s : State) : Prop where
  known : ∀ f, ∀ id ∈ s.intStatus f, id ≤ s.issued
  last : ∀ r ∈ s.last, Attributed r
  phase : Phase s

theorem waitError_none {seen : IntStatus} (h : waitError seen = none) : hasError seen = false := by
  unfold waitError at h
  split at h
  · cases h
  · split at h
    · cases h
    · rename_i hnone
      exact Bool.not_eq_true _ ▸ hnone

theorem start_inv (rsp : Reply) (arg xfrTyp : UInt32) : Inv (start rsp arg xfrTyp) where
  known _ _ hid := nomatch hid
  last _ hr := nomatch hr
  phase := ⟨rfl, rfl, fun _ hid => nomatch hid⟩

theorem During.goto (h : During s cmd) (pc : Pc) : During (s.goto pc) cmd :=
  ⟨h.cc, h.dint, h.tc, h.sender⟩

theorem noneLeft_ok {rsp : Reply} {seen : IntStatus} {done : Option IntStatus} :
    NoneLeft (s.ret (.ok rsp seen done)) :=
  fun _ hid => nomatch hid

theorem known_clear (mask : Flag → Bool) (h : ∀ f, ∀ id ∈ s.intStatus f, id ≤ s.issued) :
    ∀ f, ∀ id ∈ (s.clear mask).intStatus f, id ≤ s.issued :=
  fun f id hid => h f id (clear_subset s.intStatus mask hid)

theorem fail_inv (e : Error) (hknown : ∀ f, ∀ id ∈ s.intStatus f, id ≤ s.issued)
    (hdur : During s cmd) (hwithin : Within s.intStatus s.issued mask) : Inv (s.fail mask e) := by
  have habs : Absent (clear s.intStatus mask) s.issued := absent_clear hwithin
  have hleft : NoneLeft (s.fail mask e) := by
    intro id hid
    cases hid
    exact habs
  have hcc := owned_absent (owned_clear mask hdur.cc) (habs .cc)
  have hdint := owned_absent (owned_clear mask hdur.dint) (habs .dint)
  refine ⟨known_clear mask hknown, fun r hr => ?_,
    ⟨hcc, hdint, hleft⟩⟩
  cases hr
  trivial

theorem ok_inv (mask : Flag → Bool) {rsp : Reply} {seen : IntStatus} {done : Option IntStatus}
    (hknown : ∀ f, ∀ id ∈ s.intStatus f, id ≤ s.issued)
    (hclear : ∀ f, f = .cc ∨ f = .dint → isSet s.intStatus f = true → mask f = true)
    (hattr : Attributed (s.issued, .ok rsp seen done)) :
    Inv ((s.clear mask).ret (.ok rsp seen done)) := by
  have hempty : ∀ f, f = .cc ∨ f = .dint → clear s.intStatus mask f = [] := by
    intro f hf
    by_cases hset : isSet s.intStatus f = true
    · exact clear_masked _ (hclear f hf hset)
    · exact clear_nil mask (isSet_eq_false.mp (Bool.not_eq_true _ ▸ hset))
  refine ⟨known_clear mask hknown, fun r hr => ?_,
    ⟨hempty .cc (.inl rfl), hempty .dint (.inr rfl), noneLeft_ok⟩⟩
  cases hr
  exact hattr

end UsbArmory.Storage.EmmcInvariant
