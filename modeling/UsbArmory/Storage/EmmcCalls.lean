import UsbArmory.Storage.EmmcBlocks

/-!
# The commands of an access

What each function of the driver issues at most: an access of one block issues
one command for this block, and status requests before and after it.
-/

set_option autoImplicit false

namespace UsbArmory.Storage.EmmcCalls
open UsbArmory.Library.Binary UsbArmory.Library.Trace UsbArmory.Storage.EmmcCommand
open UsbArmory.Storage.EmmcDriver UsbArmory.Storage.MbrDisk UsbArmory.Storage.MbrPartition
open UsbArmory.Storage.EmmcBlocks

variable {E F α β : Type}

def blockCommand : Op → Option Command
  | .command (.readSingleBlock n) => some (.readSingleBlock n)
  | .command (.writeSingleBlock n) => some (.writeSingleBlock n)
  | _ => none

def blockCommands (ops : List Op) : List Command := ops.filterMap blockCommand

def Panics (r : Except (Stop (Fault E)) α) : Prop := ∃ message, r = .error (.panic message)

/-- No panic, and no other block commands than these, each at most once. -/
def AtMost (cmds : List Command) (ops : List Op) (r : Except (Stop (Fault E)) α) : Prop :=
  (blockCommands ops).Sublist cmds ∧ ¬Panics r

section Rules
variable {x : Io E α} {f : α → Io E β} {cmds rest : List Command}

theorem atMost_bind (hx : Does x (AtMost cmds)) (hf : ∀ a, Does (f a) (AtMost rest)) :
    Does (x >>= f) (AtMost (cmds ++ rest)) := by
  refine does_bind hx ?_ ?_
  · rintro ops stop ⟨hops, hstop⟩
    refine ⟨hops.trans (List.sublist_append_left _ _), ?_⟩
    rintro ⟨message, hpanic⟩
    exact hstop ⟨message, congrArg Except.error (Except.error.inj hpanic)⟩
  · rintro a ops ⟨hops, -⟩
    refine (hf a).imp ?_
    rintro more r ⟨hmore, hr⟩
    refine ⟨?_, hr⟩
    rw [blockCommands, List.filterMap_append]
    exact hops.append hmore

theorem atMost_pure (a : α) : Does (pure a : Io E α) (AtMost []) := by
  refine does_pure ⟨List.Sublist.refl _, ?_⟩
  rintro ⟨message, hpanic⟩
  cases hpanic

theorem atMost_fault (e : Fault E) : Does (throw (.error e) : Io E α) (AtMost []) := by
  refine does_throw ⟨List.Sublist.refl _, ?_⟩
  rintro ⟨message, hpanic⟩
  cases hpanic

theorem atMost_endless : Does (throw .endless : Io E α) (AtMost []) := by
  refine does_throw ⟨List.Sublist.refl _, ?_⟩
  rintro ⟨message, hpanic⟩
  cases hpanic

theorem atMost_operation {g : List Op → Op × Except (Stop (Fault E)) α}
    (h : ∀ before, blockCommand (g before).1 = none ∧ ¬Panics (g before).2) :
    Does (operation g) (AtMost []) := by
  refine does_operation fun before => ⟨?_, (h before).2⟩
  rw [blockCommands, List.filterMap_cons_none (h before).1]
  exact List.Sublist.refl _

end Rules

theorem not_panics_ok (a : α) : ¬Panics (.ok a : Except (Stop (Fault E)) α) := by
  rintro ⟨message, hpanic⟩
  cases hpanic

/-- In a debug build nothing is left of an earlier command. -/
def Quiet (debug : Bool) (c : Controller) : Prop := debug = true → ∀ before, c.cc before = false

section Driver
variable {debug : Bool} {c : Controller}

theorem not_panics_answer (o : Option Outcome) : ¬Panics (answer o) := by
  rintro ⟨message, hpanic⟩
  cases o with
  | none => cases hpanic
  | some o => cases o <;> cases hpanic

theorem atMost_sendCommand (hquiet : Quiet debug c) (cmd : Command) :
    Does (sendCommand debug c cmd) (AtMost (blockCommand (.command cmd)).toList) := by
  have hsend : Does (operation fun before => (Op.command cmd, answer (c.responds before cmd)))
      (AtMost (blockCommand (.command cmd)).toList) := by
    refine does_operation fun before => ⟨?_, not_panics_answer _⟩
    rw [blockCommands]
    cases cmd <;> exact List.Sublist.refl _
  cases debug with
  | false => exact hsend
  | true =>
    refine does_bind (Q := fun ops r => (∃ cc, ops = [.intStatus cc]) ∧ r = .ok false) ?_ ?_ ?_
    · refine does_operation fun before => ⟨⟨_, rfl⟩, ?_⟩
      rw [hquiet rfl before]
    · rintro ops stop ⟨-, hstop⟩
      cases hstop
    · rintro cc ops ⟨⟨reading, rfl⟩, hcc⟩
      cases hcc
      exact does_ensure rfl (hsend.imp fun rest r h => h)

theorem atMost_statusOf (rsp : UInt32) : Does (statusOf rsp) (AtMost []) := by
  rw [statusOf]
  cases Status.ofBits rsp with
  | ok status => exact atMost_pure status
  | error status => exact atMost_fault _

theorem atMost_getCardStatus (hquiet : Quiet debug c) (rca : Rca) :
    Does (getCardStatus debug c rca) (AtMost []) :=
  atMost_bind (atMost_sendCommand hquiet _) atMost_statusOf

theorem atMost_step (op : Op) (h : blockCommand op = none) : Does (step op) (AtMost []) :=
  atMost_operation fun _ => ⟨h, not_panics_ok ()⟩

theorem atMost_waitDla (c : Controller) (fuel : ℕ) : Does (waitDla c fuel) (AtMost []) := by
  induction fuel with
  | zero => exact atMost_endless
  | succ fuel ih =>
    refine atMost_bind (atMost_operation fun before => ⟨rfl, not_panics_ok _⟩) fun dla => ?_
    cases dla with
    | true => exact ih
    | false => exact atMost_pure ()

theorem atMost_prepare (c : Controller) (fuel : ℕ) (dtdsel addr : UInt32) :
    Does (prepare c fuel dtdsel addr) (AtMost []) :=
  atMost_bind (atMost_step _ rfl) fun _ => atMost_bind (atMost_waitDla c fuel) fun _ =>
    atMost_bind (atMost_step _ rfl) fun _ => atMost_bind (atMost_step _ rfl) fun _ =>
    atMost_bind (atMost_step _ rfl) fun _ => atMost_step _ rfl

theorem atMost_transferState (hquiet : Quiet debug c) (emmc : Emmc) (block : BlockPtr) :
    Does (transferState debug c emmc block.val) (AtMost []) := by
  have hselected : Does (selectedRca emmc) (AtMost []) := by
    rw [selectedRca]
    cases emmc.selected with
    | some rca => exact atMost_pure rca
    | none => exact atMost_fault _
  have hrest : ∀ rca, Does (do
      let status ← getCardStatus debug c rca
      if !Status.readyForData status || status.state ≠ .transfer then
        throw (.error (.err .notInTransferState))
      pure rca) (AtMost []) := by
    intro rca
    refine atMost_bind (atMost_getCardStatus hquiet rca) fun status => ?_
    split
    next => exact atMost_bind (atMost_fault _) fun _ => atMost_pure rca
    next => exact atMost_pure rca
  refine atMost_bind hselected fun rca => ?_
  cases debug with
  | true => exact does_ensure block.property (hrest rca)
  | false => exact hrest rca

theorem atMost_readSingleBlock (hquiet : Quiet debug c) (fuel : ℕ) (emmc : Emmc) (n : UInt32)
    (block : BlockPtr) :
    Does (readSingleBlock debug c fuel emmc (some n) block.val) (AtMost [.readSingleBlock n]) :=
  atMost_bind (atMost_transferState hquiet emmc block) fun _ =>
    atMost_bind (atMost_prepare c fuel _ _) fun _ =>
    atMost_bind (atMost_sendCommand hquiet (.readSingleBlock n)) fun rsp =>
    atMost_bind (atMost_statusOf rsp) fun _ => atMost_pure ()

theorem atMost_programmed (hquiet : Quiet debug c) (rca : Rca) (fuel : ℕ) :
    Does (programmed debug c rca fuel) (AtMost []) := by
  induction fuel with
  | zero => exact atMost_endless
  | succ fuel ih =>
    refine atMost_bind (atMost_getCardStatus hquiet rca) fun status => ?_
    split
    next =>
      refine atMost_bind (atMost_operation fun before => ⟨rfl, not_panics_ok _⟩) fun late => ?_
      cases late with
      | true => exact atMost_fault _
      | false => exact ih
    next => exact atMost_pure ()

theorem atMost_writeSingleBlock (hquiet : Quiet debug c) (fuel : ℕ) (emmc : Emmc) (n : UInt32)
    (block : BlockPtr) :
    Does (writeSingleBlock debug c fuel emmc n block.val) (AtMost [.writeSingleBlock n]) := by
  refine atMost_bind (atMost_transferState hquiet emmc block) fun rca =>
    atMost_bind (atMost_prepare c fuel _ _) fun _ =>
    atMost_bind (atMost_sendCommand hquiet (.writeSingleBlock n)) fun rsp =>
    atMost_bind (atMost_statusOf rsp) fun status => ?_
  split
  next => exact atMost_programmed hquiet rca fuel
  next => exact atMost_pure ()

end Driver

end UsbArmory.Storage.EmmcCalls
