import Mathlib.Order.Bounds.Basic
import UsbArmory.Library.Run

/-!
# Nested handlers on one processor

`export::run` and `export::lock` as register writes on a stack of handler
activations above idle. Each write is one step of the activation on top, and
an interrupt may arrive before any of them: it is taken when its hardware
priority is below the mask and its logical priority above the running one.
The ceiling of a resource is the largest priority of the contexts that access
it.
-/

set_option autoImplicit false

namespace UsbArmory.Rtic.Preemption
open UsbArmory.Library.Run

def prioBits : ℕ := 5

/-- `logical2hw` on the priorities `0..=31`, in eight bits. -/
def logical2hw (logical : ℕ) : ℕ := ((1 <<< prioBits) - logical - 1) <<< (8 - prioBits)

/-- Contexts are the tasks and idle, `none`, at priority 0. -/
structure App (Task Res : Type) where
  taskPriority : Task → ℕ
  access : Option Task → Res → Bool
  ceiling : Res → ℕ
  priority_pos : ∀ t, 1 ≤ taskPriority t
  priority_le : ∀ t, taskPriority t ≤ 31
  ceiling_max : ∀ r, (∃ x, access x r = true) →
    IsGreatest {p | ∃ x, access x r = true ∧ x.elim 0 taskPriority = p} (ceiling r)

/-- A call of `lock`: `raised` after `priority.set(ceiling)`, `inside` the
closure, `unmasked` after the second mask write, or in the `direct` branch. -/
inductive LockPc where
  | raised
  | inside
  | unmasked
  | direct
  deriving DecidableEq

structure Frame (Res : Type) where
  res : Res
  current : ℕ
  pc : LockPc

/-- Before `run` reads the mask, in the closure of `run`, after it, and after
the mask write at the end of `run`. -/
inductive Phase where
  | entering
  | body
  | leaving
  | exited
  deriving DecidableEq

/-- `cell` is the `Priority` of the task being run, `initial` what `run` has
read from the mask. `entry` is history: the mask when the handler was taken. -/
structure Activation (Task Res : Type) where
  ctx : Option Task
  cell : ℕ
  frames : List (Frame Res)
  phase : Phase
  initial : ℕ
  entry : ℕ

/-- The activation that runs comes first, idle last. -/
structure State (Task Res : Type) where
  pmr : ℕ
  stack : List (Activation Task Res)

inductive Action (Res : Type) where
  | runRead
  | newTask
  | lockEnter (r : Res)
  | lockMask
  | lockUnmask
  | lockLeave
  | bodyEnd
  | runRestore

inductive Event (Task Res : Type) where
  | take (t : Task)
  | act (a : Action Res)
  | endOfInterrupt

variable {Task Res : Type}

def App.priority (app : App Task Res) (x : Option Task) : ℕ := x.elim 0 app.taskPriority

def LockPc.isOpen : LockPc → Bool
  | .inside | .direct => true
  | .raised | .unmasked => false

/-- User code runs: no `lock` of this activation is between two writes. -/
def inUserCode (a : Activation Task Res) : Bool :=
  a.phase = .body && (a.frames.head?.all fun f => f.pc.isOpen)

/-- A handler that is being taken, with a fresh `Priority`. -/
def App.handler (app : App Task Res) (t : Task) (pmr : ℕ) : Activation Task Res :=
  { ctx := some t, cell := app.taskPriority t, frames := [], phase := .entering, initial := 0,
    entry := pmr }

/-- The mask and the running activation after one write. -/
def actStep (app : App Task Res) (pmr : ℕ) (a : Activation Task Res) :
    Action Res → Option (ℕ × Activation Task Res)
  | .runRead =>
    if a.phase = .entering then
      some (pmr, { a with
        initial := if app.priority a.ctx = 1 then a.initial else pmr
        phase := .body })
    else none
  | .newTask =>
    match a.frames with
    | [] => if a.phase = .body then some (pmr, { a with cell := app.priority a.ctx }) else none
    | _::_ => none
  | .lockEnter r =>
    if inUserCode a ∧ app.access a.ctx r then
      if a.cell < app.ceiling r then
        some (pmr, { a with cell := app.ceiling r, frames := ⟨r, a.cell, .raised⟩::a.frames })
      else some (pmr, { a with frames := ⟨r, a.cell, .direct⟩::a.frames })
    else none
  | .lockMask =>
    match a.frames with
    | ⟨r, current, .raised⟩::frames =>
      some (logical2hw (app.ceiling r), { a with frames := ⟨r, current, .inside⟩::frames })
    | _ => none
  | .lockUnmask =>
    match a.frames with
    | ⟨r, current, .inside⟩::frames =>
      some (logical2hw current, { a with frames := ⟨r, current, .unmasked⟩::frames })
    | _ => none
  | .lockLeave =>
    match a.frames with
    | ⟨_, current, .unmasked⟩::frames => some (pmr, { a with cell := current, frames := frames })
    | ⟨_, _, .direct⟩::frames => some (pmr, { a with frames := frames })
    | _ => none
  | .bodyEnd =>
    match a.ctx, a.frames with
    | some _, [] => if a.phase = .body then some (pmr, { a with phase := .leaving }) else none
    | _, _ => none
  | .runRestore =>
    if a.phase = .leaving then
      some (if app.priority a.ctx = 1 then logical2hw 0 else a.initial, { a with phase := .exited })
    else none

def step (app : App Task Res) (s : State Task Res) : Event Task Res → Option (State Task Res)
  | .take t =>
    match s.stack with
    | a::rest =>
      if logical2hw (app.taskPriority t) < s.pmr ∧ app.priority a.ctx < app.taskPriority t then
        some { s with stack := app.handler t s.pmr::a::rest }
      else none
    | [] => none
  | .act action =>
    match s.stack with
    | a::rest => (actStep app s.pmr a action).map fun (pmr, a') => ⟨pmr, a'::rest⟩
    | [] => none
  | .endOfInterrupt =>
    match s.stack with
    | a::rest => if a.phase = .exited then some { s with stack := rest } else none
    | [] => none

/-- Idle, with the mask that `pre_init` has set. -/
def start : State Task Res :=
  { pmr := logical2hw 0,
    stack := [{ ctx := none, cell := 0, frames := [], phase := .body, initial := logical2hw 0,
                entry := logical2hw 0 }] }

/-- The context is inside the closure, or in the direct branch, of `r`. -/
def Opens (a : Activation Task Res) (r : Res) : Prop :=
  ∃ f ∈ a.frames, f.res = r ∧ f.pc.isOpen = true

theorem lt_of_logical2hw_lt {p q : ℕ} (h : logical2hw q < logical2hw p) : p < q := by
  simp only [logical2hw, prioBits, Nat.shiftLeft_eq] at h
  omega

theorem App.access_le_ceiling (app : App Task Res) (x : Option Task) (r : Res)
    (h : app.access x r = true) : app.priority x ≤ app.ceiling r :=
  (app.ceiling_max r ⟨x, h⟩).2 ⟨x, h, rfl⟩

end UsbArmory.Rtic.Preemption
