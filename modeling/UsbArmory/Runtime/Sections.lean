import Mathlib.Data.List.Basic
import Mathlib.Logic.Function.Basic
import UsbArmory.Library.Run

/-!
# Critical sections

`no_interrupts` and the `lock` of the USB driver's `Mutex`, between the handlers
that `IRQ` runs. A call reads CPSR, masks the interrupts, runs the closure and
unmasks them only if they were not masked before; an interrupt may arrive
between any two of these accesses, as long as it is not masked.
-/

set_option autoImplicit false

namespace UsbArmory.Runtime.Sections
open UsbArmory.Library.Run

/-- Code that works on data: what a `Mutex` holds, or, without one, what is
used in `no_interrupts` only. An update is a read and a write; what comes next
may depend on the value. -/
inductive Code (M V : Type)
  | done (r : V)
  | update (k : Option M) (f : V → V) (next : V → Code M V)
  | critical (k : Option M) (body : Code M V) (next : V → Code M V)

variable {M V : Type}

def noInterrupts (f : Code M V) (next : V → Code M V) : Code M V := .critical none f next
def lock (m : M) (f : Code M V) (next : V → Code M V) : Code M V := .critical (some m) f next

/-- Data is used in its sections, and no closure locks its own `Mutex` again. -/
def Guarded (held : List (Option M)) : Code M V → Prop
  | .done _ => True
  | .update k _ next => k ∈ held ∧ ∀ v, Guarded held (next v)
  | .critical k body next =>
    (k = none ∨ k ∉ held) ∧ Guarded (k::held) body ∧ ∀ v, Guarded held (next v)

abbrev Program (M V : Type) := {code : Code M V // Guarded [] code}

/-- `taken` is in `IRQ` before `enable_irq`, `ended` behind its `disable_irq`.
A section has `read` CPSR, has `entered` when the mask is set, and is `leaving`
when the closure has returned and the `RefCell` is free again. -/
inductive Phase (V : Type)
  | taken
  | ready
  | loaded (v : V)
  | read (cpsr : Bool)
  | entered (cpsr : Bool)
  | leaving (r : V)
  | ended

/-- A section that runs: the mask bit that it has read, and what comes behind it. -/
structure Frame (M V : Type) where
  key : Option M
  cpsr : Bool
  next : V → Code M V

/-- `outer` is history: whether the interrupts are masked outside of all sections. -/
structure Context (M V : Type) where
  phase : Phase V
  code : Code M V
  frames : List (Frame M V)
  spsr : Bool
  outer : Bool

/-- The context that runs comes first. `log` is history: the updates as they were written. -/
structure State (M V : Type) where
  masked : Bool
  borrowed : M → Bool
  data : Option M → V
  log : List (Option M × (V → V))
  stack : List (Context M V)
  panicked : Bool

inductive Event (M V : Type)
  | run
  | take (handler : Program M V)
  | spurious

section Step
variable [DecidableEq M]

/-- `borrow_mut`, and the end of the borrow. -/
def setBorrowed (k : Option M) (b : Bool) (borrowed : M → Bool) : M → Bool :=
  k.elim borrowed fun m => Function.update borrowed m b

/-- The exception return restores the mask that was there when the handler was entered. -/
def ret (s : State M V) (c : Context M V) : List (Context M V) → Option (State M V)
  | [] => none
  | b::below => some { s with masked := c.spsr, stack := b::below }

def advance (s : State M V) (c : Context M V) (below : List (Context M V)) : Option (State M V) :=
  match c.phase, c.code, c.frames with
  | .taken, _, _ => some { s with masked := false, stack := { c with phase := .ready }::below }
  | .ready, .update k _ _, _ =>
    some { s with stack := { c with phase := .loaded (s.data k) }::below }
  | .loaded v, .update k f next, _ =>
    some { s with
      data := Function.update s.data k (f v)
      log := s.log ++ [(k, f)]
      stack := { c with phase := .ready, code := next (f v) }::below }
  | .ready, .critical _ _ _, _ =>
    some { s with stack := { c with phase := .read s.masked }::below }
  | .read cpsr, .critical k _ _, _ =>
    -- `lock` leaves a mask alone that is set
    some { s with
      masked := if k.isNone || !cpsr then true else s.masked
      stack := { c with phase := .entered cpsr }::below }
  | .entered cpsr, .critical k body next, frames =>
    if k.any s.borrowed then some { s with panicked := true }
    else some { s with
      borrowed := setBorrowed k true s.borrowed
      stack := { c with phase := .ready, code := body, frames := ⟨k, cpsr, next⟩::frames }::below }
  | .ready, .done r, f::_ =>
    some { s with
      borrowed := setBorrowed f.key false s.borrowed
      stack := { c with phase := .leaving r }::below }
  | .leaving r, _, f::frames =>
    some { s with
      masked := if f.cpsr then s.masked else false
      stack := { c with phase := .ready, code := f.next r, frames := frames }::below }
  | .ready, .done _, [] =>
    match below with
    | [] => none
    | b::rest => some { s with masked := true, stack := { c with phase := .ended }::b::rest }
  | .ended, _, _ => ret s c below
  | _, _, _ => none

def step (s : State M V) (e : Event M V) : Option (State M V) :=
  match s.panicked, s.stack with
  | false, c::below =>
    match e with
    | .run => advance s c below
    | .take handler =>
      if s.masked then none
      else some { s with
        masked := true
        stack := ⟨.taken, handler.val, [], s.masked, false⟩::c::below }
    | .spurious => match c.phase with
      | .taken => ret s c below
      | _ => none
  | _, _ => none

end Step

/-- Nothing is locked; `main` may find the interrupts masked or not. -/
def start (main : Program M V) (masked : Bool) (data : Option M → V) : State M V :=
  { masked := masked, borrowed := fun _ => false, data := data, log := [],
    stack := [⟨.ready, main.val, [], false, masked⟩], panicked := false }

def replay [DecidableEq M] (k : Option M) (log : List (Option M × (V → V))) (v : V) : V :=
  (log.filter (·.1 = k)).foldl (fun v update => update.2 v) v

end UsbArmory.Runtime.Sections
