import Mathlib.Algebra.BigOperators.Group.Finset.Basic
import Mathlib.Data.Fintype.Basic
import UsbArmory.Library.Run
import UsbArmory.Library.Token
import UsbArmory.Rtic.Codegen

/-!
# Spawners and dispatchers

The generated spawn bodies and dispatcher loops as one machine. A step is one
queue operation, slot access or SGI write, and the steps of any number of
spawners and of the dispatchers of all levels interleave freely: priorities
only remove interleavings. The queues are bounded FIFOs of the capacity of
their type, and a locked queue operation is one step. `enqueue_unchecked`
appends without a look at the capacity, as in the source.
-/

set_option autoImplicit false

namespace UsbArmory.Rtic.MessagePassing
open UsbArmory.Library.Run UsbArmory.Rtic.Codegen

/-- The software tasks that are spawned, with the sizes the generator gives
their queue types. -/
structure Config (Task : Type) [Fintype Task] where
  task : Task → SoftwareTask
  fqSize : Task → ℕ
  rqSize : ℕ → ℕ
  priority_pos : ∀ t, 1 ≤ (task t).priority
  capacity_pos : ∀ t, 1 ≤ (task t).capacity
  fqSize_eq : ∀ t, capacityTypenum (task t).capacity true = some (fqSize t)
  rqSize_eq : ∀ t, capacityTypenum
    (∑ u with (task u).priority = (task t).priority, (task u).capacity) true =
      some (rqSize (task t).priority)

inductive Spawner (Task Msg : Type) where
  | idle
  | dequeue (t : Task) (input : Msg)
  | write (t : Task) (input : Msg) (index : ℕ)
  | enqueue (t : Task) (input : Msg) (index : ℕ)
  | pend (t : Task) (input : Msg)
  | returned (t : Task) (input : Msg) (result : Except Msg Unit)

inductive Dispatch (Task Msg : Type) where
  | idle
  | dequeue
  | read (t : Task) (index : ℕ)
  | free (t : Task) (index : ℕ) (input : Option Msg)
  | run (t : Task) (input : Option Msg)
  | leave

/-- `enqueued` and `reads` are history: the enqueues and the slot reads of
each level, oldest first. Each call of a spawn function has its own number. -/
structure State (Task Msg : Type) where
  fq : Task → List ℕ
  rq : ℕ → List (Task × ℕ)
  inputs : Task → ℕ → Option Msg
  pending : ℕ → Bool
  spawner : ℕ → Spawner Task Msg
  dispatcher : ℕ → Dispatch Task Msg
  enqueued : ℕ → List (ℕ × Task × Msg)
  reads : ℕ → List (Task × Option Msg)

inductive Event (Task Msg : Type) where
  | call (sid : ℕ) (t : Task) (input : Msg)
  | spawn (sid : ℕ)
  | sgi (level : ℕ)
  | dispatch (level : ℕ)

section Machine
variable {Task Msg : Type} [Fintype Task] [DecidableEq Task]

def Config.level (c : Config Task) (t : Task) : ℕ := (c.task t).priority
def Config.capacity (c : Config Task) (t : Task) : ℕ := (c.task t).capacity

def State.setSpawner (s : State Task Msg) (sid : ℕ) (pc : Spawner Task Msg) : State Task Msg :=
  { s with spawner := Function.update s.spawner sid pc }

def State.setDispatch (s : State Task Msg) (level : ℕ) (pc : Dispatch Task Msg) :
    State Task Msg :=
  { s with dispatcher := Function.update s.dispatcher level pc }

/-- After `pre_init`: every free queue holds the indices of its slots. -/
def Config.init (c : Config Task) : State Task Msg :=
  { fq := fun t => List.range (c.capacity t), rq := fun _ => [], inputs := fun _ _ => none,
    pending := fun _ => false, spawner := fun _ => .idle, dispatcher := fun _ => .idle,
    enqueued := fun _ => [], reads := fun _ => [] }

def spawnStep (c : Config Task) (s : State Task Msg) (sid : ℕ) : Option (State Task Msg) :=
  match s.spawner sid with
  | .dequeue t m =>
    match s.fq t with
    | [] => some (s.setSpawner sid (.returned t m (.error m)))
    | i::rest => some { s.setSpawner sid (.write t m i) with fq := Function.update s.fq t rest }
  | .write t m i => some { s.setSpawner sid (.enqueue t m i) with
      inputs := Function.update s.inputs t (Function.update (s.inputs t) i (some m)) }
  | .enqueue t m i => some { s.setSpawner sid (.pend t m) with
      rq := Function.update s.rq (c.level t) (s.rq (c.level t) ++ [(t, i)])
      enqueued := Function.update s.enqueued (c.level t) (s.enqueued (c.level t) ++ [(sid, t, m)]) }
  | .pend t m => some { s.setSpawner sid (.returned t m (.ok ())) with
      pending := Function.update s.pending (pendedSgi (prio2sgi (c.level t))) true }
  | .idle | .returned .. => none

def dispatchStep (s : State Task Msg) (level : ℕ) : Option (State Task Msg) :=
  match s.dispatcher level with
  | .dequeue =>
    match s.rq level with
    | [] => some (s.setDispatch level .leave)
    | (t, i)::rest => some { s.setDispatch level (.read t i) with
        rq := Function.update s.rq level rest }
  | .read t i => some { s.setDispatch level (.free t i (s.inputs t i)) with
      reads := Function.update s.reads level (s.reads level ++ [(t, s.inputs t i)]) }
  | .free t i m => some { s.setDispatch level (.run t m) with
      fq := Function.update s.fq t (s.fq t ++ [i]) }
  | .run .. => some (s.setDispatch level .dequeue)
  | .leave => some (s.setDispatch level .idle)
  | .idle => none

/-- The handler of a level is taken when its SGI is pending and it is not
active; taking it clears the pending state. -/
def step (c : Config Task) (s : State Task Msg) : Event Task Msg → Option (State Task Msg)
  | .call sid t m =>
    match s.spawner sid with
    | .idle => some (s.setSpawner sid (.dequeue t m))
    | _ => none
  | .spawn sid => spawnStep c s sid
  | .sgi level =>
    match s.dispatcher level with
    | .idle =>
      if 1 ≤ level ∧ s.pending (prio2sgi level) then
        some { s.setDispatch level .dequeue with
          pending := Function.update s.pending (prio2sgi level) false }
      else none
    | _ => none
  | .dispatch level => dispatchStep s level

/-- The steps one by one, with everything each of them changes. -/
inductive Move (c : Config Task) (s : State Task Msg) : State Task Msg → Prop where
  | call (sid : ℕ) (t : Task) (m : Msg) (h : s.spawner sid = .idle) :
      Move c s (s.setSpawner sid (.dequeue t m))
  | refuse (sid : ℕ) (t : Task) (m : Msg) (h : s.spawner sid = .dequeue t m) (hq : s.fq t = []) :
      Move c s (s.setSpawner sid (.returned t m (.error m)))
  | take (sid : ℕ) (t : Task) (m : Msg) (i : ℕ) (rest : List ℕ) (h : s.spawner sid = .dequeue t m)
      (hq : s.fq t = i::rest) :
      Move c s { s.setSpawner sid (.write t m i) with fq := Function.update s.fq t rest }
  | write (sid : ℕ) (t : Task) (m : Msg) (i : ℕ) (h : s.spawner sid = .write t m i) :
      Move c s { s.setSpawner sid (.enqueue t m i) with
        inputs := Function.update s.inputs t (Function.update (s.inputs t) i (some m)) }
  | enqueue (sid : ℕ) (t : Task) (m : Msg) (i : ℕ) (h : s.spawner sid = .enqueue t m i) :
      Move c s { s.setSpawner sid (.pend t m) with
        rq := Function.update s.rq (c.level t) (s.rq (c.level t) ++ [(t, i)])
        enqueued :=
          Function.update s.enqueued (c.level t) (s.enqueued (c.level t) ++ [(sid, t, m)]) }
  | pend (sid : ℕ) (t : Task) (m : Msg) (h : s.spawner sid = .pend t m) :
      Move c s { s.setSpawner sid (.returned t m (.ok ())) with
        pending := Function.update s.pending (pendedSgi (prio2sgi (c.level t))) true }
  | sgi (level : ℕ) (h : s.dispatcher level = .idle) (h1 : 1 ≤ level)
      (hp : s.pending (prio2sgi level) = true) :
      Move c s { s.setDispatch level .dequeue with
        pending := Function.update s.pending (prio2sgi level) false }
  | empty (level : ℕ) (h : s.dispatcher level = .dequeue) (hq : s.rq level = []) :
      Move c s (s.setDispatch level .leave)
  | next (level : ℕ) (t : Task) (i : ℕ) (rest : List (Task × ℕ))
      (h : s.dispatcher level = .dequeue) (hq : s.rq level = (t, i)::rest) :
      Move c s { s.setDispatch level (.read t i) with rq := Function.update s.rq level rest }
  | read (level : ℕ) (t : Task) (i : ℕ) (h : s.dispatcher level = .read t i) :
      Move c s { s.setDispatch level (.free t i (s.inputs t i)) with
        reads := Function.update s.reads level (s.reads level ++ [(t, s.inputs t i)]) }
  | free (level : ℕ) (t : Task) (i : ℕ) (m : Option Msg) (h : s.dispatcher level = .free t i m) :
      Move c s { s.setDispatch level (.run t m) with fq := Function.update s.fq t (s.fq t ++ [i]) }
  | run (level : ℕ) (t : Task) (m : Option Msg) (h : s.dispatcher level = .run t m) :
      Move c s (s.setDispatch level .dequeue)
  | leave (level : ℕ) (h : s.dispatcher level = .leave) : Move c s (s.setDispatch level .idle)

theorem spawnStep_move (c : Config Task) (s s' : State Task Msg) (sid : ℕ)
    (h : spawnStep c s sid = some s') : Move c s s' := by
  unfold spawnStep at h
  split at h
  next t m hs =>
    split at h
    next hq =>
      cases h
      exact .refuse sid t m hs hq
    next i rest hq =>
      cases h
      exact .take sid t m i rest hs hq
  next t m i hs =>
    cases h
    exact .write sid t m i hs
  next t m i hs =>
    cases h
    exact .enqueue sid t m i hs
  next t m hs =>
    cases h
    exact .pend sid t m hs
  next => cases h
  next => cases h

theorem dispatchStep_move (c : Config Task) (s s' : State Task Msg) (level : ℕ)
    (h : dispatchStep s level = some s') : Move c s s' := by
  unfold dispatchStep at h
  split at h
  next hd =>
    split at h
    next hq =>
      cases h
      exact .empty level hd hq
    next t i rest hq =>
      cases h
      exact .next level t i rest hd hq
  next t i hd =>
    cases h
    exact .read level t i hd
  next t i m hd =>
    cases h
    exact .free level t i m hd
  next t m hd =>
    cases h
    exact .run level t m hd
  next hd =>
    cases h
    exact .leave level hd
  next => cases h

theorem step_move (c : Config Task) (s s' : State Task Msg) (e : Event Task Msg)
    (h : step c s e = some s') : Move c s s' := by
  cases e with
  | call sid t m =>
    simp only [step] at h
    split at h
    next hs =>
      cases h
      exact .call sid t m hs
    next => cases h
  | spawn sid => exact spawnStep_move c s s' sid h
  | sgi level =>
    simp only [step] at h
    split at h
    next hd =>
      split at h
      next hp =>
        cases h
        exact .sgi level hd hp.1 hp.2
      next => cases h
    next => cases h
  | dispatch level => exact dispatchStep_move c s s' level h

end Machine

end UsbArmory.Rtic.MessagePassing
