import Mathlib.Order.Interval.Finset.Nat
import Mathlib.Tactic.Common
import UsbArmory.Library.Traversal

/-!
# Interrupts and priorities in the generated application

The parts of the `#[app]` macro that number things: `check::app`, the
statements of `pre_init`, the dispatchers and the spawn bodies. Token streams
are lists of statements. `rtic_syntax` is outside the repository: an `App` is
its parsed application, an `Analysis` its result, and that it compresses the
priorities to `1..=N` is a hypothesis where it is used.
-/

set_option autoImplicit false

namespace UsbArmory.Rtic.Codegen
open UsbArmory.Library.Traversal

def nsgis : ℕ := 16

def idlePriority : ℕ := 0

/-- A variant of the generated `enum Interrupt`; the build script numbers
them from `IRQ_START`. -/
structure Interrupt where
  name : String
  irq : ℕ
  irq_ge : 32 ≤ irq

structure SoftwareTask where
  name : String
  priority : ℕ
  capacity : ℕ

structure HardwareTask where
  name : String
  binds : Interrupt
  priority : ℕ

structure App where
  softwareTasks : List SoftwareTask
  hardwareTasks : List HardwareTask

structure Channel where
  tasks : List String
  capacity : ℕ
  ceiling : Option ℕ

structure Analysis where
  freeQueues : List String
  channels : List (ℕ × Channel)

/-- Goes from SGI number to the priority it should run at. -/
def sgi2prio (sgi : ℕ) : ℕ := sgi+1

/-- Goes from dispatcher priority to the SGI that acts as the dispatcher. -/
def prio2sgi (logical : ℕ) : ℕ := logical-1

def fqIdent (task : String) : String := task ++ "_FQ"
def inputsIdent (task : String) : String := task ++ "_INPUTS"
def rqIdent (priority : ℕ) : String := "RQ" ++ toString priority
def sgiIdent (i : ℕ) : String := "SGI" ++ toString i
def spawnTIdent (priority : ℕ) : String := "T" ++ toString priority

/-- `u8::checked_next_power_of_two` -/
def checkedNextPowerOfTwo (n : ℕ) : Option ℕ :=
  ((List.range 8).map (2^·)).find? (n ≤ ·)

/-- The size of a queue type, `none` where no `u8` power of two holds the
capacity and the macro panics. -/
def capacityTypenum (capacity : ℕ) (roundUpToPowerOfTwo : Bool) : Option ℕ :=
  if roundUpToPowerOfTwo then checkedNextPowerOfTwo capacity else some capacity

theorem le_capacityTypenum (capacity n : ℕ) (h : capacityTypenum capacity true = some n) :
    capacity ≤ n := by
  simpa using List.find?_some h

def priorities (app : App) : Finset ℕ := (app.softwareTasks.map (·.priority)).toFinset

def check (app : App) : Except String Unit :=
  if nsgis < (priorities app).card then
    .error s!"cannot dispatch more than {nsgis} different priority levels"
  else .ok ()

inductive PreInitStmt where
  | fillFreeQueue (fq : String) (cap : ℕ)
  | enableGic
  | setPriorityMask (logical : ℕ)
  | setPriority (irq logical : ℕ)
  | enableSpi (irq : ℕ)
  deriving DecidableEq

def fillFreeQueue (app : App) (name : String) : Option PreInitStmt :=
  (app.softwareTasks.find? (·.name = name)).map fun task =>
    .fillFreeQueue (fqIdent name) task.capacity

def sgiPriorities (app : App) : List PreInitStmt :=
  (List.range (priorities app).card).map fun sgi => .setPriority sgi (sgi2prio sgi)

def spiPriorities (app : App) : List PreInitStmt :=
  app.hardwareTasks.flatMap fun task =>
    [.setPriority task.binds.irq task.priority, .enableSpi task.binds.irq]

/-- `none` where a free queue has no task and the index panics. -/
def preInit (app : App) (analysis : Analysis) : Option (List PreInitStmt) :=
  (analysis.freeQueues.mapM (fillFreeQueue app)).map fun fill =>
    fill ++ [.enableGic, .setPriorityMask idlePriority] ++ sgiPriorities app ++ spiPriorities app

/-- What one arm of the dispatcher's `match` does before it calls the task. -/
structure DispatchArm where
  task : String
  readFrom : String
  freeTo : String

/-- The items generated for one priority level: the `T` enum, the ready queue
with its proxy, and the SGI handler that runs `export::run(PRIORITY, ..)`. -/
structure Dispatcher where
  spawnT : String
  variants : List String
  rq : String
  rqCapacity : ℕ
  rqCeiling : Option ℕ
  handler : String
  priority : ℕ
  arms : List DispatchArm

def dispatcher (level : ℕ) (channel : Channel) : Option Dispatcher :=
  (capacityTypenum channel.capacity true).map fun n =>
    { spawnT := spawnTIdent level, variants := channel.tasks, rq := rqIdent level, rqCapacity := n,
      rqCeiling := channel.ceiling, handler := sgiIdent (prio2sgi level), priority := level,
      arms := channel.tasks.map fun name => ⟨name, inputsIdent name, fqIdent name⟩ }

/-- `none` where a queue size is out of range and the macro panics. -/
def dispatchers (analysis : Analysis) : Option (List Dispatcher) :=
  analysis.channels.mapM fun (level, channel) => dispatcher level channel

inductive SpawnStmt where
  | dequeueOrErr (fq : String) (locked : Bool)
  | writeInput (inputs : String)
  | enqueueUnchecked (rq spawnT task : String) (locked : Bool)
  | pendSgi (sgi : ℕ)
  deriving DecidableEq

/-- `init` accesses the queues directly, other spawners through their locks. -/
def spawnBody (isInit : Bool) (spawnee : SoftwareTask) : List SpawnStmt :=
  [.dequeueOrErr (fqIdent spawnee.name) !isInit,
   .writeInput (inputsIdent spawnee.name),
   .enqueueUnchecked (rqIdent spawnee.priority) (spawnTIdent spawnee.priority) spawnee.name !isInit,
   .pendSgi (prio2sgi spawnee.priority)]

/-- The interrupt that `export::pend_sgi` raises: the low four bits of SGIR. -/
def pendedSgi (sgi : ℕ) : ℕ := (0b10 <<< 24 ||| (sgi &&& 0b1111)) &&& 0b1111

/-- `rtic_syntax` with `optimize_priorities`. -/
def Compressed (app : App) : Prop :=
  ∃ n, ∀ p, ((∃ t ∈ app.softwareTasks, t.priority = p) ∨ ∃ t ∈ app.hardwareTasks, t.priority = p) ↔
    1 ≤ p ∧ p ≤ n

/-- The dispatcher of `t` is an SGI that exists, runs at the priority of `t`,
and is the interrupt that spawning `t` pends. -/
structure Dispatched (analysis : Analysis) (stmts : List PreInitStmt) (ds : List Dispatcher)
    (t : SoftwareTask) : Prop where
  exists_sgi : prio2sgi t.priority < nsgis
  generated : ∀ channel, (t.priority, channel) ∈ analysis.channels →
      ∃ d ∈ ds, d.priority = t.priority
  bound : ∀ d ∈ ds, d.priority = t.priority → d.handler = sgiIdent (prio2sgi t.priority)
  priority_set : .setPriority (prio2sgi t.priority) t.priority ∈ stmts
  pended : ∀ isInit sgi, .pendSgi sgi ∈ spawnBody isInit t → pendedSgi sgi = prio2sgi t.priority

/-- Every level below a software level is a software level too. -/
def GapFree (app : App) : Prop :=
  ∀ p ∈ priorities app, ∀ q, 1 ≤ q → q ≤ p → q ∈ priorities app

theorem check_ok (app : App) : check app = .ok () ↔ (priorities app).card ≤ nsgis := by
  unfold check
  split <;> simp_all

theorem mem_priorities (app : App) (p : ℕ) :
    p ∈ priorities app ↔ ∃ t ∈ app.softwareTasks, t.priority = p := by
  simp [priorities]

theorem priority_pos (app : App) (hc : Compressed app) (p : ℕ) (hp : p ∈ priorities app) :
    1 ≤ p := by
  obtain ⟨n, hn⟩ := hc
  exact ((hn p).mp (Or.inl ((mem_priorities app p).mp hp))).1

theorem setPriority_mem_iff (app : App) (analysis : Analysis) (stmts : List PreInitStmt)
    (h : preInit app analysis = some stmts) (sgi logical : ℕ) (hs : sgi < nsgis) :
    .setPriority sgi logical ∈ stmts ↔ sgi < (priorities app).card ∧ logical = sgi2prio sgi := by
  obtain ⟨fill, hfill, rfl⟩ := Option.map_eq_some_iff.mp h
  have hf : PreInitStmt.setPriority sgi logical ∉ fill := by
    intro hm
    obtain ⟨name, -, hname⟩ := exists_of_mem_mapM hfill hm
    obtain ⟨t, -, ht⟩ := Option.map_eq_some_iff.mp hname
    cases ht
  have hspi : PreInitStmt.setPriority sgi logical ∉ spiPriorities app := by
    intro hm
    obtain ⟨t, -, ht⟩ := List.mem_flatMap.mp hm
    have hge := t.binds.irq_ge
    simp at ht
    unfold nsgis at hs
    omega
  simp [hf, hspi, sgiPriorities, eq_comm]

theorem dispatcher_bound (analysis : Analysis) (ds : List Dispatcher)
    (h : dispatchers analysis = some ds) (d : Dispatcher) (hd : d ∈ ds) :
    d.handler = sgiIdent (prio2sgi d.priority) := by
  obtain ⟨⟨level, channel⟩, -, hl⟩ := exists_of_mem_mapM h hd
  obtain ⟨n, -, rfl⟩ := Option.map_eq_some_iff.mp hl
  rfl

theorem dispatcher_generated (analysis : Analysis) (ds : List Dispatcher)
    (h : dispatchers analysis = some ds) (level : ℕ) (channel : Channel)
    (hc : (level, channel) ∈ analysis.channels) : ∃ d ∈ ds, d.priority = level := by
  obtain ⟨d, hd, hl⟩ := mem_mapM_of_mem h hc
  obtain ⟨n, -, rfl⟩ := Option.map_eq_some_iff.mp hl
  exact ⟨_, hd, rfl⟩

theorem pendedSgi_eq : ∀ sgi < nsgis, pendedSgi sgi = sgi := by
  decide

theorem spawnBody_pends (isInit : Bool) (t : SoftwareTask) (sgi : ℕ) :
    .pendSgi sgi ∈ spawnBody isInit t ↔ sgi = prio2sgi t.priority := by
  simp [spawnBody]

/-- The macro gives task `t` its dispatcher exactly when the level of `t` is
one of the first `card` levels. -/
theorem dispatched_iff (app : App) (analysis : Analysis) (stmts : List PreInitStmt)
    (ds : List Dispatcher) (hp : preInit app analysis = some stmts)
    (hd : dispatchers analysis = some ds) (hcard : (priorities app).card ≤ nsgis)
    (t : SoftwareTask) (ht : 1 ≤ t.priority) :
    Dispatched analysis stmts ds t ↔ t.priority ≤ (priorities app).card := by
  constructor
  · intro h
    have hs := ((setPriority_mem_iff app analysis stmts hp _ _ h.exists_sgi).mp h.priority_set).1
    unfold prio2sgi at hs
    omega
  · intro h
    have hlt : prio2sgi t.priority < nsgis := by
      unfold prio2sgi
      omega
    refine ⟨hlt, fun channel => dispatcher_generated analysis ds hd _ channel, ?_, ?_, ?_⟩
    · intro d hm hpr
      rw [dispatcher_bound analysis ds hd d hm, hpr]
    · rw [setPriority_mem_iff app analysis stmts hp _ _ hlt]
      unfold prio2sgi sgi2prio
      omega
    · intro isInit sgi hm
      rw [(spawnBody_pends isInit t sgi).mp hm, pendedSgi_eq _ hlt]

/-- A set of positive numbers is an initial segment when none of them exceeds
the size of the set. -/
theorem initial_segment_iff (s : Finset ℕ) (hpos : ∀ p ∈ s, 1 ≤ p) :
    (∀ p ∈ s, p ≤ s.card) ↔ ∀ p ∈ s, ∀ q, 1 ≤ q → q ≤ p → q ∈ s := by
  constructor
  · intro h p hp q h1 hq
    have hsub : s ⊆ Finset.Icc 1 s.card :=
      fun x hx => Finset.mem_Icc.mpr ⟨hpos x hx, h x hx⟩
    have heq : s = Finset.Icc 1 s.card := Finset.eq_of_subset_of_card_le hsub (by simp)
    rw [heq]
    exact Finset.mem_Icc.mpr ⟨h1, hq.trans (h p hp)⟩
  · intro h p hp
    have hsub : Finset.Icc 1 p ⊆ s := by
      intro q hq
      obtain ⟨h1, h2⟩ := Finset.mem_Icc.mp hq
      exact h p hp q h1 h2
    simpa using Finset.card_le_card hsub

/-- In an accepted application every software task gets an existing SGI at
its own priority exactly when the software levels have no gap. -/
theorem dispatched_iff_gapFree (app : App) (analysis : Analysis) (stmts : List PreInitStmt)
    (ds : List Dispatcher) (hok : check app = .ok ()) (hc : Compressed app)
    (hp : preInit app analysis = some stmts) (hd : dispatchers analysis = some ds) :
    (∀ t ∈ app.softwareTasks, Dispatched analysis stmts ds t) ↔ GapFree app := by
  have hcard := (check_ok app).mp hok
  have hpos := priority_pos app hc
  rw [GapFree, ← initial_segment_iff _ hpos]
  constructor
  · intro h p hm
    obtain ⟨t, ht, rfl⟩ := (mem_priorities app p).mp hm
    exact (dispatched_iff app analysis stmts ds hp hd hcard t (hpos _ hm)).mp (h t ht)
  · intro h t ht
    have hm := (mem_priorities app t.priority).mpr ⟨t, ht, rfl⟩
    exact (dispatched_iff app analysis stmts ds hp hd hcard t (hpos _ hm)).mpr (h _ hm)

def uart : Interrupt := ⟨"UART2", 59, by decide⟩

def gapFreeApp : App :=
  { softwareTasks := [⟨"foo", 1, 1⟩, ⟨"bar", 2, 4⟩], hardwareTasks := [⟨"on_uart", uart, 3⟩] }

/-- A hardware task at the level below the only software task. -/
def gapApp : App :=
  { softwareTasks := [⟨"foo", 2, 1⟩], hardwareTasks := [⟨"on_uart", uart, 1⟩] }

def fooAnalysis (priority : ℕ) : Analysis :=
  { freeQueues := ["foo"], channels := [(priority, ⟨["foo"], 1, some priority⟩)] }

theorem gapFreeApp_compressed : Compressed gapFreeApp := by
  refine ⟨3, fun p => ?_⟩
  simp [gapFreeApp]
  omega

theorem gapApp_compressed : Compressed gapApp := by
  refine ⟨2, fun p => ?_⟩
  simp [gapApp]
  omega

theorem dispatched_gapFreeApp : ∃ stmts ds, preInit gapFreeApp (fooAnalysis 1) = some stmts ∧
    dispatchers (fooAnalysis 1) = some ds ∧
    ∀ t ∈ gapFreeApp.softwareTasks, Dispatched (fooAnalysis 1) stmts ds t := by
  refine ⟨_, _, rfl, rfl, ?_⟩
  rw [dispatched_iff_gapFree gapFreeApp (fooAnalysis 1) _ _ rfl gapFreeApp_compressed rfl rfl]
  intro p hp q h1 hq
  simp [priorities, gapFreeApp] at hp ⊢
  omega

/-- `foo` is dispatched by SGI 1, but only SGI 0 is given a priority. -/
theorem gapApp_not_dispatched : ∃ stmts ds, check gapApp = .ok () ∧ Compressed gapApp ∧
    preInit gapApp (fooAnalysis 2) = some stmts ∧ dispatchers (fooAnalysis 2) = some ds ∧
    ¬∀ t ∈ gapApp.softwareTasks, Dispatched (fooAnalysis 2) stmts ds t := by
  refine ⟨_, _, rfl, gapApp_compressed, rfl, rfl, fun h => ?_⟩
  have hset := (h ⟨"foo", 2, 1⟩ (by simp [gapApp])).priority_set
  revert hset
  decide

end UsbArmory.Rtic.Codegen
