import Mathlib.Order.Bounds.Basic
import UsbArmory.Rtic.Codegen

/-!
# Resources of the generated application

`resources_struct::codegen` decides in which form a context gets a resource: a
reference, or a proxy that has to be locked; `resources::codegen` generates the
proxies. `rtic_syntax` is outside of the repository: what it finds out about a
resource is a parameter, and what it documents is a hypothesis.
-/

set_option autoImplicit false

namespace UsbArmory.Rtic.Resources
open UsbArmory.Library.Traversal UsbArmory.Rtic.Codegen

inductive Access
  | exclusive
  | shared
deriving DecidableEq

def Access.isExclusive : Access → Bool
  | .exclusive => true
  | .shared => false

/-- The resources that a context lists, with the kind of the access. -/
abbrev Args := List (String × Access)

structure HardwareTask extends Codegen.HardwareTask where
  resources : Args

structure SoftwareTask extends Codegen.SoftwareTask where
  resources : Args

/-- The resources of `#[init]` and `#[idle]`, where there is one. Tasks are in
maps, and `resource` tells whether a resource is late: it has no initial value. -/
structure App where
  init : Option Args
  idle : Option Args
  hardwareTasks : List HardwareTask
  softwareTasks : List SoftwareTask
  resource : String → Option Bool
  hardware_nodup : (hardwareTasks.map (·.name)).Nodup
  software_nodup : (softwareTasks.map (·.name)).Nodup

/-- What `rtic_syntax` tells about the owner of a resource. -/
structure Ownership where
  needsLock : ℕ → Bool
  isOwned : Bool
  contended : Option ℕ

structure Analysis extends Codegen.Analysis where
  ownerships : String → Option Ownership
  lateResources : Option (List String)
  located : String → Bool

inductive Context
  | init
  | idle
  | hardwareTask (name : String)
  | softwareTask (name : String)
deriving DecidableEq

def Context.isInit (ctxt : Context) : Bool := ctxt == .init

def Context.runsOnce : Context → Bool
  | .init | .idle => true
  | .hardwareTask _ | .softwareTask _ => false

namespace App

variable (app : App)

/-- The part that `check` and `pre_init` look at. -/
def numbered : Codegen.App :=
  ⟨app.softwareTasks.map (·.toSoftwareTask), app.hardwareTasks.map (·.toHardwareTask)⟩

def hardwareTask (name : String) : Option HardwareTask := app.hardwareTasks.find? (·.name = name)
def softwareTask (name : String) : Option SoftwareTask := app.softwareTasks.find? (·.name = name)

def resources : Context → Option Args
  | .init => app.init
  | .idle => app.idle
  | .hardwareTask name => (app.hardwareTask name).map (·.resources)
  | .softwareTask name => (app.softwareTask name).map (·.resources)

/-- The `PRIORITY` that the callers of `resources_struct::codegen` pass. -/
def priority : Context → Option ℕ
  | .init => app.init.map fun _ => 0
  | .idle => app.idle.map fun _ => 0
  | .hardwareTask name => (app.hardwareTask name).map (·.priority)
  | .softwareTask name => (app.softwareTask name).map (·.priority)

end App

inductive Lifetime
  | static
  | a
deriving DecidableEq

inductive FieldType
  | ref (lt : Lifetime) (exclusive : Bool)
  | proxy
deriving DecidableEq

/-- `&name`, the pointer into a `MaybeUninit`, or `resources::name::new(priority)`. -/
inductive Value
  | ref (exclusive : Bool)
  | late (exclusive : Bool)
  | proxy

structure Field where
  name : String
  type : FieldType
  value : Value

def value (isLate : Bool) (access : Access) : Value :=
  if isLate then .late access.isExclusive else .ref access.isExclusive

def lifetime (ctxt : Context) : Lifetime := if ctxt.runsOnce then .static else .a

/-- One round of the loop; `none` where the macro panics. -/
def field (ctxt : Context) (priority : ℕ) (app : App) (analysis : Analysis) (name : String)
    (access : Access) : Option Field := do
  let isLate ← app.resource name
  if ctxt.isInit then
    if (analysis.ownerships name).isNone then
      some ⟨name, .ref .static access.isExclusive, .ref access.isExclusive⟩
    else some ⟨name, .ref .a true, .ref true⟩
  else
    let ownership ← analysis.ownerships name
    if ownership.needsLock priority then
      if access.isExclusive then some ⟨name, .proxy, .proxy⟩
      else some ⟨name, .ref .a false, value isLate access⟩
    else
      if ownership.isOwned || !access.isExclusive then
        some ⟨name, .ref (lifetime ctxt) access.isExclusive, value isLate access⟩
      else some ⟨name, .ref (lifetime ctxt) true, value isLate access⟩

/-- `resources_struct::codegen` -/
def resourcesStruct (ctxt : Context) (priority : ℕ) (app : App) (analysis : Analysis) :
    Option (List Field) := do
  let resources ← app.resources ctxt
  resources.mapM fun (name, access) => field ctxt priority app analysis name access

/-- `resources::codegen` generates a proxy with this `CEILING`. -/
def proxyCeiling (analysis : Analysis) (name : String) : Option ℕ :=
  (analysis.ownerships name).bind (·.contended)

section Static
variable (app : App) (analysis : Analysis)

def HasField (ctxt : Context) (name : String) (type : FieldType) : Prop :=
  ∃ priority fields, app.priority ctxt = some priority ∧
    resourcesStruct ctxt priority app analysis = some fields ∧
    ∃ f ∈ fields, f.name = name ∧ f.type = type

def Accessor (name : String) (priority : ℕ) (access : Access) : Prop :=
  ∃ ctxt resources, ctxt ≠ .init ∧ app.priority ctxt = some priority ∧
    app.resources ctxt = some resources ∧ (name, access) ∈ resources

/-- What `rtic_syntax` documents: a resource is owned by the contexts of one
priority or contended, with the largest priority as its ceiling; only below
the ceiling a lock is needed; nothing is accessed in both ways; a ready queue
serves tasks of its level. The last two are the levels that exist. -/
structure Documented : Prop where
  owned : ∀ name p access, Accessor app name p access → (analysis.ownerships name).isSome
  ceiling : ∀ name c, proxyCeiling analysis name = some c →
    IsGreatest {p | ∃ access, Accessor app name p access} c
  alone : ∀ name p q access access', proxyCeiling analysis name = none →
    Accessor app name p access → Accessor app name q access' → p = q
  lock : ∀ name o p, analysis.ownerships name = some o →
    (o.needsLock p = true ↔ ∃ c, o.contended = some c ∧ p < c)
  uniform : ∀ name p q access access', Accessor app name p access →
    Accessor app name q access' → access = access'
  served : ∀ level channel name, (level, channel) ∈ analysis.channels → name ∈ channel.tasks →
    ∃ t ∈ app.softwareTasks, t.name = name ∧ t.priority = level
  hardware_range : ∀ t ∈ app.hardwareTasks, 1 ≤ t.priority ∧ t.priority ≤ 31
  software_range : ∀ t ∈ app.softwareTasks, 1 ≤ t.priority ∧ t.priority ≤ 31

end Static

variable {app : App} {analysis : Analysis} {ctxt : Context} {name : String} {access : Access}

theorem field_name {p : ℕ} {f : Field} (h : field ctxt p app analysis name access = some f) :
    f.name = name := by
  rw [field] at h
  obtain ⟨isLate, -, h⟩ := Option.bind_eq_some_iff.mp h
  split at h
  next => split at h <;> cases h <;> rfl
  next =>
    obtain ⟨o, -, h⟩ := Option.bind_eq_some_iff.mp h
    split at h
    next => split at h <;> cases h <;> rfl
    next => split at h <;> cases h <;> rfl

theorem field_spec {p : ℕ} {f : Field} (hinit : ctxt ≠ .init)
    (h : field ctxt p app analysis name access = some f) :
    ∃ o, analysis.ownerships name = some o ∧
      (f.type = .proxy → o.needsLock p = true ∧ access = .exclusive) ∧
      (∀ lt, f.type = .ref lt true → o.needsLock p = false ∧ access = .exclusive) ∧
      (∀ lt, f.type = .ref lt false → access = .shared) ∧
      (∀ exclusive, f.type = .ref .static exclusive → ctxt.runsOnce = true) := by
  have hnot : ctxt.isInit = false := by
    rw [Context.isInit, beq_eq_false_iff_ne]
    exact hinit
  rw [field] at h
  obtain ⟨isLate, -, h⟩ := Option.bind_eq_some_iff.mp h
  rw [hnot, if_neg Bool.false_ne_true] at h
  obtain ⟨o, howner, h⟩ := Option.bind_eq_some_iff.mp h
  refine ⟨o, howner, ?_⟩
  by_cases hlock : o.needsLock p = true
  · rw [if_pos hlock] at h
    cases access <;> cases h <;> simp [hlock]
  · rw [if_neg hlock] at h
    have hfree : o.needsLock p = false := Bool.eq_false_iff.mpr hlock
    cases access <;> split at h <;> cases h <;> cases ctxt <;>
      simp_all [Access.isExclusive, Context.runsOnce, lifetime]

theorem HasField.args {type : FieldType} (h : HasField app analysis ctxt name type) :
    ∃ priority resources access f, app.priority ctxt = some priority ∧
      app.resources ctxt = some resources ∧ (name, access) ∈ resources ∧
      field ctxt priority app analysis name access = some f ∧ f.type = type := by
  obtain ⟨priority, fields, hpriority, hstruct, f, hf, hname, htype⟩ := h
  obtain ⟨resources, hresources, hfields⟩ := Option.bind_eq_some_iff.mp hstruct
  obtain ⟨⟨listed, access⟩, hlisted, hfield⟩ := exists_of_mem_mapM hfields hf
  obtain rfl : listed = name := (field_name hfield).symm.trans hname
  exact ⟨priority, resources, access, f, hpriority, hresources, hlisted, hfield, htype⟩

/-- A field of a task or of idle: who accesses the resource, and how. -/
structure Granted (app : App) (analysis : Analysis) (ctxt : Context) (name : String)
    (type : FieldType) (p : ℕ) (access : Access) (o : Ownership) : Prop where
  priority : app.priority ctxt = some p
  accessor : Accessor app name p access
  owner : analysis.ownerships name = some o
  proxy : type = .proxy → o.needsLock p = true ∧ access = .exclusive
  exclusive : ∀ lt, type = .ref lt true → o.needsLock p = false ∧ access = .exclusive
  shared : ∀ lt, type = .ref lt false → access = .shared
  static : ∀ e, type = .ref .static e → ctxt.runsOnce = true

theorem HasField.granted {type : FieldType} (h : HasField app analysis ctxt name type)
    (hinit : ctxt ≠ .init) : ∃ p access o, Granted app analysis ctxt name type p access o := by
  obtain ⟨p, resources, access, f, hpriority, hresources, hlisted, hfield, rfl⟩ := h.args
  obtain ⟨o, howner, hproxy, hexclusive, hshared, hstatic⟩ := field_spec hinit hfield
  exact ⟨p, access, o, hpriority, ⟨ctxt, resources, hinit, hpriority, hresources, hlisted⟩, howner,
    hproxy, hexclusive, hshared, hstatic⟩

theorem Documented.unlocked (h : Documented app analysis) {o : Ownership} {p q : ℕ}
    {access' : Access} (howner : analysis.ownerships name = some o) (hfree : o.needsLock p = false)
    (hp : Accessor app name p access) (hq : Accessor app name q access') : q ≤ p := by
  have hceiling : proxyCeiling analysis name = o.contended := by
    rw [proxyCeiling, howner, Option.bind_some]
  cases hc : o.contended with
  | none => exact (h.alone name q p access' access (hceiling.trans hc) hq hp).le
  | some c =>
    have hmax : q ≤ c := (h.ceiling name c (hceiling.trans hc)).2 ⟨access', hq⟩
    have hnot : ¬p < c := by
      intro hlt
      have hneeds := (h.lock name o p howner).mpr ⟨c, hc, hlt⟩
      rw [hfree] at hneeds
      cases hneeds
    omega

theorem HasField.proxy (h : Documented app analysis)
    (hf : HasField app analysis ctxt name .proxy) (hinit : ctxt ≠ .init) :
    ∃ p c, app.priority ctxt = some p ∧ proxyCeiling analysis name = some c ∧ p < c := by
  obtain ⟨p, access, o, hgrant⟩ := hf.granted hinit
  obtain ⟨c, hc, hlt⟩ := (h.lock name o p hgrant.owner).mp (hgrant.proxy rfl).1
  refine ⟨p, c, hgrant.priority, ?_, hlt⟩
  rw [proxyCeiling, hgrant.owner, Option.bind_some, hc]

end UsbArmory.Rtic.Resources
