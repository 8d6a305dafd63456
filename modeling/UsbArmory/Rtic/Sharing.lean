import UsbArmory.Library.Keyed
import UsbArmory.Rtic.Exclusion
import UsbArmory.Rtic.Resources

/-!
# Resources at run time

The generated handlers as an application of the preemption model: a resource
with a proxy is locked at the ceiling of its proxy. A reference is taken for as
long as its handler is on the stack.
-/

set_option autoImplicit false

namespace UsbArmory.Rtic.Sharing
open UsbArmory.Library.Run UsbArmory.Library.Keyed UsbArmory.Library.Traversal
open UsbArmory.Rtic.Preemption
open UsbArmory.Rtic.LockInvariant UsbArmory.Rtic.Exclusion UsbArmory.Rtic.Resources

section Handlers
variable (app : Resources.App)

/-- The handler of a hardware task, or the dispatcher of a software level. -/
abbrev Handler : Type :=
  {t : HardwareTask // t ∈ app.hardwareTasks} ⊕ {p : ℕ // ∃ t ∈ app.softwareTasks, t.priority = p}

def handlerPriority : Handler app → ℕ
  | .inl t => t.val.priority
  | .inr p => p.val

/-- The contexts that run in a handler, or instead of it. -/
def contexts : Option (Handler app) → List Context
  | none => [.idle]
  | some (.inl t) => [.hardwareTask t.val.name]
  | some (.inr p) => (app.softwareTasks.filter (·.priority = p.val)).map (.softwareTask ·.name)

variable {app}

theorem contexts_ne_init (x : Option (Handler app)) : ∀ ctxt ∈ contexts app x, ctxt ≠ .init := by
  rintro ctxt hctxt rfl
  rcases x with _ | t | p
  · cases List.mem_singleton.mp hctxt
  · cases List.mem_singleton.mp hctxt
  · obtain ⟨t, -, ht⟩ := List.mem_map.mp hctxt
    cases ht

theorem contexts_priority (x : Option (Handler app)) {ctxt : Context}
    (hctxt : ctxt ∈ contexts app x) {p : ℕ} (hp : app.priority ctxt = some p) :
    x.elim 0 (handlerPriority app) = p := by
  rcases x with _ | ⟨t, ht⟩ | q
  · obtain rfl := List.mem_singleton.mp hctxt
    obtain ⟨args, -, rfl⟩ := Option.map_eq_some_iff.mp hp
    rfl
  · obtain rfl := List.mem_singleton.mp hctxt
    rw [Resources.App.priority, App.hardwareTask, find?_key app.hardware_nodup ht] at hp
    exact Option.some.inj hp
  · obtain ⟨t, ht, rfl⟩ := List.mem_map.mp hctxt
    obtain ⟨ht, hq⟩ := List.mem_filter.mp ht
    rw [Resources.App.priority, App.softwareTask, find?_key app.software_nodup ht] at hp
    exact (of_decide_eq_true hq).symm.trans (Option.some.inj hp)

theorem exists_contexts {ctxt : Context} (hinit : ctxt ≠ .init) {p : ℕ}
    (hp : app.priority ctxt = some p) : ∃ x, ctxt ∈ contexts app x := by
  cases ctxt with
  | init => exact absurd rfl hinit
  | idle => exact ⟨none, List.mem_singleton_self _⟩
  | hardwareTask name =>
    obtain ⟨t, ht, -⟩ := Option.map_eq_some_iff.mp hp
    have hname : t.name = name := by simpa using List.find?_some ht
    refine ⟨some (.inl ⟨t, List.mem_of_find?_eq_some ht⟩), ?_⟩
    rw [contexts, hname]
    exact List.mem_singleton_self _
  | softwareTask name =>
    obtain ⟨t, ht, -⟩ := Option.map_eq_some_iff.mp hp
    have hname : t.name = name := by simpa using List.find?_some ht
    have hmem : t ∈ app.softwareTasks := List.mem_of_find?_eq_some ht
    refine ⟨some (.inr ⟨t.priority, t, hmem, rfl⟩), List.mem_map.mpr ⟨t, ?_, by rw [hname]⟩⟩
    exact List.mem_filter.mpr ⟨hmem, decide_eq_true rfl⟩

theorem exists_priority {ctxt : Context} {args : Args} (h : app.resources ctxt = some args) :
    ∃ p, app.priority ctxt = some p := by
  cases ctxt with
  | init => exact ⟨0, Option.map_eq_some_iff.mpr ⟨args, h, rfl⟩⟩
  | idle => exact ⟨0, Option.map_eq_some_iff.mpr ⟨args, h, rfl⟩⟩
  | hardwareTask name =>
    obtain ⟨t, ht, -⟩ := Option.map_eq_some_iff.mp h
    exact ⟨t.priority, Option.map_eq_some_iff.mpr ⟨t, ht, rfl⟩⟩
  | softwareTask name =>
    obtain ⟨t, ht, -⟩ := Option.map_eq_some_iff.mp h
    exact ⟨t.priority, Option.map_eq_some_iff.mpr ⟨t, ht, rfl⟩⟩

end Handlers

section Application
variable (app : Resources.App) (analysis : Analysis)

/-- A handler locks the resources that have a proxy and that it accesses exclusively. -/
def locks (x : Option (Handler app)) (name : String) : Bool :=
  (proxyCeiling analysis name).isSome && (contexts app x).any fun ctxt =>
    (app.resources ctxt).any fun args => args.contains (name, .exclusive)

variable {app analysis}

theorem locks_iff (x : Option (Handler app)) (name : String) :
    locks app analysis x name = true ↔ (∃ c, proxyCeiling analysis name = some c) ∧
      ∃ ctxt ∈ contexts app x, ∃ args, app.resources ctxt = some args ∧
        (name, .exclusive) ∈ args := by
  simp [locks, Option.any_eq_true, Option.isSome_iff_exists]

theorem locks_accessor {x : Option (Handler app)} {name : String}
    (h : locks app analysis x name = true) :
    Accessor app name (x.elim 0 (handlerPriority app)) .exclusive := by
  obtain ⟨-, ctxt, hctxt, args, hargs, hlisted⟩ := (locks_iff x name).mp h
  obtain ⟨p, hp⟩ := exists_priority hargs
  rw [contexts_priority x hctxt hp]
  exact ⟨ctxt, args, contexts_ne_init x ctxt hctxt, hp, hargs, hlisted⟩

theorem exists_locks {name : String} {c p : ℕ} (hc : proxyCeiling analysis name = some c)
    (h : Accessor app name p .exclusive) :
    ∃ x, locks app analysis x name = true ∧ x.elim 0 (handlerPriority app) = p := by
  obtain ⟨ctxt, args, hinit, hp, hargs, hlisted⟩ := h
  obtain ⟨x, hctxt⟩ := exists_contexts hinit hp
  exact ⟨x, (locks_iff x name).mpr ⟨⟨c, hc⟩, ctxt, hctxt, args, hargs, hlisted⟩,
    contexts_priority x hctxt hp⟩

def application (h : Documented app analysis) : Preemption.App (Handler app) String where
  taskPriority := handlerPriority app
  access := locks app analysis
  ceiling name := (proxyCeiling analysis name).getD 0
  priority_pos := by
    rintro (t | ⟨p, t, ht, rfl⟩)
    · exact (h.hardware_range t.val t.property).1
    · exact (h.software_range t ht).1
  priority_le := by
    rintro (t | ⟨p, t, ht, rfl⟩)
    · exact (h.hardware_range t.val t.property).2
    · exact (h.software_range t ht).2
  ceiling_max := by
    rintro name ⟨x, hlocks⟩
    obtain ⟨⟨c, hc⟩, -⟩ := (locks_iff x name).mp hlocks
    obtain ⟨⟨access, hmem⟩, hmax⟩ := h.ceiling name c hc
    obtain rfl := h.uniform name _ _ _ _ hmem (locks_accessor hlocks)
    rw [hc, Option.getD_some]
    refine ⟨exists_locks hc hmem, ?_⟩
    rintro p ⟨y, hy, rfl⟩
    exact hmax ⟨_, locks_accessor hy⟩

/-- What an activation has of a resource: inside of `lock`, or by a reference. -/
inductive Holds (app : Resources.App) (analysis : Analysis) (a : Activation (Handler app) String)
    (name : String) : Access → Prop
  | locked (h : Opens a name) : Holds app analysis a name .exclusive
  | exclusive (ctxt : Context) (lt : Lifetime) (hctxt : ctxt ∈ contexts app a.ctx)
      (h : HasField app analysis ctxt name (.ref lt true)) : Holds app analysis a name .exclusive
  | shared (ctxt : Context) (lt : Lifetime) (hctxt : ctxt ∈ contexts app a.ctx)
      (h : HasField app analysis ctxt name (.ref lt false)) : Holds app analysis a name .shared

end Application

section Stack
variable {Task Res : Type} {app : Preemption.App Task Res} {pmr : ℕ}
  {stack : List (Activation Task Res)}

end Stack

variable {app : Resources.App} {analysis : Analysis}

theorem Holds.accessor (hdoc : Documented app analysis) {a : Activation (Handler app) String}
    {name : String} {access : Access} (h : Holds app analysis a name access)
    (hframes : ∀ f ∈ a.frames, (application hdoc).access a.ctx f.res = true) :
    Accessor app name ((application hdoc).priority a.ctx) access := by
  have hpriority : ∀ ctxt p, ctxt ∈ contexts app a.ctx → app.priority ctxt = some p →
      (application hdoc).priority a.ctx = p :=
        fun ctxt p hctxt hp => contexts_priority a.ctx hctxt hp
  cases h with
  | locked h =>
    obtain ⟨f, hf, rfl, -⟩ := h
    exact locks_accessor (hframes f hf)
  | exclusive ctxt lt hctxt h =>
    obtain ⟨p, access, o, hgrant⟩ := h.granted (contexts_ne_init a.ctx ctxt hctxt)
    obtain rfl : access = .exclusive := (hgrant.exclusive lt rfl).2
    rw [hpriority ctxt p hctxt hgrant.priority]
    exact hgrant.accessor
  | shared ctxt lt hctxt h =>
    obtain ⟨p, access, o, hgrant⟩ := h.granted (contexts_ne_init a.ctx ctxt hctxt)
    obtain rfl : access = .shared := hgrant.shared lt rfl
    rw [hpriority ctxt p hctxt hgrant.priority]
    exact hgrant.accessor

/-- Nothing of a higher priority accesses what is held exclusively, or for an exclusive access
what is held at all. -/
theorem Holds.above (hdoc : Documented app analysis) {b : Activation (Handler app) String}
    {name : String} {q : ℕ} {access access' : Access}
    (h : Holds app analysis b name access')
    (hframes : ∀ f ∈ b.frames, (application hdoc).access b.ctx f.res = true)
    (hopen : ∀ name, Opens b name → (application hdoc).ceiling name < q)
    (hlt : (application hdoc).priority b.ctx < q) (hq : Accessor app name q access) :
    access = .shared ∧ access' = .shared := by
  have hsame : access' = access := hdoc.uniform name _ _ _ _ (h.accessor hdoc hframes) hq
  cases h with
  | locked h =>
    obtain ⟨f, hf, rfl, -⟩ := id h
    obtain ⟨⟨c, hc⟩, -⟩ := (locks_iff b.ctx f.res).mp (hframes f hf)
    have hceiling : (application hdoc).ceiling f.res = c := by
      show (proxyCeiling analysis f.res).getD 0 = c
      rw [hc, Option.getD_some]
    have hmax : q ≤ c := (hdoc.ceiling f.res c hc).2 ⟨access, hq⟩
    have hbelow := hopen f.res h
    omega
  | exclusive ctxt lt hctxt h =>
    obtain ⟨p, access, o, hgrant⟩ := h.granted (contexts_ne_init b.ctx ctxt hctxt)
    have hp : (application hdoc).priority b.ctx = p :=
      contexts_priority b.ctx hctxt hgrant.priority
    have hle := hdoc.unlocked hgrant.owner (hgrant.exclusive lt rfl).1 hgrant.accessor hq
    omega
  | shared ctxt lt hctxt h => exact ⟨hsame.symm, rfl⟩

end UsbArmory.Rtic.Sharing
