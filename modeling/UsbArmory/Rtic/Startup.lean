import UsbArmory.Rtic.Sharing

/-!
# From reset to the first task

The generated `main` as a list of statements on a processor with an interrupt
controller: `pre_init` configures it, then come `init`, the late resources and
the unmasking of interrupts. A handler is taken by the priorities that are in
the registers.
-/

set_option autoImplicit false

namespace UsbArmory.Rtic.Startup
open UsbArmory.Library.Run UsbArmory.Library.Traversal UsbArmory.Rtic.Preemption
open UsbArmory.Rtic.Resources UsbArmory.Rtic.Sharing UsbArmory.Rtic.Codegen

inductive MainStmt
  | preInit (stmt : PreInitStmt)
  | callInit
  | writeLate (name : String)
  | enableIrq
  | callIdle
deriving DecidableEq

/-- `post_init::codegen` -/
def postInit (analysis : Resources.Analysis) : List MainStmt :=
  ((analysis.lateResources.getD []).filter analysis.located).map .writeLate ++ [.enableIrq]

/-- The body of `main`; the assertions on types are no code. -/
def mainStmts (app : Resources.App) (analysis : Resources.Analysis) : Option (List MainStmt) :=
  (preInit app.numbered analysis.toAnalysis).map fun stmts =>
    stmts.map .preInit ++ (if app.init.isSome then [.callInit] else []) ++ postInit analysis ++
      [.callIdle]

/-- GICD and GICC: what `forwarded` tells is of no use for the first 16 interrupts. -/
structure Gic where
  enabled : Bool
  pmr : ℕ
  priority : ℕ → ℕ
  forwarded : ℕ → Bool

def Gic.write (gic : Gic) : PreInitStmt → Gic
  | .fillFreeQueue _ _ => gic
  | .enableGic => { gic with enabled := true }
  | .setPriorityMask logical => { gic with pmr := logical2hw logical }
  | .setPriority irq logical =>
    { gic with priority := Function.update gic.priority irq (logical2hw logical) }
  | .enableSpi irq => { gic with forwarded := Function.update gic.forwarded irq true }

def irqOf {app : Resources.App} : Handler app → ℕ
  | .inl t => t.val.binds.irq
  | .inr p => prio2sgi p.val

/-- `GICC_RPR` -/
def Gic.running {app : Resources.App} (gic : Gic) : Option (Handler app) → ℕ
  | none => 0xff
  | some t => gic.priority (irqOf t)

/-- `irq` says that interrupts are not masked; `written` is history. Below the
handlers there is `main`, which becomes idle. -/
structure State (app : Resources.App) where
  rest : List MainStmt
  gic : Gic
  irq : Bool
  written : List String
  stack : List (Activation (Handler app) String)

inductive Event (app : Resources.App)
  | main
  | take (t : Handler app)
  | act (action : Action String)
  | endOfInterrupt

section Machine
variable {app : Resources.App}

/-- `init` runs as a whole: nothing preempts it. -/
def State.execute (s : State app) : MainStmt → State app
  | .preInit stmt => { s with gic := s.gic.write stmt }
  | .callInit => s
  | .writeLate name => { s with written := s.written ++ [name] }
  | .enableIrq => { s with irq := true }
  | .callIdle => s

/-- What the processor and the controller ask of an interrupt. -/
def State.Taken (s : State app) (t : Handler app) (running : Option (Handler app)) : Prop :=
  s.irq = true ∧ s.gic.enabled = true ∧ (irqOf t < nsgis ∨ s.gic.forwarded (irqOf t) = true) ∧
    s.gic.priority (irqOf t) < s.gic.pmr ∧ s.gic.priority (irqOf t) < s.gic.running running

instance (s : State app) (t : Handler app) (running : Option (Handler app)) :
    Decidable (s.Taken t running) :=
  inferInstanceAs (Decidable (s.irq = true ∧ s.gic.enabled = true ∧
    (irqOf t < nsgis ∨ s.gic.forwarded (irqOf t) = true) ∧
    s.gic.priority (irqOf t) < s.gic.pmr ∧ s.gic.priority (irqOf t) < s.gic.running running))

variable {analysis : Resources.Analysis} (hdoc : Documented app analysis)

def step (s : State app) : Event app → Option (State app)
  | .main =>
    match s.stack, s.rest with
    | [_], stmt::rest => some ({ s with rest := rest }.execute stmt)
    | _, _ => none
  | .take t =>
    match s.stack with
    | a::below =>
      if s.Taken t a.ctx then
        some { s with stack := (application hdoc).handler t s.gic.pmr::a::below }
      else none
    | [] => none
  | .act action =>
    match s.stack with
    | a::below =>
      if below.isEmpty && !s.rest.isEmpty then none
      else (actStep (application hdoc) s.gic.pmr a action).map fun (pmr, a') =>
        { s with gic := { s.gic with pmr := pmr }, stack := a'::below }
    | [] => none
  | .endOfInterrupt =>
    match s.stack with
    | a::below => if a.phase = .exited then some { s with stack := below } else none
    | [] => none

/-- On reset interrupts are masked; the registers of the controller may hold anything. -/
def reset (stmts : List MainStmt) (gic : Gic) : State app :=
  ⟨stmts, gic, false, [], (Preemption.start : Preemption.State (Handler app) String).stack⟩

def State.nested (s : State app) : Preemption.State (Handler app) String := ⟨s.gic.pmr, s.stack⟩

end Machine

/-- Every handler has its priority, and nothing but the priorities keeps it from being taken. -/
structure Configured (app : Resources.App) (gic : Gic) : Prop where
  enabled : gic.enabled = true
  priority : ∀ t : Handler app, gic.priority (irqOf t) = logical2hw (handlerPriority app t)
  forwarded : ∀ t : Handler app, irqOf t < nsgis ∨ gic.forwarded (irqOf t) = true

section Registers
variable {app : Resources.App} {analysis : Resources.Analysis} {stmts : List PreInitStmt}

theorem preInit_mem (h : preInit app.numbered analysis.toAnalysis = some stmts) {stmt : PreInitStmt}
    (hfill : ∀ fq cap, stmt ≠ .fillFreeQueue fq cap) : stmt ∈ stmts ↔
      stmt = .enableGic ∨ stmt = .setPriorityMask idlePriority ∨
        stmt ∈ sgiPriorities app.numbered ∨ stmt ∈ spiPriorities app.numbered := by
  obtain ⟨fill, hmap, rfl⟩ := Option.map_eq_some_iff.mp h
  have hnot : stmt ∉ fill := by
    intro hmem
    obtain ⟨name, -, hname⟩ := exists_of_mem_mapM hmap hmem
    obtain ⟨t, -, rfl⟩ := Option.map_eq_some_iff.mp hname
    exact hfill _ _ rfl
  simp only [List.mem_append, hnot, List.mem_cons, List.not_mem_nil, false_or, or_false, or_assoc]

theorem sgiPriorities_mem {stmt : PreInitStmt} : stmt ∈ sgiPriorities app.numbered ↔
    ∃ sgi < (priorities app.numbered).card, stmt = .setPriority sgi (sgi2prio sgi) := by
  simp [sgiPriorities, eq_comm]

theorem spiPriorities_mem {stmt : PreInitStmt} : stmt ∈ spiPriorities app.numbered ↔
    ∃ t ∈ app.hardwareTasks, stmt = .setPriority t.binds.irq t.priority ∨
      stmt = .enableSpi t.binds.irq := by
  simp [spiPriorities, App.numbered]

theorem level_le (hdoc : Documented app analysis) (hgap : GapFree app.numbered)
    (hok : check app.numbered = .ok ()) {p : ℕ} (hp : ∃ t ∈ app.softwareTasks, t.priority = p) :
    1 ≤ p ∧ p ≤ (priorities app.numbered).card ∧ p ≤ nsgis := by
  have hmem : ∀ q, q ∈ priorities app.numbered ↔ ∃ t ∈ app.softwareTasks, t.priority = q := by
    intro q
    rw [mem_priorities, App.numbered]
    simp
  have hpos : ∀ q ∈ priorities app.numbered, 1 ≤ q := by
    intro q hq
    obtain ⟨t, ht, rfl⟩ := (hmem q).mp hq
    exact (hdoc.software_range t ht).1
  have hcard := (check_ok app.numbered).mp hok
  have hle := (initial_segment_iff _ hpos).mpr hgap p ((hmem p).mpr hp)
  exact ⟨hpos p ((hmem p).mpr hp), hle, hle.trans hcard⟩

theorem setPriority_irqOf (hdoc : Documented app analysis) (hgap : GapFree app.numbered)
    (hok : check app.numbered = .ok ()) (hirqs : (app.hardwareTasks.map (·.binds.irq)).Nodup)
    (h : preInit app.numbered analysis.toAnalysis = some stmts) (t : Handler app) (logical : ℕ) :
    .setPriority (irqOf t) logical ∈ stmts ↔ logical = handlerPriority app t := by
  have hcard := (check_ok app.numbered).mp hok
  rw [preInit_mem h (by simp), sgiPriorities_mem, spiPriorities_mem]
  rcases t with ⟨t, ht⟩ | ⟨p, hp⟩
  · have hirq := t.binds.irq_ge
    constructor
    · rintro (h | h | ⟨sgi, hsgi, h⟩ | ⟨t', ht', h | h⟩)
      · cases h
      · cases h
      · have heq : t.binds.irq = sgi := (PreInitStmt.setPriority.inj h).1
        unfold nsgis at hcard
        omega
      · obtain ⟨heq, hlogical⟩ := PreInitStmt.setPriority.inj h
        have hsame : t = t' := List.inj_on_of_nodup_map hirqs ht ht' heq
        exact hlogical.trans (congrArg (·.priority) hsame.symm)
      · cases h
    · rintro rfl
      exact .inr (.inr (.inr ⟨t, ht, .inl rfl⟩))
  · obtain ⟨hpos, hle, hsgis⟩ := level_le hdoc hgap hok hp
    constructor
    · rintro (h | h | ⟨sgi, hsgi, h⟩ | ⟨t', ht', h | h⟩)
      · cases h
      · cases h
      · obtain ⟨heq, hlogical⟩ := PreInitStmt.setPriority.inj h
        have hsame : p - 1 = sgi := heq
        have hvalue : logical = sgi + 1 := hlogical
        show logical = p
        omega
      · have heq : p - 1 = t'.binds.irq := (PreInitStmt.setPriority.inj h).1
        have hirq := t'.binds.irq_ge
        unfold nsgis at hsgis
        omega
      · cases h
    · intro hlogical
      refine .inr (.inr (.inl ⟨p - 1, by omega, ?_⟩))
      have hvalue : logical = sgi2prio (p - 1) := by
        have hp : logical = p := hlogical
        unfold sgi2prio
        omega
      exact congrArg (PreInitStmt.setPriority (p - 1)) hvalue

theorem configured (hdoc : Documented app analysis) (hgap : GapFree app.numbered)
    (hok : check app.numbered = .ok ()) (hirqs : (app.hardwareTasks.map (·.binds.irq)).Nodup)
    (h : preInit app.numbered analysis.toAnalysis = some stmts) (gic : Gic) :
    Configured app (stmts.foldl Gic.write gic) ∧
      (stmts.foldl Gic.write gic).pmr = logical2hw idlePriority := by
  have hmask : ∀ logical, .setPriorityMask logical ∈ stmts → logical = idlePriority := by
    intro logical hmem
    rw [preInit_mem h (by simp), sgiPriorities_mem, spiPriorities_mem] at hmem
    rcases hmem with h | h | ⟨_, _, h⟩ | ⟨_, _, h | h⟩ <;> cases h
    rfl
  refine ⟨⟨?_, fun t => ?_, fun t => ?_⟩, ?_⟩
  · refine foldl_settles (·.enabled) (fun stmt _ gic => ?_) ?_ gic
    · cases stmt with
      | enableGic => exact .inl rfl
      | _ => exact .inr rfl
    · exact ⟨.enableGic, (preInit_mem h (by simp)).mpr (.inl rfl), fun _ => rfl⟩
  · have hset := setPriority_irqOf hdoc hgap hok hirqs h t
    refine foldl_settles (·.priority (irqOf t)) (fun stmt hstmt gic => ?_) ?_ gic
    · cases stmt with
      | setPriority irq logical =>
        by_cases hirq : irq = irqOf t
        · rw [hirq] at hstmt ⊢
          rw [(hset logical).mp hstmt]
          exact .inl (Function.update_self ..)
        · exact .inr (Function.update_of_ne (Ne.symm hirq) ..)
      | _ => exact .inr rfl
    · exact ⟨_, (hset _).mpr rfl, fun _ => Function.update_self ..⟩
  · rcases t with ⟨t, ht⟩ | ⟨p, hp⟩
    · refine .inr (foldl_settles (·.forwarded t.binds.irq) (fun stmt _ gic => ?_) ?_ gic)
      · cases stmt with
        | enableSpi irq =>
          by_cases hirq : irq = t.binds.irq
          · rw [hirq]
            exact .inl (Function.update_self ..)
          · exact .inr (Function.update_of_ne (Ne.symm hirq) ..)
        | _ => exact .inr rfl
      · refine ⟨.enableSpi t.binds.irq, ?_, fun _ => Function.update_self ..⟩
        rw [preInit_mem h (by simp), spiPriorities_mem]
        exact .inr (.inr (.inr ⟨t, ht, .inr rfl⟩))
    · obtain ⟨hpos, -, hsgis⟩ := level_le hdoc hgap hok hp
      left
      show p - 1 < nsgis
      omega
  · refine foldl_settles (·.pmr) (fun stmt hstmt gic => ?_) ?_ gic
    · cases stmt with
      | setPriorityMask logical =>
        rw [hmask logical hstmt]
        exact .inl rfl
      | _ => exact .inr rfl
    · exact ⟨.setPriorityMask idlePriority, (preInit_mem h (by simp)).mpr (.inr (.inl rfl)),
        fun _ => rfl⟩

end Registers

section Main
variable {app : Resources.App} {analysis : Resources.Analysis} {stmts : List MainStmt}

def MainStmt.effect (gic : Gic) : MainStmt → Gic
  | .preInit stmt => gic.write stmt
  | _ => gic

def MainStmt.late : MainStmt → Option String
  | .writeLate name => some name
  | _ => none

/-- What `main` does before it unmasks the interrupts. -/
structure Front (app : Resources.App) (analysis : Resources.Analysis) (front : List MainStmt)
    (pre : List PreInitStmt) : Prop where
  pre_init : preInit app.numbered analysis.toAnalysis = some pre
  masked : .enableIrq ∉ front
  gic : ∀ gic, front.foldl MainStmt.effect gic = pre.foldl Gic.write gic
  late : front.filterMap MainStmt.late = (analysis.lateResources.getD []).filter analysis.located

theorem effect_writes (names : List String) (gic : Gic) :
    (names.map .writeLate).foldl MainStmt.effect gic = gic := by
  induction names with
  | nil => rfl
  | cons name names ih => exact ih

theorem effect_preInit (pre : List PreInitStmt) (gic : Gic) :
    (pre.map .preInit).foldl MainStmt.effect gic = pre.foldl Gic.write gic := by
  rw [List.foldl_map]
  rfl

theorem mainStmts_front (h : mainStmts app analysis = some stmts) :
    ∃ front pre, Front app analysis front pre ∧ stmts = front ++ [.enableIrq, .callIdle] := by
  obtain ⟨pre, hpre, rfl⟩ := Option.map_eq_some_iff.mp h
  refine ⟨pre.map .preInit ++ (if app.init.isSome then [.callInit] else []) ++
    ((analysis.lateResources.getD []).filter analysis.located).map .writeLate, pre,
    ⟨hpre, ?_, fun gic => ?_, ?_⟩, ?_⟩
  · cases app.init <;> simp
  · rw [List.foldl_append, List.foldl_append, effect_writes, effect_preInit]
    cases app.init <;> rfl
  · have hnone : (pre.map MainStmt.preInit).filterMap MainStmt.late = [] := by
      simp [List.filterMap_eq_nil_iff, MainStmt.late]
    have hsome : ∀ names : List String,
        (names.map MainStmt.writeLate).filterMap MainStmt.late = names := by
      intro names
      rw [List.filterMap_map]
      exact List.filterMap_some
    rw [List.filterMap_append, List.filterMap_append, hnone, hsome]
    cases app.init <;> rfl
  · simp [postInit]

theorem enableIrq_split {front done rest : List MainStmt} (hfront : .enableIrq ∉ front)
    (h : front ++ [.enableIrq, .callIdle] = done ++ .enableIrq::rest) :
    done = front ∧ rest = [.callIdle] := by
  obtain ⟨hdone, -, hrest⟩ := (List.append_cons_inj_of_notMem hfront (by simp)).mp h
  exact ⟨hdone.symm, hrest.symm⟩

variable {hdoc : Documented app analysis} {gic : Gic} {s s' : State app}

/-- How far `main` has come, and what this says about the handlers. -/
structure Progress (hdoc : Documented app analysis) (stmts : List MainStmt) (gic : Gic)
    (s : State app) (done : List MainStmt) : Prop where
  split : stmts = done ++ s.rest
  written : s.written = done.filterMap MainStmt.late
  irq : s.irq = true ↔ .enableIrq ∈ done
  masked : s.irq = false →
    s.nested.stack = Preemption.start.stack ∧ s.gic = done.foldl MainStmt.effect gic
  unmasked : s.irq = true → Configured app s.gic ∧
    Reachable (Preemption.step (application hdoc)) Preemption.start s.nested

theorem execute_eq (s : State app) (stmt : MainStmt) : s.execute stmt =
    { s with
      gic := stmt.effect s.gic
      written := s.written ++ stmt.late.toList
      irq := s.irq || decide (stmt = .enableIrq) } := by
  cases stmt <;> simp [State.execute, MainStmt.effect, MainStmt.late]

theorem progress_main {front : List MainStmt} {pre : List PreInitStmt}
    (hfront : Front app analysis front pre) (hstmts : stmts = front ++ [.enableIrq, .callIdle])
    (hconf : ∀ gic, Configured app (pre.foldl Gic.write gic) ∧
      (pre.foldl Gic.write gic).pmr = logical2hw idlePriority)
    {done rest : List MainStmt} {stmt : MainStmt} (h : Progress hdoc stmts gic s done)
    (hrest : s.rest = stmt::rest) :
    Progress hdoc stmts gic ({ s with rest := rest }.execute stmt) (done ++ [stmt]) := by
  have hsplit : stmts = done ++ stmt::rest := hrest ▸ h.split
  rw [execute_eq]
  refine ⟨?_, ?_, ?_, ?_, ?_⟩
  · simp [hsplit]
  · show s.written ++ stmt.late.toList = _
    rw [h.written, List.filterMap_append]
    cases hlate : stmt.late with
    | none => rw [List.filterMap_cons_none hlate]; rfl
    | some name => rw [List.filterMap_cons_some hlate]; rfl
  · rw [Bool.or_eq_true, h.irq, decide_eq_true_iff, List.mem_append, List.mem_singleton]
    exact or_congr Iff.rfl eq_comm
  · intro hirq
    obtain ⟨hmasked, hother⟩ := Bool.or_eq_false_iff.mp hirq
    obtain ⟨hstack, hgic⟩ := h.masked hmasked
    refine ⟨hstack, ?_⟩
    show stmt.effect s.gic = _
    rw [hgic, List.foldl_append]
    rfl
  · intro hirq
    by_cases hstmt : stmt = .enableIrq
    · -- everything in front of it has been executed
      subst hstmt
      obtain ⟨rfl, -⟩ := enableIrq_split hfront.masked (hstmts.symm.trans hsplit)
      have hmasked : s.irq = false := by
        rw [← Bool.not_eq_true, h.irq]
        exact hfront.masked
      obtain ⟨hstack, hgic⟩ := h.masked hmasked
      rw [hfront.gic] at hgic
      obtain ⟨hconfigured, hpmr⟩ := hconf gic
      rw [← hgic] at hconfigured hpmr
      have hnested : State.nested s = Preemption.start :=
        congrArg₂ Preemption.State.mk hpmr hstack
      exact ⟨hconfigured, [], congrArg some hnested.symm⟩
    · have hirq' : s.irq = true := by
        rcases (Bool.or_eq_true _ _).mp hirq with hirq | hother
        · exact hirq
        · exact absurd (of_decide_eq_true hother) hstmt
      obtain ⟨front', back, hdone⟩ := List.append_of_mem (h.irq.mp hirq')
      rw [hdone, List.append_assoc, List.cons_append] at hsplit
      obtain ⟨-, hback⟩ := enableIrq_split hfront.masked (hstmts.symm.trans hsplit)
      have hidle : stmt = .callIdle := by
        rcases List.append_eq_singleton_iff.mp hback with ⟨-, hlast⟩ | ⟨-, hlast⟩
        · exact (List.cons.inj hlast).1
        · cases hlast
      subst hidle
      exact h.unmasked hirq'

theorem progress_nested {done : List MainStmt} (h : Progress hdoc stmts gic s done)
    (hirq : s.irq = true) {stack : List (Activation (Handler app) String)} {pmr : ℕ}
    {e : Preemption.Event (Handler app) String}
    (hstep : Preemption.step (application hdoc) s.nested e = some ⟨pmr, stack⟩) :
    Progress hdoc stmts gic { s with gic := { s.gic with pmr := pmr }, stack := stack } done := by
  obtain ⟨hconf, hreach⟩ := h.unmasked hirq
  refine ⟨h.split, h.written, h.irq, fun hmasked => ?_, fun _ => ?_⟩
  · exact absurd (hirq.symm.trans hmasked) nofun
  · exact ⟨⟨hconf.enabled, hconf.priority, hconf.forwarded⟩, hreach.next hstep⟩

theorem take_nested (hconf : Configured app s.gic) {t : Handler app}
    {a : Activation (Handler app) String} {below : List (Activation (Handler app) String)}
    (hstack : s.stack = a::below) (htaken : s.Taken t a.ctx) :
    Preemption.step (application hdoc) s.nested (.take t) =
      some ⟨s.gic.pmr, (application hdoc).handler t s.gic.pmr::a::below⟩ := by
  obtain ⟨-, -, -, hpmr, hrunning⟩ := htaken
  rw [hconf.priority] at hpmr hrunning
  have habove : (application hdoc).priority a.ctx < handlerPriority app t := by
    cases hctx : a.ctx with
    | none => exact (application hdoc).priority_pos t
    | some u =>
      rw [hctx, Gic.running, hconf.priority] at hrunning
      exact lt_of_logical2hw_lt hrunning
  simp only [Preemption.step, State.nested, hstack]
  exact if_pos ⟨hpmr, habove⟩

theorem Progress.alone {front done : List MainStmt}
    (hstmts : stmts = front ++ [.enableIrq, .callIdle]) (h : Progress hdoc stmts gic s done)
    (hmasked : s.irq = false) {a : Activation (Handler app) String}
    {below : List (Activation (Handler app) String)} (hstack : s.stack = a::below) :
    below = [] ∧ a.phase = .body ∧ s.rest ≠ [] := by
  have hstart : a::below = Preemption.start.stack := hstack.symm.trans (h.masked hmasked).1
  obtain ⟨rfl, rfl⟩ := List.cons.inj hstart
  refine ⟨rfl, rfl, fun hrest => ?_⟩
  have hall : stmts = done := by
    rw [h.split, hrest, List.append_nil]
  have hirq : s.irq = true := by
    rw [h.irq, ← hall, hstmts]
    simp
  rw [hmasked] at hirq
  cases hirq

theorem progress_step {front : List MainStmt} {pre : List PreInitStmt}
    (hfront : Front app analysis front pre) (hstmts : stmts = front ++ [.enableIrq, .callIdle])
    (hconf : ∀ gic, Configured app (pre.foldl Gic.write gic) ∧
      (pre.foldl Gic.write gic).pmr = logical2hw idlePriority) (e : Event app)
    (h : ∃ done, Progress hdoc stmts gic s done) (hstep : step hdoc s e = some s') :
    ∃ done, Progress hdoc stmts gic s' done := by
  obtain ⟨done, h⟩ := h
  cases e with
  | main =>
    simp only [step] at hstep
    split at hstep
    next a stmt rest hstack hrest =>
      cases hstep
      exact ⟨_, progress_main hfront hstmts hconf h hrest⟩
    next => cases hstep
  | take t =>
    simp only [step] at hstep
    split at hstep
    next a below hstack =>
      split at hstep
      next htaken =>
        cases hstep
        have hirq := htaken.1
        exact ⟨done, progress_nested h hirq (take_nested (h.unmasked hirq).1 hstack htaken)⟩
      next => cases hstep
    next => cases hstep
  | act action =>
    simp only [step] at hstep
    split at hstep
    next a below hstack =>
      split at hstep
      next => cases hstep
      next hruns =>
        have hirq : s.irq = true := by
          by_contra hmasked
          obtain ⟨rfl, -, hrest⟩ := h.alone hstmts (Bool.not_eq_true _ ▸ hmasked) hstack
          exact hruns (by simp [hrest])
        obtain ⟨⟨pmr, a'⟩, hact, rfl⟩ := Option.map_eq_some_iff.mp hstep
        refine ⟨done, progress_nested (e := .act action) h hirq ?_⟩
        simp only [Preemption.step, State.nested, hstack]
        rw [hact]
        rfl
    next => cases hstep
  | endOfInterrupt =>
    simp only [step] at hstep
    split at hstep
    next a below hstack =>
      split at hstep
      next hphase =>
        cases hstep
        have hirq : s.irq = true := by
          by_contra hmasked
          obtain ⟨-, hbody, -⟩ := h.alone hstmts (Bool.not_eq_true _ ▸ hmasked) hstack
          rw [hphase] at hbody
          cases hbody
        refine ⟨done, progress_nested (e := .endOfInterrupt) h hirq ?_⟩
        simp only [Preemption.step, State.nested, hstack]
        exact if_pos hphase
      next => cases hstep
    next => cases hstep

/-- What `rtic_syntax` documents about late resources: those that are accessed are live, and
`init` returns each of them once. -/
structure LateDocumented (app : Resources.App) (analysis : Resources.Analysis) : Prop where
  nodup : (analysis.lateResources.getD []).Nodup
  live : ∀ name p access, Accessor app name p access → app.resource name = some true →
    name ∈ analysis.lateResources.getD [] ∧ analysis.located name = true

theorem Progress.written_nodup {front done : List MainStmt} {pre : List PreInitStmt}
    (hfront : Front app analysis front pre) (hstmts : stmts = front ++ [.enableIrq, .callIdle])
    (hlate : LateDocumented app analysis) (h : Progress hdoc stmts gic s done) :
    s.written.Nodup := by
  have hall : stmts.filterMap MainStmt.late =
      (analysis.lateResources.getD []).filter analysis.located := by
    rw [hstmts, List.filterMap_append, hfront.late]
    exact List.append_nil _
  have hnodup : (stmts.filterMap MainStmt.late).Nodup := hall ▸ hlate.nodup.filter _
  rw [h.split, List.filterMap_append, ← h.written] at hnodup
  exact hnodup.of_append_left

theorem Progress.written_of_irq {front done : List MainStmt} {pre : List PreInitStmt}
    (hfront : Front app analysis front pre) (hstmts : stmts = front ++ [.enableIrq, .callIdle])
    (h : Progress hdoc stmts gic s done) (hirq : s.irq = true) {name : String}
    (hname : name ∈ (analysis.lateResources.getD []).filter analysis.located) :
    name ∈ s.written := by
  obtain ⟨front', back, hdone⟩ := List.append_of_mem (h.irq.mp hirq)
  have hsplit := h.split
  rw [hdone, List.append_assoc, List.cons_append] at hsplit
  obtain ⟨rfl, -⟩ := enableIrq_split hfront.masked (hstmts.symm.trans hsplit)
  rw [h.written, hdone, List.filterMap_append, hfront.late]
  exact List.mem_append_left _ hname

/-- In every run from reset, whatever the controller holds at first: before interrupts are
unmasked no handler is taken, and afterwards the handlers run as in the preemption model, each at
its own priority. No late resource is written twice, and each that a task or idle gets has been
written before it runs. -/
theorem startup (app : Resources.App) (analysis : Resources.Analysis)
    (hdoc : Documented app analysis) (hlate : LateDocumented app analysis)
    (hok : check app.numbered = .ok ()) (hgap : GapFree app.numbered)
    (hirqs : (app.hardwareTasks.map (·.binds.irq)).Nodup) (stmts : List MainStmt)
    (hstmts : mainStmts app analysis = some stmts) (gic : Gic) (es : List (Event app))
    (s : State app) (h : exec (step hdoc) es (reset stmts gic) = some s) :
    (s.irq = false → s.stack = Preemption.start.stack) ∧
    (s.irq = true → Configured app s.gic ∧
      Reachable (Preemption.step (application hdoc)) Preemption.start s.nested) ∧
    s.written.Nodup ∧
    ∀ a ∈ s.stack, a.ctx ≠ none ∨ s.rest = [] → ∀ ctxt ∈ contexts app a.ctx, ∀ name type,
      HasField app analysis ctxt name type → app.resource name = some true → name ∈ s.written := by
  obtain ⟨front, pre, hfront, hsplit⟩ := mainStmts_front hstmts
  have hconf := configured hdoc hgap hok hirqs hfront.pre_init
  have hstart : ∃ done, Progress hdoc stmts gic (reset stmts gic) done :=
    ⟨[], rfl, rfl, by simp [reset], fun _ => ⟨rfl, rfl⟩, nofun⟩
  obtain ⟨done, hs⟩ := exec_invariant (I := fun s => ∃ done, Progress hdoc stmts gic s done)
    (fun s e t => progress_step hfront hsplit hconf e) es hstart h
  refine ⟨fun hmasked => (hs.masked hmasked).1, hs.unmasked, hs.written_nodup hfront hsplit hlate,
    ?_⟩
  intro a ha hruns ctxt hctxt name type hfield hresource
  have hirq : s.irq = true := by
    by_contra hmasked
    have hstack : s.stack = Preemption.start.stack := (hs.masked (Bool.not_eq_true _ ▸ hmasked)).1
    obtain ⟨-, -, hrest⟩ := hs.alone hsplit (Bool.not_eq_true _ ▸ hmasked) hstack
    rw [hstack] at ha
    obtain rfl := List.mem_singleton.mp ha
    exact hruns.elim (fun hctx => hctx rfl) hrest
  obtain ⟨p, access, o, hgrant⟩ := hfield.granted (contexts_ne_init a.ctx ctxt hctxt)
  obtain ⟨hname, hlocated⟩ := hlate.live name p access hgrant.accessor hresource
  exact hs.written_of_irq hfront hsplit hirq (List.mem_filter.mpr ⟨hname, hlocated⟩)

end Main

/-- `init` returns `x`, idle locks it, and `foo` accesses it directly. -/
def lateApp : Resources.App where
  init := some []
  idle := some [("x", .exclusive)]
  hardwareTasks := []
  softwareTasks := [⟨⟨"foo", 1, 1⟩, [("x", .exclusive)]⟩]
  resource := fun name => if name = "x" then some true else none
  hardware_nodup := List.nodup_nil
  software_nodup := by decide

def lateAnalysis : Resources.Analysis where
  freeQueues := ["foo"]
  channels := [(1, ⟨["foo"], 1, none⟩)]
  ownerships := fun name =>
    if name = "x" then some ⟨fun p => decide (p < 1), false, some 1⟩ else none
  lateResources := some ["x"]
  located := fun _ => true

theorem lateApp_accessor {name : String} {p : ℕ} {access : Access} :
    Accessor lateApp name p access ↔ name = "x" ∧ access = .exclusive ∧ p ≤ 1 := by
  constructor
  · rintro ⟨ctxt, args, hinit, hp, hargs, hlisted⟩
    cases ctxt with
    | init => exact absurd rfl hinit
    | idle =>
      cases hp
      cases hargs
      cases List.mem_singleton.mp hlisted
      exact ⟨rfl, rfl, Nat.zero_le 1⟩
    | hardwareTask other => cases hp
    | softwareTask other =>
      obtain ⟨t, ht, rfl⟩ := Option.map_eq_some_iff.mp hp
      obtain ⟨t', ht', rfl⟩ := Option.map_eq_some_iff.mp hargs
      obtain rfl : t = t' := Option.some.inj (ht.symm.trans ht')
      obtain rfl := List.mem_singleton.mp (List.mem_of_find?_eq_some ht)
      cases List.mem_singleton.mp hlisted
      exact ⟨rfl, rfl, Nat.le_refl 1⟩
  · rintro ⟨rfl, rfl, hp⟩
    obtain rfl | rfl : p = 0 ∨ p = 1 := by omega
    · exact ⟨.idle, _, nofun, rfl, rfl, by decide⟩
    · exact ⟨.softwareTask "foo", _, nofun, rfl, rfl, by decide⟩

theorem late_owner {name : String} {o : Ownership} (h : lateAnalysis.ownerships name = some o) :
    name = "x" ∧ o = ⟨fun p => decide (p < 1), false, some 1⟩ := by
  simp only [lateAnalysis, Option.ite_none_right_eq_some] at h
  exact ⟨h.1, (Option.some.inj h.2).symm⟩

theorem lateApp_documented : Documented lateApp lateAnalysis where
  owned := by
    rintro name p access h
    obtain ⟨rfl, -, -⟩ := lateApp_accessor.mp h
    rfl
  ceiling := by
    rintro name c h
    obtain ⟨o, ho, hc⟩ := Option.bind_eq_some_iff.mp h
    obtain ⟨rfl, rfl⟩ := late_owner ho
    cases hc
    refine ⟨⟨.exclusive, lateApp_accessor.mpr ⟨rfl, rfl, Nat.le_refl 1⟩⟩, ?_⟩
    rintro p ⟨access, hp⟩
    exact (lateApp_accessor.mp hp).2.2
  alone := by
    rintro name p q access access' hnone h h'
    obtain ⟨rfl, -, -⟩ := lateApp_accessor.mp h
    cases hnone
  lock := by
    rintro name o p h
    obtain ⟨-, rfl⟩ := late_owner h
    simp
  uniform := by
    rintro name p q access access' h h'
    exact (lateApp_accessor.mp h).2.1.trans (lateApp_accessor.mp h').2.1.symm
  served := by
    rintro level channel name hchannel hname
    cases List.mem_singleton.mp hchannel
    obtain rfl := List.mem_singleton.mp hname
    decide
  hardware_range := nofun
  software_range := by decide

theorem lateApp_late : LateDocumented lateApp lateAnalysis where
  nodup := List.nodup_singleton _
  live := by
    rintro name p access h -
    obtain ⟨rfl, -, -⟩ := lateApp_accessor.mp h
    exact ⟨List.mem_singleton_self _, rfl⟩

theorem lateApp_gapFree : GapFree lateApp.numbered := by
  intro p hp q hpos hle
  have hone : p = 1 := by simpa [priorities, App.numbered, lateApp] using hp
  obtain rfl : q = 1 := by omega
  exact hone ▸ hp

def lateStmts : List MainStmt :=
  [.preInit (.fillFreeQueue "foo_FQ" 1), .preInit .enableGic, .preInit (.setPriorityMask 0),
   .preInit (.setPriority 0 1), .callInit, .writeLate "x", .enableIrq, .callIdle]

/-- `foo`, spawned by `init`, runs before idle. -/
def lateRun : List (Event lateApp) :=
  List.replicate 7 .main ++ [.take (.inr ⟨1, by decide⟩), .act .runRead]

theorem startup_late : ∃ s,
    exec (step lateApp_documented) lateRun
      (reset lateStmts ⟨false, 0, fun _ => 0, fun _ => false⟩) =
      some s ∧
    s.stack.map (·.ctx) = [some (.inr ⟨1, by decide⟩), none] ∧ s.written = ["x"] ∧
    Reachable (Preemption.step (application lateApp_documented)) Preemption.start s.nested := by
  refine ⟨_, rfl, rfl, rfl, ?_⟩
  exact ((startup lateApp lateAnalysis lateApp_documented lateApp_late rfl lateApp_gapFree
    List.nodup_nil lateStmts rfl _ lateRun _ rfl).2.1 rfl).2

end UsbArmory.Rtic.Startup
