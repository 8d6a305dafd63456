import Mathlib.Algebra.BigOperators.Group.Finset.Sigma
import UsbArmory.Rtic.MessagePassing

/-!
# Slots

Every slot index of every task is in exactly one place in every state: its
free queue, its ready queue, one spawner or its dispatcher. No unchecked
enqueue ever finds its queue full.
-/

set_option autoImplicit false

namespace UsbArmory.Rtic.MessageSlots
open UsbArmory.Library.Run UsbArmory.Library.Token
open UsbArmory.Rtic.Codegen UsbArmory.Rtic.MessagePassing

inductive Place where
  | free
  | ready
  | spawner (sid : ℕ)
  | dispatcher
  deriving DecidableEq

variable {Task Msg : Type}

/-- The slot between a free-queue dequeue and a ready-queue enqueue. -/
def spawnerHolds : Spawner Task Msg → Option (Task × ℕ)
  | .write t _ i | .enqueue t _ i => some (t, i)
  | _ => none

/-- The slot between a ready-queue dequeue and a free-queue enqueue. -/
def dispatchHolds : Dispatch Task Msg → Option (Task × ℕ)
  | .read t i | .free t i _ => some (t, i)
  | _ => none

theorem update_holds {α β : Type} (f : ℕ → α) (holds : α → β) (n : ℕ) (pc : α)
    (h : holds pc = holds (f n)) (r : ℕ) : holds (Function.update f n pc r) = holds (f r) := by
  by_cases hr : r = n
  · subst r
    rw [Function.update_self, h]
  · rw [Function.update_of_ne hr]

variable [Fintype Task]

def At (c : Config Task) (s : State Task Msg) (k : Task × ℕ) : Place → Prop
  | .free => k.2 ∈ s.fq k.1
  | .ready => k ∈ s.rq (c.level k.1)
  | .spawner sid => spawnerHolds (s.spawner sid) = some k
  | .dispatcher => dispatchHolds (s.dispatcher (c.level k.1)) = some k

structure Slots (c : Config Task) (s : State Task Msg) : Prop where
  placed : Placed (fun k => k.2 < c.capacity k.1) (At c s)
  fq_nodup : ∀ t, (s.fq t).Nodup
  rq_nodup : ∀ level, (s.rq level).Nodup
  rq_level : ∀ level, ∀ k ∈ s.rq level, c.level k.1 = level
  dispatch_level : ∀ level k, dispatchHolds (s.dispatcher level) = some k → c.level k.1 = level

theorem slots_init (c : Config Task) : Slots c (c.init : State Task Msg) := by
  refine ⟨⟨?_, ?_⟩, fun t => List.nodup_range, fun _ => List.nodup_nil, ?_, ?_⟩
  · intro k hk
    refine ⟨.free, List.mem_range.mpr hk, ?_⟩
    intro p hp
    cases p <;> simp_all [At, Config.init, spawnerHolds, dispatchHolds]
  · intro k p hp
    cases p <;> simp_all [At, Config.init, spawnerHolds, dispatchHolds]
  · intro level k hk
    exact absurd hk List.not_mem_nil
  · intro level k hk
    cases hk

variable {c : Config Task} {s s' : State Task Msg}

theorem slots_congr (hs : Slots c s) (hfq : s'.fq = s.fq) (hrq : s'.rq = s.rq)
    (hsp : ∀ sid, spawnerHolds (s'.spawner sid) = spawnerHolds (s.spawner sid))
    (hd : ∀ level, dispatchHolds (s'.dispatcher level) = dispatchHolds (s.dispatcher level)) :
    Slots c s' := by
  refine ⟨hs.placed.congr ?_, ?_, ?_, ?_, ?_⟩
  · intro k p
    cases p <;> simp only [At, hfq, hrq, hsp, hd]
  · rw [hfq]
    exact hs.fq_nodup
  · rw [hrq]
    exact hs.rq_nodup
  · rw [hrq]
    exact hs.rq_level
  · intro level k hk
    exact hs.dispatch_level level k ((hd level).symm.trans hk)

theorem slots_spawner (hs : Slots c s) (sid : ℕ) (pc : Spawner Task Msg)
    (h : spawnerHolds pc = spawnerHolds (s.spawner sid)) (hfq : s'.fq = s.fq) (hrq : s'.rq = s.rq)
    (hsp : s'.spawner = Function.update s.spawner sid pc) (hd : s'.dispatcher = s.dispatcher) :
    Slots c s' :=
  slots_congr hs hfq hrq (by rw [hsp]; exact update_holds _ _ sid pc h) (by simp [hd])

theorem slots_dispatch (hs : Slots c s) (level : ℕ) (pc : Dispatch Task Msg)
    (h : dispatchHolds pc = dispatchHolds (s.dispatcher level)) (hfq : s'.fq = s.fq)
    (hrq : s'.rq = s.rq) (hsp : s'.spawner = s.spawner)
    (hd : s'.dispatcher = Function.update s.dispatcher level pc) : Slots c s' :=
  slots_congr hs hfq hrq (by simp [hsp]) (by rw [hd]; exact update_holds _ _ level pc h)

theorem slots_enqueue (hs : Slots c s) (sid : ℕ) (t : Task) (m : Msg) (i : ℕ)
    (h : s.spawner sid = .enqueue t m i) (hfq : s'.fq = s.fq)
    (hrq : s'.rq = Function.update s.rq (c.level t) (s.rq (c.level t) ++ [(t, i)]))
    (hsp : s'.spawner = Function.update s.spawner sid (.pend t m))
    (hd : s'.dispatcher = s.dispatcher) : Slots c s' := by
  have hat : At c s (t, i) (.spawner sid) := by simp [At, h, spawnerHolds]
  have hni : (t, i) ∉ s.rq (c.level t) := by
    intro hm
    have he := hs.placed.eq hat (q := .ready) hm
    cases he
  refine ⟨hs.placed.move (k := (t, i)) (p := .spawner sid) (q := .ready) hat ?_, ?_, ?_, ?_, ?_⟩
  · rintro ⟨u, j⟩ r
    cases r with
    | free => simp [At, hfq]
    | ready =>
      by_cases hu : c.level u = c.level t
      · simp [At, hrq, hu, or_comm]
      · have hut : u ≠ t := fun he => hu (by rw [he])
        simp [At, hrq, hu, hut]
    | spawner sid' =>
      by_cases hsid : sid' = sid
      · subst sid'
        simp [At, hsp, spawnerHolds, h, eq_comm]
      · simp [At, hsp, hsid]
    | dispatcher => simp [At, hd]
  · rw [hfq]
    exact hs.fq_nodup
  · intro level
    by_cases hl : level = c.level t
    · subst level
      have hnd := (hs.rq_nodup (c.level t)).concat hni
      simpa [hrq] using hnd
    · simpa [hrq, hl] using hs.rq_nodup level
  · intro level k hk
    by_cases hl : level = c.level t
    · subst level
      simp only [hrq, Function.update_self, List.mem_append, List.mem_singleton] at hk
      rcases hk with hk | rfl
      · exact hs.rq_level _ k hk
      · rfl
    · rw [hrq, Function.update_of_ne hl] at hk
      exact hs.rq_level level k hk
  · rw [hd]
    exact hs.dispatch_level

theorem fq_room (hs : Slots c s) (level : ℕ) (t : Task) (i : ℕ) (m : Option Msg)
    (h : s.dispatcher level = .free t i m) : (s.fq t).length < c.fqSize t := by
  have hl : c.level t = level := hs.dispatch_level level (t, i) (by rw [h]; rfl)
  have hat : At c s (t, i) .dispatcher := by simp [At, hl, h, dispatchHolds]
  have hcap := le_capacityTypenum _ _ (c.fqSize_eq t)
  have hlt : (s.fq t).length < (Finset.range (c.capacity t)).card := by
    apply length_lt_card (hs.fq_nodup t) (k := i)
    · intro j hj
      exact Finset.mem_range.mpr (hs.placed.supply (t, j) .free hj)
    · exact Finset.mem_range.mpr (hs.placed.supply (t, i) .dispatcher hat)
    · intro hm
      have he := hs.placed.eq hat (q := .free) hm
      cases he
  rw [Finset.card_range] at hlt
  exact hlt.trans_le hcap

/-- All slots that can ever be in the ready queue of a level. -/
def levelSlots (c : Config Task) (level : ℕ) : Finset (Task × ℕ) :=
  ((Finset.univ.filter fun u => c.level u = level).sigma
    fun u => Finset.range (c.capacity u)).map (Equiv.sigmaEquivProd Task ℕ).toEmbedding

theorem mem_levelSlots (c : Config Task) (level : ℕ) (k : Task × ℕ) :
    k ∈ levelSlots c level ↔ c.level k.1 = level ∧ k.2 < c.capacity k.1 := by
  obtain ⟨u, j⟩ := k
  constructor
  · intro h
    simpa [levelSlots] using h
  · intro h
    simpa [levelSlots] using h

theorem card_levelSlots (c : Config Task) (level : ℕ) :
    (levelSlots c level).card = ∑ u with c.level u = level, c.capacity u := by
  simp [levelSlots, Finset.card_sigma]

theorem rq_room (hs : Slots c s) (sid : ℕ) (t : Task) (m : Msg) (i : ℕ)
    (h : s.spawner sid = .enqueue t m i) :
    (s.rq (c.level t)).length < c.rqSize (c.level t) := by
  have hat : At c s (t, i) (.spawner sid) := by simp [At, h, spawnerHolds]
  have hcap := le_capacityTypenum _ _ (c.rqSize_eq t)
  have hlt : (s.rq (c.level t)).length < (levelSlots c (c.level t)).card := by
    apply length_lt_card (hs.rq_nodup _) (k := (t, i))
    · intro j hj
      have hjl := hs.rq_level _ j hj
      refine (mem_levelSlots c _ j).mpr ⟨hjl, hs.placed.supply j .ready ?_⟩
      simpa [At, hjl] using hj
    · exact (mem_levelSlots c _ _).mpr ⟨rfl, hs.placed.supply (t, i) _ hat⟩
    · intro hm
      have he := hs.placed.eq hat (q := .ready) hm
      cases he
  rw [card_levelSlots] at hlt
  exact hlt.trans_le hcap

theorem slots_next (hs : Slots c s) (level : ℕ) (t : Task) (i : ℕ) (rest : List (Task × ℕ))
    (h : s.dispatcher level = .dequeue) (hq : s.rq level = (t, i)::rest) :
    Slots c { s.setDispatch level (.read t i) with rq := Function.update s.rq level rest } := by
  have hnd := hs.rq_nodup level
  have hlevel := hs.rq_level level
  rw [hq] at hnd hlevel
  obtain ⟨hi, hrest⟩ := List.nodup_cons.mp hnd
  have hl : c.level t = level := hlevel (t, i) List.mem_cons_self
  refine ⟨hs.placed.move (k := (t, i)) (p := .ready) (q := .dispatcher) ?_ ?_,
    hs.fq_nodup, ?_, ?_, ?_⟩
  · simp [At, hl, hq]
  · rintro ⟨u, j⟩ r
    cases r with
    | free => simp [At, State.setDispatch]
    | ready =>
      by_cases hu : c.level u = level
      · have hne : (u, j) ∈ rest → ¬(u = t ∧ j = i) := by
          rintro hm ⟨rfl, rfl⟩
          exact hi hm
        simpa [At, hu, hq] using by tauto
      · have hut : u ≠ t := fun he => hu (he ▸ hl)
        simp [At, hu, hut]
    | spawner sid => simp [At, State.setDispatch]
    | dispatcher =>
      by_cases hu : c.level u = level
      · simp [At, State.setDispatch, hu, dispatchHolds, h, eq_comm]
      · have hut : u ≠ t := fun he => hu (he ▸ hl)
        simp [At, State.setDispatch, hu, hut]
  · intro level'
    by_cases hl' : level' = level
    · subst level'
      simpa using hrest
    · simpa [hl'] using hs.rq_nodup level'
  · intro level' k hk
    by_cases hl' : level' = level
    · subst level'
      simp only [Function.update_self] at hk
      exact hlevel k (List.mem_cons_of_mem _ hk)
    · exact hs.rq_level level' k (by simpa [hl'] using hk)
  · intro level' k hk
    by_cases hl' : level' = level
    · subst level'
      simp [State.setDispatch, dispatchHolds] at hk
      rw [← hk, hl]
    · exact hs.dispatch_level level' k (by simpa [State.setDispatch, hl'] using hk)

variable [DecidableEq Task]

theorem slots_take (hs : Slots c s) (sid : ℕ) (t : Task) (m : Msg) (i : ℕ) (rest : List ℕ)
    (h : s.spawner sid = .dequeue t m) (hq : s.fq t = i::rest) :
    Slots c { s.setSpawner sid (.write t m i) with fq := Function.update s.fq t rest } := by
  have hnd := hs.fq_nodup t
  rw [hq] at hnd
  obtain ⟨hi, hrest⟩ := List.nodup_cons.mp hnd
  refine ⟨hs.placed.move (k := (t, i)) (p := .free) (q := .spawner sid) ?_ ?_, ?_,
    hs.rq_nodup, hs.rq_level, hs.dispatch_level⟩
  · simp [At, hq]
  · rintro ⟨u, j⟩ r
    cases r with
    | free =>
      by_cases hu : u = t
      · subst u
        have hne : j ∈ rest → j ≠ i := fun hj he => hi (he ▸ hj)
        simpa [At, hq] using by tauto
      · simp [At, hu]
    | ready => simp [At, State.setSpawner]
    | spawner sid' =>
      by_cases hsid : sid' = sid
      · subst sid'
        simp [At, State.setSpawner, spawnerHolds, h, eq_comm]
      · simp [At, State.setSpawner, hsid]
    | dispatcher => simp [At, State.setSpawner]
  · intro u
    by_cases hu : u = t
    · subst u
      simpa using hrest
    · simpa [hu] using hs.fq_nodup u

theorem slots_free (hs : Slots c s) (level : ℕ) (t : Task) (i : ℕ) (m : Option Msg)
    (h : s.dispatcher level = .free t i m) :
    Slots c { s.setDispatch level (.run t m) with
      fq := Function.update s.fq t (s.fq t ++ [i]) } := by
  have hl : c.level t = level := hs.dispatch_level level (t, i) (by rw [h]; rfl)
  have hat : At c s (t, i) .dispatcher := by simp [At, hl, h, dispatchHolds]
  have hni : i ∉ s.fq t := by
    intro hm
    have he := hs.placed.eq hat (q := .free) hm
    cases he
  refine ⟨hs.placed.move (k := (t, i)) (p := .dispatcher) (q := .free) hat ?_, ?_,
    hs.rq_nodup, hs.rq_level, ?_⟩
  · rintro ⟨u, j⟩ r
    cases r with
    | free =>
      by_cases hu : u = t
      · subst u
        simp [At, or_comm]
      · simp [At, hu]
    | ready => simp [At, State.setDispatch]
    | spawner sid => simp [At, State.setDispatch]
    | dispatcher =>
      by_cases hu : c.level u = level
      · simp [At, State.setDispatch, hu, dispatchHolds, h, eq_comm]
      · have hut : u ≠ t := fun he => hu (he ▸ hl)
        simp [At, State.setDispatch, hu, hut]
  · intro u
    by_cases hu : u = t
    · subst u
      simpa using (hs.fq_nodup t).concat hni
    · simpa [hu] using hs.fq_nodup u
  · intro level' k hk
    by_cases hl' : level' = level
    · subst level'
      simp [State.setDispatch, dispatchHolds] at hk
    · exact hs.dispatch_level level' k (by simpa [State.setDispatch, hl'] using hk)

theorem slots_move (hs : Slots c s) (h : Move c s s') : Slots c s' := by
  cases h with
  | call sid t m h => exact slots_spawner hs sid _ (by rw [h]; rfl) rfl rfl rfl rfl
  | refuse sid t m h hq => exact slots_spawner hs sid _ (by rw [h]; rfl) rfl rfl rfl rfl
  | take sid t m i rest h hq => exact slots_take hs sid t m i rest h hq
  | write sid t m i h => exact slots_spawner hs sid _ (by rw [h]; rfl) rfl rfl rfl rfl
  | enqueue sid t m i h => exact slots_enqueue hs sid t m i h rfl rfl rfl rfl
  | pend sid t m h => exact slots_spawner hs sid _ (by rw [h]; rfl) rfl rfl rfl rfl
  | sgi level h h1 hp => exact slots_dispatch hs level _ (by rw [h]; rfl) rfl rfl rfl rfl
  | empty level h hq => exact slots_dispatch hs level _ (by rw [h]; rfl) rfl rfl rfl rfl
  | next level t i rest h hq => exact slots_next hs level t i rest h hq
  | read level t i h => exact slots_dispatch hs level _ (by rw [h]; rfl) rfl rfl rfl rfl
  | free level t i m h => exact slots_free hs level t i m h
  | run level t m h => exact slots_dispatch hs level _ (by rw [h]; rfl) rfl rfl rfl rfl
  | leave level h => exact slots_dispatch hs level _ (by rw [h]; rfl) rfl rfl rfl rfl

end UsbArmory.Rtic.MessageSlots
