import UsbArmory.Rtic.MessageDelivery

/-!
# Wake-up and soundness of message passing

A ready queue that is not empty has its dispatcher on the way, as long as the
SGI of the level exists: the macro binds level `p` to SGI `p-1`, and
`check::app` counts the levels instead of bounding them. With that exception
the machine is sound in every state it reaches.
-/

set_option autoImplicit false

namespace UsbArmory.Rtic.MessageWakeup
open UsbArmory.Library.Run UsbArmory.Rtic.Codegen
open UsbArmory.Rtic.MessagePassing UsbArmory.Rtic.MessageSlots UsbArmory.Rtic.MessageDelivery

variable {Task Msg : Type}

/-- The current activation of the handler still comes to a dequeue. -/
def dequeueAhead : Dispatch Task Msg → Bool
  | .dequeue | .read .. | .free .. | .run .. => true
  | .idle | .leave => false

variable [Fintype Task]

def pends (c : Config Task) : Spawner Task Msg → Option ℕ
  | .pend t _ => some (c.level t)
  | _ => none

def Awake (c : Config Task) (s : State Task Msg) (level : ℕ) : Prop :=
  dequeueAhead (s.dispatcher level) = true ∨ s.pending (prio2sgi level) = true ∨
    ∃ sid, pends c (s.spawner sid) = some level

def Woken (c : Config Task) (s : State Task Msg) : Prop :=
  ∀ level, s.rq level ≠ [] → Awake c s level

variable {c : Config Task} {s s' : State Task Msg}

theorem awake_congr (level : ℕ) (h : Awake c s level)
    (hd : dequeueAhead (s'.dispatcher level) = dequeueAhead (s.dispatcher level))
    (hp : s.pending (prio2sgi level) = true → s'.pending (prio2sgi level) = true)
    (hsp : ∀ sid, pends c (s.spawner sid) = some level →
      s'.pending (prio2sgi level) = true ∨ pends c (s'.spawner sid) = some level) :
    Awake c s' level := by
  rcases h with h | h | ⟨sid, h⟩
  · exact Or.inl (hd.trans h)
  · exact Or.inr (Or.inl (hp h))
  · rcases hsp sid h with hsid | hsid
    · exact Or.inr (Or.inl hsid)
    · exact Or.inr (Or.inr ⟨sid, hsid⟩)

theorem woken_spawner (hw : Woken c s) (sid : ℕ) (pc : Spawner Task Msg)
    (h : pends c pc = pends c (s.spawner sid)) (hrq : s'.rq = s.rq)
    (hd : s'.dispatcher = s.dispatcher) (hp : s'.pending = s.pending)
    (hsp : s'.spawner = Function.update s.spawner sid pc) : Woken c s' := by
  intro level hne
  rw [hrq] at hne
  apply awake_congr level (hw level hne)
  · rw [hd]
  · intro hl
    rwa [hp]
  · intro r hr
    right
    rwa [hsp, update_holds _ (pends c) sid pc h]

theorem woken_dispatch (hw : Woken c s) (level : ℕ) (pc : Dispatch Task Msg)
    (h : dequeueAhead pc = dequeueAhead (s.dispatcher level)) (hrq : s'.rq = s.rq)
    (hd : s'.dispatcher = Function.update s.dispatcher level pc) (hp : s'.pending = s.pending)
    (hsp : s'.spawner = s.spawner) : Woken c s' := by
  intro level' hne
  rw [hrq] at hne
  apply awake_congr level' (hw level' hne)
  · rw [hd, update_holds _ dequeueAhead level pc h]
  · intro hl
    rwa [hp]
  · intro r hr
    right
    rwa [hsp]

theorem woken_enqueue (hw : Woken c s) (sid : ℕ) (t : Task) (m : Msg) (i : ℕ)
    (h : s.spawner sid = .enqueue t m i) (hd : s'.dispatcher = s.dispatcher)
    (hp : s'.pending = s.pending)
    (hrq : s'.rq = Function.update s.rq (c.level t) (s.rq (c.level t) ++ [(t, i)]))
    (hsp : s'.spawner = Function.update s.spawner sid (.pend t m)) : Woken c s' := by
  intro level hne
  by_cases hl : level = c.level t
  · subst level
    exact Or.inr (Or.inr ⟨sid, by rw [hsp, Function.update_self]; rfl⟩)
  · rw [hrq, Function.update_of_ne hl] at hne
    apply awake_congr level (hw level hne)
    · rw [hd]
    · intro hpl
      rwa [hp]
    · intro r hr
      have hrs : r ≠ sid := by
        intro he
        rw [he, h] at hr
        cases hr
      right
      rwa [hsp, Function.update_of_ne hrs]

theorem prio2sgi_ne {p q : ℕ} (hp : 1 ≤ p) (hq : 1 ≤ q) (h : p ≠ q) :
    prio2sgi p ≠ prio2sgi q := by
  unfold prio2sgi
  omega

theorem pendedSgi_prio2sgi (level : ℕ) (h1 : 1 ≤ level) (h : level ≤ nsgis) :
    pendedSgi (prio2sgi level) = prio2sgi level := by
  apply pendedSgi_eq
  unfold prio2sgi
  omega

theorem woken_pend (hsgi : ∀ t, c.level t ≤ nsgis) (hw : Woken c s) (sid : ℕ) (t : Task) (m : Msg)
    (h : s.spawner sid = .pend t m) (hrq : s'.rq = s.rq) (hd : s'.dispatcher = s.dispatcher)
    (hp : s'.pending = Function.update s.pending (pendedSgi (prio2sgi (c.level t))) true)
    (hsp : s'.spawner = Function.update s.spawner sid (.returned t m (.ok ()))) : Woken c s' := by
  rw [pendedSgi_prio2sgi (c.level t) (c.priority_pos t) (hsgi t)] at hp
  intro level hne
  rw [hrq] at hne
  apply awake_congr level (hw level hne)
  · rw [hd]
  · intro hpl
    rw [hp, Function.update_apply]
    split <;> simp [hpl]
  · intro r hr
    by_cases hrs : r = sid
    · left
      rw [hrs, h] at hr
      cases hr
      simp [hp]
    · right
      rwa [hsp, Function.update_of_ne hrs]

theorem woken_sgi (hs : Slots c s) (hw : Woken c s) (level : ℕ) (h1 : 1 ≤ level)
    (hrq : s'.rq = s.rq) (hsp : s'.spawner = s.spawner)
    (hp : s'.pending = Function.update s.pending (prio2sgi level) false)
    (hd : s'.dispatcher = Function.update s.dispatcher level .dequeue) : Woken c s' := by
  intro level' hne
  by_cases hl : level' = level
  · subst level'
    exact Or.inl (by rw [hd, Function.update_self]; rfl)
  · rw [hrq] at hne
    obtain ⟨k, hk⟩ := List.exists_mem_of_ne_nil _ hne
    have h1' : 1 ≤ level' := by
      rw [← hs.rq_level level' k hk]
      exact c.priority_pos k.1
    have hne' := prio2sgi_ne h1' h1 hl
    apply awake_congr level' (hw level' hne)
    · rw [hd, Function.update_of_ne hl]
    · intro hpl
      rwa [hp, Function.update_of_ne hne']
    · intro r hr
      right
      rwa [hsp]

theorem woken_empty (hw : Woken c s) (level : ℕ) (hq : s.rq level = []) :
    Woken c (s.setDispatch level .leave) := by
  intro level' hne
  have hl : level' ≠ level := by
    intro he
    rw [he] at hne
    exact hne hq
  apply awake_congr level' (hw level' hne)
  · simp [State.setDispatch, hl]
  · intro hp
    exact hp
  · intro r hr
    exact Or.inr hr

theorem woken_next (hw : Woken c s) (level : ℕ) (t : Task) (i : ℕ) (rest : List (Task × ℕ)) :
    Woken c { s.setDispatch level (.read t i) with rq := Function.update s.rq level rest } := by
  intro level' hne
  by_cases hl : level' = level
  · subst level'
    exact Or.inl (by simp [State.setDispatch, dequeueAhead])
  · apply awake_congr level' (hw level' (by simpa [hl] using hne))
    · simp [State.setDispatch, hl]
    · intro hp
      exact hp
    · intro r hr
      exact Or.inr hr

/-- No call is on its way and no handler is active or pending. -/
structure Quiet (s : State Task Msg) : Prop where
  spawner : ∀ sid, s.spawner sid = .idle ∨ ∃ t m r, s.spawner sid = .returned t m r
  dispatcher : ∀ level, s.dispatcher level = .idle
  pending : ∀ sgi, s.pending sgi = false

theorem quiet_not_awake (hq : Quiet s) (level : ℕ) : ¬Awake c s level := by
  rintro (h | h | ⟨sid, h⟩)
  · rw [hq.dispatcher] at h
    cases h
  · rw [hq.pending] at h
    cases h
  · rcases hq.spawner sid with hs | ⟨t, m, r, hs⟩
    · rw [hs] at h
      cases h
    · rw [hs] at h
      cases h

theorem quiet_all_read (hq : Quiet s) (hc : Content c s) (hw : Woken c s) (level : ℕ) :
    (s.enqueued level).map (fun e => (e.2.1, some e.2.2)) = s.reads level := by
  have hrq : s.rq level = [] := by
    by_contra hne
    exact quiet_not_awake hq level (hw level hne)
  rw [hc.stream, hq.dispatcher, hrq]
  simp [unread]

variable [DecidableEq Task]

theorem woken_move (hsgi : ∀ t, c.level t ≤ nsgis) (hs : Slots c s) (hw : Woken c s)
    (h : Move c s s') : Woken c s' := by
  cases h with
  | call sid t m h => exact woken_spawner hw sid _ (by rw [h]; rfl) rfl rfl rfl rfl
  | refuse sid t m h hq => exact woken_spawner hw sid _ (by rw [h]; rfl) rfl rfl rfl rfl
  | take sid t m i rest h hq => exact woken_spawner hw sid _ (by rw [h]; rfl) rfl rfl rfl rfl
  | write sid t m i h => exact woken_spawner hw sid _ (by rw [h]; rfl) rfl rfl rfl rfl
  | enqueue sid t m i h => exact woken_enqueue hw sid t m i h rfl rfl rfl rfl
  | pend sid t m h => exact woken_pend hsgi hw sid t m h rfl rfl rfl rfl
  | sgi level h h1 hp => exact woken_sgi hs hw level h1 rfl rfl rfl rfl
  | empty level h hq => exact woken_empty hw level hq
  | next level t i rest h hq => exact woken_next hw level t i rest
  | read level t i h => exact woken_dispatch hw level _ (by rw [h]; rfl) rfl rfl rfl rfl
  | free level t i m h => exact woken_dispatch hw level _ (by rw [h]; rfl) rfl rfl rfl rfl
  | run level t m h => exact woken_dispatch hw level _ (by rw [h]; rfl) rfl rfl rfl rfl
  | leave level h => exact woken_dispatch hw level _ (by rw [h]; rfl) rfl rfl rfl rfl

structure Sound (c : Config Task) (s : State Task Msg) : Prop where
  one_place : ∀ t i, i < c.capacity t → ∃! p, At c s (t, i) p
  only_slots : ∀ t i p, At c s (t, i) p → i < c.capacity t
  fq_once : ∀ t, (s.fq t).Nodup
  rq_once : ∀ level, (s.rq level).Nodup
  fq_room : ∀ level t i m, s.dispatcher level = .free t i m → (s.fq t).length < c.fqSize t
  rq_room : ∀ sid t m i, s.spawner sid = .enqueue t m i →
    (s.rq (c.level t)).length < c.rqSize (c.level t)
  stream : ∀ level, (s.enqueued level).map (fun e => (e.2.1, some e.2.2)) =
    s.reads level ++
      (unread (s.dispatcher level) ++ s.rq level).map fun k => (k.1, s.inputs k.1 k.2)
  ok_enqueued : ∀ sid t m, s.spawner sid = .returned t m (.ok ()) →
    (sid, t, m) ∈ s.enqueued (c.level t)
  enqueued_once : ∀ level, ((s.enqueued level).map Prod.fst).Nodup
  enqueued_sent : ∀ level sid t m, (sid, t, m) ∈ s.enqueued level →
    s.spawner sid = .pend t m ∨ s.spawner sid = .returned t m (.ok ())
  all_read : Quiet s → ∀ level,
    (s.enqueued level).map (fun e => (e.2.1, some e.2.2)) = s.reads level
  error_own : ∀ sid t m r, s.spawner sid = .returned t m (.error r) → r = m
  error_unchanged : ∀ sid t m r s', step c s (.spawn sid) = some s' →
    s'.spawner sid = .returned t m (.error r) →
      s'.fq = s.fq ∧ s'.rq = s.rq ∧ s'.inputs = s.inputs ∧ s'.pending = s.pending
  woken : ∀ level, s.rq level ≠ [] → Awake c s level

theorem error_unchanged (c : Config Task) (s s' : State Task Msg) (sid : ℕ) (t : Task) (m r : Msg)
    (h : step c s (.spawn sid) = some s') (hr : s'.spawner sid = .returned t m (.error r)) :
    s'.fq = s.fq ∧ s'.rq = s.rq ∧ s'.inputs = s.inputs ∧ s'.pending = s.pending := by
  simp only [step, spawnStep] at h
  split at h
  next =>
    split at h
    next =>
      cases h
      exact ⟨rfl, rfl, rfl, rfl⟩
    next =>
      cases h
      simp [State.setSpawner] at hr
  next =>
    cases h
    simp [State.setSpawner] at hr
  next =>
    cases h
    simp [State.setSpawner] at hr
  next =>
    cases h
    simp [State.setSpawner] at hr
  next => cases h
  next => cases h

theorem sound_of_invariants (hs : Slots c s) (hc : Content c s) (hw : Woken c s) : Sound c s where
  one_place t i hi := hs.placed.unique (t, i) hi
  only_slots t i p hp := hs.placed.supply (t, i) p hp
  fq_once := hs.fq_nodup
  rq_once := hs.rq_nodup
  fq_room level t i m h := fq_room hs level t i m h
  rq_room sid t m i h := rq_room hs sid t m i h
  stream := hc.stream
  ok_enqueued sid t m h := (hc.logged _ sid t m).mpr ⟨rfl, by rw [h]; rfl⟩
  enqueued_once := hc.once
  enqueued_sent level sid t m h := sent_eq_some ((hc.logged level sid t m).mp h).2
  all_read hq level := quiet_all_read hq hc hw level
  error_own := hc.own
  error_unchanged sid t m r s' h hr := error_unchanged c s s' sid t m r h hr
  woken := hw

theorem sound_of_levels (c : Config Task) (hsgi : ∀ t, c.level t ≤ nsgis)
    (es : List (Event Task Msg)) (h : exec (step c) es c.init = some s) : Sound c s := by
  have hinv : Slots c s ∧ Content c s ∧ Woken c s := by
    apply exec_invariant (I := fun s => Slots c s ∧ Content c s ∧ Woken c s) ?_ es ?_ h
    · rintro s e u ⟨hs, hc, hw⟩ hu
      have hm := step_move c s u e hu
      exact ⟨slots_move hs hm, content_move hs hc hm, woken_move hsgi hs hw hm⟩
    · exact ⟨slots_init c, content_init c, fun level hne => absurd rfl hne⟩
  exact sound_of_invariants hinv.1 hinv.2.1 hinv.2.2

/-- One whole call of a spawn function whose free queue has index `0` first. -/
def wholeCall (t : Task) (m : Msg) : List (Event Task Msg) :=
  [.call 0 t m, .spawn 0, .spawn 0, .spawn 0, .spawn 0]

theorem pendedSgi_lt (sgi : ℕ) : pendedSgi sgi < nsgis := by
  unfold pendedSgi nsgis
  exact lt_of_le_of_lt Nat.and_le_right (by decide)

theorem not_sound_of_level (c : Config Task) (t : Task) (m : Msg) (h : nsgis < c.level t) :
    ∃ s, exec (step c) (wholeCall t m) c.init = some s ∧ ¬Sound c s := by
  obtain ⟨n, hn⟩ : ∃ n, c.capacity t = n+1 := Nat.exists_eq_succ_of_ne_zero
    (Nat.pos_iff_ne_zero.mp (c.capacity_pos t))
  have hq : (c.init : State Task Msg).fq t = 0::(List.range n).map Nat.succ := by
    simp [Config.init, hn, List.range_succ_eq_map]
  simp only [wholeCall, exec, step, spawnStep, Config.init, Option.bind_some, State.setSpawner,
    Function.update_self] at hq ⊢
  simp only [hq, Option.bind_some, Function.update_self]
  refine ⟨_, rfl, fun hsound => ?_⟩
  have hlt := pendedSgi_lt (prio2sgi (c.level t))
  have hne : prio2sgi (c.level t) ≠ pendedSgi (prio2sgi (c.level t)) := by
    unfold prio2sgi at hlt ⊢
    omega
  have haw := hsound.woken (c.level t) (by simp)
  rcases haw with haw | haw | ⟨sid, haw⟩
  · cases haw
  · simp [hne] at haw
  · by_cases hsid : sid = 0
    · subst sid
      simp [pends] at haw
    · simp [hsid, pends] at haw

/-- Message passing is sound over all runs exactly when every software task
has a level whose SGI exists. -/
theorem sound_iff_levels [Inhabited Msg] (c : Config Task) :
    (∀ (es : List (Event Task Msg)) (s : State Task Msg),
      exec (step c) es c.init = some s → Sound c s) ↔ ∀ t, c.level t ≤ nsgis := by
  constructor
  · intro h t
    by_contra hlt
    obtain ⟨s, hs, hns⟩ := not_sound_of_level c t (default : Msg) (by omega)
    exact hns (h _ s hs)
  · intro h es s hs
    exact sound_of_levels c h es hs

/-- One task at level 17, below 16 levels of hardware tasks. -/
def level17 : Config Unit where
  task := fun _ => ⟨"foo", 17, 1⟩
  fqSize := fun _ => 1
  rqSize := fun _ => 1
  priority_pos := fun _ => by decide
  capacity_pos := fun _ => by decide
  fqSize_eq := fun _ => by decide
  rqSize_eq := fun _ => by decide

def interrupt (i : ℕ) : Interrupt := ⟨"IRQ" ++ toString i, 32+i, Nat.le_add_right 32 i⟩

def level17App : App where
  softwareTasks := [level17.task ()]
  hardwareTasks := (List.range 16).map fun i => ⟨"bar" ++ toString i, interrupt i, i+1⟩

theorem level17App_compressed : Compressed level17App := by
  refine ⟨17, fun p => ?_⟩
  simp only [level17App, level17, List.mem_singleton, exists_eq_left, List.mem_map, List.mem_range,
    exists_exists_and_eq_and]
  constructor
  · rintro (hp | ⟨i, hi, hp⟩) <;> omega
  · rintro ⟨hlow, hhigh⟩
    rcases Nat.lt_or_ge 16 p with hp | hp
    · left
      omega
    · exact .inr ⟨p-1, by omega, by omega⟩

/-- The macro accepts the application, whose only software level is one too high. -/
theorem level17_not_sound : check level17App = .ok () ∧ Compressed level17App ∧
    (∀ t, level17.task t ∈ level17App.softwareTasks) ∧
    ¬∀ (es : List (Event Unit ℕ)) (s : State Unit ℕ),
      exec (step level17) es level17.init = some s → Sound level17 s := by
  refine ⟨rfl, level17App_compressed, fun _ => List.mem_singleton_self _, fun h => ?_⟩
  obtain ⟨s, hs, hns⟩ := not_sound_of_level level17 () 7 (by decide)
  exact hns (h _ s hs)

end UsbArmory.Rtic.MessageWakeup
