import UsbArmory.Rtic.MessageSlots

/-!
# Delivery

What the dispatchers read is what was spawned, in order and once each. The
messages of a level that are enqueued and not read yet are in the slot the
dispatcher has taken and in the slots of the ready queue.
-/

set_option autoImplicit false

namespace UsbArmory.Rtic.MessageDelivery
open UsbArmory.Library.Run UsbArmory.Rtic.Codegen
open UsbArmory.Rtic.MessagePassing UsbArmory.Rtic.MessageSlots

variable {Task Msg : Type}

def unread : Dispatch Task Msg → List (Task × ℕ)
  | .read t i => [(t, i)]
  | _ => []

theorem unread_subset (d : Dispatch Task Msg) (k : Task × ℕ) (h : k ∈ unread d) :
    dispatchHolds d = some k := by
  cases d <;> simp_all [unread, dispatchHolds]

def sent : Spawner Task Msg → Option (Task × Msg)
  | .pend t m | .returned t m (.ok _) => some (t, m)
  | _ => none

theorem sent_eq_some {pc : Spawner Task Msg} {t : Task} {m : Msg} (h : sent pc = some (t, m)) :
    pc = .pend t m ∨ pc = .returned t m (.ok ()) := by
  unfold sent at h
  split at h
  next =>
    cases h
    exact Or.inl rfl
  next =>
    cases h
    exact Or.inr rfl
  next => cases h

variable [Fintype Task]

structure Content (c : Config Task) (s : State Task Msg) : Prop where
  written : ∀ sid t m i, s.spawner sid = .enqueue t m i → s.inputs t i = some m
  stream : ∀ level, (s.enqueued level).map (fun e => (e.2.1, some e.2.2)) =
    s.reads level ++
      (unread (s.dispatcher level) ++ s.rq level).map fun k => (k.1, s.inputs k.1 k.2)
  logged : ∀ level sid t m, (sid, t, m) ∈ s.enqueued level ↔
    c.level t = level ∧ sent (s.spawner sid) = some (t, m)
  once : ∀ level, ((s.enqueued level).map Prod.fst).Nodup
  own : ∀ sid t m r, s.spawner sid = .returned t m (.error r) → r = m

theorem content_init (c : Config Task) : Content c (c.init : State Task Msg) := by
  constructor <;> simp [Config.init, unread, sent]

variable {c : Config Task} {s s' : State Task Msg}

theorem content_spawner (hc : Content c s) (sid : ℕ) (pc : Spawner Task Msg)
    (hsent : sent pc = sent (s.spawner sid)) (hpc : ∀ t m i, pc ≠ .enqueue t m i)
    (hown : ∀ t m r, pc = .returned t m (.error r) → r = m)
    (hsp : s'.spawner = Function.update s.spawner sid pc) (hi : s'.inputs = s.inputs)
    (hrq : s'.rq = s.rq) (hd : s'.dispatcher = s.dispatcher) (he : s'.enqueued = s.enqueued)
    (hr : s'.reads = s.reads) : Content c s' := by
  have hspawner : ∀ r, s'.spawner r = pc ∧ r = sid ∨ s'.spawner r = s.spawner r := by
    intro r
    by_cases h : r = sid
    · subst r
      exact Or.inl ⟨by rw [hsp, Function.update_self], rfl⟩
    · exact Or.inr (by rw [hsp, Function.update_of_ne h])
  constructor
  · intro r t m i h
    rw [hi]
    rcases hspawner r with ⟨hr, -⟩ | hr
    · exact absurd (hr.symm.trans h) (hpc t m i)
    · exact hc.written r t m i (hr.symm.trans h)
  · rw [he, hr, hrq, hd, hi]
    exact hc.stream
  · intro level r t m
    rw [he, hc.logged, hsp, update_holds _ sent sid pc hsent]
  · rw [he]
    exact hc.once
  · intro r t m e h
    rcases hspawner r with ⟨hr, -⟩ | hr
    · exact hown t m e (hr.symm.trans h)
    · exact hc.own r t m e (hr.symm.trans h)

theorem content_dispatch (hc : Content c s) (level : ℕ) (pc : Dispatch Task Msg)
    (h : unread pc = unread (s.dispatcher level)) (hsp : s'.spawner = s.spawner)
    (hi : s'.inputs = s.inputs) (hrq : s'.rq = s.rq)
    (hd : s'.dispatcher = Function.update s.dispatcher level pc)
    (he : s'.enqueued = s.enqueued) (hr : s'.reads = s.reads) : Content c s' := by
  constructor
  · rw [hsp, hi]
    exact hc.written
  · intro level'
    rw [he, hr, hrq, hi, hd, update_holds _ unread level pc h]
    exact hc.stream level'
  · rw [he, hsp]
    exact hc.logged
  · rw [he]
    exact hc.once
  · rw [hsp]
    exact hc.own

theorem not_sent (hc : Content c s) (sid : ℕ) (h : sent (s.spawner sid) = none) (level : ℕ) :
    sid ∉ (s.enqueued level).map Prod.fst := by
  intro hm
  obtain ⟨⟨r, t, m⟩, he, rfl⟩ := List.mem_map.mp hm
  have hl := ((hc.logged level r t m).mp he).2
  simp only at h
  rw [h] at hl
  cases hl

theorem content_enqueue (hc : Content c s) (sid : ℕ) (t : Task) (m : Msg) (i : ℕ)
    (h : s.spawner sid = .enqueue t m i) :
    Content c { s.setSpawner sid (.pend t m) with
      rq := Function.update s.rq (c.level t) (s.rq (c.level t) ++ [(t, i)])
      enqueued :=
        Function.update s.enqueued (c.level t) (s.enqueued (c.level t) ++ [(sid, t, m)]) } := by
  have hns : sent (s.spawner sid) = none := by rw [h]; rfl
  constructor
  · intro r u m' j hr
    by_cases hrs : r = sid
    · subst r
      simp [State.setSpawner] at hr
    · exact hc.written r u m' j (by simpa [State.setSpawner, hrs] using hr)
  · intro level
    by_cases hl : level = c.level t
    · subst level
      have hw := hc.written sid t m i h
      have hst := hc.stream (c.level t)
      simp only [State.setSpawner, Function.update_self, List.map_append, hst]
      simp [hw]
    · simpa [State.setSpawner, hl] using hc.stream level
  · intro level r u m'
    have hlog := hc.logged level r u m'
    by_cases hrs : r = sid
    · subst r
      rw [hns] at hlog
      by_cases hl : level = c.level t
      · subst level
        have hself : sent (Spawner.pend t m) = some (t, m) := rfl
        simp [State.setSpawner, hlog, hself, eq_comm]
        rintro rfl rfl
        rfl
      · have hself : sent (Spawner.pend t m) = some (t, m) := rfl
        have hne : c.level u = level → t = u → False := by
          rintro rfl rfl
          exact hl rfl
        simp [State.setSpawner, hl, hlog, hself]
        tauto
    · by_cases hl : level = c.level t
      · subst level
        simp [State.setSpawner, hrs, hlog]
      · simp [State.setSpawner, hl, hrs, hlog]
  · intro level
    by_cases hl : level = c.level t
    · subst level
      simpa using (hc.once (c.level t)).concat (not_sent hc sid hns (c.level t))
    · simpa [hl] using hc.once level
  · intro r u m' e hr
    by_cases hrs : r = sid
    · subst r
      simp [State.setSpawner] at hr
    · exact hc.own r u m' e (by simpa [State.setSpawner, hrs] using hr)

theorem content_next (hc : Content c s) (level : ℕ) (t : Task) (i : ℕ) (rest : List (Task × ℕ))
    (h : s.dispatcher level = .dequeue) (hq : s.rq level = (t, i)::rest) :
    Content c { s.setDispatch level (.read t i) with
      rq := Function.update s.rq level rest } := by
  refine ⟨hc.written, ?_, hc.logged, hc.once, hc.own⟩
  intro level'
  have hst := hc.stream level'
  by_cases hl : level' = level
  · subst level'
    rw [h, hq] at hst
    simpa [State.setDispatch, unread] using hst
  · simpa [State.setDispatch, hl] using hst

theorem content_read (hc : Content c s) (level : ℕ) (t : Task) (i : ℕ)
    (h : s.dispatcher level = .read t i) :
    Content c { s.setDispatch level (.free t i (s.inputs t i)) with
      reads := Function.update s.reads level (s.reads level ++ [(t, s.inputs t i)]) } := by
  refine ⟨hc.written, ?_, hc.logged, hc.once, hc.own⟩
  intro level'
  have hst := hc.stream level'
  by_cases hl : level' = level
  · subst level'
    rw [h] at hst
    simpa [State.setDispatch, unread] using hst
  · simpa [State.setDispatch, hl] using hst

variable [DecidableEq Task]

/-- The slot that is written is nowhere else, so no message on its way to the
dispatcher changes. -/
theorem content_write (hs : Slots c s) (hc : Content c s) (sid : ℕ) (t : Task) (m : Msg) (i : ℕ)
    (h : s.spawner sid = .write t m i) :
    Content c { s.setSpawner sid (.enqueue t m i) with
      inputs := Function.update s.inputs t (Function.update (s.inputs t) i (some m)) } := by
  have hat : At c s (t, i) (.spawner sid) := by simp [At, h, spawnerHolds]
  have hother : ∀ k p, At c s k p → p ≠ .spawner sid →
      Function.update s.inputs t (Function.update (s.inputs t) i (some m)) k.1 k.2 =
        s.inputs k.1 k.2 := by
    rintro ⟨u, j⟩ p hp hne
    have hk : (u, j) ≠ (t, i) := by
      intro he
      rw [he] at hp
      exact hne (hs.placed.eq hp hat)
    by_cases hu : u = t
    · subst u
      have hj : j ≠ i := fun hji => hk (by rw [hji])
      simp [hj]
    · simp [hu]
  have hsent : ∀ r, sent ((s.setSpawner sid (.enqueue t m i)).spawner r) = sent (s.spawner r) :=
    update_holds s.spawner sent sid (.enqueue t m i) (by rw [h]; rfl)
  constructor
  · intro r u m' j hr
    by_cases hrs : r = sid
    · subst r
      simp [State.setSpawner] at hr
      obtain ⟨rfl, rfl, rfl⟩ := hr
      simp
    · have hr' : s.spawner r = .enqueue u m' j := by simpa [State.setSpawner, hrs] using hr
      have hu : At c s (u, j) (.spawner r) := by simp [At, hr', spawnerHolds]
      have hin := hother (u, j) (.spawner r) hu (by simpa using hrs)
      exact hin.trans (hc.written r u m' j hr')
  · intro level
    simp only [State.setSpawner, hc.stream level]
    congr 1
    symm
    apply List.map_congr_left
    intro k hk
    rcases List.mem_append.mp hk with hk | hk
    · have hd := unread_subset _ k hk
      have hl := hs.dispatch_level level k hd
      rw [hother k .dispatcher (by simpa [At, hl] using hd) (by simp)]
    · have hl := hs.rq_level level k hk
      rw [hother k .ready (by simpa [At, hl] using hk) (by simp)]
  · intro level r u m'
    rw [hsent]
    exact hc.logged level r u m'
  · exact hc.once
  · intro r u m' e hr
    by_cases hrs : r = sid
    · subst r
      simp [State.setSpawner] at hr
    · exact hc.own r u m' e (by simpa [State.setSpawner, hrs] using hr)

theorem content_move (hs : Slots c s) (hc : Content c s) (h : Move c s s') : Content c s' := by
  cases h with
  | call sid t m h =>
    exact content_spawner hc sid _ (by rw [h]; rfl) (by simp) (by simp) rfl rfl rfl rfl rfl rfl
  | refuse sid t m h hq =>
    exact content_spawner hc sid _ (by rw [h]; rfl) (by simp) (by simp) rfl rfl rfl rfl rfl rfl
  | take sid t m i rest h hq =>
    exact content_spawner hc sid _ (by rw [h]; rfl) (by simp) (by simp) rfl rfl rfl rfl rfl rfl
  | write sid t m i h => exact content_write hs hc sid t m i h
  | enqueue sid t m i h => exact content_enqueue hc sid t m i h
  | pend sid t m h =>
    exact content_spawner hc sid _ (by rw [h]; rfl) (by simp) (by simp) rfl rfl rfl rfl rfl rfl
  | sgi level h h1 hp => exact content_dispatch hc level _ (by rw [h]; rfl) rfl rfl rfl rfl rfl rfl
  | empty level h hq => exact content_dispatch hc level _ (by rw [h]; rfl) rfl rfl rfl rfl rfl rfl
  | next level t i rest h hq => exact content_next hc level t i rest h hq
  | read level t i h => exact content_read hc level t i h
  | free level t i m h => exact content_dispatch hc level _ (by rw [h]; rfl) rfl rfl rfl rfl rfl rfl
  | run level t m h => exact content_dispatch hc level _ (by rw [h]; rfl) rfl rfl rfl rfl rfl rfl
  | leave level h => exact content_dispatch hc level _ (by rw [h]; rfl) rfl rfl rfl rfl rfl rfl

end UsbArmory.Rtic.MessageDelivery
