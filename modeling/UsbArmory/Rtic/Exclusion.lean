import UsbArmory.Rtic.LockInvariant

/-!
# Exclusion and the restored mask

The activations on the stack have decreasing priorities, and every resource
that is open in a suspended one has a ceiling below the priority of everything
above it, so that no two contexts meet in a resource.
-/

set_option autoImplicit false

namespace UsbArmory.Rtic.Exclusion
open UsbArmory.Library.Run UsbArmory.Rtic.Preemption UsbArmory.Rtic.LockInvariant

variable {Task Res : Type}

/-- Activations of decreasing priority, none of which can be met by a resource
that is open below it. -/
inductive StackOk (app : App Task Res) : ℕ → List (Activation Task Res) → Prop where
  | idle (pmr : ℕ) (a : Activation Task Res) (ha : ActivationOk app pmr a) (hctx : a.ctx = none) :
      StackOk app pmr [a]
  | handler (pmr : ℕ) (a b : Activation Task Res) (rest : List (Activation Task Res))
      (ha : ActivationOk app pmr a) (hp : app.priority b.ctx < app.priority a.ctx)
      (hopen : ∀ f ∈ b.frames, f.pc.isOpen = true → app.ceiling f.res < app.priority a.ctx)
      (hrest : StackOk app a.entry (b::rest)) : StackOk app pmr (a::b::rest)

variable {app : App Task Res} {pmr : ℕ} {a : Activation Task Res}

theorem stackOk_top {rest : List (Activation Task Res)} (h : StackOk app pmr (a::rest)) :
    ActivationOk app pmr a := by
  cases h with
  | idle _ _ ha _ => exact ha
  | handler _ _ b rest ha _ _ _ => exact ha

theorem stackOk_take {rest : List (Activation Task Res)} (h : StackOk app pmr (a::rest)) (t : Task)
    (hq : logical2hw (app.taskPriority t) < pmr) (hp : app.priority a.ctx < app.taskPriority t) :
    StackOk app pmr (app.handler t pmr::a::rest) := by
  have ha := stackOk_top h
  apply StackOk.handler
  · refine ⟨rfl, ?_, ?_, Or.inr ⟨rfl, rfl⟩, fun _ => rfl, fun _ => rfl, fun hne => ?_, ?_, ?_⟩
    · intro f hf
      cases hf
    · intro f hf
      cases hf
    · exact absurd rfl hne
    · intro hone
      have hone' : app.taskPriority t ≤ 1 := hone
      have hlevel := ha.level_lt hq hp
      rcases ha.mask with hm | ⟨-, hm⟩
      · have hzero : level a = 0 := by omega
        rw [hzero] at hm
        exact hm
      · have hentry := ha.entry (by omega)
        exact hm.trans hentry
    · intro hidle
      cases hidle
  · exact hp
  · intro f hf ho
    exact lt_of_le_of_lt (ha.open_le f hf ho) (ha.level_lt hq hp)
  · exact h

theorem stackOk_act {rest : List (Activation Task Res)} (h : StackOk app pmr (a::rest))
    (pmr' : ℕ) (a' : Activation Task Res) (ha : ActivationOk app pmr' a') (hctx : a'.ctx = a.ctx)
    (hentry : a'.entry = a.entry) : StackOk app pmr' (a'::rest) := by
  cases h with
  | idle _ _ _ hidle => exact .idle pmr' a' ha (hctx.trans hidle)
  | handler _ _ b rest _ hp hopen hrest =>
    apply StackOk.handler
    · exact ha
    · rwa [hctx]
    · rwa [hctx]
    · rwa [hentry]

theorem stackOk_endOfInterrupt {rest : List (Activation Task Res)}
    (h : StackOk app pmr (a::rest)) (hph : a.phase = .exited) : StackOk app pmr rest := by
  cases h with
  | idle _ _ ha hidle =>
    have hbody := ha.idle hidle
    rw [hph] at hbody
    cases hbody
  | handler _ _ b rest ha hp hopen hrest =>
    rwa [ha.settled (Or.inr hph)]

theorem stackOk_step (app : App Task Res) (s : State Task Res) (e : Event Task Res)
    (t : State Task Res) (hs : StackOk app s.pmr s.stack) (h : step app s e = some t) :
    StackOk app t.pmr t.stack := by
  cases e with
  | take u =>
    simp only [step] at h
    split at h
    next a rest hst =>
      split at h
      next hq =>
        cases h
        rw [hst] at hs
        exact stackOk_take hs u hq.1 hq.2
      next => cases h
    next => cases h
  | act action =>
    simp only [step] at h
    split at h
    next a rest hst =>
      obtain ⟨⟨pmr', a'⟩, ha, rfl⟩ := Option.map_eq_some_iff.mp h
      rw [hst] at hs
      obtain ⟨hok, hctx, hentry⟩ := ok_act (stackOk_top hs) action pmr' a' ha
      exact stackOk_act hs pmr' a' hok hctx hentry
    next => cases h
  | endOfInterrupt =>
    simp only [step] at h
    split at h
    next a rest hst =>
      split at h
      next hph =>
        cases h
        rw [hst] at hs
        exact stackOk_endOfInterrupt hs hph
      next => cases h
    next => cases h

theorem stackOk_start (app : App Task Res) :
    StackOk app (start : State Task Res).pmr (start : State Task Res).stack := by
  apply StackOk.idle
  · refine ⟨rfl, ?_, ?_, Or.inl rfl, fun _ => rfl, fun _ => rfl, fun _ => Or.inr rfl, fun _ => rfl,
      fun _ => rfl⟩
    · intro f hf
      cases hf
    · intro f hf
      cases hf
  · rfl

theorem stackOk_below {stack : List (Activation Task Res)} (h : StackOk app pmr stack)
    (a : Activation Task Res) (rest : List (Activation Task Res)) (hst : stack = a::rest) :
    ∀ b ∈ rest, ∀ f ∈ b.frames, f.pc.isOpen = true → app.ceiling f.res < app.priority a.ctx := by
  induction h generalizing a rest with
  | idle pmr c hc hctx =>
    cases hst
    intro b hb
    cases hb
  | handler pmr c d below hc hp hopen hrest ih =>
    cases hst
    intro b hb f hf ho
    rcases List.mem_cons.mp hb with rfl | hb
    · exact hopen f hf ho
    · exact (ih d below rfl b hb f hf ho).trans hp

theorem stackOk_exclusive {stack : List (Activation Task Res)} (h : StackOk app pmr stack) :
    stack.Pairwise fun a b => ∀ r, ¬(Opens a r ∧ Opens b r) := by
  induction h with
  | idle pmr c hc hctx => exact List.pairwise_singleton _ _
  | handler pmr c d below hc hp hopen hrest ih =>
    apply List.Pairwise.cons
    · rintro b hb r ⟨⟨f, hf, rfl, -⟩, ⟨g, hg, hgr, hgo⟩⟩
      have hlt := stackOk_below (.handler pmr c d below hc hp hopen hrest) c _ rfl b hb g hg hgo
      have hle := app.access_le_ceiling c.ctx f.res (hc.access f hf)
      rw [hgr] at hlt
      omega
    · exact ih

/-- In every state of every run, no two contexts are in the same resource, the
mask at the exit of `run` is the mask at the entry of the handler, and idle
outside of its locks runs with nothing masked. -/
theorem exclusive_and_restored (app : App Task Res) (es : List (Event Task Res))
    (s : State Task Res) (h : exec (step app) es start = some s) :
    (s.stack.Pairwise fun a b => ∀ r, ¬(Opens a r ∧ Opens b r)) ∧
    (∀ a rest, s.stack = a::rest → a.phase = .exited → s.pmr = a.entry) ∧
    (∀ a, s.stack = [a] → a.frames = [] → s.pmr = logical2hw 0) := by
  have hs : StackOk app s.pmr s.stack :=
    exec_invariant (I := fun s => StackOk app s.pmr s.stack) (stackOk_step app) es
      (stackOk_start app) h
  refine ⟨stackOk_exclusive hs, ?_, ?_⟩
  · intro a rest hst hph
    rw [hst] at hs
    exact (stackOk_top hs).settled (Or.inr hph)
  · intro a hst hfs
    rw [hst] at hs
    cases hs with
    | idle _ _ ha hctx =>
      have hzero : app.priority a.ctx = 0 := by
        rw [hctx]
        rfl
      have hlevel : level a = 0 := by
        have hc := ha.chain
        rw [hfs] at hc
        rw [level_eq_cell a (by simp [hfs])]
        exact hc.trans hzero
      rcases ha.mask with hm | ⟨-, hm⟩
      · rwa [hlevel] at hm
      · exact hm.trans (ha.entry (by omega))

def sharedApp : App Bool Unit where
  taskPriority := fun t => if t then 2 else 1
  access := fun _ _ => true
  ceiling := fun _ => 2
  priority_pos := by decide
  priority_le := by decide
  ceiling_max := by
    intro r _
    constructor
    · exact ⟨some true, rfl, rfl⟩
    · rintro p ⟨x, -, rfl⟩
      rcases x with _ | (_ | _) <;> decide

/-- The lower task is taken from idle, locks, and restores the mask. -/
def lockedRun : List (Event Bool Unit) :=
  [.take false, .act .runRead, .act (.lockEnter ()), .act .lockMask, .act .lockUnmask,
   .act .lockLeave, .act .bodyEnd, .act .runRestore]

theorem lockedRun_restored : ∃ s, exec (step sharedApp) lockedRun start = some s ∧
    s.pmr = logical2hw 0 ∧ s.stack.Pairwise fun a b => ∀ r, ¬(Opens a r ∧ Opens b r) := by
  refine ⟨_, rfl, ?_, (exclusive_and_restored sharedApp lockedRun _ rfl).1⟩
  exact (exclusive_and_restored sharedApp lockedRun _ rfl).2.1 _ _ rfl rfl

end UsbArmory.Rtic.Exclusion
