import UsbArmory.Rtic.Preemption

/-!
# What one activation knows about the mask

`lock` never reads the mask. While an activation runs, the mask is either the
level it has locked itself up to or, at its own priority, the value it was
entered with, and its cell remembers the ceilings of the calls of `lock` from
the innermost one out. Every write of `run` and `lock` keeps this.
-/

set_option autoImplicit false

namespace UsbArmory.Rtic.LockInvariant
open UsbArmory.Library.Run UsbArmory.Rtic.Preemption

variable {Task Res : Type}

/-- The calls of `lock` from the innermost one out: the cell holds the ceiling
of the innermost call that raised it, else the task's own priority. -/
def Chain (app : App Task Res) (priority : ℕ) : ℕ → List (Frame Res) → Prop
  | cell, [] => cell = priority
  | cell, f::fs =>
    if f.pc = .direct then app.ceiling f.res ≤ cell ∧ Chain app priority cell fs
    else cell = app.ceiling f.res ∧ f.current < cell ∧ Chain app priority f.current fs

/-- The level that the context has locked itself up to. -/
def level (a : Activation Task Res) : ℕ :=
  match a.frames with
  | ⟨_, current, .raised⟩::_ | ⟨_, current, .unmasked⟩::_ => current
  | _ => a.cell

structure ActivationOk (app : App Task Res) (pmr : ℕ) (a : Activation Task Res) : Prop where
  chain : Chain app (app.priority a.ctx) a.cell a.frames
  outer_open : ∀ f ∈ a.frames.tail, f.pc.isOpen = true
  access : ∀ f ∈ a.frames, app.access a.ctx f.res = true
  mask : pmr = logical2hw (level a) ∨ level a = app.priority a.ctx ∧ pmr = a.entry
  settled : a.phase = .entering ∨ a.phase = .exited → pmr = a.entry
  unlocked : a.phase ≠ .body → a.frames = []
  initial : a.phase ≠ .entering → app.priority a.ctx = 1 ∨ a.initial = a.entry
  entry : app.priority a.ctx ≤ 1 → a.entry = logical2hw 0
  idle : a.ctx = none → a.phase = .body

variable {app : App Task Res} {pmr : ℕ} {a : Activation Task Res}

theorem chain_le_cell {p : ℕ} (fs : List (Frame Res)) (cell : ℕ) (h : Chain app p cell fs) :
    ∀ f ∈ fs, app.ceiling f.res ≤ cell := by
  induction fs generalizing cell with
  | nil =>
    intro f hf
    cases hf
  | cons g gs ih =>
    intro f hf
    unfold Chain at h
    split at h
    next =>
      rcases List.mem_cons.mp hf with rfl | hf
      · exact h.1
      · exact ih cell h.2 f hf
    next =>
      rcases List.mem_cons.mp hf with rfl | hf
      · exact h.1.ge
      · exact (ih g.current h.2.2 f hf).trans h.2.1.le

theorem ActivationOk.open_le (h : ActivationOk app pmr a) :
    ∀ f ∈ a.frames, f.pc.isOpen = true → app.ceiling f.res ≤ level a := by
  intro f hf ho
  have hc := h.chain
  have hle := chain_le_cell a.frames a.cell hc f hf
  unfold level
  split
  next r current fs hfs =>
    rw [hfs] at hc hf
    rcases List.mem_cons.mp hf with rfl | hf
    · cases ho
    · exact chain_le_cell fs current hc.2.2 f hf
  next r current fs hfs =>
    rw [hfs] at hc hf
    rcases List.mem_cons.mp hf with rfl | hf
    · cases ho
    · exact chain_le_cell fs current hc.2.2 f hf
  next => exact hle

theorem ActivationOk.level_lt (h : ActivationOk app pmr a) {q : ℕ}
    (hq : logical2hw q < pmr) (hp : app.priority a.ctx < q) : level a < q := by
  rcases h.mask with hm | ⟨hl, -⟩
  · rw [hm] at hq
    exact lt_of_logical2hw_lt hq
  · rwa [hl]

theorem ok_runRead (h : ActivationOk app pmr a) (hph : a.phase = .entering) :
    ActivationOk app pmr { a with
      initial := if app.priority a.ctx = 1 then a.initial else pmr
      phase := .body } := by
  have hpmr := h.settled (Or.inl hph)
  refine ⟨h.chain, h.outer_open, h.access, h.mask, ?_, ?_, ?_, h.entry, fun _ => rfl⟩
  · intro hs
    exact hpmr
  · intro hne
    exact absurd rfl hne
  · intro hne
    by_cases h1 : app.priority a.ctx = 1
    · exact Or.inl h1
    · right
      show (if app.priority a.ctx = 1 then a.initial else pmr) = a.entry
      rw [if_neg h1, hpmr]

theorem ok_newTask (h : ActivationOk app pmr a) (hfs : a.frames = []) :
    ActivationOk app pmr { a with cell := app.priority a.ctx } := by
  have hcell : a.cell = app.priority a.ctx := by
    have hc := h.chain
    rwa [hfs] at hc
  rw [← hcell]
  exact h

theorem level_eq_cell (a : Activation Task Res) (h : ∀ f ∈ a.frames, f.pc.isOpen = true) :
    level a = a.cell := by
  unfold level
  split
  next r current fs hfs =>
    have ho := h ⟨r, current, .raised⟩ (by simp [hfs])
    cases ho
  next r current fs hfs =>
    have ho := h ⟨r, current, .unmasked⟩ (by simp [hfs])
    cases ho
  next => rfl

theorem ActivationOk.body_of_frame (h : ActivationOk app pmr a) {f : Frame Res}
    {fs : List (Frame Res)} (hfs : a.frames = f::fs) : a.phase = .body := by
  by_contra hne
  have hnil := h.unlocked hne
  rw [hfs] at hnil
  cases hnil

theorem ActivationOk.lock (h : ActivationOk app pmr a) (hph : a.phase = .body) (pmr' cell : ℕ)
    (frames : List (Frame Res)) (hc : Chain app (app.priority a.ctx) cell frames)
    (ho : ∀ f ∈ frames.tail, f.pc.isOpen = true)
    (hacc : ∀ f ∈ frames, app.access a.ctx f.res = true)
    (hm : pmr' = logical2hw (level { a with cell := cell, frames := frames }) ∨
      level { a with cell := cell, frames := frames } = app.priority a.ctx ∧ pmr' = a.entry) :
    ActivationOk app pmr' { a with cell := cell, frames := frames } := by
  refine ⟨hc, ho, hacc, hm, ?_, ?_, h.initial, h.entry, h.idle⟩
  · intro hs
    rw [hph] at hs
    simp at hs
  · intro hne
    exact absurd hph hne

theorem ok_lockEnter (h : ActivationOk app pmr a) (r : Res) (hu : inUserCode a = true)
    (hr : app.access a.ctx r = true) :
    (a.cell < app.ceiling r → ActivationOk app pmr { a with
      cell := app.ceiling r, frames := ⟨r, a.cell, .raised⟩::a.frames }) ∧
    (¬a.cell < app.ceiling r → ActivationOk app pmr { a with
      frames := ⟨r, a.cell, .direct⟩::a.frames }) := by
  obtain ⟨hph, hhead⟩ := Bool.and_eq_true_iff.mp hu
  have hbody : a.phase = .body := by simpa using hph
  have hopen : ∀ f ∈ a.frames, f.pc.isOpen = true := by
    intro f hf
    have ho := h.outer_open
    cases hfs : a.frames with
    | nil => simp [hfs] at hf
    | cons g gs =>
      rw [hfs] at hhead hf ho
      rcases List.mem_cons.mp hf with rfl | hf
      · simpa using hhead
      · exact ho f hf
  have hm := h.mask
  rw [level_eq_cell a hopen] at hm
  constructor
  · intro hlt
    apply h.lock hbody pmr (app.ceiling r) (⟨r, a.cell, .raised⟩::a.frames)
      ⟨rfl, hlt, h.chain⟩ hopen ?_ hm
    simpa [hr] using h.access
  · intro hge
    apply h.lock hbody pmr a.cell (⟨r, a.cell, .direct⟩::a.frames)
      ⟨Nat.le_of_not_lt hge, h.chain⟩ hopen ?_ hm
    simpa [hr] using h.access

theorem ok_lockMask (h : ActivationOk app pmr a) (r : Res) (current : ℕ) (fs : List (Frame Res))
    (hfs : a.frames = ⟨r, current, .raised⟩::fs) :
    ActivationOk app (logical2hw (app.ceiling r))
      { a with frames := ⟨r, current, .inside⟩::fs } := by
  have hbody := h.body_of_frame hfs
  have hc := h.chain
  have ho := h.outer_open
  have hacc := h.access
  rw [hfs] at hc ho hacc
  have hcell : a.cell = app.ceiling r := hc.1
  apply h.lock hbody _ a.cell (⟨r, current, .inside⟩::fs) hc ho ?_ (Or.inl ?_)
  · simpa using hacc
  · show _ = logical2hw a.cell
    rw [hcell]

theorem ok_lockUnmask (h : ActivationOk app pmr a) (r : Res) (current : ℕ) (fs : List (Frame Res))
    (hfs : a.frames = ⟨r, current, .inside⟩::fs) :
    ActivationOk app (logical2hw current) { a with frames := ⟨r, current, .unmasked⟩::fs } := by
  have hbody := h.body_of_frame hfs
  have hc := h.chain
  have ho := h.outer_open
  have hacc := h.access
  rw [hfs] at hc ho hacc
  apply h.lock hbody _ a.cell (⟨r, current, .unmasked⟩::fs) hc ho ?_ (Or.inl rfl)
  simpa using hacc

theorem ok_lockLeave (h : ActivationOk app pmr a) (r : Res) (current : ℕ) (fs : List (Frame Res))
    (hfs : a.frames = ⟨r, current, .unmasked⟩::fs) :
    ActivationOk app pmr { a with cell := current, frames := fs } := by
  have hbody := h.body_of_frame hfs
  have hc := h.chain
  have ho := h.outer_open
  have hacc := h.access
  have hm := h.mask
  rw [hfs] at hc ho hacc
  have hlevel : level a = current := by simp [level, hfs]
  rw [hlevel] at hm
  apply h.lock hbody _ _ _ hc.2.2 ?_ ?_ ?_
  · intro f hf
    exact ho f (List.mem_of_mem_tail hf)
  · intro f hf
    exact hacc f (List.mem_cons_of_mem _ hf)
  · rwa [level_eq_cell _ ho]

theorem ok_directLeave (h : ActivationOk app pmr a) (r : Res) (current : ℕ)
    (fs : List (Frame Res)) (hfs : a.frames = ⟨r, current, .direct⟩::fs) :
    ActivationOk app pmr { a with frames := fs } := by
  have hbody := h.body_of_frame hfs
  have hc := h.chain
  have ho := h.outer_open
  have hacc := h.access
  have hm := h.mask
  rw [hfs] at hc ho hacc
  have hlevel : level a = a.cell := by simp [level, hfs]
  rw [hlevel] at hm
  apply h.lock hbody _ a.cell _ hc.2 ?_ ?_ ?_
  · intro f hf
    exact ho f (List.mem_of_mem_tail hf)
  · intro f hf
    exact hacc f (List.mem_cons_of_mem _ hf)
  · rwa [level_eq_cell _ ho]

theorem ok_bodyEnd (h : ActivationOk app pmr a) (t : Task) (hctx : a.ctx = some t)
    (hfs : a.frames = []) (hph : a.phase = .body) :
    ActivationOk app pmr { a with phase := .leaving } := by
  refine ⟨h.chain, h.outer_open, h.access, h.mask, ?_, fun _ => hfs, ?_, h.entry, ?_⟩
  · intro hs
    simp at hs
  · intro hne
    exact h.initial (by simp [hph])
  · intro hidle
    have hnone : a.ctx = none := hidle
    rw [hctx] at hnone
    cases hnone

theorem ok_runRestore (h : ActivationOk app pmr a) (hph : a.phase = .leaving) :
    ActivationOk app (if app.priority a.ctx = 1 then logical2hw 0 else a.initial)
      { a with phase := .exited } := by
  have hentry : (if app.priority a.ctx = 1 then logical2hw 0 else a.initial) = a.entry := by
    split
    next h1 => exact (h.entry h1.le).symm
    next h1 => exact (h.initial (by simp [hph])).resolve_left h1
  have hfs := h.unlocked (by simp [hph])
  have hlevel : level a = app.priority a.ctx := by
    have hc := h.chain
    rw [hfs] at hc
    rw [level_eq_cell a (by simp [hfs])]
    exact hc
  rw [hentry]
  refine ⟨h.chain, h.outer_open, h.access, Or.inr ⟨hlevel, rfl⟩, fun _ => rfl, fun _ => hfs, ?_,
    h.entry, ?_⟩
  · intro hne
    exact h.initial (by simp [hph])
  · intro hidle
    have hbody := h.idle hidle
    rw [hph] at hbody
    cases hbody

theorem ok_act (h : ActivationOk app pmr a) (action : Action Res) (pmr' : ℕ)
    (a' : Activation Task Res) (ha : actStep app pmr a action = some (pmr', a')) :
    ActivationOk app pmr' a' ∧ a'.ctx = a.ctx ∧ a'.entry = a.entry := by
  cases action with
  | runRead =>
    simp only [actStep] at ha
    split at ha
    next hph =>
      cases ha
      exact ⟨ok_runRead h hph, rfl, rfl⟩
    next => cases ha
  | newTask =>
    simp only [actStep] at ha
    split at ha
    next hfs =>
      split at ha
      next =>
        cases ha
        exact ⟨ok_newTask h hfs, rfl, rfl⟩
      next => cases ha
    next => cases ha
  | lockEnter r =>
    simp only [actStep] at ha
    split at ha
    next hu =>
      have hok := ok_lockEnter h r hu.1 hu.2
      split at ha
      next hlt =>
        cases ha
        exact ⟨hok.1 hlt, rfl, rfl⟩
      next hge =>
        cases ha
        exact ⟨hok.2 hge, rfl, rfl⟩
    next => cases ha
  | lockMask =>
    simp only [actStep] at ha
    split at ha
    next r current fs hfs =>
      cases ha
      exact ⟨ok_lockMask h r current fs hfs, rfl, rfl⟩
    next => cases ha
  | lockUnmask =>
    simp only [actStep] at ha
    split at ha
    next r current fs hfs =>
      cases ha
      exact ⟨ok_lockUnmask h r current fs hfs, rfl, rfl⟩
    next => cases ha
  | lockLeave =>
    simp only [actStep] at ha
    split at ha
    next r current fs hfs =>
      cases ha
      exact ⟨ok_lockLeave h r current fs hfs, rfl, rfl⟩
    next r current fs hfs =>
      cases ha
      exact ⟨ok_directLeave h r current fs hfs, rfl, rfl⟩
    next => cases ha
  | bodyEnd =>
    simp only [actStep] at ha
    split at ha
    next t hctx hfs =>
      split at ha
      next hph =>
        cases ha
        exact ⟨ok_bodyEnd h t hctx hfs hph, rfl, rfl⟩
      next => cases ha
    next => cases ha
  | runRestore =>
    simp only [actStep] at ha
    split at ha
    next hph =>
      cases ha
      exact ⟨ok_runRestore h hph, rfl, rfl⟩
    next => cases ha

end UsbArmory.Rtic.LockInvariant
