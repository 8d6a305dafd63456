import UsbArmory.Dcp.ChannelFlags

/-!
# What a step does to the initialization of the co-processor

A step is outside `init`, enters it, skips it, goes on in it or ends it.
-/

set_option autoImplicit false

namespace UsbArmory.Dcp.InitSteps
open UsbArmory.Dcp.Handles UsbArmory.Dcp.ChannelFlags

variable {chip : Chip} {s s' : State} {e : Event} {t : ℕ} {c : Ctor} {choice : Bool}

/-- Past the exchange of `init`. -/
def entered : Life → Bool
  | .none => false
  | .building _ .claim => false
  | .building _ .exchange => false
  | _ => true

/-- The register writes that are left do not install a context. -/
def Plain : Life → Prop
  | .building _ (.setup todo) => .context ∉ todo
  | _ => True

/-- The checks are done where the context is installed. -/
def Passed (checked : Bool) : Life → Prop
  | .building _ .context => checked = true
  | _ => True

/-- A step outside `init`. -/
structure Outside (s s' : State) (t : ℕ) (life : Life) : Prop where
  lives : s'.lives = Function.update s.lives t life
  initialized : s'.initialized = s.initialized
  checked : s'.checked = s.checked
  count : s'.written.count .context = s.written.count .context
  before : (s.lives t).inInit = false
  after : life.inInit = false
  entered : entered life = true → entered (s.lives t) = true
  plain : Plain life

/-- An exchange of `init` that succeeds. -/
structure Opened (s s' : State) (t : ℕ) (c : Ctor) : Prop where
  lives : s'.lives = Function.update s.lives t (.building c .takeDcp)
  was : s.initialized = false
  initialized : s'.initialized = true
  written : s'.written = s.written

/-- An exchange of `init` that fails. -/
structure Skipped (s s' : State) (t : ℕ) (c : Ctor) (choice : Bool) : Prop where
  before : s.lives t = .building c .exchange
  eq : s' = s.set t (.building c c.afterInit)
  failed : exchanges s.initialized choice = false

/-- A step of `init` before its context is installed. -/
structure Checking (s s' : State) (t : ℕ) (life : Life) : Prop where
  lives : s'.lives = Function.update s.lives t life
  initialized : s'.initialized = s.initialized
  written : s'.written = s.written
  before : (s.lives t).inInit = true
  after : life.inInit = true
  passed : Passed s'.checked life

/-- The last step of `init`. -/
structure Closed (s s' : State) (t : ℕ) (c : Ctor) : Prop where
  before : s.lives t = .building c .context
  eq : s' = (s.write .context).set t (.building c c.afterInit)

inductive Moved (s s' : State) : Event → Prop
  | outside {e : Event} {t : ℕ} {life : Life} (h : Outside s s' t life) : Moved s s' e
  | opened {e : Event} {t : ℕ} {c : Ctor} (h : Opened s s' t c) : Moved s s' e
  | skipped {t : ℕ} {c : Ctor} {choice : Bool} (h : Skipped s s' t c choice) :
      Moved s s' (.step t choice)
  | checking {e : Event} {t : ℕ} {life : Life} (h : Checking s s' t life) : Moved s s' e
  | closed {e : Event} {t : ℕ} {c : Ctor} (h : Closed s s' t c) : Moved s s' e

theorem plain_afterInit (c : Ctor) : Plain (.building c c.afterInit) := by
  cases c with
  | take => exact (by decide : RegWrite.context ∉ Ctor.take.writes)
  | newUnique => trivial
  | newOtp => trivial
  | new key =>
    show RegWrite.context ∉ (Ctor.new key).writes
    simp [Ctor.writes]

theorem inInit_afterInit (c : Ctor) : Life.inInit (.building c c.afterInit) = false := by
  cases c <;> rfl

theorem plain_writes (c : Ctor) : Plain (.building c (.setup c.writes)) := by
  show RegWrite.context ∉ c.writes
  cases c <;> simp [Ctor.writes]

theorem count_write {w : RegWrite} (h : w ≠ .context) (s : State) :
    (s.write w).written.count .context = s.written.count .context := by
  simp [State.write, List.count_append, h]

theorem outside_set {life : Life} (hb : (s.lives t).inInit = false) (ha : life.inInit = false)
    (he : entered life = true → entered (s.lives t) = true) (hp : Plain life) :
    Outside s (s.set t life) t life :=
  ⟨rfl, rfl, rfl, rfl, hb, ha, he, hp⟩

theorem not_entered {life : Life} {p : Prop} (h : entered life = false) : entered life = true → p :=
  fun hentered => absurd (h.symm.trans hentered) Bool.false_ne_true

theorem build_moved {pc : Pc} (hplain : Plain (s.lives t)) (hlife : s.lives t = .building c pc)
    (hs : build chip s t c choice pc = some s') : Moved s s' (.step t choice) := by
  have hbefore : (s.lives t).inInit = (Life.building c pc).inInit := by rw [hlife]
  have hentered : entered (s.lives t) = entered (.building c pc) := by rw [hlife]
  cases pc with
  | claim =>
    simp only [build] at hs
    split at hs
    next =>
      cases hs
      exact .outside ⟨rfl, rfl, rfl, rfl, hbefore, rfl, not_entered rfl, trivial⟩
    next =>
      cases c with
      | new key => cases hs
      | _ =>
        cases hs
        exact .outside (outside_set hbefore rfl (not_entered rfl) trivial)
  | exchange =>
    simp only [build] at hs
    split at hs
    next hclear =>
      cases hs
      exact .opened ⟨rfl, exchanges_clear hclear, rfl, rfl⟩
    next hfail =>
      cases hs
      exact .skipped ⟨hlife, rfl, Bool.eq_false_iff.mpr hfail⟩
  | takeDcp =>
    simp only [build] at hs
    split at hs
    next => cases hs
    next =>
      cases hs
      exact .checking ⟨rfl, rfl, rfl, hbefore, rfl, trivial⟩
  | version =>
    simp only [build] at hs
    split at hs
    next =>
      cases hs
      exact .checking ⟨rfl, rfl, rfl, hbefore, rfl, trivial⟩
    next => cases hs
  | capability =>
    simp only [build] at hs
    split at hs
    next =>
      cases hs
      exact .checking ⟨rfl, rfl, rfl, hbefore, rfl, rfl⟩
    next => cases hs
  | context =>
    cases hs
    exact .closed ⟨hlife, rfl⟩
  | otpReady =>
    simp only [build] at hs
    split at hs
    next =>
      cases hs
      exact .outside (outside_set hbefore rfl (fun _ => hentered) (plain_writes c))
    next => cases hs
  | setup todo =>
    rw [hlife] at hplain
    cases todo with
    | nil =>
      cases hs
      exact .outside (outside_set hbefore rfl (fun _ => hentered) trivial)
    | cons w todo =>
      cases hs
      have hw : w ≠ .context := fun he => hplain (he ▸ List.mem_cons_self)
      exact .outside ⟨rfl, rfl, rfl, count_write hw s, hbefore, rfl, fun _ => hentered,
        fun hin => hplain (List.mem_cons_of_mem _ hin)⟩

theorem step_moved (hplain : ∀ t, Plain (s.lives t)) (hs : step chip s e = some s') :
    Moved s s' e := by
  cases e with
  | call t c =>
    cases hlife : s.lives t with
    | none =>
      simp only [step, hlife] at hs
      cases hs
      exact .outside (outside_set (by rw [hlife]; rfl) rfl (not_entered rfl) trivial)
    | _ => simp only [step, hlife, reduceCtorEq] at hs
  | step t choice =>
    cases hlife : s.lives t with
    | building c pc =>
      simp only [step, hlife] at hs
      exact build_moved (hplain t) hlife hs
    | clearing c =>
      simp only [step, hlife] at hs
      cases hs
      exact .outside ⟨rfl, rfl, rfl, count_write (by decide) s, by rw [hlife]; rfl, rfl,
        fun _ => by rw [hlife]; rfl, trivial⟩
    | releasing c =>
      simp only [step, hlife] at hs
      cases hs
      exact .outside ⟨rfl, rfl, rfl, rfl, by rw [hlife]; rfl, rfl,
        not_entered rfl, trivial⟩
    | _ => simp only [step, hlife, reduceCtorEq] at hs
  | drop t =>
    cases hlife : s.lives t with
    | held c =>
      simp only [step, hlife] at hs
      cases hs
      refine .outside (outside_set (by rw [hlife]; rfl) ?_ (fun _ => by rw [hlife]; rfl) ?_)
      · cases c <;> rfl
      · cases c <;> trivial
    | _ => simp only [step, hlife, reduceCtorEq] at hs

end UsbArmory.Dcp.InitSteps
