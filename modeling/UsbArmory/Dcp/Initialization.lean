import UsbArmory.Dcp.InitSteps

/-!
# Every handle is backed by an initialized co-processor

The flag of `init` is set before the co-processor is initialized, and a weak
exchange may fail on a clear flag. In a run whose exchanges are orderly the
constructors keep their promise; a preempted `init` breaks it.
-/

set_option autoImplicit false

namespace UsbArmory.Dcp.Initialization
open UsbArmory.Library.Run UsbArmory.Dcp.Handles UsbArmory.Dcp.ChannelFlags
open UsbArmory.Dcp.InitSteps

variable {chip : Chip} {s s' : State} {e : Event} {t : ℕ} {c : Ctor} {choice : Bool}

structure Init (s : State) : Prop where
  unset : s.initialized = false → s.written.count .context = 0 ∧ ∀ t, entered (s.lives t) = false
  finished : s.initialized = true → (∀ t, (s.lives t).inInit = false) → Initialized s
  alone : ∀ t t', (s.lives t).inInit = true → (s.lives t').inInit = true → t = t'
  inside : ∀ t, (s.lives t).inInit = true → s.written.count .context = 0
  passed : ∀ t, Passed s.checked (s.lives t)
  done : ∀ t, entered (s.lives t) = true → (s.lives t).inInit = false → Initialized s
  plain : ∀ t, Plain (s.lives t)

theorem lives_update {P : ℕ → Life → Prop} {life : Life}
    (hlives : s'.lives = Function.update s.lives t life) (hnew : P t life)
    (hold : ∀ t', P t' (s.lives t')) (t' : ℕ) : P t' (s'.lives t') := by
  rw [hlives]
  exact (Function.forall_update_iff s.lives P).mpr ⟨hnew, fun x _ => hold x⟩ t'

theorem initialized_congr (hc : s'.checked = s.checked)
    (hw : s'.written.count .context = s.written.count .context) :
    Initialized s' ↔ Initialized s := by
  simp only [Initialized, hc, hw]

theorem inInit_entered {life : Life} (h : entered life = false) : life.inInit = false := by
  cases life with
  | building c pc =>
    cases pc with
    | _ => first | rfl | cases h
  | _ => rfl

theorem passed_of_outside {life : Life} (h : life.inInit = false) (checked : Bool) :
    Passed checked life := by
  cases life with
  | building c pc =>
    cases pc with
    | context => cases h
    | _ => trivial
  | _ => trivial

theorem plain_of_inInit {life : Life} (h : life.inInit = true) : Plain life := by
  cases life with
  | building c pc =>
    cases pc with
    | setup todo => cases h
    | _ => trivial
  | _ => trivial

theorem init_settled (hset : s.initialized = true) (hI : Initialized s)
    (hno : ∀ t, (s.lives t).inInit = false) (hplain : ∀ t, Plain (s.lives t)) : Init s := by
  constructor
  · exact fun hunset => absurd hset (Bool.eq_false_iff.mp hunset)
  · exact fun _ _ => hI
  · intro t t' h
    rw [hno t] at h
    cases h
  · intro t h
    rw [hno t] at h
    cases h
  · exact fun t => passed_of_outside (hno t) s.checked
  · exact fun _ _ _ => hI
  · exact hplain

theorem init_outside {life : Life} (h : Init s) (hs : Outside s s' t life) : Init s' := by
  have hinit : ∀ t', (s'.lives t').inInit = (s.lives t').inInit := by
    apply lives_update (P := fun t' l => l.inInit = (s.lives t').inInit) hs.lives
    · rw [hs.after, hs.before]
    · exact fun _ => rfl
  have hent : ∀ t', entered (s'.lives t') = true → entered (s.lives t') = true :=
    lives_update (P := fun t' l => entered l = true → entered (s.lives t') = true) hs.lives
      hs.entered fun _ => id
  have hI := initialized_congr hs.checked hs.count
  constructor
  · intro hunset
    obtain ⟨hcount, hnone⟩ := h.unset (hs.initialized ▸ hunset)
    refine ⟨hs.count.trans hcount, fun t' => Bool.eq_false_iff.mpr fun he => ?_⟩
    exact absurd (hent t' he) (Bool.eq_false_iff.mp (hnone t'))
  · intro hset hnone
    exact hI.mpr (h.finished (hs.initialized ▸ hset) fun t' => (hinit t').symm.trans (hnone t'))
  · simpa only [hinit] using h.alone
  · simpa only [hinit, hs.count] using h.inside
  · rw [hs.checked]
    exact lives_update (P := fun _ l => Passed s.checked l) hs.lives
      (passed_of_outside hs.after s.checked) h.passed
  · intro t' he hn
    exact hI.mpr (h.done t' (hent t' he) ((hinit t').symm.trans hn))
  · exact lives_update (P := fun _ l => Plain l) hs.lives hs.plain h.plain

theorem init_opened (h : Init s) (hs : Opened s s' t c) : Init s' := by
  obtain ⟨hcount, hnone⟩ := h.unset hs.was
  have hcount' : s'.written.count .context = 0 := by rw [hs.written, hcount]
  have honly : ∀ t', entered (s'.lives t') = true → t' = t := by
    refine lives_update (P := fun t' l => entered l = true → t' = t) hs.lives (fun _ => rfl) ?_
    intro t' he
    exact absurd he (Bool.eq_false_iff.mp (hnone t'))
  have hinit : ∀ t', (s'.lives t').inInit = true → t' = t := by
    intro t' hi
    apply honly t'
    by_contra he
    have hout := inInit_entered (Bool.eq_false_iff.mpr he)
    rw [hi] at hout
    cases hout
  have hat : (s'.lives t).inInit = true := by
    rw [hs.lives, Function.update_self]
    rfl
  constructor
  · intro hunset
    rw [hs.initialized] at hunset
    cases hunset
  · intro _ hno
    rw [hno t] at hat
    cases hat
  · intro t₁ t₂ h₁ h₂
    exact (hinit t₁ h₁).trans (hinit t₂ h₂).symm
  · exact fun _ _ => hcount'
  · refine lives_update (P := fun _ l => Passed s'.checked l) hs.lives trivial ?_
    exact fun t' => passed_of_outside (inInit_entered (hnone t')) s'.checked
  · intro t' he hn
    rw [honly t' he, hat] at hn
    cases hn
  · exact lives_update (P := fun _ l => Plain l) hs.lives trivial h.plain

theorem init_skipped (h : Init s) (ho : Orderly s (.step t choice))
    (hs : Skipped s s' t c choice) : Init s' := by
  obtain ⟨hlife, rfl, hfail⟩ := hs
  simp only [Orderly, hlife] at ho
  obtain ⟨hspurious, hnone⟩ := ho
  have hset : s.initialized = true := by
    cases hflag : s.initialized with
    | true => rfl
    | false =>
      rw [hflag, hspurious hflag] at hfail
      cases hfail
  have hI : Initialized s := h.finished hset hnone
  have hno : ∀ t', ((s.set t (.building c c.afterInit)).lives t').inInit = false :=
    lives_update (P := fun _ l => l.inInit = false) rfl (inInit_afterInit c) hnone
  exact init_settled hset hI hno
    (lives_update (P := fun _ l => Plain l) rfl (plain_afterInit c) h.plain)

theorem set_of_inInit (h : Init s) (hin : (s.lives t).inInit = true) : s.initialized = true := by
  apply (Bool.not_eq_false _).mp
  intro hunset
  have hout := inInit_entered ((h.unset hunset).2 t)
  rw [hin] at hout
  cases hout

theorem init_checking {life : Life} (h : Init s) (hs : Checking s s' t life) : Init s' := by
  have hcount := h.inside t hs.before
  have hcount' : s'.written.count .context = 0 := by rw [hs.written, hcount]
  have hset : s'.initialized = true := by
    rw [hs.initialized]
    exact set_of_inInit h hs.before
  have hinit : ∀ t', (s'.lives t').inInit = (s.lives t').inInit := by
    apply lives_update (P := fun t' l => l.inInit = (s.lives t').inInit) hs.lives
    · rw [hs.after, hs.before]
    · exact fun _ => rfl
  have hlone : ∀ t', t' ≠ t → (s.lives t').inInit = false :=
    fun t' hne => Bool.eq_false_iff.mpr fun hi => hne (h.alone t' t hi hs.before)
  constructor
  · exact fun hunset => absurd hset (Bool.eq_false_iff.mp hunset)
  · intro _ hno
    have hin := (hinit t).trans hs.before
    rw [hno t] at hin
    cases hin
  · simpa only [hinit] using h.alone
  · exact fun _ _ => hcount'
  · intro t'
    rw [hs.lives]
    by_cases ht : t' = t
    · subst t'
      rw [Function.update_self]
      exact hs.passed
    · rw [Function.update_of_ne ht]
      exact passed_of_outside (hlone t' ht) s'.checked
  · intro t' he hn
    have ht : t' ≠ t := by
      rintro rfl
      rw [hinit, hs.before] at hn
      cases hn
    rw [hs.lives, Function.update_of_ne ht] at he
    have hold := (h.done t' he (hlone t' ht)).2
    rw [hcount] at hold
    cases hold
  · exact lives_update (P := fun _ l => Plain l) hs.lives (plain_of_inInit hs.after) h.plain

theorem init_closed (h : Init s) (hs : Closed s s' t c) : Init s' := by
  obtain ⟨hlife, rfl⟩ := hs
  have hin : (s.lives t).inInit = true := by
    rw [hlife]
    rfl
  have hchecked : s.checked = true := by
    have hpassed := h.passed t
    rw [hlife] at hpassed
    exact hpassed
  have hI : Initialized ((s.write .context).set t (.building c c.afterInit)) := by
    refine ⟨hchecked, ?_⟩
    show (s.written ++ [RegWrite.context]).count .context = 1
    rw [List.count_append, h.inside t hin]
    rfl
  have hno : ∀ t', (((s.write .context).set t (.building c c.afterInit)).lives t').inInit =
      false := by
    intro t'
    show (Function.update s.lives t (.building c c.afterInit) t').inInit = false
    by_cases ht : t' = t
    · subst t'
      rw [Function.update_self]
      exact inInit_afterInit c
    · rw [Function.update_of_ne ht]
      exact Bool.eq_false_iff.mpr fun hi => ht (h.alone t' t hi hin)
  have hset : s.initialized = true := set_of_inInit h hin
  exact init_settled hset hI hno
    (lives_update (P := fun _ l => Plain l) (s := s) rfl (plain_afterInit c) h.plain)

theorem init_start (dcpTaken : Bool) : Init (start dcpTaken) := by
  constructor
  · exact fun _ => ⟨rfl, fun _ => rfl⟩
  · intro h
    cases h
  · intro t t' h
    cases h
  · intro t h
    cases h
  · exact fun _ => trivial
  · intro t h
    cases h
  · exact fun _ => trivial

theorem init_step (h : Init s) (ho : Orderly s e) (hs : step chip s e = some s') : Init s' := by
  cases step_moved h.plain hs with
  | outside hm => exact init_outside h hm
  | opened hm => exact init_opened h hm
  | skipped hm => exact init_skipped h ho hm
  | checking hm => exact init_checking h hm
  | closed hm => exact init_closed h hm

theorem good_of_orderly (hf : Flags s) (hi : Init s) (ho : Orderly s e) : Good s e := by
  cases e with
  | step t choice =>
    cases hlife : s.lives t with
    | building c pc =>
      simp only [Good, Orderly, hlife] at ho ⊢
      cases pc with
      | claim =>
        obtain ⟨hspurious, hno⟩ := ho
        intro hfail
        cases hflag : s.inUse c.kind with
        | true => exact live_of_flag hf hflag hno
        | false =>
          rw [hflag, hspurious hflag] at hfail
          cases hfail
      | setup todo =>
        cases todo with
        | nil =>
          apply hi.done t
          · rw [hlife]
            rfl
          · rw [hlife]
            rfl
        | cons w todo => trivial
      | _ => trivial
    | _ => simp only [Good, hlife]
  | _ => trivial

/-- In a run of orderly exchanges every handle that is returned has an
initialized co-processor, and a channel that is reported in use has a handle. -/
theorem orderly_good (chip : Chip) (dcpTaken : Bool) (es : List Event)
    (h : Along (step chip) Orderly es (start dcpTaken)) :
    Along (step chip) Good es (start dcpTaken) :=
  along_of_invariant (I := fun s => Flags s ∧ Init s)
    (fun _ _ _ hi ho hs => ⟨flags_step hi.1 hs, init_step hi.2 ho hs⟩)
    (fun _ _ hi ho => good_of_orderly hi.1 hi.2 ho) es ⟨flags_start dcpTaken, init_start dcpTaken⟩ h

def imx6ull : Chip := ⟨1 <<< 25 ||| 1 <<< 16, 1 <<< 18 ||| 1⟩

def contextOf : Event → ℕ
  | .call t _ => t
  | .step t _ => t
  | .drop t => t

theorem set_elsewhere {life : Life} {u : ℕ} (hu : u ≠ t) : (s.set t life).lives u = s.lives u := by
  show Function.update s.lives t life u = s.lives u
  rw [Function.update_of_ne hu]

theorem step_elsewhere {u : ℕ} (hs : step chip s e = some s') (hu : u ≠ contextOf e) :
    s'.lives u = s.lives u := by
  cases e with
  | call t c =>
    simp only [step] at hs
    split at hs
    · cases hs
      exact set_elsewhere hu
    · cases hs
  | drop t =>
    simp only [step] at hs
    split at hs
    · cases hs
      exact set_elsewhere hu
    · cases hs
  | step t choice =>
    cases hlife : s.lives t with
    | building c pc =>
      simp only [step, hlife] at hs
      cases pc with
      | claim =>
        simp only [build, refuse] at hs
        split at hs
        · cases hs
          exact set_elsewhere hu
        · cases c <;> cases hs <;> exact set_elsewhere hu
      | context =>
        cases hs
        exact set_elsewhere hu
      | setup todo => cases todo <;> cases hs <;> exact set_elsewhere hu
      | _ =>
        simp only [build] at hs
        split at hs <;> cases hs <;> exact set_elsewhere hu
    | clearing c =>
      simp only [step, hlife] at hs
      cases hs
      exact set_elsewhere hu
    | releasing c =>
      simp only [step, hlife] at hs
      cases hs
      exact set_elsewhere hu
    | _ => simp only [step, hlife, reduceCtorEq] at hs

/-- `Orderly` where there are no contexts but the first `n`. -/
def orderlyBelow (n : ℕ) (s : State) : Event → Bool
  | .step t choice =>
    match s.lives t with
    | .building c .claim => (s.inUse c.kind || !choice) &&
        (List.range n).all fun u => !(s.lives u).between c.kind
    | .building _ .exchange => (s.initialized || !choice) &&
        (List.range n).all fun u => !(s.lives u).inInit
    | _ => true
  | _ => true

theorem quiet_below {n : ℕ} {p : Life → Bool} (hnone : p .none = false)
    (hrest : ∀ u, n ≤ u → s.lives u = .none)
    (h : ((List.range n).all fun u => !p (s.lives u)) = true) (u : ℕ) :
    p (s.lives u) = false := by
  rcases Nat.lt_or_ge u n with hu | hu
  · have hquiet := List.all_eq_true.mp h u (List.mem_range.mpr hu)
    simpa using hquiet
  · rw [hrest u hu, hnone]

theorem orderly_of_below {n : ℕ} (hrest : ∀ u, n ≤ u → s.lives u = .none)
    (h : orderlyBelow n s e = true) : Orderly s e := by
  cases e with
  | step t choice =>
    cases hlife : s.lives t with
    | building c pc =>
      simp only [orderlyBelow, Orderly, hlife] at h ⊢
      cases pc with
      | claim =>
        obtain ⟨hchoice, hquiet⟩ := Bool.and_eq_true_iff.mp h
        refine ⟨fun hclear => ?_, quiet_below rfl hrest hquiet⟩
        simpa [hclear] using hchoice
      | exchange =>
        obtain ⟨hchoice, hquiet⟩ := Bool.and_eq_true_iff.mp h
        refine ⟨fun hclear => ?_, quiet_below rfl hrest hquiet⟩
        simpa [hclear] using hchoice
      | _ => trivial
    | _ => simp only [Orderly, hlife]
  | _ => trivial

theorem along_orderly {n : ℕ} (es : List Event) (hes : ∀ e ∈ es, contextOf e < n)
    (hrest : ∀ u, n ≤ u → s.lives u = .none)
    (h : Along (step chip) (fun s e => orderlyBelow n s e = true) es s) :
    Along (step chip) Orderly es s := by
  induction es generalizing s with
  | nil => trivial
  | cons e es ih =>
    refine ⟨orderly_of_below hrest h.1, fun s' hs => ?_⟩
    apply ih (fun e' he' => hes e' (List.mem_cons_of_mem e he')) ?_ (h.2 s' hs)
    intro u hu
    have hcontext : u ≠ contextOf e :=
      Nat.ne_of_gt (Nat.lt_of_lt_of_le (hes e List.mem_cons_self) hu)
    rw [step_elsewhere hs hcontext, hrest u hu]

/-- The constructor of the AES handle preempts that of the hasher in front of `init`. -/
def overtaken : List Event :=
  [.call 0 .take, .step 0 false, .call 1 .newUnique, .step 1 false, .step 1 false, .step 1 false,
    .step 1 false, .step 1 false, .step 1 false, .step 1 true, .step 1 false, .step 1 false,
    .step 0 false, .step 0 false, .step 0 false]

theorem orderly_good_overtaken : Along (step imx6ull) Orderly overtaken (start false) ∧
    (exec (step imx6ull) overtaken (start false)).isSome = true ∧
    Along (step imx6ull) Good overtaken (start false) := by
  have horderly : Along (step imx6ull) Orderly overtaken (start false) :=
    along_orderly overtaken (by decide) (n := 2) (fun _ _ => rfl) (by decide +kernel)
  exact ⟨horderly, by decide +kernel, orderly_good imx6ull false overtaken horderly⟩

/-- The constructor of the AES handle preempts `init` and returns: its exchange
finds the flag set, and no context is installed. -/
def preempted : List Event :=
  [.call 0 .take, .step 0 false, .step 0 false, .call 1 .newUnique, .step 1 false, .step 1 false,
    .step 1 true, .step 1 false, .step 1 false]

/-- An exchange of `init` that fails on the clear flag. -/
def spurious : List Event :=
  [.call 0 .take, .step 0 false, .step 0 true, .step 0 false, .step 0 false]

theorem not_good : ¬Along (step imx6ull) Good preempted (start false) ∧
    ¬Along (step imx6ull) Good spurious (start false) := by
  constructor
  · intro h
    have hreturn :=
      ((((((((h.2 _ rfl).2 _ rfl).2 _ rfl).2 _ rfl).2 _ rfl).2 _ rfl).2 _ rfl).2 _ rfl).1
    cases hreturn.1
  · intro h
    have hreturn := ((((h.2 _ rfl).2 _ rfl).2 _ rfl).2 _ rfl).1
    cases hreturn.1

end UsbArmory.Dcp.Initialization
