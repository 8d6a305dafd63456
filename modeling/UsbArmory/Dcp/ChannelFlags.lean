import UsbArmory.Dcp.Handles

/-!
# Whom the flags of the channels stand for

In every run a set flag has one owner, a constructor that has claimed the
channel or a handle, so that there are never two live handles of a kind.
-/

set_option autoImplicit false

namespace UsbArmory.Dcp.ChannelFlags
open UsbArmory.Library.Run UsbArmory.Dcp.Handles

variable {chip : Chip} {s s' : State} {e : Event} {t t' : ℕ} {c : Ctor} {k : Kind} {choice : Bool}

def owns (k : Kind) : Life → Bool
  | .held c => decide (c.kind = k)
  | life => life.between k

/-- A step that neither gives a channel away nor returns one. -/
def Kept (s s' : State) : Prop :=
  s'.inUse = s.inUse ∧ ∃ t life, s'.lives = Function.update s.lives t life ∧
    ∀ k, owns k life = owns k (s.lives t)

def Claimed (s s' : State) : Prop :=
  ∃ t k life, s.inUse k = false ∧ s'.inUse = Function.update s.inUse k true ∧
    s'.lives = Function.update s.lives t life ∧ (∀ j, owns j (s.lives t) = false) ∧
    ∀ j, owns j life = decide (k = j)

def Released (s s' : State) : Prop :=
  ∃ t k, s'.inUse = Function.update s.inUse k false ∧
    s'.lives = Function.update s.lives t .none ∧ ∀ j, owns j (s.lives t) = decide (k = j)

theorem exchanges_clear {flag spurious : Bool} (h : exchanges flag spurious = true) :
    flag = false := by
  cases flag with
  | false => rfl
  | true => cases h

theorem owns_afterInit (k : Kind) (c : Ctor) :
    owns k (.building c c.afterInit) = decide (c.kind = k) := by
  cases c <;> rfl

theorem kept_set {life : Life} {s₁ : State} (hin : s₁.inUse = s.inUse) (hlives : s₁.lives = s.lives)
    (ho : ∀ k, owns k life = owns k (s.lives t)) : Kept s (s₁.set t life) :=
  ⟨hin, t, life, by rw [← hlives]; rfl, ho⟩

theorem refuse_flags (hlife : s.lives t = .building c .claim) (hs : refuse s t c = some s') :
    Kept s s' := by
  have hnone : ∀ k, owns k .none = owns k (s.lives t) := by
    intro k
    rw [hlife]
    rfl
  cases c with
  | new key => cases hs
  | _ =>
    cases hs
    exact kept_set rfl rfl hnone

theorem build_flags {pc : Pc} (hlife : s.lives t = .building c pc)
    (hs : build chip s t c choice pc = some s') : Kept s s' ∨ Claimed s s' := by
  cases pc with
  | claim =>
    simp only [build] at hs
    split at hs
    next hclear =>
      cases hs
      refine Or.inr ⟨t, c.kind, _, exchanges_clear hclear, rfl, rfl, ?_, fun j => rfl⟩
      intro j
      rw [hlife]
      rfl
    next => exact Or.inl (refuse_flags hlife hs)
  | exchange =>
    have hafter : ∀ k, owns k (.building c c.afterInit) = owns k (s.lives t) := by
      intro k
      rw [hlife]
      exact owns_afterInit k c
    simp only [build] at hs
    split at hs
    next =>
      cases hs
      exact Or.inl (kept_set rfl rfl fun k => by rw [hlife]; rfl)
    next =>
      cases hs
      exact Or.inl (kept_set rfl rfl hafter)
  | context =>
    cases hs
    refine Or.inl (kept_set rfl rfl fun k => ?_)
    rw [hlife]
    exact owns_afterInit k c
  | setup todo =>
    cases todo <;> cases hs <;> exact Or.inl (kept_set rfl rfl fun k => by rw [hlife]; rfl)
  | _ =>
    simp only [build] at hs
    split at hs
    all_goals
      cases hs
      try exact Or.inl (kept_set rfl rfl fun k => by rw [hlife]; rfl)

theorem step_flags (hs : step chip s e = some s') : Kept s s' ∨ Claimed s s' ∨ Released s s' := by
  cases e with
  | call t c =>
    cases hlife : s.lives t with
    | none =>
      simp only [step, hlife] at hs
      cases hs
      exact Or.inl (kept_set rfl rfl fun k => by rw [hlife]; rfl)
    | _ => simp only [step, hlife, reduceCtorEq] at hs
  | step t choice =>
    cases hlife : s.lives t with
    | building c pc =>
      simp only [step, hlife] at hs
      rcases build_flags hlife hs with h | h
      · exact Or.inl h
      · exact Or.inr (Or.inl h)
    | clearing c =>
      simp only [step, hlife] at hs
      cases hs
      exact Or.inl (kept_set rfl rfl fun k => by rw [hlife]; rfl)
    | releasing c =>
      simp only [step, hlife] at hs
      cases hs
      refine Or.inr (Or.inr ⟨t, c.kind, rfl, rfl, fun j => ?_⟩)
      rw [hlife]
      rfl
    | _ => simp only [step, hlife, reduceCtorEq] at hs
  | drop t =>
    cases hlife : s.lives t with
    | held c =>
      simp only [step, hlife] at hs
      cases hs
      refine Or.inl (kept_set rfl rfl fun k => ?_)
      rw [hlife]
      cases c <;> rfl
    | _ => simp only [step, hlife, reduceCtorEq] at hs

structure Flags (s : State) : Prop where
  owner : ∀ k, s.inUse k = true → ∃ t, owns k (s.lives t) = true
  flag : ∀ k t, owns k (s.lives t) = true → s.inUse k = true
  single : ∀ k t t', owns k (s.lives t) = true → owns k (s.lives t') = true → t = t'

theorem flags_kept (h : Flags s) (hs : Kept s s') : Flags s' := by
  obtain ⟨hin, t, life, hlives, hsame⟩ := hs
  have howns : ∀ k t', owns k (s'.lives t') = owns k (s.lives t') := by
    intro k t'
    rw [hlives]
    by_cases ht : t' = t
    · subst t'
      rw [Function.update_self]
      exact hsame k
    · rw [Function.update_of_ne ht]
  constructor
  · simpa only [hin, howns] using h.owner
  · simpa only [hin, howns] using h.flag
  · simpa only [howns] using h.single

theorem flags_claimed (h : Flags s) (hs : Claimed s s') : Flags s' := by
  obtain ⟨t, k, life, hclear, hin, hlives, hnone, hlife⟩ := hs
  have hno : ∀ t', owns k (s.lives t') = false := by
    intro t'
    apply Bool.eq_false_iff.mpr
    intro ho
    have hset := h.flag k t' ho
    rw [hclear] at hset
    cases hset
  have howns : ∀ j t', owns j (s'.lives t') = true ↔
      j = k ∧ t' = t ∨ j ≠ k ∧ owns j (s.lives t') = true := by
    intro j t'
    rw [hlives]
    by_cases ht : t' = t
    · subst t'
      rw [Function.update_self, hlife j, hnone j]
      simp [eq_comm]
    · rw [Function.update_of_ne ht]
      by_cases hj : j = k
      · subst j
        simp [ht, hno t']
      · simp [hj]
  constructor
  · intro j hj
    by_cases hjk : j = k
    · exact ⟨t, (howns j t).mpr (Or.inl ⟨hjk, rfl⟩)⟩
    · rw [hin, Function.update_of_ne hjk] at hj
      obtain ⟨t', ht'⟩ := h.owner j hj
      exact ⟨t', (howns j t').mpr (Or.inr ⟨hjk, ht'⟩)⟩
  · intro j t' ho
    rw [hin]
    rcases (howns j t').mp ho with ⟨rfl, -⟩ | ⟨hjk, hold⟩
    · exact Function.update_self _ _ _
    · rw [Function.update_of_ne hjk]
      exact h.flag j t' hold
  · intro j t₁ t₂ h₁ h₂
    rcases (howns j t₁).mp h₁ with ⟨hj, rfl⟩ | ⟨hj, hold⟩
    · rcases (howns j t₂).mp h₂ with ⟨-, rfl⟩ | ⟨hne, -⟩
      · rfl
      · exact absurd hj hne
    · rcases (howns j t₂).mp h₂ with ⟨heq, -⟩ | ⟨-, hold'⟩
      · exact absurd heq hj
      · exact h.single j t₁ t₂ hold hold'

theorem flags_released (h : Flags s) (hs : Released s s') : Flags s' := by
  obtain ⟨t, k, hin, hlives, howner⟩ := hs
  have hat : owns k (s.lives t) = true := by simp [howner k]
  have howns : ∀ j t', owns j (s'.lives t') = true ↔ j ≠ k ∧ owns j (s.lives t') = true := by
    intro j t'
    rw [hlives]
    by_cases ht : t' = t
    · subst t'
      rw [Function.update_self, howner j]
      simp [owns, Life.between, eq_comm]
    · rw [Function.update_of_ne ht]
      constructor
      · intro ho
        refine ⟨?_, ho⟩
        rintro rfl
        exact ht (h.single j t' t ho hat)
      · exact And.right
  constructor
  · intro j hj
    by_cases hjk : j = k
    · subst j
      rw [hin, Function.update_self] at hj
      cases hj
    · rw [hin, Function.update_of_ne hjk] at hj
      obtain ⟨t', ht'⟩ := h.owner j hj
      exact ⟨t', (howns j t').mpr ⟨hjk, ht'⟩⟩
  · intro j t' ho
    obtain ⟨hjk, hold⟩ := (howns j t').mp ho
    rw [hin, Function.update_of_ne hjk]
    exact h.flag j t' hold
  · intro j t₁ t₂ h₁ h₂
    exact h.single j t₁ t₂ ((howns j t₁).mp h₁).2 ((howns j t₂).mp h₂).2

theorem flags_start (dcpTaken : Bool) : Flags (start dcpTaken) := by
  constructor
  · intro k hk
    cases hk
  · intro k t ho
    cases ho
  · intro k t t' ho
    cases ho

theorem flags_step (h : Flags s) (hs : step chip s e = some s') : Flags s' := by
  rcases step_flags hs with hk | hc | hr
  · exact flags_kept h hk
  · exact flags_claimed h hc
  · exact flags_released h hr

theorem flags_reachable (chip : Chip) (dcpTaken : Bool)
    (h : Reachable (step chip) (start dcpTaken) s) : Flags s :=
  reachable_invariant (fun _ _ _ hi => flags_step hi) (flags_start dcpTaken) h

theorem held_unique (chip : Chip) (dcpTaken : Bool) (h : Reachable (step chip) (start dcpTaken) s)
    {c c' : Ctor} (hc : s.lives t = .held c) (hc' : s.lives t' = .held c')
    (hkind : c.kind = c'.kind) : t = t' := by
  apply (flags_reachable chip dcpTaken h).single c.kind
  · rw [hc]
    exact decide_eq_true rfl
  · rw [hc']
    exact decide_eq_true hkind.symm

theorem live_of_flag (h : Flags s) (hset : s.inUse k = true)
    (hno : ∀ t, (s.lives t).between k = false) : Live s k := by
  obtain ⟨t, ho⟩ := h.owner k hset
  cases hlife : s.lives t with
  | held c =>
    rw [hlife] at ho
    exact ⟨t, c, hlife, of_decide_eq_true ho⟩
  | _ =>
    rw [hlife] at ho
    have hbetween := hno t
    rw [hlife] at hbetween
    exact absurd (ho.symm.trans hbetween) (by decide)

end UsbArmory.Dcp.ChannelFlags
