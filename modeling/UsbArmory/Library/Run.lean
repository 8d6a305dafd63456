import Mathlib.Logic.Relation
import Mathlib.Tactic.Common

/-!
# Finite runs of a partial step function

A system is a step function that returns `none` where an event is not
enabled or the code stops. Runs are event lists, so every prefix of a run
is a run and a fact about all runs is a fact about all states on the way.
-/

set_option autoImplicit false

namespace UsbArmory.Library.Run

variable {S E : Type*}

def exec (step : S → E → Option S) : List E → S → Option S
  | [], s => some s
  | e::es, s => (step s e).bind (exec step es)

/-- Every step the run takes starts in a state that meets `P`. -/
def Along (step : S → E → Option S) (P : S → E → Prop) : List E → S → Prop
  | [], _ => True
  | e::es, s => P s e ∧ ∀ t, step s e = some t → Along step P es t

def Reachable (step : S → E → Option S) (init s : S) : Prop :=
  ∃ es, exec step es init = some s

variable {step : S → E → Option S}

theorem exec_cons {e : E} {es : List E} {s u : S} (h : exec step (e::es) s = some u) :
    ∃ t, step s e = some t ∧ exec step es t = some u :=
  Option.bind_eq_some_iff.mp h

theorem exec_step {e : E} {s t : S} (h : step s e = some t) (es : List E) :
    exec step (e::es) s = exec step es t := by
  rw [exec, h, Option.bind_some]

theorem exec_append (es fs : List E) (s : S) :
    exec step (es++fs) s = (exec step es s).bind (exec step fs) := by
  induction es generalizing s with
  | nil => rfl
  | cons e es ih =>
    simp only [List.cons_append, exec, Option.bind_assoc]
    congr 1
    funext t
    exact ih t

theorem along_mono {P Q : S → E → Prop} (h : ∀ s e, P s e → Q s e) (es : List E) (s : S)
    (ha : Along step P es s) : Along step Q es s := by
  induction es generalizing s with
  | nil => trivial
  | cons e es ih => exact ⟨h s e ha.1, fun t ht => ih t (ha.2 t ht)⟩

theorem exec_invariant_along {I : S → Prop} {P : S → E → Prop}
    (hstep : ∀ s e t, I s → P s e → step s e = some t → I t)
    (es : List E) {s u : S} (hs : I s) (ha : Along step P es s)
    (hu : exec step es s = some u) : I u := by
  induction es generalizing s with
  | nil =>
    cases hu
    exact hs
  | cons e es ih =>
    obtain ⟨t, ht, hr⟩ := exec_cons hu
    exact ih (hstep s e t hs ha.1 ht) (ha.2 t ht) hr

theorem along_next {P : S → E → Prop} {e : E} {es : List E} {s t : S} (hp : P s e)
    (hs : step s e = some t) (h : Along step P es t) : Along step P (e::es) s := by
  refine ⟨hp, fun u hu => ?_⟩
  cases hs.symm.trans hu
  exact h

theorem along_last {P : S → E → Prop} {e : E} (es : List E) {s t : S}
    (h : Along step P (es ++ [e]) s) (ht : exec step es s = some t) : P t e := by
  induction es generalizing s with
  | nil =>
    cases ht
    exact h.1
  | cons e' es ih =>
    obtain ⟨u, hu, hr⟩ := exec_cons ht
    exact ih (h.2 u hu) hr

theorem along_of_forall {p : E → Prop} {es : List E} (h : ∀ e ∈ es, p e) (s : S) :
    Along step (fun _ e => p e) es s := by
  induction es generalizing s with
  | nil => trivial
  | cons e es ih =>
    refine ⟨h e List.mem_cons_self, fun t _ => ?_⟩
    exact ih (fun e' he' => h e' (List.mem_cons_of_mem _ he')) t

theorem along_and {P Q : S → E → Prop} (es : List E) (s : S) (hp : Along step P es s)
    (hq : Along step Q es s) : Along step (fun s e => P s e ∧ Q s e) es s := by
  induction es generalizing s with
  | nil => trivial
  | cons e es ih => exact ⟨⟨hp.1, hq.1⟩, fun t ht => ih t (hp.2 t ht) (hq.2 t ht)⟩

theorem along_of_invariant {I : S → Prop} {P Q : S → E → Prop}
    (hstep : ∀ s e t, I s → P s e → step s e = some t → I t)
    (himp : ∀ s e, I s → P s e → Q s e) (es : List E) {s : S} (hs : I s)
    (hp : Along step P es s) : Along step Q es s := by
  induction es generalizing s with
  | nil => trivial
  | cons e es ih =>
    exact ⟨himp s e hs hp.1, fun t ht => ih (hstep s e t hs hp.1 ht) (hp.2 t ht)⟩

theorem along_iff {I : S → Prop} {P Q : S → E → Prop}
    (hstep : ∀ s e t, I s → P s e → step s e = some t → I t)
    (hiff : ∀ s e t, I s → step s e = some t → (P s e ↔ Q s e))
    (es : List E) {s u : S} (hs : I s) (hu : exec step es s = some u) :
    Along step P es s ↔ Along step Q es s := by
  induction es generalizing s with
  | nil => exact Iff.rfl
  | cons e es ih =>
    obtain ⟨t, ht, hr⟩ := exec_cons hu
    have hfirst := hiff s e t hs ht
    constructor
    · intro h
      refine ⟨hfirst.mp h.1, fun t' ht' => ?_⟩
      cases ht.symm.trans ht'
      exact (ih (hstep s e t hs h.1 ht) hr).mp (h.2 t ht)
    · intro h
      have hp := hfirst.mpr h.1
      refine ⟨hp, fun t' ht' => ?_⟩
      cases ht.symm.trans ht'
      exact (ih (hstep s e t hs hp ht) hr).mpr (h.2 t ht)

instance decidableAlong (P : S → E → Prop) [∀ s e, Decidable (P s e)] :
    (es : List E) → (s : S) → Decidable (Along step P es s)
  | [], _ => isTrue trivial
  | e::es, s =>
    match hstep : step s e with
    | none => decidable_of_iff (P s e) ⟨fun h => ⟨h, fun _ ht => nomatch hstep.symm.trans ht⟩,
        And.left⟩
    | some t =>
      let _ := decidableAlong P es t
      decidable_of_iff (P s e ∧ Along step P es t) ⟨fun h => along_next h.1 hstep h.2,
        fun h => ⟨h.1, h.2 t hstep⟩⟩

theorem along_true (es : List E) (s : S) : Along step (fun _ _ => True) es s := by
  induction es generalizing s with
  | nil => trivial
  | cons e es ih => exact ⟨trivial, fun t _ => ih t⟩

theorem exec_invariant {I : S → Prop} (hstep : ∀ s e t, I s → step s e = some t → I t)
    (es : List E) {s u : S} (hs : I s) (hu : exec step es s = some u) : I u :=
  exec_invariant_along (fun s e t hi _ => hstep s e t hi) es hs (along_true es s) hu

theorem reachable_invariant {I : S → Prop} {init s : S}
    (hstep : ∀ s e t, I s → step s e = some t → I t) (h0 : I init)
    (hr : Reachable step init s) : I s := by
  obtain ⟨es, hes⟩ := hr
  exact exec_invariant hstep es h0 hes

theorem Reachable.next {init s t : S} {e : E} (hr : Reachable step init s)
    (h : step s e = some t) : Reachable step init t := by
  obtain ⟨es, hes⟩ := hr
  refine ⟨es ++ [e], ?_⟩
  rw [exec_append, hes, Option.bind_some, exec_step h]
  rfl

theorem foldlM_invariant {ε A B : Type} {body : B → A → Except ε B} {I : List A → B → Prop}
    (xs : List A) {b b' : B}
    (hbody : ∀ done x c c', x ∈ xs → I done c → body c x = .ok c' → I (done ++ [x]) c')
    (h0 : I [] b) (h : xs.foldlM body b = .ok b') : I xs b' := by
  have hgen : ∀ done ys c, (∀ y ∈ ys, y ∈ xs) → I done c → ys.foldlM body c = .ok b' →
      I (done ++ ys) b' := by
    intro done ys
    induction ys generalizing done with
    | nil =>
      intro c _ hI hrun
      cases hrun
      rw [List.append_nil]
      exact hI
    | cons y ys ih =>
      intro c hsub hI hrun
      rw [List.foldlM_cons] at hrun
      cases hc : body c y with
      | error stop =>
        rw [hc] at hrun
        cases hrun
      | ok d =>
        rw [hc] at hrun
        have hnext := hbody done y c d (hsub y List.mem_cons_self) hI hc
        rw [List.append_cons done y ys]
        exact ih (done ++ [y]) d (fun z hz => hsub z (List.mem_cons_of_mem _ hz)) hnext hrun
  exact hgen [] xs b (fun _ => id) h0 h

theorem foldlM_runs {ε A B : Type} {body : B → A → Except ε B} {I : List A → B → Prop}
    (xs : List A) {b : B}
    (hbody : ∀ done x c, x ∈ xs → I done c → ∃ c', body c x = .ok c' ∧ I (done ++ [x]) c')
    (h0 : I [] b) : ∃ b', xs.foldlM body b = .ok b' ∧ I xs b' := by
  have hgen : ∀ done ys c, (∀ y ∈ ys, y ∈ xs) → I done c →
      ∃ b', ys.foldlM body c = .ok b' ∧ I (done ++ ys) b' := by
    intro done ys
    induction ys generalizing done with
    | nil =>
      intro c _ hI
      exact ⟨c, rfl, by rw [List.append_nil]; exact hI⟩
    | cons y ys ih =>
      intro c hsub hI
      obtain ⟨d, hd, hnext⟩ := hbody done y c (hsub y List.mem_cons_self) hI
      obtain ⟨b', hrun, hend⟩ :=
        ih (done ++ [y]) d (fun z hz => hsub z (List.mem_cons_of_mem _ hz)) hnext
      refine ⟨b', ?_, by rw [List.append_cons done y ys]; exact hend⟩
      rw [List.foldlM_cons, hd]
      exact hrun
  exact hgen [] xs b (fun _ => id) h0

/-- What every write leaves or sets to one value, and some write sets, has this value. -/
theorem foldl_settles {A B V : Type} (view : B → V) {write : B → A → B} {v : V} {xs : List A}
    (hkeep : ∀ x ∈ xs, ∀ b, view (write b x) = v ∨ view (write b x) = view b)
    (hset : ∃ x ∈ xs, ∀ b, view (write b x) = v) (b : B) : view (xs.foldl write b) = v := by
  have hstays : ∀ ys : List A, (∀ y ∈ ys, y ∈ xs) → ∀ b, view b = v →
      view (ys.foldl write b) = v := by
    intro ys
    induction ys with
    | nil => exact fun _ _ => id
    | cons y ys ih =>
      intro hsub b hb
      refine ih (fun z hz => hsub z (List.mem_cons_of_mem _ hz)) _ ?_
      rcases hkeep y (hsub y List.mem_cons_self) b with hset | hleft
      · exact hset
      · exact hleft.trans hb
  obtain ⟨x, hx, hv⟩ := hset
  obtain ⟨front, back, rfl⟩ := List.append_of_mem hx
  rw [List.foldl_append, List.foldl_cons]
  refine hstays back (fun y hy => ?_) _ (hv _)
  exact List.mem_append_right _ (List.mem_cons_of_mem _ hy)

/-- Every state that can be reached from `a` meets `P`. -/
def Always {A : Type*} (R : A → A → Prop) (P : A → Prop) (a : A) : Prop :=
  ∀ b, Relation.ReflTransGen R a b → P b

theorem always_iff {A : Type*} {R : A → A → Prop} {P : A → Prop} {a : A} :
    Always R P a ↔ P a ∧ ∀ b, R a b → Always R P b := by
  constructor
  · intro h
    exact ⟨h a .refl, fun b hab c hbc => h c (.head hab hbc)⟩
  · rintro ⟨ha, hnext⟩ c hac
    rcases Relation.ReflTransGen.cases_head hac with rfl | ⟨b, hab, hbc⟩
    · exact ha
    · exact hnext b hab c hbc

end UsbArmory.Library.Run
