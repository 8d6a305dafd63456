import Mathlib.Data.List.Nodup
import Mathlib.Logic.Function.Basic
import UsbArmory.Library.Run

/-!
# A handle that is taken and given back

A mark says whether the handle has never been taken, is taken, or is free; the
first owner also has to seize a resource that others may seize instead. Any
number of contexts preempt each other between any two accesses. What a context
does with the handle is its work, which acts on a device and on something of
the context's own.
-/

set_option autoImplicit false

namespace UsbArmory.Library.Handout
open UsbArmory.Library.Run

inductive Mark where
  | never
  | taken
  | free
  deriving DecidableEq, Repr

/-- Where a context is: at the load of the mark, at its first exchange, at the resource, at the
second exchange, or at work. -/
inductive Life (L W : Type) where
  | idle
  | loading (work : List W)
  | claiming (work : List W)
  | seizing (work : List W)
  | exchanging (work : List W)
  | working (done : List W) (own : L) (todo : List W)
  | ended (work : List W) (served : Bool)

def Life.work {L W : Type} : Life L W → Option (List W)
  | .idle => none
  | .loading work | .claiming work | .seizing work | .exchanging work | .ended work _ => some work
  | .working done _ todo => some (done ++ todo)

/-- `foreign` is whether somebody else has seized the resource; the works that are over are in the
order in which the handle was given back. -/
structure State (L W D : Type) where
  mark : Mark
  seized : Bool
  foreign : Bool
  device : D
  lives : ℕ → Life L W
  released : List (ℕ × List W)

inductive Event (W : Type) where
  | call (t : ℕ) (work : List W)
  | step (t : ℕ)
  | seize
  deriving DecidableEq, Repr

variable {L W D : Type}

def State.set (s : State L W D) (t : ℕ) (life : Life L W) : State L W D :=
  { s with lives := Function.update s.lives t life }

def start (seized : Bool) (device : D) : State L W D :=
  ⟨.never, seized, seized, device, fun _ => .idle, []⟩

section Machine
variable (act : W → L × D → L × D) (fresh : L)

def advance (s : State L W D) (t : ℕ) : Life L W → Option (State L W D)
  | .idle | .ended _ _ => none
  | .loading work =>
    some (s.set t (if s.mark = .never then .claiming work else .exchanging work))
  | .claiming work =>
    if s.mark = .never then some ({ s with mark := .taken }.set t (.seizing work))
    else some (s.set t (.exchanging work))
  | .seizing work =>
    if s.seized then some (s.set t (.ended work false))
    else some ({ s with seized := true }.set t (.working [] fresh work))
  | .exchanging work =>
    if s.mark = .free then some ({ s with mark := .taken }.set t (.working [] fresh work))
    else some (s.set t (.ended work false))
  | .working done own (w::todo) =>
    let (own, device) := act w (own, s.device)
    some ({ s with device := device }.set t (.working (done ++ [w]) own todo))
  | .working done _ [] =>
    some ({ s with mark := .free, released := s.released ++ [(t, done)] }.set t (.ended done true))

def step (s : State L W D) : Event W → Option (State L W D)
  | .call t work => match s.lives t with
    | .idle => some (s.set t (.loading work))
    | _ => none
  | .step t => advance act fresh s t (s.lives t)
  | .seize => some { s with seized := true, foreign := s.foreign || !s.seized }

/-- Some steps of a work. -/
def doWork (work : List W) (x : L × D) : L × D := work.foldl (fun x w => act w x) x

/-- Whole works, one after the other. -/
def serial (works : List (ℕ × List W)) (device : D) : D :=
  works.foldl (fun device work => (doWork act work.2 (fresh, device)).2) device

end Machine

theorem doWork_append (act : W → L × D → L × D) (work rest : List W) (x : L × D) :
    doWork act (work ++ rest) x = doWork act rest (doWork act work x) := List.foldl_append

theorem serial_append (act : W → L × D → L × D) (fresh : L) (works : List (ℕ × List W))
    (last : ℕ × List W) (device : D) : serial act fresh (works ++ [last]) device =
      (doWork act last.2 (fresh, serial act fresh works device)).2 := List.foldl_append

def Life.Owns : Life L W → Prop
  | .seizing _ | .working _ _ _ => True
  | _ => False

def Life.Uses : Life L W → Prop
  | .working _ _ _ => True
  | _ => False

theorem owns_of_uses {life : Life L W} (h : life.Uses) : life.Owns := by
  cases life with
  | working => trivial
  | _ => exact h.elim

/-- One context at most has the handle, and the device is as if the works were done one after the
other, up to that of the owner. -/
structure Serial (act : W → L × D → L × D) (fresh : L) (device : D) (s : State L W D) : Prop where
  one : ∀ t u, (s.lives t).Owns → (s.lives u).Owns → t = u
  owned : ∀ t, (s.lives t).Owns → s.mark = .taken
  blocked : s.mark = .taken → (∃ t, (s.lives t).Owns) ∨ s.foreign = true
  begun : ∀ t work, s.lives t = .exchanging work → s.mark ≠ .never
  unseized : s.mark = .never → s.seized = true → s.foreign = true
  first : ∀ t work, s.lives t = .seizing work → s.seized = true → s.foreign = true
  released : ∀ t work, (t, work) ∈ s.released ↔ s.lives t = .ended work true
  once : (s.released.map Prod.fst).Nodup
  doing : ∀ t done own todo, s.lives t = .working done own todo →
    (own, s.device) = doWork act done (fresh, serial act fresh s.released device)
  rest : (∀ t, ¬(s.lives t).Uses) → s.device = serial act fresh s.released device

variable {act : W → L × D → L × D} {fresh : L} {device : D} {s s' : State L W D} {t : ℕ}
variable {work done todo : List W} {own : L} {life : Life L W}

theorem serial_start (act : W → L × D → L × D) (fresh : L) (seized : Bool) (device : D) :
    Serial act fresh device (start seized device) where
  one := nofun
  owned := nofun
  blocked := nofun
  begun := nofun
  unseized _ h := h
  first := nofun
  released _ _ := ⟨nofun, nofun⟩
  once := List.nodup_nil
  doing := nofun
  rest _ := rfl

theorem lives_set (s : State L W D) (t u : ℕ) (life : Life L W) :
    (s.set t life).lives u = if u = t then life else s.lives u := Function.update_apply _ _ _ _

theorem Serial.outside (h : Serial act fresh device s) (hold : ¬(s.lives t).Owns)
    (hover : ∀ work, s.lives t ≠ .ended work true) (hnew : ¬life.Owns)
    (hserved : ∀ work, life ≠ .ended work true)
    (hbegun : ∀ work, life = .exchanging work → s.mark ≠ .never) :
    Serial act fresh device (s.set t life) := by
  have howns : ∀ u, ((s.set t life).lives u).Owns ↔ (s.lives u).Owns := by
    intro u
    rw [lives_set]
    split
    next hu =>
      subst hu
      exact ⟨fun ho => absurd ho hnew, fun ho => absurd ho hold⟩
    next => exact Iff.rfl
  have hsame : ∀ u life', life'.Owns → (s.set t life).lives u = life' → s.lives u = life' := by
    intro u life' hlife hu
    rw [lives_set] at hu
    split at hu
    next =>
      subst hu
      exact absurd hlife hnew
    next => exact hu
  refine ⟨?_, ?_, ?_, ?_, h.unseized, ?_, ?_, h.once, ?_, ?_⟩
  · intro a b ha hb
    exact h.one a b ((howns a).mp ha) ((howns b).mp hb)
  · exact fun u hu => h.owned u ((howns u).mp hu)
  · intro hmark
    exact (h.blocked hmark).imp_left fun ⟨u, hu⟩ => ⟨u, (howns u).mpr hu⟩
  · intro u work hu
    rw [lives_set] at hu
    split at hu
    next => exact hbegun work hu
    next => exact h.begun u work hu
  · exact fun u work hu => h.first u work (hsame u _ trivial hu)
  · intro u work
    rw [lives_set]
    split
    next hu =>
      subst hu
      apply (h.released u work).trans
      exact ⟨fun ho => absurd ho (hover work), fun ho => absurd ho (hserved work)⟩
    next => exact h.released u work
  · exact fun u done own todo hu => h.doing u done own todo (hsame u _ trivial hu)
  · intro hrest
    refine h.rest fun u huses => hrest u ?_
    rw [lives_set, if_neg]
    · exact huses
    · rintro rfl
      exact hold (owns_of_uses huses)

theorem serial_inside (halone : ∀ u, u ≠ t → ¬(s.lives u).Owns)
    (hlives : s'.lives = Function.update s.lives t life) (hmark : s'.mark ≠ .never)
    (howned : life.Owns → s'.mark = .taken)
    (hblocked : s'.mark = .taken → life.Owns ∨ s'.foreign = true)
    (hfirst : ∀ work, life = .seizing work → s'.seized = true → s'.foreign = true)
    (hreleased : ∀ u work, (u, work) ∈ s'.released ↔ s'.lives u = .ended work true)
    (honce : (s'.released.map Prod.fst).Nodup)
    (hdoing : ∀ done own todo, life = .working done own todo →
      (own, s'.device) = doWork act done (fresh, serial act fresh s'.released device))
    (hrest : ¬life.Uses → s'.device = serial act fresh s'.released device) :
    Serial act fresh device s' := by
  have hself : s'.lives t = life := by rw [hlives, Function.update_self]
  have hother : ∀ u, u ≠ t → s'.lives u = s.lives u := fun u hu => by
    rw [hlives, Function.update_of_ne hu]
  have hat : ∀ u, (s'.lives u).Owns → u = t := by
    intro u hu
    by_contra hne
    rw [hother u hne] at hu
    exact halone u hne hu
  refine ⟨?_, ?_, ?_, ?_, fun hnever => absurd hnever hmark, ?_, hreleased, honce, ?_, ?_⟩
  · exact fun a b ha hb => (hat a ha).trans (hat b hb).symm
  · intro u hu
    obtain rfl := hat u hu
    exact howned (hself ▸ hu)
  · exact fun htaken => (hblocked htaken).imp_left fun ho => ⟨t, hself.symm ▸ ho⟩
  · exact fun _ _ _ => hmark
  · intro u work hu
    obtain rfl := hat u (hu ▸ trivial)
    exact hfirst work (hself.symm.trans hu)
  · intro u done own todo hu
    obtain rfl := hat u (hu ▸ trivial)
    exact hdoing done own todo (hself.symm.trans hu)
  · exact fun hnone => hrest (hself ▸ hnone t)

theorem released_set (hreleased : ∀ u work, (u, work) ∈ s.released ↔ s.lives u = .ended work true)
    (hover : ∀ work, s.lives t ≠ .ended work true) (hserved : ∀ work, life ≠ .ended work true)
    (u : ℕ) (work : List W) :
    (u, work) ∈ s.released ↔ (s.set t life).lives u = .ended work true := by
  rw [hreleased, lives_set]
  split
  next hu =>
    subst hu
    exact ⟨fun ho => absurd ho (hover work), fun ho => absurd ho (hserved work)⟩
  next => exact Iff.rfl

theorem alone_of_free (h : Serial act fresh device s) (hmark : s.mark ≠ .taken) (u : ℕ) :
    ¬(s.lives u).Owns := fun hu => hmark (h.owned u hu)

theorem alone_of_owner (h : Serial act fresh device s) (howns : (s.lives t).Owns) (u : ℕ)
    (hne : u ≠ t) : ¬(s.lives u).Owns := fun hu => hne (h.one u t hu howns)

theorem device_rest (h : Serial act fresh device s) (halone : ∀ u, u ≠ t → ¬(s.lives u).Owns)
    (hidle : ¬(s.lives t).Uses) : s.device = serial act fresh s.released device := by
  refine h.rest fun u hu => ?_
  by_cases hut : u = t
  · exact hidle (hut ▸ hu)
  · exact halone u hut (owns_of_uses hu)

theorem Serial.claims (h : Serial act fresh device s) (hlife : s.lives t = .claiming work)
    (hmark : s.mark = .never) :
    Serial act fresh device ({ s with mark := .taken }.set t (.seizing work)) := by
  have hfree : s.mark ≠ .taken := by
    rw [hmark]
    nofun
  have halone : ∀ u, u ≠ t → ¬(s.lives u).Owns := fun u _ => alone_of_free h hfree u
  have hdevice := device_rest h halone (by rw [hlife]; exact id)
  refine serial_inside halone rfl (by nofun) (fun _ => rfl) (fun _ => .inl trivial) ?_ ?_ ?_ ?_ ?_
  · exact fun _ _ => h.unseized hmark
  · exact released_set h.released (by rw [hlife]; nofun) (by nofun)
  · exact h.once
  · nofun
  · exact fun _ => hdevice

theorem Serial.loses (h : Serial act fresh device s) (hlife : s.lives t = .seizing work)
    (hseized : s.seized = true) : Serial act fresh device (s.set t (.ended work false)) := by
  have howns : (s.lives t).Owns := by rw [hlife]; trivial
  have halone := alone_of_owner h howns
  have hmark : s.mark ≠ .never := by
    rw [h.owned t howns]
    nofun
  have hdevice := device_rest h halone (by rw [hlife]; exact id)
  refine serial_inside halone rfl hmark False.elim ?_ ?_ ?_ ?_ ?_ ?_
  · exact fun _ => .inr (h.first t work hlife hseized)
  · nofun
  · exact released_set h.released (by rw [hlife]; nofun) (by nofun)
  · exact h.once
  · nofun
  · exact fun _ => hdevice

theorem Serial.begins (h : Serial act fresh device s) (halone : ∀ u, u ≠ t → ¬(s.lives u).Owns)
    (hidle : ¬(s.lives t).Uses) (hover : ∀ work, s.lives t ≠ .ended work true) (seized : Bool) :
    Serial act fresh device
      ({ s with mark := .taken, seized := seized }.set t (.working [] fresh work)) := by
  have hdevice := device_rest h halone hidle
  refine serial_inside halone rfl (by nofun) (fun _ => rfl) (fun _ => .inl trivial) ?_ ?_ ?_ ?_ ?_
  · nofun
  · exact released_set h.released hover (by nofun)
  · exact h.once
  · rintro _ _ _ ⟨⟩
    exact congrArg (Prod.mk fresh) hdevice
  · exact fun hrest => absurd trivial hrest

theorem Serial.works (h : Serial act fresh device s) {w : W}
    (hlife : s.lives t = .working done own (w::todo)) :
    Serial act fresh device ({ s with device := (act w (own, s.device)).2 }.set t
      (.working (done ++ [w]) (act w (own, s.device)).1 todo)) := by
  have howns : (s.lives t).Owns := by rw [hlife]; trivial
  have htaken := h.owned t howns
  have hmark : s.mark ≠ .never := by
    rw [htaken]
    nofun
  refine serial_inside (alone_of_owner h howns) rfl hmark (fun _ => htaken)
    (fun _ => .inl trivial) ?_ ?_ ?_ ?_ ?_
  · nofun
  · exact released_set h.released (by rw [hlife]; nofun) (by nofun)
  · exact h.once
  · rintro _ _ _ ⟨⟩
    show act w (own, s.device) = doWork act (done ++ [w]) _
    rw [doWork_append]
    exact congrArg (act w) (h.doing t done own _ hlife)
  · exact fun hrest => absurd trivial hrest

theorem Serial.returns (h : Serial act fresh device s) (hlife : s.lives t = .working done own []) :
    Serial act fresh device
      ({ s with mark := .free, released := s.released ++ [(t, done)] }.set t
        (.ended done true)) := by
  have howns : (s.lives t).Owns := by rw [hlife]; trivial
  refine serial_inside (alone_of_owner h howns) rfl (by nofun) False.elim (by nofun) (by nofun)
    ?_ ?_ ?_ ?_
  · intro u work
    rw [lives_set]
    show (u, work) ∈ s.released ++ [(t, done)] ↔ (if u = t then _ else s.lives u) = _
    rw [List.mem_append, List.mem_singleton, h.released]
    split
    next hu =>
      subst hu
      rw [hlife]
      exact ⟨fun ho => ho.elim nofun fun heq => by cases heq; rfl,
        fun ho => .inr (by cases ho; rfl)⟩
    next hu => exact ⟨fun ho => ho.elim id fun heq => absurd (Prod.mk.inj heq).1 hu, .inl⟩
  · show ((s.released ++ [(t, done)]).map Prod.fst).Nodup
    rw [List.map_append]
    apply h.once.append (List.nodup_singleton t)
    rintro u hu ht
    obtain ⟨⟨_, work⟩, hin, rfl⟩ := List.mem_map.mp hu
    obtain rfl := List.mem_singleton.mp ht
    have hover := (h.released _ work).mp hin
    rw [hlife] at hover
    cases hover
  · nofun
  · intro
    show s.device = serial act fresh (s.released ++ [(t, done)]) device
    rw [serial_append, ← h.doing t done own [] hlife]

theorem serial_advance (h : Serial act fresh device s)
    (hs : advance act fresh s t (s.lives t) = some s') : Serial act fresh device s' := by
  cases hlife : s.lives t with
  | idle =>
    rw [hlife] at hs
    cases hs
  | ended work served =>
    rw [hlife] at hs
    cases hs
  | loading work =>
    rw [hlife] at hs
    cases hs
    apply h.outside (by rw [hlife]; exact id) (by rw [hlife]; nofun)
    · split <;> exact id
    · split <;> nofun
    · intro work' hw
      split at hw
      next => cases hw
      next hnever => exact hnever
  | claiming work =>
    rw [hlife] at hs
    simp only [advance] at hs
    split at hs
    next hmark =>
      cases hs
      exact h.claims hlife hmark
    next hmark =>
      cases hs
      apply h.outside (by rw [hlife]; exact id) (by rw [hlife]; nofun) id (by nofun)
      exact fun _ _ => hmark
  | seizing work =>
    rw [hlife] at hs
    simp only [advance] at hs
    split at hs
    next hseized =>
      cases hs
      exact h.loses hlife hseized
    next =>
      cases hs
      have howns : (s.lives t).Owns := by rw [hlife]; trivial
      have hbegins : Serial act fresh device ({ s with mark := .taken, seized := true }.set t
          (.working [] fresh work)) :=
        h.begins (alone_of_owner h howns) (by rw [hlife]; exact id) (by rw [hlife]; nofun) true
      rwa [← h.owned t howns] at hbegins
  | exchanging work =>
    rw [hlife] at hs
    simp only [advance] at hs
    split at hs
    next hmark =>
      cases hs
      have hfree : s.mark ≠ .taken := by
        rw [hmark]
        nofun
      exact h.begins (fun u _ => alone_of_free h hfree u) (by rw [hlife]; exact id)
        (by rw [hlife]; nofun) s.seized
    next hmark =>
      cases hs
      exact h.outside (by rw [hlife]; exact id) (by rw [hlife]; nofun) id (by nofun) (by nofun)
  | working done own todo =>
    rw [hlife] at hs
    cases todo with
    | cons w todo =>
      cases hs
      exact h.works hlife
    | nil =>
      cases hs
      exact h.returns hlife

theorem serial_step (h : Serial act fresh device s) {e : Event W}
    (hs : step act fresh s e = some s') :
    Serial act fresh device s' := by
  cases e with
  | call t work =>
    simp only [step] at hs
    split at hs
    next hidle =>
      cases hs
      exact h.outside (by rw [hidle]; exact id) (by rw [hidle]; nofun) id (by nofun) (by nofun)
    next => cases hs
  | step t => exact serial_advance h hs
  | seize =>
    cases hs
    have hforeign : ∀ foreign seized : Bool, (seized = true → foreign = true) →
        (foreign || !seized) = true := by decide
    refine ⟨h.one, h.owned, ?_, h.begun, ?_, ?_, h.released, h.once, h.doing, h.rest⟩
    · exact fun htaken => (h.blocked htaken).imp_right fun hf => by rw [hf, Bool.true_or]
    · exact fun hnever _ => hforeign _ _ (h.unseized hnever)
    · exact fun t work hu _ => hforeign _ _ (h.first t work hu)

theorem serial_reachable {seized : Bool} (h : Reachable (step act fresh) (start seized device) s) :
    Serial act fresh device s :=
  reachable_invariant (fun _ _ _ hi ht => serial_step hi ht)
    (serial_start act fresh seized device) h

/-- A step of a context goes on with its work, and is refused at the resource or at the mark. -/
theorem advance_life (hs : advance act fresh s t (s.lives t) = some s') : ∃ life,
    s'.lives = Function.update s.lives t life ∧ life.work = (s.lives t).work ∧
    ∀ work, life = .ended work false → (s.lives t = .seizing work ∧ s.seized = true) ∨
      (s.lives t = .exchanging work ∧ s.mark ≠ .free) := by
  cases hlife : s.lives t with
  | idle =>
    rw [hlife] at hs
    cases hs
  | ended work served =>
    rw [hlife] at hs
    cases hs
  | loading work =>
    rw [hlife] at hs
    cases hs
    refine ⟨_, rfl, ?_, ?_⟩
    · split
      · rfl
      · rfl
    · split
      · nofun
      · nofun
  | claiming work =>
    rw [hlife] at hs
    simp only [advance] at hs
    split at hs
    next =>
      cases hs
      exact ⟨_, rfl, rfl, nofun⟩
    next =>
      cases hs
      exact ⟨_, rfl, rfl, nofun⟩
  | seizing work =>
    rw [hlife] at hs
    simp only [advance] at hs
    split at hs
    next hseized =>
      cases hs
      exact ⟨_, rfl, rfl, fun work' heq => .inl ⟨by cases heq; rfl, hseized⟩⟩
    next =>
      cases hs
      exact ⟨_, rfl, rfl, nofun⟩
  | exchanging work =>
    rw [hlife] at hs
    simp only [advance] at hs
    split at hs
    next =>
      cases hs
      exact ⟨_, rfl, rfl, nofun⟩
    next hfree =>
      cases hs
      exact ⟨_, rfl, rfl, fun work' heq => .inr ⟨by cases heq; rfl, hfree⟩⟩
  | working done own todo =>
    rw [hlife] at hs
    cases todo with
    | cons w todo =>
      cases hs
      exact ⟨_, rfl, congrArg some (List.append_assoc done [w] todo), nofun⟩
    | nil =>
      cases hs
      exact ⟨_, rfl, congrArg some (List.append_nil done).symm, nofun⟩

/-- Who goes without the handle meets another one that has it, or a resource that is gone. -/
theorem Serial.refused (h : Serial act fresh device s) (hs : step act fresh s (.step t) = some s')
    (hover : s'.lives t = .ended work false) :
    (∃ u, u ≠ t ∧ (s.lives u).Owns) ∨ s.foreign = true := by
  obtain ⟨life, hlives, -, hrefused⟩ := advance_life hs
  rw [hlives, Function.update_self] at hover
  rcases hrefused work hover with ⟨hlife, hseized⟩ | ⟨hlife, hfree⟩
  · exact .inr (h.first t work hlife hseized)
  · have htaken : s.mark = .taken := by
      cases hmark : s.mark with
      | never => exact absurd hmark (h.begun t work hlife)
      | taken => rfl
      | free => exact absurd hmark hfree
    refine (h.blocked htaken).imp_left fun ⟨u, hu⟩ => ⟨u, ?_, hu⟩
    rintro rfl
    rw [hlife] at hu
    exact hu

theorem step_work {e : Event W} (hs : step act fresh s e = some s') {t : ℕ} {work : List W}
    (hwork : (s'.lives t).work = some work) : (s.lives t).work = some work ∨ e = .call t work := by
  cases e with
  | seize =>
    cases hs
    exact .inl hwork
  | step u =>
    obtain ⟨life, hlives, hsame, -⟩ := advance_life hs
    rw [hlives, Function.update_apply] at hwork
    split at hwork
    next hu =>
      subst hu
      exact .inl (hsame.symm.trans hwork)
    next => exact .inl hwork
  | call u called =>
    simp only [step] at hs
    split at hs
    next hidle =>
      cases hs
      rw [lives_set] at hwork
      split at hwork
      next hu =>
        subst hu
        cases hwork
        exact .inr rfl
      next => exact .inl hwork
    next => cases hs

theorem called_run (es : List (Event W)) {seized : Bool}
    (h : exec (step act fresh) es (start seized device) = some s) :
    ∀ t work, (s.lives t).work = some work → .call t work ∈ es := by
  refine exec_invariant_along (P := fun _ e => e ∈ es)
    (I := fun s => ∀ t work, (s.lives t).work = some work → .call t work ∈ es) ?_ es nofun ?_ h
  · intro s e s' hi he hs t work hwork
    exact (step_work hs hwork).elim (hi t work) fun heq => heq ▸ he
  · exact along_of_forall (fun e he => he) _

end UsbArmory.Library.Handout
