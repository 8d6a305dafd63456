import UsbArmory.Runtime.Sections

/-!
# Sections exclude each other

A context that is suspended is in no section, and the mask is set as long as the
context that runs is in one. So nothing that a section works on changes under
it, its `RefCell` is free when it is borrowed, and every section leaves the mask
as it has found it.
-/

set_option autoImplicit false

namespace UsbArmory.Runtime.SectionInvariant
open UsbArmory.Library.Run UsbArmory.Runtime.Sections

variable {M V : Type}

abbrev keys (frames : List (Frame M V)) : List (Option M) := frames.map (·.key)

/-- The sections of one context, from the innermost out. -/
def Chain (outer : Bool) : List (Frame M V) → Prop
  | [] => True
  | f::fs => f.cpsr = (!fs.isEmpty || outer) ∧ (f.key = none ∨ f.key ∉ keys fs) ∧
      (∀ v, Guarded (keys fs) (f.next v)) ∧ Chain outer fs

/-- Interrupts are masked because of a section, or by `IRQ` itself. -/
def masks (c : Context M V) : Bool :=
  !c.frames.isEmpty || match c.phase with
    | .taken | .entered _ | .ended => true
    | _ => false

/-- The sections whose `RefCell` is borrowed. -/
def openFrames (c : Context M V) : List (Frame M V) :=
  match c.phase with
  | .leaving _ => c.frames.tail
  | _ => c.frames

theorem openFrames_nil {c : Context M V} (h : c.frames = []) : openFrames c = [] := by
  rw [openFrames, h]
  cases c.phase <;> rfl

structure ContextOk (c : Context M V) : Prop where
  chain : Chain c.outer c.frames
  guarded : Guarded (keys c.frames) c.code
  spsr : c.spsr = false
  taken : c.phase = .taken → c.frames = [] ∧ c.outer = false
  ended : c.phase = .ended → c.frames = [] ∧ c.outer = false
  read : ∀ cpsr, c.phase = .read cpsr → cpsr = (!c.frames.isEmpty || c.outer)
  entered : ∀ cpsr, c.phase = .entered cpsr → cpsr = (!c.frames.isEmpty || c.outer)

structure Running (s : State M V) (c : Context M V) : Prop where
  ok : ContextOk c
  mask : s.masked = (masks c || c.outer)
  borrowed : ∀ m, s.borrowed m = true ↔ some m ∈ keys (openFrames c)
  loaded : ∀ v, c.phase = .loaded v → ∀ k f next, c.code = .update k f next → v = s.data k

structure Suspended (c : Context M V) : Prop where
  ok : ContextOk c
  unmasked : (masks c || c.outer) = false

theorem Suspended.frames {c : Context M V} (h : Suspended c) : c.frames = [] := by
  have hframes := (Bool.or_eq_false_iff.mp (Bool.or_eq_false_iff.mp h.unmasked).1).1
  simpa using hframes

theorem ContextOk.plain {c : Context M V} (h : ContextOk c) {phase : Phase V}
    (htaken : phase ≠ .taken)
    (hended : phase ≠ .ended) (hread : ∀ cpsr, phase ≠ .read cpsr)
    (hentered : ∀ cpsr, phase ≠ .entered cpsr) : ContextOk { c with phase := phase } where
  chain := h.chain
  guarded := h.guarded
  spsr := h.spsr
  taken hphase := absurd hphase htaken
  ended hphase := absurd hphase hended
  read cpsr hphase := absurd hphase (hread cpsr)
  entered cpsr hphase := absurd hphase (hentered cpsr)

structure Ok [DecidableEq M] (data : Option M → V) (s : State M V) : Prop where
  calm : s.panicked = false
  data : ∀ k, s.data k = replay k s.log (data k)
  stack : ∃ c below, s.stack = c::below ∧ Running s c ∧ (∀ b ∈ below, Suspended b) ∧
    (below ≠ [] → c.outer = false)

section Phases
variable {s : State M V} {c : Context M V} {below : List (Context M V)}

theorem running_taken (hrun : Running s c) (hphase : c.phase = .taken) :
    Running { s with masked := false, stack := { c with phase := .ready }::below }
      { c with phase := .ready } := by
  obtain ⟨hframes, houter⟩ := hrun.ok.taken hphase
  refine ⟨hrun.ok.plain nofun nofun nofun nofun, ?_, fun m => ?_, nofun⟩
  · simp [masks, hframes, houter]
  · rw [hrun.borrowed, openFrames, openFrames, hphase]

theorem running_load (hrun : Running s c) (hphase : c.phase = .ready) {k : Option M} {f : V → V}
    {next : V → Code M V} (hcode : c.code = .update k f next) :
    Running { s with stack := { c with phase := .loaded (s.data k) }::below }
      { c with phase := .loaded (s.data k) } := by
  refine ⟨hrun.ok.plain nofun nofun nofun nofun, ?_, fun m => ?_, ?_⟩
  · have hmask := hrun.mask
    rw [masks, hphase] at hmask
    exact hmask
  · rw [hrun.borrowed, openFrames, openFrames, hphase]
  · rintro v ⟨⟩ k' f' next' hcode'
    cases hcode.symm.trans hcode'
    rfl

theorem running_read (hrun : Running s c) (hphase : c.phase = .ready) :
    Running { s with stack := { c with phase := .read s.masked }::below }
      { c with phase := .read s.masked } := by
  have hmask := hrun.mask
  rw [masks, hphase, Bool.or_false] at hmask
  refine ⟨⟨hrun.ok.chain, hrun.ok.guarded, hrun.ok.spsr, nofun, nofun, ?_, nofun⟩, ?_,
    fun m => ?_, nofun⟩
  · rintro cpsr ⟨⟩
    exact hmask
  · rw [masks, Bool.or_false]
    exact hmask
  · rw [hrun.borrowed, openFrames, openFrames, hphase]

theorem running_mask (hrun : Running s c) {cpsr : Bool} (hphase : c.phase = .read cpsr)
    (k : Option M) :
    Running { s with
        masked := if k.isNone || !cpsr then true else s.masked
        stack := { c with phase := .entered cpsr }::below }
      { c with phase := .entered cpsr } := by
  have hcpsr := hrun.ok.read cpsr hphase
  have hmask := hrun.mask
  rw [masks, hphase, Bool.or_false, ← hcpsr] at hmask
  refine ⟨⟨hrun.ok.chain, hrun.ok.guarded, hrun.ok.spsr, nofun, nofun, nofun, ?_⟩, ?_,
    fun m => ?_, nofun⟩
  · rintro cpsr ⟨⟩
    exact hcpsr
  · rw [masks, Bool.or_true, Bool.true_or]
    cases cpsr with
    | false => simp
    | true => simp [hmask]
  · rw [hrun.borrowed, openFrames, openFrames, hphase]

theorem running_free (hrun : Running s c) {cpsr : Bool} (hphase : c.phase = .entered cpsr)
    {k : Option M} {body : Code M V} {next : V → Code M V}
    (hcode : c.code = .critical k body next) :
    k.any s.borrowed = false := by
  have hguarded := hrun.ok.guarded
  rw [hcode] at hguarded
  cases k with
  | none => rfl
  | some m =>
    rw [Option.any_some, ← Bool.not_eq_true, hrun.borrowed, openFrames, hphase]
    exact hguarded.1.resolve_left nofun

theorem running_leave (hrun : Running s c) {r : V} (hphase : c.phase = .leaving r) {f : Frame M V}
    {frames : List (Frame M V)} (hframes : c.frames = f::frames) :
    Running { s with
        masked := if f.cpsr then s.masked else false
        stack := { c with phase := .ready, code := f.next r, frames := frames }::below }
      { c with phase := .ready, code := f.next r, frames := frames } := by
  have hchain := hrun.ok.chain
  rw [hframes] at hchain
  obtain ⟨hcpsr, -, hnext, hrest⟩ := hchain
  have hmask := hrun.mask
  rw [masks, hframes] at hmask
  refine ⟨⟨hrest, hnext r, hrun.ok.spsr, nofun, nofun, nofun, nofun⟩, ?_, fun m => ?_, nofun⟩
  · rw [masks, Bool.or_false, ← hcpsr]
    cases hf : f.cpsr with
    | false => rfl
    | true => simpa using hmask
  · rw [hrun.borrowed, openFrames, openFrames, hphase, hframes]
    rfl

theorem running_end (hrun : Running s c) (hphase : c.phase = .ready) (hframes : c.frames = [])
    (houter : c.outer = false) :
    Running { s with masked := true, stack := { c with phase := .ended }::below }
      { c with phase := .ended } := by
  refine ⟨⟨hrun.ok.chain, hrun.ok.guarded, hrun.ok.spsr, nofun, fun _ => ⟨hframes, houter⟩, nofun,
    nofun⟩, ?_, fun m => ?_, nofun⟩
  · rw [masks, Bool.or_true, Bool.true_or]
  · rw [hrun.borrowed, openFrames, openFrames, hphase]

end Phases

section Step
variable [DecidableEq M] {data : Option M → V} {s t : State M V} {c : Context M V}
  {below : List (Context M V)}

theorem ok_next (h : Ok data s) (hdata : t.data = s.data) (hlog : t.log = s.log)
    (hcalm : t.panicked = false) (hstack : t.stack = c::below) (hrun : Running t c)
    (hbelow : ∀ b ∈ below, Suspended b) (houter : below ≠ [] → c.outer = false) : Ok data t := by
  refine ⟨hcalm, fun k => ?_, c, below, hstack, hrun, hbelow, houter⟩
  rw [hdata, hlog]
  exact h.data k

theorem borrowed_open {k : Option M} {frames : List (Frame M V)} {borrowed : M → Bool}
    (h : ∀ m, borrowed m = true ↔ some m ∈ keys frames) (f : Frame M V) (hkey : f.key = k) (m : M) :
    setBorrowed k true borrowed m = true ↔ some m ∈ keys (f::frames) := by
  subst hkey
  rw [keys, List.map_cons, List.mem_cons]
  cases hk : f.key with
  | none => simpa [setBorrowed] using h m
  | some n =>
    by_cases hmn : m = n
    · subst hmn
      simp [setBorrowed]
    · simp [setBorrowed, hmn, h m]

theorem borrowed_close {f : Frame M V} {frames : List (Frame M V)} {borrowed : M → Bool}
    (h : ∀ m, borrowed m = true ↔ some m ∈ keys (f::frames))
    (hkey : f.key = none ∨ f.key ∉ keys frames) (m : M) :
    setBorrowed f.key false borrowed m = true ↔ some m ∈ keys frames := by
  have hm := h m
  rw [keys, List.map_cons, List.mem_cons] at hm
  cases hk : f.key with
  | none =>
    rw [hk] at hm
    simpa [setBorrowed] using hm
  | some n =>
    rw [hk] at hm hkey
    by_cases hmn : m = n
    · subst hmn
      have hnot : some m ∉ keys frames := hkey.resolve_left nofun
      simpa [setBorrowed] using hnot
    · simpa [setBorrowed, Function.update_of_ne hmn, hmn] using hm

theorem running_store (hrun : Running s c) {v : V} (hphase : c.phase = .loaded v) {k : Option M}
    {f : V → V} {next : V → Code M V} (hcode : c.code = .update k f next) :
    Running { s with
        data := Function.update s.data k (f v)
        log := s.log ++ [(k, f)]
        stack := { c with phase := .ready, code := next (f v) }::below }
      { c with phase := .ready, code := next (f v) } := by
  have hguarded := hrun.ok.guarded
  rw [hcode] at hguarded
  refine ⟨⟨hrun.ok.chain, hguarded.2 (f v), hrun.ok.spsr, nofun, nofun, nofun, nofun⟩, ?_,
    fun m => ?_, nofun⟩
  · have hmask := hrun.mask
    rw [masks, hphase] at hmask
    exact hmask
  · rw [hrun.borrowed, openFrames, openFrames, hphase]

theorem data_store (h : Ok data s) (hrun : Running s c) {v : V} (hphase : c.phase = .loaded v)
    {k : Option M} {f : V → V} {next : V → Code M V} (hcode : c.code = .update k f next)
    (k' : Option M) :
    Function.update s.data k (f v) k' = replay k' (s.log ++ [(k, f)]) (data k') := by
  obtain rfl := hrun.loaded v hphase k f next hcode
  rw [replay, List.filter_append, List.foldl_append]
  by_cases hk : k = k'
  · subst hk
    rw [Function.update_self, h.data k]
    simp [replay]
  · rw [Function.update_of_ne (Ne.symm hk), h.data k']
    simp [replay, hk]

theorem running_enter (hrun : Running s c) {cpsr : Bool} (hphase : c.phase = .entered cpsr)
    {k : Option M} {body : Code M V} {next : V → Code M V}
    (hcode : c.code = .critical k body next) :
    Running { s with
        borrowed := setBorrowed k true s.borrowed
        stack := { c with
          phase := .ready, code := body, frames := ⟨k, cpsr, next⟩::c.frames }::below }
      { c with phase := .ready, code := body, frames := ⟨k, cpsr, next⟩::c.frames } := by
  have hguarded := hrun.ok.guarded
  rw [hcode] at hguarded
  have hmask := hrun.mask
  rw [masks, hphase, Bool.or_true, Bool.true_or] at hmask
  refine ⟨⟨⟨hrun.ok.entered cpsr hphase, hguarded.1, hguarded.2.2, hrun.ok.chain⟩, hguarded.2.1,
    hrun.ok.spsr, nofun, nofun, nofun, nofun⟩, ?_, ?_, nofun⟩
  · exact hmask
  · have hborrowed := hrun.borrowed
    rw [openFrames, hphase] at hborrowed
    exact borrowed_open hborrowed ⟨k, cpsr, next⟩ rfl

theorem running_drop (hrun : Running s c) (hphase : c.phase = .ready) {f : Frame M V}
    {frames : List (Frame M V)} (hframes : c.frames = f::frames) (r : V) :
    Running { s with
        borrowed := setBorrowed f.key false s.borrowed
        stack := { c with phase := .leaving r }::below }
      { c with phase := .leaving r } := by
  have hchain := hrun.ok.chain
  rw [hframes] at hchain
  refine ⟨hrun.ok.plain nofun nofun nofun nofun, ?_, ?_, nofun⟩
  · have hmask := hrun.mask
    rw [masks, hphase] at hmask
    exact hmask
  · have hborrowed := hrun.borrowed
    rw [openFrames, hphase, hframes] at hborrowed
    rw [openFrames, hframes]
    exact borrowed_close hborrowed hchain.2.1

theorem ok_take (h : Ok data s) (hstack : s.stack = c::below) (hmasked : s.masked = false)
    (handler : Program M V) :
    Ok data { s with
      masked := true
      stack := ⟨.taken, handler.val, [], s.masked, false⟩::c::below } := by
  obtain ⟨c', below', hstack', hrun, hbelow, -⟩ := h.stack
  cases hstack.symm.trans hstack'
  have hunmasked : (masks c || c.outer) = false := hrun.mask.symm.trans hmasked
  have hsuspended : Suspended c := ⟨hrun.ok, hunmasked⟩
  refine ok_next h rfl rfl h.calm rfl ?_ ?_ fun _ => rfl
  · refine ⟨⟨trivial, handler.property, hmasked, fun _ => ⟨rfl, rfl⟩, nofun, nofun, nofun⟩, rfl,
      fun m => ?_, nofun⟩
    rw [hrun.borrowed, openFrames_nil hsuspended.frames]
    rfl
  · rintro b (_ | ⟨_, hb⟩)
    · exact hsuspended
    · exact hbelow b hb

theorem ok_ret (h : Ok data s) (hstack : s.stack = c::below) (hframes : c.frames = [])
    (ht : ret s c below = some t) : Ok data t := by
  obtain ⟨c', below', hstack', hrun, hbelow, -⟩ := h.stack
  cases hstack.symm.trans hstack'
  cases below with
  | nil => cases ht
  | cons b rest =>
    cases ht
    have hb := hbelow b List.mem_cons_self
    have houter : b.outer = false := (Bool.or_eq_false_iff.mp hb.unmasked).2
    refine ok_next h rfl rfl h.calm rfl ⟨hb.ok, ?_, fun m => ?_, ?_⟩
      (fun b' hb' => hbelow b' (List.mem_cons_of_mem _ hb')) fun _ => houter
    · exact hrun.ok.spsr.trans hb.unmasked.symm
    · rw [hrun.borrowed, openFrames_nil hframes, openFrames_nil hb.frames]
    · intro v _ k f next hcode
      have hguarded := hb.ok.guarded
      rw [hcode, hb.frames] at hguarded
      exact absurd hguarded.1 List.not_mem_nil

theorem ok_advance (h : Ok data s) (hstack : s.stack = c::below)
    (ht : advance s c below = some t) : Ok data t := by
  obtain ⟨c', below', hstack', hrun, hbelow, houter⟩ := h.stack
  cases hstack.symm.trans hstack'
  simp only [advance] at ht
  split at ht
  next hphase =>
    cases ht
    exact ok_next h rfl rfl h.calm rfl (running_taken hrun hphase) hbelow houter
  next k f next_ hphase hcode =>
    cases ht
    exact ok_next h rfl rfl h.calm rfl (running_load hrun hphase hcode) hbelow houter
  next v k f next_ hphase hcode =>
    cases ht
    exact ⟨h.calm, data_store h hrun hphase hcode, _, _, rfl, running_store hrun hphase hcode,
      hbelow,
      houter⟩
  next hphase hcode =>
    cases ht
    exact ok_next h rfl rfl h.calm rfl (running_read hrun hphase) hbelow houter
  next cpsr k body next_ hphase hcode =>
    cases ht
    exact ok_next h rfl rfl h.calm rfl (running_mask hrun hphase k) hbelow houter
  next cpsr k body next_ hphase hcode =>
    rw [running_free hrun hphase hcode] at ht
    cases ht
    exact ok_next h rfl rfl h.calm rfl (running_enter hrun hphase hcode) hbelow houter
  next r f frames hphase hcode hframes =>
    cases ht
    exact ok_next h rfl rfl h.calm rfl (running_drop hrun hphase hframes r) hbelow houter
  next r f frames hphase hframes =>
    cases ht
    exact ok_next h rfl rfl h.calm rfl (running_leave hrun hphase hframes) hbelow houter
  next r hphase hcode hframes =>
    split at ht
    next => cases ht
    next b rest =>
      cases ht
      have hnot : c.outer = false := houter nofun
      exact ok_next h rfl rfl h.calm rfl (running_end hrun hphase hframes hnot) hbelow houter
  next hphase => exact ok_ret h hstack (hrun.ok.ended hphase).1 ht
  next => cases ht

theorem ok_step (e : Event M V) (h : Ok data s) (ht : step s e = some t) : Ok data t := by
  simp only [step] at ht
  split at ht
  next c below hcalm hstack =>
    cases e with
    | run => exact ok_advance h hstack ht
    | take handler =>
      simp only at ht
      split at ht
      next => cases ht
      next hmasked =>
        cases ht
        exact ok_take h hstack (Bool.not_eq_true _ ▸ hmasked) handler
    | spurious =>
      simp only at ht
      split at ht
      next hphase =>
        obtain ⟨c', below', hstack', hrun, -, -⟩ := h.stack
        cases hstack.symm.trans hstack'
        exact ok_ret h hstack (hrun.ok.taken hphase).1 ht
      next => cases ht
  next => cases ht

theorem ok_start (main : Program M V) (masked : Bool) (data : Option M → V) :
    Ok data (start main masked data) := by
  refine ⟨rfl, fun _ => rfl, _, [], rfl, ?_, nofun, fun hne => absurd rfl hne⟩
  refine ⟨⟨trivial, main.property, rfl, nofun, nofun, nofun, nofun⟩, rfl, fun m => ?_, nofun⟩
  simp [start, openFrames]

/-- In every state that is reached, wherever handlers are taken: no `RefCell` has been found
borrowed, whoever is suspended is in no section, interrupts are masked while a section runs and
behind it are masked exactly if they were masked before; and the data is what the updates make of
it one after another, with none of them lost. -/
theorem sections_exclusive (main : Program M V) (masked : Bool) (data : Option M → V)
    (es : List (Event M V)) (s : State M V)
    (h : exec step es (start main masked data) = some s) :
    s.panicked = false ∧
    (∀ k, s.data k = replay k s.log (data k)) ∧
    ∃ c below, s.stack = c::below ∧ (∀ b ∈ below, b.frames = []) ∧
      (c.frames ≠ [] → s.masked = true) ∧
      (c.frames = [] → c.phase = .ready → s.masked = c.outer) ∧
      ∀ m, s.borrowed m = true → some m ∈ keys c.frames := by
  have hs : Ok data s := exec_invariant (fun s e t h ht => ok_step e h ht) es
    (ok_start main masked data) h
  obtain ⟨c, below, hstack, hrun, hbelow, -⟩ := hs.stack
  refine ⟨hs.calm, hs.data, c, below, hstack, fun b hb => (hbelow b hb).frames, fun hframes => ?_,
    fun hframes hphase => ?_, fun m hm => ?_⟩
  · rw [hrun.mask, masks]
    cases hf : c.frames with
    | nil => exact absurd hf hframes
    | cons f frames => rfl
  · rw [hrun.mask, masks, hframes, hphase]
    rfl
  · have hopen := (hrun.borrowed m).mp hm
    rw [openFrames] at hopen
    split at hopen
    next => exact List.map_subset _ (fun _ => List.mem_of_mem_tail) hopen
    next => exact hopen

end Step

/-- `main` updates what `Mutex` 0 holds, and reads its own section's data inside. -/
def pollMain : Program ℕ ℕ :=
  ⟨lock 0 (.update (some 0) (· + 1) fun _ => noInterrupts (.update none (· + 2) .done) .done) .done,
    by simp [lock, noInterrupts, Guarded]⟩

def pollHandler : Program ℕ ℕ :=
  ⟨lock 0 (.update (some 0) (· * 2) .done) .done, by simp [lock, Guarded]⟩

/-- The handler comes between the reading of CPSR and the mask; then `main` goes on into its
inner section. -/
def pollRun : List (Event ℕ ℕ) :=
  [.run, .take pollHandler] ++ List.replicate 17 .run

theorem sections_exclusive_poll : ∃ s,
    exec step pollRun (start pollMain false fun _ => 3) = some s ∧
    s.data (some 0) = 7 ∧ s.masked = true ∧ s.panicked = false := by
  refine ⟨_, rfl, rfl, rfl, ?_⟩
  exact (sections_exclusive pollMain false (fun _ => 3) pollRun _ rfl).1

end UsbArmory.Runtime.SectionInvariant
