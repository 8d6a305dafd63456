import UsbArmory.Runtime.Preempted

/-!
# Interrupts are transparent

Contexts that preempt one another on one stack. A context does what it likes
within the procedure call standard, an interrupt comes wherever it is not masked,
and the frames that `_IRQ` has pushed lie above the stack of all that runs on top.
-/

set_option autoImplicit false

namespace UsbArmory.Runtime.Transparency
open UsbArmory.Library.Arm UsbArmory.Library.Arm.Machine UsbArmory.Runtime.Exceptions
open UsbArmory.Runtime.Preempted

def Frame.covers (f : Frame) (a : Word) : Prop :=
  f.entry.toNat ≤ a.toNat ∧ a.toNat < f.core.sp.toNat

/-- The contexts that are preempted, the last one first. -/
structure Sys where
  machine : Machine
  frames : List Frame

section Steps
variable (l : Layout) (bus : Bus)

/-- One step of compiled code. It keeps its stack below the frames, writes into none of them, and
enters the assembly code only where it returns. -/
structure Allowed (frames : List Frame) (m m' : Machine) : Prop where
  mode : m'.mode = svc
  vbar : m'.vbar = m.vbar
  aligned : (m'.sp svc).toNat%4 = 0
  below : ∀ f ∈ frames.head?, (m'.sp svc).toNat ≤ f.entry.toNat
  kept : ∀ f ∈ frames, ∀ a, Frame.covers f a → m'.mem a = m.mem a
  control : l.code m'.pc = none ∨ ∃ f ∈ frames.head?, Returned l f m'

inductive Step : Sys → Sys → Prop
  | own {m m' : Machine} {frames : List Frame} (hout : l.code m.pc = none)
      (h : Allowed l frames m m') : Step ⟨m, frames⟩ ⟨m', frames⟩
  | interrupt {m m' : Machine} {frames : List Frame} (hirq : m.irqMasked = false)
      (hroom : 40 ≤ (m.sp svc).toNat) (hrun : Runs l.code bus (takeIrq m) m') :
      Step ⟨m, frames⟩ ⟨m', ⟨coreOf m, m'.sp svc⟩::frames⟩
  | resume {m m' : Machine} {f : Frame} {frames : List Frame} (hin : l.code m.pc ≠ none)
      (hrun : Runs l.code bus m m') : Step ⟨m, f::frames⟩ ⟨m', frames⟩

structure Started (m : Machine) : Prop where
  mode : m.mode = svc
  vbar : m.vbar = l.vector
  aligned : (m.sp svc).toNat%4 = 0
  outside : l.code m.pc = none

def Stacked : Word → List Frame → Prop
  | _, [] => True
  | sp, f::frames => sp.toNat ≤ f.entry.toNat ∧ Stacked f.core.sp frames

structure Suspended (mem : Word → Word) (f : Frame) : Prop where
  saved : Saved mem f
  mode : f.core.cpsr.setWidth 5 = svc
  outside : l.code f.core.pc = none

structure Inv (s : Sys) : Prop where
  mode : s.machine.mode = svc
  vbar : s.machine.vbar = l.vector
  aligned : (s.machine.sp svc).toNat%4 = 0
  stacked : Stacked (s.machine.sp svc) s.frames
  suspended : ∀ f ∈ s.frames, Suspended l s.machine.mem f
  control : l.code s.machine.pc = none ∨ ∃ f ∈ s.frames.head?, Returned l f s.machine

end Steps

variable {l : Layout} {bus : Bus} {f : Frame} {frames : List Frame} {m m' : Machine}
variable {mem mem' : Word → Word} {s t : Sys}

theorem entry_le (h : Saved mem f) : f.entry.toNat+36 ≤ f.core.sp.toNat := by
  have hentry := entryOf_toNat h.aligned h.room
  have haligned := h.aligned
  have hroom := h.room
  rw [← h.entry] at hentry
  omega

theorem Saved.congr (h : Saved mem f) (hkept : ∀ a, Frame.covers f a → mem' a = mem a) :
    Saved mem' f := by
  have hroom := entry_le h
  have hcovered : ∀ x, f.entry.toNat ≤ x.toNat → x.toNat < f.core.sp.toNat → mem' x = mem x :=
    fun x hlow hhigh => hkept x ⟨hlow, hhigh⟩
  refine ⟨h.entry, h.aligned, h.room, h.state.congr (by simp) fun x hx => ?_,
    h.scratch.congr (by simp [scratch]) fun x hx => ?_, h.last.congr (by simp) fun x hx => ?_⟩
  · have hlt : (x - (f.core.sp-8)).toNat < 8 := hx
    exact hcovered x (by bv_omega) (by bv_omega)
  · have hlt : (x - (f.core.sp-28)).toNat < 20 := hx
    exact hcovered x (by bv_omega) (by bv_omega)
  · have hlt : (x - f.entry).toNat < 8 := hx
    exact hcovered x (by bv_omega) (by bv_omega)

theorem stacked_above {sp : Word} (h : Stacked sp frames) (hsaved : ∀ f ∈ frames, Saved mem f)
    (hf : f ∈ frames) : sp.toNat ≤ f.entry.toNat := by
  induction frames generalizing sp with
  | nil => cases hf
  | cons g frames ih =>
    obtain ⟨hle, hrest⟩ := h
    rcases List.mem_cons.mp hf with rfl | hmem
    · exact hle
    · have hentry := entry_le (hsaved g List.mem_cons_self)
      have habove := ih hrest (fun f hf => hsaved f (List.mem_cons_of_mem _ hf)) hmem
      omega

theorem own_inv (h : Inv l ⟨m, frames⟩) (hallowed : Allowed l frames m m') :
    Inv l ⟨m', frames⟩ := by
  refine ⟨hallowed.mode, hallowed.vbar.trans h.vbar, hallowed.aligned, ?_, ?_, hallowed.control⟩
  · cases frames with
    | nil => trivial
    | cons f frames => exact ⟨hallowed.below f rfl, h.stacked.2⟩
  · intro f hf
    have hsuspended := h.suspended f hf
    exact ⟨Saved.congr hsuspended.saved (hallowed.kept f hf), hsuspended.mode, hsuspended.outside⟩

theorem interrupt_inv (h : Inv l ⟨m, frames⟩) (hirq : m.irqMasked = false)
    (hroom : 40 ≤ (m.sp svc).toNat) :
    Inv l ⟨entered l m, ⟨coreOf m, (entered l m).sp svc⟩::frames⟩ := by
  have hout : l.code m.pc = none := by
    rcases h.control with hout | ⟨f, -, hreturned⟩
    · exact hout
    · have hmasked := hreturned.masked
      rw [hirq] at hmasked
      cases hmasked
  have hentry := entryOf_toNat h.aligned hroom
  have hsaved := entered_saved (l := l) h.aligned hroom
  have habove : ∀ f ∈ frames, (m.sp svc).toNat ≤ f.entry.toNat := fun f hf =>
    stacked_above h.stacked (fun f hf => (h.suspended f hf).saved) hf
  rw [entered_sp_svc]
  refine ⟨entered_mode l m, (entered_vbar l m).trans h.vbar, ?_, ⟨?_, h.stacked⟩, ?_, ?_⟩
  · show ((entered l m).sp svc).toNat%4 = 0
    rw [entered_sp_svc, hentry]
    omega
  · show ((entered l m).sp svc).toNat ≤ _
    rw [entered_sp_svc]
  · intro f hf
    rcases List.mem_cons.mp hf with rfl | hmem
    · exact ⟨hsaved, h.mode, hout⟩
    · have hsuspended := h.suspended f hmem
      refine ⟨Saved.congr hsuspended.saved fun a ha => ?_, hsuspended.mode, hsuspended.outside⟩
      exact entered_kept h.aligned hroom (.inr (Nat.le_trans (habove f hmem) ha.1))
  · exact .inl l.code_irq

theorem resume_inv (h : Inv l ⟨m, f::frames⟩) (hreturned : Returned l f m) :
    Inv l ⟨resumed m, frames⟩ := by
  have hsuspended := h.suspended f List.mem_cons_self
  have hcore := resumed_core hreturned hsuspended.saved
  have hsp : (resumed m).sp svc = f.core.sp := congrArg Core.sp hcore
  have hpc : (resumed m).pc = f.core.pc := congrArg Core.pc hcore
  have hcpsr : (resumed m).cpsr = f.core.cpsr := congrArg Core.cpsr hcore
  refine ⟨?_, resumed_vbar.trans h.vbar, ?_, ?_, ?_, .inl ?_⟩
  · rw [mode, hcpsr]
    exact hsuspended.mode
  · rw [hsp]
    exact hsuspended.saved.aligned
  · rw [hsp]
    exact h.stacked.2
  · intro g hg
    rw [resumed_mem]
    exact h.suspended g (List.mem_cons_of_mem _ hg)
  · rw [hpc]
    exact hsuspended.outside

theorem Inv.returned (h : Inv l ⟨m, frames⟩) (hin : l.code m.pc ≠ none) :
    ∃ f rest, frames = f::rest ∧ Returned l f m := by
  rcases h.control with hout | ⟨f, hf, hreturned⟩
  · exact absurd hout hin
  · obtain ⟨rest, rfl⟩ := List.head?_eq_some_iff.mp hf
    exact ⟨f, rest, rfl, hreturned⟩

theorem step_inv (h : Inv l s) (hstep : Step l bus s t) : Inv l t := by
  cases hstep with
  | own hout hallowed => exact own_inv h hallowed
  | interrupt hirq hroom hrun =>
    cases hrun.unique (runs_entered h.vbar h.aligned)
    exact interrupt_inv h hirq hroom
  | resume hin hrun =>
    obtain ⟨f, rest, heq, hreturned⟩ := h.returned hin
    cases heq
    have hsuspended := h.suspended _ List.mem_cons_self
    cases hrun.unique (runs_resumed hreturned hsuspended.saved hsuspended.outside)
    exact resume_inv h hreturned

theorem reachable_inv (h₀ : Started l m) (h : Relation.ReflTransGen (Step l bus) ⟨m, []⟩ s) :
    Inv l s := by
  induction h with
  | refl => exact ⟨h₀.mode, h₀.vbar, h₀.aligned, trivial, nofun, .inl h₀.outside⟩
  | tail _ hstep ih => exact step_inv ih hstep

/-- The Rust part of the handler is called as a function of no arguments: on a stack that is
aligned to eight bytes, in the mode of the preempted context, with interrupts masked, and with
nothing written but the frame. -/
structure Entered (l : Layout) (m m' : Machine) : Prop where
  pc : m'.pc = l.irq
  lr : m'.lr svc = l.returnAddress
  mode : m'.mode = svc
  masked : m'.irqMasked = true
  aligned : (m'.sp svc).toNat%8 = 0
  below : (m.sp svc).toNat-40 ≤ (m'.sp svc).toNat ∧ (m'.sp svc).toNat ≤ (m.sp svc).toNat
  kept : ∀ a : Word, a.toNat < (m'.sp svc).toNat ∨ (m.sp svc).toNat ≤ a.toNat →
    m'.mem a = m.mem a

theorem entered_entered (h : (m.sp svc).toNat%4 = 0)
    (hroom : 40 ≤ (m.sp svc).toNat) : Entered l m (entered l m) := by
  have hentry := entryOf_toNat h hroom
  have hlr := entered_lr l m
  rw [reg, entered_mode] at hlr
  refine ⟨rfl, hlr, entered_mode l m, entered_masked l m, ?_, ?_, fun a ha => ?_⟩
  · rw [entered_sp_svc, hentry]
    omega
  · rw [entered_sp_svc, hentry]
    omega
  · rw [entered_sp_svc] at ha
    exact entered_kept h hroom ha

/-- One more step, with more contexts preempted than these. -/
def Deeper (l : Layout) (bus : Bus) (n : ℕ) (s t : Sys) : Prop :=
  Step l bus s t ∧ n < t.frames.length

/-- The frame of an interrupt stays where it is until the context that it belongs to goes on. -/
theorem deeper_frames {n : ℕ} (hn : n = frames.length) (hs : ∃ gs, s.frames = gs ++ f::frames)
    (h : Relation.ReflTransGen (Deeper l bus n) s t) : ∃ gs, t.frames = gs ++ f::frames := by
  induction h with
  | refl => exact hs
  | tail _ hstep ih =>
    obtain ⟨gs, hgs⟩ := ih
    obtain ⟨hone, hdeep⟩ := hstep
    cases hone with
    | own => exact ⟨gs, hgs⟩
    | interrupt => exact ⟨_::gs, congrArg (List.cons _) hgs⟩
    | resume =>
      cases gs with
      | nil =>
        obtain ⟨-, rfl⟩ := List.cons.inj hgs
        exact absurd hdeep (by simp [hn])
      | cons g gs => exact ⟨gs, (List.cons.inj hgs).2⟩

theorem resume_core (h : Inv l s) (hstep : Step l bus s t)
    (hless : t.frames.length < s.frames.length) :
    ∃ f, s.frames = f::t.frames ∧ coreOf t.machine = f.core := by
  cases hstep with
  | own => exact absurd hless (Nat.lt_irrefl _)
  | interrupt => exact absurd hless (by simp)
  | resume hin hrun =>
    obtain ⟨f, rest, heq, hreturned⟩ := h.returned hin
    cases heq
    have hsuspended := h.suspended _ List.mem_cons_self
    cases hrun.unique (runs_resumed hreturned hsuspended.saved hsuspended.outside)
    exact ⟨_, rfl, resumed_core hreturned hsuspended.saved⟩

theorem deeper_reachable {n : ℕ} {s₀ : Sys} (hs : Relation.ReflTransGen (Step l bus) s₀ s)
    (h : Relation.ReflTransGen (Deeper l bus n) s t) :
    Relation.ReflTransGen (Step l bus) s₀ t := by
  induction h with
  | refl => exact hs
  | tail _ hstep ih => exact ih.tail hstep.1

/-- Where an interrupt comes, and what runs on top of it is over. -/
def Served (l : Layout) (bus : Bus) (s u : Sys) : Prop :=
  ∃ t t', Step l bus s t ∧ t.frames.length = s.frames.length+1 ∧
    Relation.ReflTransGen (Deeper l bus s.frames.length) t t' ∧
    Step l bus t' u ∧ u.frames.length = s.frames.length

theorem served_core {u : Sys} (h₀ : Started l m)
    (h : Relation.ReflTransGen (Step l bus) ⟨m, []⟩ s) (hserved : Served l bus s u) :
    u.frames = s.frames ∧ coreOf u.machine = coreOf s.machine := by
  obtain ⟨t, t', hfirst, hpushed, hrun, hlast, hpopped⟩ := hserved
  cases hfirst with
  | own => exact absurd hpushed (by simp)
  | resume => exact absurd hpushed (by simp; omega)
  | interrupt hirq hroom hentered =>
    obtain ⟨gs, hgs⟩ := deeper_frames rfl ⟨[], rfl⟩ hrun
    have hinv := reachable_inv h₀ (deeper_reachable (h.tail (.interrupt hirq hroom hentered)) hrun)
    have hless : u.frames.length < t'.frames.length := by
      rw [hgs, hpopped, List.length_append, List.length_cons]
      omega
    obtain ⟨f, hf, hcore⟩ := resume_core hinv hlast hless
    rw [hgs] at hf
    cases gs with
    | nil =>
      obtain ⟨rfl, hrest⟩ := List.cons.inj hf
      exact ⟨hrest.symm, hcore⟩
    | cons g gs =>
      obtain ⟨-, hrest⟩ := List.cons.inj hf
      rw [← hrest] at hpopped
      exact absurd hpopped (by simp; omega)

/-- In every run of contexts that preempt one another: an interrupt that finds room for its frame
reaches the Rust part of its handler; where a handler returns, some context goes on with nothing
in memory changed; and where all that runs on top of an interrupt is over, it is the context that
the interrupt has preempted, with all of its registers. -/
theorem interrupts_transparent {m₀ : Machine} (h₀ : Started l m₀)
    (h : Relation.ReflTransGen (Step l bus) ⟨m₀, []⟩ s) :
    (s.machine.irqMasked = false → 40 ≤ (s.machine.sp svc).toNat →
      ∃ m', Runs l.code bus (takeIrq s.machine) m' ∧ Entered l s.machine m') ∧
    (l.code s.machine.pc ≠ none → ∃ f frames m', s.frames = f::frames ∧
      Runs l.code bus s.machine m' ∧ coreOf m' = f.core ∧ m'.mem = s.machine.mem) ∧
    ∀ u, Served l bus s u → u.frames = s.frames ∧ coreOf u.machine = coreOf s.machine := by
  have hinv := reachable_inv h₀ h
  refine ⟨fun hirq hroom => ?_, fun hin => ?_, fun u hserved => served_core h₀ h hserved⟩
  · exact ⟨entered l s.machine, runs_entered hinv.vbar hinv.aligned,
      entered_entered hinv.aligned hroom⟩
  · obtain ⟨m, frames⟩ := s
    obtain ⟨f, rest, rfl, hreturned⟩ := hinv.returned hin
    have hsuspended := hinv.suspended f List.mem_cons_self
    exact ⟨f, rest, resumed m, rfl,
      runs_resumed hreturned hsuspended.saved hsuspended.outside,
      resumed_core hreturned hsuspended.saved, resumed_mem⟩

/-- A handler that uses a scratch register and returns. -/
def handled (l : Layout) (m : Machine) : Machine :=
  ((entered l m).setReg (.r 1) 77).goto l.returnAddress

theorem handled_returned (l : Layout) (m : Machine) :
    Returned l ⟨coreOf m, (entered l m).sp svc⟩ (handled l m) := by
  refine ⟨rfl, entered_mode l m, entered_masked l m, rfl, fun i hi => ?_⟩
  have h0 : Reg.r i ≠ .r 0 := by
    intro heq
    exact hi (by simp [heq, scratch])
  have h1 : Reg.r i ≠ .r 1 := by
    intro heq
    exact hi (by simp [heq, scratch])
  show ((entered l m).setReg (.r 1) 77).r i = m.r i
  rw [setReg_r, if_neg h1.symm, ← stateSaved_r l m]
  exact entered_reg l m h0 (by simp) (by simp)

theorem handled_allowed (h : (m.sp svc).toNat%4 = 0) (hroom : 40 ≤ (m.sp svc).toNat) :
    Allowed l [⟨coreOf m, (entered l m).sp svc⟩] (entered l m) (handled l m) := by
  have haligned := (entered_entered (l := l) h hroom).aligned
  refine ⟨entered_mode l m, rfl, ?_, ?_, fun _ _ _ _ => rfl, .inr ⟨_, rfl, handled_returned l m⟩⟩
  · show ((entered l m).sp svc).toNat%4 = 0
    omega
  · rintro f ⟨⟩
    exact Nat.le_refl _

theorem handled_served (h₀ : Started l m) (hirq : m.irqMasked = false)
    (hroom : 40 ≤ (m.sp svc).toNat) : Served l bus ⟨m, []⟩ ⟨resumed (handled l m), []⟩ := by
  have hsaved := entered_saved (l := l) h₀.aligned hroom
  rw [← entered_sp_svc] at hsaved
  have hin : l.code (handled l m).pc ≠ none := by
    rw [show (handled l m).pc = addr l.irqEntry 8 from rfl, l.code_stub (by decide)]
    nofun
  refine ⟨_, ⟨handled l m, [⟨coreOf m, (entered l m).sp svc⟩]⟩,
    .interrupt hirq hroom (runs_entered h₀.vbar h₀.aligned), rfl, ?_, ?_, rfl⟩
  · exact .single ⟨.own l.code_irq (handled_allowed h₀.aligned hroom), Nat.zero_lt_one⟩
  · exact .resume hin (runs_resumed (handled_returned l m) hsaved h₀.outside)

/-- The vector, `_IRQ` and its Rust part in the on-chip memory. -/
def linked : Layout where
  symbols := ⟨0x00900200, 0x00900150, 0x00900200, 0x00900158, 0x00900160, 0x00900148, 0x009001c0⟩
  vector := 0x00900020
  irqEntry := 0x00900100
  irq := 0x00900300
  entry_outside := by decide
  vector_outside := by decide
  irq_outside := by decide

/-- A context on a stack that is not aligned to eight bytes. -/
def interrupted : Machine where
  r i := i.val
  sp _ := 0x0091fffc
  lr _ := 0x00900500
  spsr _ := 0
  pc := 0x00900400
  cpsr := 0x13
  vbar := 0x00900020
  mem _ := 0
  log := []

theorem interrupts_transparent_once : ∃ u : Sys,
    Served linked ⟨fun _ => false, fun _ _ => 0⟩ ⟨interrupted, []⟩ u ∧
      coreOf u.machine = coreOf interrupted := by
  have h₀ : Started linked interrupted := ⟨by decide, rfl, by decide, rfl⟩
  have hserved : Served linked ⟨fun _ => false, fun _ _ => 0⟩ ⟨interrupted, []⟩
      ⟨resumed (handled linked interrupted), []⟩ := handled_served h₀ (by decide) (by decide)
  exact ⟨_, hserved, ((interrupts_transparent h₀ .refl).2.2 _ hserved).2⟩

end UsbArmory.Runtime.Transparency
