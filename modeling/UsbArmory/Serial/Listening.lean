import UsbArmory.Library.Run
import UsbArmory.Serial.Uart

/-!
# The serial interface

The operations on the handle, from what the initialization has left, and what
becomes of the configuration of UART2.
-/

set_option autoImplicit false

namespace UsbArmory.Serial.Listening
open UsbArmory.Library.Word UsbArmory.Library.Binary UsbArmory.Library.Trace
open UsbArmory.Library.Registers UsbArmory.Library.Run UsbArmory.Serial.Uart

inductive Owner where
  | never
  | taken
  | free
  deriving DecidableEq, Repr

/-- `STATE`, and whether the singleton of UART2 has been taken. -/
structure Statics where
  state : Owner
  uart2 : Bool
  deriving DecidableEq, Repr

/-- Whether there is a handle, which only the first owner makes by taking UART2. -/
def take (s : Statics) : Bool × Statics :=
  match s.state with
  | .never => (!s.uart2, ⟨.taken, true⟩)
  | .free => (true, { s with state := .taken })
  | .taken => (false, s)

def release (s : Statics) : Statics := { s with state := .free }

/-- Receiver ready, in `USR1`. -/
def rrdy : UInt32 := (1 : UInt32) <<< 9

/-- Transmitter ready, in `USR1`. -/
def trdy : UInt32 := (1 : UInt32) <<< 13

/-- Transmitter complete, in `USR2`. -/
def txdc : UInt32 := (1 : UInt32) <<< 3

section Driver
variable (hw : Hardware) (fuel : ℕ)

def flush : Io Unit := poll hw.device .usr2 (fun usr2 => usr2 &&& txdc != 0) fuel

def listen : Io Unit := do
  let old ← load hw.device .ucr2
  store .ucr1 (old ||| (1 : UInt32) <<< 9)

def tryRead : Io (Option UInt8) := do
  let usr1 ← load hw.device .usr1
  if usr1 &&& rrdy = 0 then pure none
  else do
    let urxd ← load hw.device .urxd
    pure (some urxd.toUInt8)

def tryWriteAll : List UInt8 → ℕ → Io ℕ
  | [], n => pure n
  | byte::bytes, n => do
    let usr1 ← load hw.device .usr1
    if usr1 &&& trdy = 0 then pure n
    else do
      store .utxd byte.toUInt32
      tryWriteAll bytes (n+1)

def write (byte : UInt8) : Io Unit := do
  poll hw.device .usr1 (fun usr1 => usr1 &&& trdy != 0) fuel
  store .utxd byte.toUInt32

def writeAll (bytes : List UInt8) : Io Unit := bytes.forM (write hw fuel)

end Driver

inductive Op where
  | take
  | release
  | flush
  | listen
  | tryRead
  | write (byte : UInt8)
  | tryWriteAll (bytes : List UInt8)
  | writeAll (bytes : List UInt8)
  deriving DecidableEq, Repr

structure State where
  acts : List Act
  statics : Statics
  held : Bool
  listened : Bool

/-- All operations but these two are on the handle. -/
def Op.Allowed (op : Op) (s : State) : Prop := op = .take ∨ op = .flush ∨ s.held = true

instance (op : Op) (s : State) : Decidable (op.Allowed s) := inferInstanceAs (Decidable (_ ∨ _ ∨ _))

section Machine
variable (hw : Hardware) (fuel : ℕ)

def Op.run : Op → Io Unit
  | .take | .release => pure ()
  | .flush => Listening.flush hw fuel
  | .listen => Listening.listen hw
  | .tryRead => do
    let _ ← Listening.tryRead hw
    pure ()
  | .write byte => Listening.write hw fuel byte
  | .tryWriteAll bytes => do
    let _ ← Listening.tryWriteAll hw bytes 0
    pure ()
  | .writeAll bytes => Listening.writeAll hw fuel bytes

/-- What an operation that has returned leaves besides its accesses. -/
def Op.after (s : State) : Op → State
  | .take =>
    let (made, statics) := Listening.take s.statics
    { s with statics, held := s.held || made }
  | .release => { s with statics := Listening.release s.statics, held := false }
  | .listen => { s with listened := true }
  | _ => s

def step (s : State) (op : Op) : Option State :=
  if op.Allowed s then
    match perform (op.run hw fuel) s.acts with
    | (.ok (), acts) => some { op.after s with acts }
    | (.error _, _) => none
  else none

end Machine

/-- Receive-ready interrupt enable, in `UCR1`. -/
def rrdyen : UInt32 := (1 : UInt32) <<< 9

/-- The configuration is as it was behind the first accesses, up to the interrupt enable. -/
structure Preserved (hw : Hardware) (first acts : List Act) (listened : Bool) : Prop where
  ucr1 : hw.control acts .ucr1 ||| rrdyen = hw.control first .ucr1 ||| rrdyen
  enabled : listened = true → hw.control acts .ucr1 &&& rrdyen ≠ 0
  ucr2 : hw.control acts .ucr2 = hw.control first .ucr2

/-- At every access of an operation, and when it has returned, also where it never does. -/
def Keeps (hw : Hardware) (fuel : ℕ) (first : List Act) (s : State) (op : Op) : Prop :=
  op.Allowed s →
    (∀ acts, s.acts <+: acts → acts <+: (perform (op.run hw fuel) s.acts).2 →
      Preserved hw first acts s.listened) ∧
    ∀ t, step hw fuel s op = some t → Preserved hw first t.acts t.listened

/-- The call is not one of `listen`. -/
def Silent (s : State) (op : Op) : Prop := ¬(op = .listen ∧ op.Allowed s)

def configuration : Set Register := {.ucr1, .ucr2}

section Accesses
variable (hw : Hardware) (fuel : ℕ)

theorem utxd_other : Register.utxd ∉ configuration := by
  rintro (h | h)
  · cases h
  · cases h

theorem sparing_tryRead : Sparing configuration (tryRead hw) := by
  refine sparing_bind (sparing_load _ _) fun usr1 => ?_
  split
  · exact sparing_pure _
  · exact sparing_bind (sparing_load _ _) fun _ => sparing_pure _

theorem sparing_tryWriteAll (bytes : List UInt8) (n : ℕ) :
    Sparing configuration (tryWriteAll hw bytes n) := by
  induction bytes generalizing n with
  | nil => exact sparing_pure n
  | cons byte bytes ih =>
    refine sparing_bind (sparing_load _ _) fun usr1 => ?_
    split
    · exact sparing_pure n
    · exact sparing_bind (sparing_store utxd_other _) fun _ => ih (n+1)

theorem sparing_write (byte : UInt8) : Sparing configuration (write hw fuel byte) :=
  sparing_bind (sparing_poll _ _ _ _) fun _ => sparing_store utxd_other _

theorem sparing_run {op : Op} (h : op ≠ .listen) : Sparing configuration (op.run hw fuel) := by
  cases op with
  | take => exact sparing_pure ()
  | release => exact sparing_pure ()
  | flush => exact sparing_poll _ _ _ _
  | listen => exact absurd rfl h
  | tryRead => exact sparing_bind (sparing_tryRead hw) fun _ => sparing_pure ()
  | write byte => exact sparing_write hw fuel byte
  | tryWriteAll bytes =>
    exact sparing_bind (sparing_tryWriteAll hw bytes 0) fun _ => sparing_pure ()
  | writeAll bytes => exact sparing_forM (sparing_write hw fuel)

end Accesses

variable {hw : Hardware} {fuel : ℕ} {first acts rest : List Act} {s t : State} {op : Op}

theorem control_append (h : Spares configuration rest) {r : Register} (hr : r ∈ configuration) :
    hw.control (acts ++ rest) r = hw.control acts r := by
  rw [Hardware.control, stored_append]
  exact stored_spares h hr _

theorem step_some (h : step hw fuel s op = some t) : op.Allowed s ∧
    perform (op.run hw fuel) s.acts = (.ok (), t.acts) ∧ t.listened = (op.after s).listened := by
  unfold step at h
  split at h
  next hallowed =>
    split at h
    next acts hrun =>
      cases h
      exact ⟨hallowed, hrun, rfl⟩
    next => cases h
  next => cases h

theorem listened_after (h : op ≠ .listen) : (op.after s).listened = s.listened := by
  cases op with
  | listen => exact absurd rfl h
  | _ => rfl

/-- No call of `listen` has returned, and both registers are as they were. -/
structure Intact (hw : Hardware) (first : List Act) (s : State) : Prop where
  silent : s.listened = false
  ucr1 : hw.control s.acts .ucr1 = hw.control first .ucr1
  ucr2 : hw.control s.acts .ucr2 = hw.control first .ucr2

theorem preserved_append (h : Intact hw first s) (hspares : Spares configuration rest) :
    Preserved hw first (s.acts ++ rest) s.listened where
  ucr1 := by rw [control_append hspares (.inl rfl), h.ucr1]
  enabled := by
    rw [h.silent]
    nofun
  ucr2 := by rw [control_append hspares (.inr rfl), h.ucr2]

theorem step_silent (hop : op ≠ .listen) (ht : step hw fuel s op = some t) :
    ∃ rest, t.acts = s.acts ++ rest ∧ Spares configuration rest ∧ t.listened = s.listened := by
  obtain ⟨-, hrun, hlistened⟩ := step_some ht
  obtain ⟨rest, hrest, hspares⟩ := sparing_run hw fuel hop s.acts
  rw [hrun] at hrest
  exact ⟨rest, hrest, hspares, hlistened.trans (listened_after hop)⟩

theorem keeps_silent (h : Intact hw first s) (hop : op ≠ .listen) : Keeps hw fuel first s op := by
  intro _
  refine ⟨fun acts hacts hend => ?_, fun t ht => ?_⟩
  · obtain ⟨rest, rfl, hspares⟩ := spares_on_the_way (sparing_run hw fuel hop) hacts hend
    exact preserved_append h hspares
  · obtain ⟨rest, hacts, hspares, hlistened⟩ := step_silent hop ht
    rw [hacts, hlistened]
    exact preserved_append h hspares

theorem intact_silent (h : Intact hw first s) (hop : op ≠ .listen)
    (ht : step hw fuel s op = some t) : Intact hw first t := by
  obtain ⟨rest, hacts, hspares, hlistened⟩ := step_silent hop ht
  refine ⟨hlistened.trans h.silent, ?_, ?_⟩
  · rw [hacts, control_append hspares (.inl rfl), h.ucr1]
  · rw [hacts, control_append hspares (.inr rfl), h.ucr2]

theorem perform_listen (hw : Hardware) (before : List Act) :
    perform (listen hw) before = (.ok (), before ++
    [.read .ucr2 (hw.device before .ucr2),
      .write .ucr1 (hw.device before .ucr2 ||| (1 : UInt32) <<< 9)]) :=
  congrArg (Prod.mk _) (List.append_assoc before _ _)

theorem listen_ucr1 (hucr2 : hw.control s.acts .ucr2 = 0x4027) (hallowed : Op.listen.Allowed s) :
    ∃ t, step hw fuel s .listen = some t ∧ hw.control t.acts .ucr1 = 0x4227 := by
  have hread : hw.device s.acts .ucr2 = 0x4027 := by
    show hw.control s.acts .ucr2 ||| (hw.reads s.acts .ucr2 &&& 1) = _
    rw [hucr2]
    rcases and_one_cases (hw.reads s.acts .ucr2) with h | h
    · rw [h]
      decide
    · rw [h]
      decide
  have hrun : perform (Op.listen.run hw fuel) s.acts =
      (.ok (), s.acts ++ [.read .ucr2 0x4027, .write .ucr1 0x4227]) := by
    have hlisten := perform_listen hw s.acts
    rw [hread] at hlisten
    exact hlisten
  have hstep : step hw fuel s .listen = some { s with
      acts := s.acts ++ [.read .ucr2 0x4027, .write .ucr1 0x4227]
      listened := true } := by
    unfold step
    rw [if_pos hallowed, hrun]
    rfl
  exact ⟨_, hstep, stored_append Register.ucr1 _ s.acts _⟩

theorem not_keeps_listen (hfirst : hw.control first .ucr1 = 1) (h : Intact hw first s)
    (hucr2 : hw.control first .ucr2 = 0x4027) (hallowed : Op.listen.Allowed s) :
    ¬Keeps hw fuel first s .listen := by
  intro hkeeps
  have hlisten : ∃ t, step hw fuel s .listen = some t ∧ hw.control t.acts .ucr1 = 0x4227 :=
    listen_ucr1 (h.ucr2.trans hucr2) hallowed
  obtain ⟨t, ht, hucr1⟩ := hlisten
  have hpreserved := ((hkeeps hallowed).2 t ht).ucr1
  rw [hucr1, hfirst] at hpreserved
  exact absurd hpreserved (by decide)

/-- What the initialization leaves, before the first operation. -/
def start (hw : Hardware) (hostIsMacos : Bool) (fuel : ℕ) (before : List Act) (uart2 : Bool) :
    State where
  acts := (perform (init hw hostIsMacos fuel) before).2
  statics := ⟨.never, uart2⟩
  held := false
  listened := false

/-- The configuration that the initialization leaves is kept throughout a run exactly if the run
calls `listen` nowhere. -/
theorem keeps_iff_silent (hw : Hardware) (hostIsMacos : Bool) (fuel rounds : ℕ) (before : List Act)
    (uart2 : Bool) (hinit : (perform (init hw hostIsMacos rounds) before).1 = .ok ())
    (ops : List Op) :
    Along (step hw fuel) (Keeps hw fuel (start hw hostIsMacos rounds before uart2).acts) ops
        (start hw hostIsMacos rounds before uart2) ↔
      Along (step hw fuel) Silent ops (start hw hostIsMacos rounds before uart2) := by
  have hintact : Intact hw (start hw hostIsMacos rounds before uart2).acts
      (start hw hostIsMacos rounds before uart2) := ⟨rfl, rfl, rfl⟩
  have hucr1 : hw.control (start hw hostIsMacos rounds before uart2).acts .ucr1 = 1 :=
    stored_of_leaves (init_leaves hw rounds (configure_ucr1 hostIsMacos)) hinit
  have hucr2 : hw.control (start hw hostIsMacos rounds before uart2).acts .ucr2 = 0x4027 :=
    stored_of_leaves (init_leaves hw rounds (configure_ucr2 hostIsMacos)) hinit
  generalize (start hw hostIsMacos rounds before uart2).acts = first at *
  have hstep : ∀ s op t, Intact hw first s → Silent s op → step hw fuel s op = some t →
      Intact hw first t := by
    intro s op t hs hsilent ht
    exact intact_silent hs (fun hop => hsilent ⟨hop, (step_some ht).1⟩) ht
  have hkeeps : ∀ s op, Intact hw first s → Silent s op → Keeps hw fuel first s op := by
    intro s op hs hsilent hallowed
    exact keeps_silent hs (fun hop => hsilent ⟨hop, hallowed⟩) hallowed
  have hsilent : ∀ s op, Intact hw first s → Keeps hw fuel first s op → Silent s op := by
    rintro s op hs hkeeps ⟨rfl, hallowed⟩
    exact not_keeps_listen hucr1 hs hucr2 hallowed hkeeps
  constructor
  · exact along_of_invariant (fun s op t hs hk => hstep s op t hs (hsilent s op hs hk)) hsilent
      ops hintact
  · exact along_of_invariant hstep hkeeps ops hintact

/-- A transmitter that is always ready, a receiver with a byte, and no reset under way. -/
def idle : Hardware := ⟨fun _ => 0, fun _ _ => 0xFFFF_FFFF⟩

theorem keeps_iff_silent_idle : (perform (init idle false 1) []).1 = .ok () ∧
    Along (step idle 1) Silent [.take, .writeAll [0x68, 0x69], .tryRead]
      (start idle false 1 [] false) ∧
    Along (step idle 1) (Keeps idle 1 (start idle false 1 [] false).acts)
      [.take, .writeAll [0x68, 0x69], .tryRead] (start idle false 1 [] false) := by
  have hsilent : Along (step idle 1) Silent [.take, .writeAll [0x68, 0x69], .tryRead]
      (start idle false 1 [] false) :=
    ⟨by simp [Silent], fun _ _ => ⟨by simp [Silent], fun _ _ => ⟨by simp [Silent],
      fun _ _ => trivial⟩⟩⟩
  exact ⟨by rfl, hsilent,
    (keeps_iff_silent idle false 1 1 [] false (by rfl) _).mpr hsilent⟩

/-- With the handle, `listen` copies `UCR2` into `UCR1`. -/
theorem listen_overwrites : (perform (init idle false 1) []).1 = .ok () ∧
    idle.control (start idle false 1 [] false).acts .ucr1 = 1 ∧
    ∃ s, exec (step idle 1) [.take, .listen] (start idle false 1 [] false) = some s ∧
      idle.control s.acts .ucr1 = 0x4227 ∧
      ¬Preserved idle (start idle false 1 [] false).acts s.acts s.listened := by
  refine ⟨by rfl, by rfl, _, rfl, by rfl, ?_⟩
  intro h
  exact absurd h.ucr1 (by decide)

end UsbArmory.Serial.Listening
