import UsbArmory.Library.Handout
import UsbArmory.Serial.Listening

/-!
# Printing to the serial interface

The macros take the handle, write a message and give the handle back. Contexts
that preempt each other print whole messages or none.
-/

set_option autoImplicit false

namespace UsbArmory.Serial.Printing
open UsbArmory.Library.Binary UsbArmory.Library.Trace UsbArmory.Library.Registers
open UsbArmory.Library.Run UsbArmory.Library.Handout
open UsbArmory.Serial.Uart
open UsbArmory.Serial.Listening hiding start step

/-- `print!`: the bytes of the text. -/
def print (s : String) : List UInt8 := s.toUTF8.data.toList

def println (s : String) : List UInt8 := print (s ++ "\n")

/-- A byte that is written when the transmitter is ready. -/
def put (byte : UInt8) : Unit × List UInt8 → Unit × List UInt8
  | (_, wire) => ((), wire ++ [byte])

def transmitted : List Act → List UInt8
  | [] => []
  | .write .utxd v::acts => v.toUInt8::transmitted acts
  | _::acts => transmitted acts

abbrev System := State Unit UInt8 (List UInt8)

def abstractMark : Owner → Mark
  | .never => .never
  | .taken => .taken
  | .free => .free

/-- The system with these statics, and a context that is about to take the handle. -/
def calling (s : Statics) (t : ℕ) (message wire : List UInt8) : System :=
  State.set ⟨abstractMark s.state, s.uart2, s.uart2, wire, fun _ => .idle, []⟩ t (.loading message)

theorem take_alone (s : Statics) (t : ℕ) (message wire : List UInt8) : ∃ n,
    (exec (step put ()) (List.replicate n (.step t)) (calling s t message wire)).map
      (fun s' => (s'.lives t, s'.mark, s'.seized)) =
      some (if (take s).1 then .working [] () message else .ended message false,
        abstractMark (take s).2.state, (take s).2.uart2) := by
  obtain ⟨state, uart2⟩ := s
  cases state with
  | never =>
    refine ⟨3, ?_⟩
    cases uart2 <;> simp [exec, step, advance, calling, abstractMark, take, State.set]
  | taken => exact ⟨2, by simp [exec, step, advance, calling, abstractMark, take, State.set]⟩
  | free => exact ⟨2, by simp [exec, step, advance, calling, abstractMark, take, State.set]⟩

theorem transmitted_append (acts rest : List Act) :
    transmitted (acts ++ rest) = transmitted acts ++ transmitted rest := by
  induction acts with
  | nil => rfl
  | cons act acts ih =>
    cases act with
    | read r v => exact ih
    | write r v =>
      cases r with
      | utxd => exact congrArg (v.toUInt8::·) ih
      | _ => exact ih

theorem does_poll (hw : Hardware) (done : UInt32 → Bool) (fuel : ℕ) :
    Does (poll hw.device .usr1 done fuel : Io Unit) fun acts _ => transmitted acts = [] := by
  induction fuel with
  | zero => exact does_throw rfl
  | succ fuel ih =>
    refine does_bind (does_operation (Q := fun acts _ => transmitted acts = []) fun _ => rfl)
      (fun _ _ h => h) fun v acts hacts => ?_
    split
    · exact does_pure (by rw [List.append_nil]; exact hacts)
    · exact ih.imp fun rest _ hrest => by rw [transmitted_append, hacts, hrest, List.append_nil]

/-- The bytes come to the transmitter in order, and all of them where the call returns. -/
theorem does_writeAll (hw : Hardware) (fuel : ℕ) (bytes : List UInt8) :
    Does (writeAll hw fuel bytes) fun acts r => transmitted acts <+: bytes ∧
      (r.isOk = true → transmitted acts = bytes) := by
  induction bytes with
  | nil => exact does_pure ⟨List.prefix_rfl, fun _ => rfl⟩
  | cons byte bytes ih =>
    have hwrite : Does (write hw fuel byte) fun acts r =>
        (r.isOk = false ∧ transmitted acts = []) ∨ (r.isOk = true ∧ transmitted acts = [byte]) := by
      refine does_bind (does_poll hw _ fuel) (fun _ _ h => .inl ⟨rfl, h⟩) fun _ acts hacts => ?_
      refine does_operation fun _ => .inr ⟨rfl, ?_⟩
      rw [transmitted_append, hacts]
      exact congrArg ([·]) byte.toUInt8_toUInt32
    refine does_bind hwrite ?_ fun _ acts hacts => ih.imp fun rest r hrest => ?_
    · rintro acts stop (⟨-, hnone⟩ | ⟨hok, -⟩)
      · rw [hnone]
        exact ⟨List.nil_prefix, nofun⟩
      · cases hok
    · obtain ⟨hfail, -⟩ | ⟨-, hone⟩ := hacts
      · cases hfail
      · rw [transmitted_append, hone]
        exact ⟨(List.prefix_cons_inj byte).mpr hrest.1, fun hok => congrArg (byte::·) (hrest.2 hok)⟩

theorem doWork_put (message wire : List UInt8) :
    doWork put message ((), wire) = ((), wire ++ message) := by
  induction message generalizing wire with
  | nil => rw [List.append_nil]; rfl
  | cons byte message ih =>
    show doWork put message ((), wire ++ [byte]) = _
    rw [ih, List.append_assoc, List.singleton_append]

theorem serial_put (works : List (ℕ × List UInt8)) (wire : List UInt8) :
    serial put () works wire = wire ++ works.flatMap Prod.snd := by
  induction works generalizing wire with
  | nil => exact (List.append_nil wire).symm
  | cons work works ih =>
    show serial put () works (doWork put work.2 ((), wire)).2 = _
    rw [doWork_put, ih, List.append_assoc, List.flatMap_cons]

/-- One context at most has the handle. What has been transmitted behind `wire` are the whole
messages of those that gave it back, in this order, and what the owner has written so far. Each
message is that of a call, and a call goes without the handle only if another one has it, or
somebody else has taken UART2. -/
structure Printed (es : List (Event UInt8)) (wire : List UInt8) (s : System) : Prop where
  one : ∀ t u, (s.lives t).Owns → (s.lives u).Owns → t = u
  called : ∀ t message, (s.lives t).work = some message → .call t message ∈ es
  whole : ∀ t message, (t, message) ∈ s.released ↔ s.lives t = .ended message true
  once : (s.released.map Prod.fst).Nodup
  owner : ∀ t done own todo, s.lives t = .working done own todo →
    s.device = wire ++ s.released.flatMap Prod.snd ++ done
  idle : (∀ t, ¬(s.lives t).Uses) → s.device = wire ++ s.released.flatMap Prod.snd
  dropped : ∀ t message s', step put () s (.step t) = some s' → s'.lives t = .ended message false →
    (∃ u, u ≠ t ∧ (s.lives u).Owns) ∨ s.foreign = true

/-- Contexts that preempt each other at any point print whole messages or none. -/
theorem messages_whole (uart2 : Bool) (wire : List UInt8) (es : List (Event UInt8)) (s : System)
    (h : exec (step put ()) es (start uart2 wire) = some s) : Printed es wire s := by
  have hserial := serial_reachable ⟨es, h⟩
  refine ⟨hserial.one, called_run es h, hserial.released, hserial.once, ?_, ?_,
    fun t message s' => hserial.refused⟩
  · intro t done own todo hlife
    have hdoing := hserial.doing t done own todo hlife
    rw [serial_put, doWork_put] at hdoing
    exact congrArg Prod.snd hdoing
  · intro hidle
    rw [hserial.rest hidle, serial_put]

def preempted : List (Event UInt8) :=
  [.call 0 (println "a"), .step 0, .step 0, .step 0, .step 0, .call 1 (print "x"), .step 1, .step 1,
    .step 0, .step 0]

theorem messages_whole_preempted : ∃ s, exec (step put ()) preempted (start false []) = some s ∧
    s.device = println "a" ∧ Printed preempted [] s :=
  ⟨_, rfl, rfl, messages_whole false [] preempted _ rfl⟩

end UsbArmory.Serial.Printing
