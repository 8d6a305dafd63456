import UsbArmory.Library.Bits
import UsbArmory.Library.Handout

/-!
# The LEDs

An LED is lit while its bit in the data register of GPIO4 is clear. Each call
reads the register and then writes it back; contexts that preempt each other
between the two lose no update, because only the owner of the handle calls.
-/

set_option autoImplicit false

namespace UsbArmory.Runtime.Leds
open UsbArmory.Library.Bits UsbArmory.Library.Run UsbArmory.Library.Handout

abbrev Word := BitVec 32

inductive Led where
  | blue
  | white
  deriving DecidableEq, Repr

def Led.bit : Led → ℕ
  | .blue => 22
  | .white => 21

def Led.mask (led : Led) : Word := Library.Bits.mask 32 led.bit

inductive Op where
  | off
  | on
  | toggle
  deriving DecidableEq, Repr

def Op.value (led : Led) (old : Word) : Op → Word
  | .off => old ||| led.mask
  | .on => old &&& ~~~led.mask
  | .toggle => if old &&& led.mask = 0 then old ||| led.mask else old &&& ~~~led.mask

/-- `usbarmory_rt::leds::set`, before the program starts. -/
def set (blue white : Bool) (dr : Word) : Word :=
  let dr := if blue then dr &&& ~~~Led.blue.mask else dr ||| Led.blue.mask
  if white then dr &&& ~~~Led.white.mask else dr ||| Led.white.mask

inductive Access where
  | load
  | save (led : Led) (op : Op)
  deriving DecidableEq, Repr

/-- What an access does to the local variable and to the register. -/
def act : Access → Word × Word → Word × Word
  | .load, (_, dr) => (dr, dr)
  | .save led op, (old, _) => (old, op.value led old)

structure Call where
  led : Led
  op : Op
  deriving DecidableEq, Repr

def Call.accesses (call : Call) : List Access := [.load, .save call.led call.op]

def program (calls : List Call) : List Access := calls.flatMap Call.accesses

/-- The register behind some calls that nothing comes between. -/
def written (calls : List Call) (dr : Word) : Word :=
  calls.foldl (fun dr call => call.op.value call.led dr) dr

def lit (dr : Word) (led : Led) : Bool := !dr.getLsbD led.bit

def Op.result : Op → Bool → Bool
  | .off, _ => false
  | .on, _ => true
  | .toggle, b => !b

def after (calls : List Call) (led : Led) (b : Bool) : Bool :=
  calls.foldl (fun b call => if call.led = led then call.op.result b else b) b

variable {led : Led} {calls : List Call} {dr : Word} {s : State Word Access Word}

theorem bit_lt (led : Led) : led.bit < 32 := by cases led <;> decide

theorem bit_inj {led led' : Led} : led.bit = led'.bit ↔ led = led' := by
  cases led <;> cases led' <;> decide

theorem lit_value (led led' : Led) (op : Op) (old : Word) : lit (op.value led old) led' =
    if led = led' then op.result (lit old led') else lit old led' := by
  have hset : (old ||| led.mask).getLsbD led'.bit =
      (old.getLsbD led'.bit || decide (led = led')) := by
    rw [Led.mask, getLsbD_set (bit_lt led), decide_eq_decide.mpr bit_inj]
  have hclear : (old &&& ~~~led.mask).getLsbD led'.bit =
      (old.getLsbD led'.bit && decide (led ≠ led')) := by
    rw [Led.mask, getLsbD_clear, decide_eq_decide.mpr (not_congr bit_inj)]
  unfold lit
  cases op with
  | off =>
    rw [Op.value, hset]
    by_cases h : led = led' <;> simp [h, Op.result]
  | on =>
    rw [Op.value, hclear]
    by_cases h : led = led' <;> simp [h, Op.result]
  | toggle =>
    rw [Op.value]
    split
    next hzero =>
      have hbit : old.getLsbD led.bit = false := getLsbD_of_and_mask (not_not.mpr hzero)
      rw [hset]
      by_cases h : led = led'
      · subst h
        simp [Op.result, hbit]
      · simp [h]
    next hone =>
      have hbit : old.getLsbD led.bit = true := (and_mask_ne_zero old led.bit).mp hone
      rw [hclear]
      by_cases h : led = led'
      · subst h
        simp [Op.result, hbit]
      · simp [h]

theorem value_other (op : Op) (old : Word) {i : ℕ} (hi : led.bit ≠ i) :
    (op.value led old).getLsbD i = old.getLsbD i := by
  have hset : (old ||| led.mask).getLsbD i = old.getLsbD i := by
    rw [Led.mask, getLsbD_set (bit_lt led), decide_eq_false hi, Bool.or_false]
  have hclear : (old &&& ~~~led.mask).getLsbD i = old.getLsbD i := by
    rw [Led.mask, getLsbD_clear, decide_eq_true hi, Bool.and_true]
  cases op with
  | off => exact hset
  | on => exact hclear
  | toggle =>
    rw [Op.value]
    split
    · exact hset
    · exact hclear

theorem lit_set (blue white : Bool) (dr : Word) :
    lit (set blue white dr) .blue = blue ∧ lit (set blue white dr) .white = white := by
  have hset : set blue white dr = Op.value .white (Op.value .blue dr (if blue then .on else .off))
      (if white then .on else .off) := by
    cases blue <;> cases white <;> rfl
  rw [hset, lit_value, lit_value, lit_value]
  cases blue <;> cases white <;> exact ⟨rfl, rfl⟩

theorem lit_written (calls : List Call) (dr : Word) (led : Led) :
    lit (written calls dr) led = after calls led (lit dr led) := by
  induction calls generalizing dr with
  | nil => rfl
  | cons call calls ih =>
    show lit (written calls (call.op.value call.led dr)) led = _
    rw [ih, lit_value]
    rfl

theorem written_other (calls : List Call) (dr : Word) {i : ℕ} (hi : ∀ led : Led, led.bit ≠ i) :
    (written calls dr).getLsbD i = dr.getLsbD i := by
  induction calls generalizing dr with
  | nil => rfl
  | cons call calls ih => exact (ih _).trans (value_other call.op dr (hi call.led))

theorem doWork_program (calls : List Call) (own dr : Word) :
    (doWork act (program calls) (own, dr)).2 = written calls dr := by
  induction calls generalizing own dr with
  | nil => rfl
  | cons call calls ih => exact ih dr _

theorem program_prefix {done todo : List Access} (h : done ++ todo = program calls) :
    ∃ part rest, calls = part ++ rest ∧ (done = program part ∨ done = program part ++ [.load]) := by
  induction calls generalizing done with
  | nil => exact ⟨[], [], rfl, .inl (List.append_eq_nil_iff.mp h).1⟩
  | cons call calls ih =>
    match done, h with
    | [], _ => exact ⟨[], call::calls, rfl, .inl rfl⟩
    | [first], h =>
      cases (List.cons.inj h).1
      exact ⟨[], call::calls, rfl, .inr rfl⟩
    | first::second::done, h =>
      have hboth : first::second::(done ++ todo) = .load::.save call.led call.op::program calls := h
      injection hboth with hfirst hrest
      injection hrest with hsecond hrest
      subst hfirst hsecond
      obtain ⟨part, rest, rfl, hdone⟩ := ih hrest
      refine ⟨call::part, rest, rfl, hdone.imp ?_ ?_⟩
      · rintro rfl
        rfl
      · rintro rfl
        rfl

theorem doWork_prefix {done : List Access} {part : List Call} (own dr : Word)
    (h : done = program part ∨ done = program part ++ [.load]) :
    (doWork act done (own, dr)).2 = written part dr := by
  rcases h with rfl | rfl
  · exact doWork_program part own dr
  · rw [doWork_append]
    exact doWork_program part own dr

theorem written_append (calls rest : List Call) (dr : Word) :
    written (calls ++ rest) dr = written rest (written calls dr) := List.foldl_append

theorem serial_program {works : List (ℕ × List Access)}
    (h : ∀ work ∈ works, ∃ calls, work.2 = program calls) (dr : Word) :
    ∃ whole, works.flatMap Prod.snd = program whole ∧ serial act 0 works dr = written whole dr := by
  induction works generalizing dr with
  | nil => exact ⟨[], rfl, rfl⟩
  | cons work works ih =>
    obtain ⟨calls, hcalls⟩ := h work List.mem_cons_self
    obtain ⟨whole, hwhole, hserial⟩ :=
      ih (fun w hw => h w (List.mem_cons_of_mem _ hw)) (doWork act work.2 (0, dr)).2
    refine ⟨calls ++ whole, ?_, ?_⟩
    · rw [List.flatMap_cons, hwhole, hcalls]
      exact List.flatMap_append.symm
    · show serial act 0 works (doWork act work.2 (0, dr)).2 = _
      rw [hserial, hcalls, doWork_program, written_append]

/-- One context at most has the handle. The LEDs are what the calls make of them: those of the
contexts that gave the handle back, in this order, and those that the owner has made so far. The
other bits of the register are as before. -/
structure Follows (dr : Word) (s : State Word Access Word) : Prop where
  one : ∀ t u, (s.lives t).Owns → (s.lives u).Owns → t = u
  calls : ∃ whole part, s.released.flatMap Prod.snd = program whole ∧
    (∀ t done own todo, s.lives t = .working done own todo →
      (∃ rest, done ++ todo = program (part ++ rest)) ∧
        (done = program part ∨ done = program part ++ [.load])) ∧
    ((∀ t, ¬(s.lives t).Uses) → part = []) ∧
    (∀ led, lit s.device led = after (whole ++ part) led (lit dr led)) ∧
    ∀ i, (∀ led : Led, led.bit ≠ i) → s.device.getLsbD i = dr.getLsbD i

theorem leds_follow (gpio4 : Bool) (dr : Word) (es : List (Event Access))
    (hcalls : ∀ t work, .call t work ∈ es → ∃ calls, work = program calls)
    (s : State Word Access Word)
    (h : exec (step act 0) es (start gpio4 dr) = some s) : Follows dr s := by
  have hserial := serial_reachable ⟨es, h⟩
  have hcalled := called_run es h
  have hworks : ∀ work ∈ s.released, ∃ calls, work.2 = program calls := by
    intro work hin
    have hover := (hserial.released work.1 work.2).mp hin
    exact hcalls work.1 work.2 (hcalled work.1 work.2 (by rw [hover]; rfl))
  obtain ⟨whole, hwhole, hwritten⟩ := serial_program hworks dr
  refine ⟨hserial.one, ?_⟩
  suffices hpart : ∃ part, (∀ t done own todo, s.lives t = .working done own todo →
      (∃ rest, done ++ todo = program (part ++ rest)) ∧
        (done = program part ∨ done = program part ++ [.load])) ∧
      ((∀ t, ¬(s.lives t).Uses) → part = []) ∧ s.device = written (whole ++ part) dr by
    obtain ⟨part, howner, hidle, hdevice⟩ := hpart
    refine ⟨whole, part, hwhole, howner, hidle, fun led => ?_, fun i hi => ?_⟩
    · rw [hdevice, lit_written]
    · rw [hdevice, written_other _ _ hi]
  by_cases hidle : ∀ t, ¬(s.lives t).Uses
  · refine ⟨[], fun t done own todo hlife => ?_, fun _ => rfl, ?_⟩
    · exact absurd (by rw [hlife]; trivial) (hidle t)
    · rw [hserial.rest hidle, hwritten, List.append_nil]
  · obtain ⟨t, huses⟩ := not_forall_not.mp hidle
    cases hlife : s.lives t with
    | working done own todo =>
      have hwork : (s.lives t).work = some (done ++ todo) := by
        rw [hlife]
        rfl
      obtain ⟨calls, hprogram⟩ := hcalls t _ (hcalled t _ hwork)
      obtain ⟨part, rest, rfl, hdone⟩ := program_prefix hprogram
      have hdoing := hserial.doing t done own todo hlife
      refine ⟨part, fun u done' own' todo' hu => ?_, fun hnone => absurd huses (hnone t), ?_⟩
      · obtain rfl := hserial.one u t (by rw [hu]; trivial) (by rw [hlife]; trivial)
        cases hlife.symm.trans hu
        exact ⟨⟨rest, hprogram⟩, hdone⟩
      · have hdevice : s.device = (doWork act done (0, serial act 0 s.released dr)).2 :=
          congrArg Prod.snd hdoing
        rw [hdevice, doWork_prefix _ _ hdone, hwritten, written_append]
    | _ =>
      rw [hlife] at huses
      exact huses.elim

/-- Two contexts toggle the blue LED, the second one while the first has loaded the register. -/
def toggles : List (Event Access) :=
  [.call 0 (program [⟨.blue, .toggle⟩]), .step 0, .step 0, .step 0, .step 0,
    .call 1 (program [⟨.blue, .toggle⟩]), .step 1, .step 1, .step 0, .step 0]

theorem leds_follow_toggles :
    ∃ s, exec (step act 0) toggles (start false (set false true 0)) = some s ∧
    Follows (set false true 0) s := by
  refine ⟨_, rfl, leds_follow false (set false true 0) toggles ?_ _ rfl⟩
  intro t work hin
  refine ⟨[⟨.blue, .toggle⟩], ?_⟩
  simp only [toggles, List.mem_cons, Event.call.injEq, reduceCtorEq, false_or, List.not_mem_nil,
    or_false] at hin
  rcases hin with ⟨-, rfl⟩ | ⟨-, rfl⟩ <;> rfl

end UsbArmory.Runtime.Leds
