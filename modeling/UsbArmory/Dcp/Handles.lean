import UsbArmory.Library.Run
import Mathlib.Logic.Function.Basic

/-!
# The handles of the data co-processor

The constructors of the three kinds of handle, and their `Drop`, as steps of
contexts that preempt each other; `dcp::init` is part of each constructor. A
weak exchange may fail where it need not. Every handle's life has a number of
its own. The runs allow more interleavings than preemption does.
-/

set_option autoImplicit false

namespace UsbArmory.Dcp.Handles
open UsbArmory.Library.Run

inductive Kind where
  | sha
  | hw
  | ram
  deriving DecidableEq

inductive Ctor where
  | take
  | newUnique
  | newOtp
  | new (key : Vector (BitVec 8) 16)

def Ctor.kind : Ctor → Kind
  | .take => .sha
  | .newUnique => .hw
  | .newOtp => .hw
  | .new _ => .ram

inductive RegWrite where
  | context
  | channelctrlSet (bits : BitVec 32)
  | channelctrlClr (bits : BitVec 32)
  | key (bits : BitVec 32)
  | keydata (bits : BitVec 32)
  deriving DecidableEq

/-- `u32::from_le_bytes` -/
def fromLeBytes (b₀ b₁ b₂ b₃ : BitVec 8) : BitVec 32 := b₃ ++ b₂ ++ b₁ ++ b₀

/-- The register writes of a constructor after `init`. -/
def Ctor.writes : Ctor → List RegWrite
  | .take => [.channelctrlSet (1 <<< 2)]
  | .newUnique => [.channelctrlSet (1 <<< 3)]
  | .newOtp => [.channelctrlSet (1 <<< 3)]
  | .new key => [.key (1 <<< 6), .keydata (fromLeBytes key[0] key[1] key[2] key[3]),
      .keydata (fromLeBytes key[4] key[5] key[6] key[7]),
      .keydata (fromLeBytes key[8] key[9] key[10] key[11]),
      .keydata (fromLeBytes key[12] key[13] key[14] key[15]),
      .channelctrlSet (1 <<< 1 ||| 1 <<< 3)]

/-- Where a constructor is: at its two exchanges, inside `init`, at the OTP
check, or with these register writes left. -/
inductive Pc where
  | claim
  | exchange
  | takeDcp
  | version
  | capability
  | context
  | otpReady
  | setup (todo : List RegWrite)

def Ctor.afterInit (c : Ctor) : Pc :=
  if c.kind = .hw then .otpReady else .setup c.writes

inductive Life where
  | none
  | building (c : Ctor) (pc : Pc)
  | held (c : Ctor)
  | clearing (c : Ctor)
  | releasing (c : Ctor)

structure State where
  inUse : Kind → Bool
  initialized : Bool
  dcpTaken : Bool
  checked : Bool
  written : List RegWrite
  lives : ℕ → Life

structure Chip where
  version : BitVec 32
  capability1 : BitVec 32

def Chip.supported (chip : Chip) : Prop := chip.version = 1 <<< 25 ||| 1 <<< 16

def Chip.capable (chip : Chip) : Prop :=
  chip.capability1 &&& 1 ≠ 0 ∧ chip.capability1 &&& 1 <<< 18 ≠ 0

instance (chip : Chip) : Decidable chip.supported := inferInstanceAs (Decidable (_ = _))

instance (chip : Chip) : Decidable chip.capable := inferInstanceAs (Decidable (_ ∧ _))

inductive Event where
  | call (t : ℕ) (c : Ctor)
  | step (t : ℕ) (choice : Bool)
  | drop (t : ℕ)

def State.set (s : State) (t : ℕ) (life : Life) : State :=
  { s with lives := Function.update s.lives t life }

def State.write (s : State) (w : RegWrite) : State := { s with written := s.written ++ [w] }

/-- `compare_exchange_weak(false, true, ..).is_ok()` -/
def exchanges (flag spurious : Bool) : Bool := !flag && !spurious

/-- A constructor that finds its channel in use returns `None`; `new` panics. -/
def refuse (s : State) (t : ℕ) : Ctor → Option State
  | .new _ => Option.none
  | _ => some (s.set t .none)

/-- One step of a constructor. The choice is a spurious failure of an exchange,
or that the OTP key is ready in time; a panic or a reset ends the run. -/
def build (chip : Chip) (s : State) (t : ℕ) (c : Ctor) (choice : Bool) : Pc → Option State
  | .claim =>
    if exchanges (s.inUse c.kind) choice then
      some ({ s with inUse := Function.update s.inUse c.kind true }.set t (.building c .exchange))
    else refuse s t c
  | .exchange =>
    if exchanges s.initialized choice then
      some ({ s with initialized := true }.set t (.building c .takeDcp))
    else some (s.set t (.building c c.afterInit))
  | .takeDcp =>
    if s.dcpTaken then Option.none
    else some ({ s with dcpTaken := true }.set t (.building c .version))
  | .version =>
    if chip.supported then some (s.set t (.building c .capability)) else Option.none
  | .capability =>
    if chip.capable then some ({ s with checked := true }.set t (.building c .context))
    else Option.none
  | .context => some ((s.write .context).set t (.building c c.afterInit))
  | .otpReady => if choice then some (s.set t (.building c (.setup c.writes))) else Option.none
  | .setup (w::todo) => some ((s.write w).set t (.building c (.setup todo)))
  | .setup [] => some (s.set t (.held c))

def step (chip : Chip) (s : State) : Event → Option State
  | .call t c =>
    match s.lives t with
    | .none => some (s.set t (.building c .claim))
    | _ => Option.none
  | .step t choice =>
    match s.lives t with
    | .building c pc => build chip s t c choice pc
    | .clearing c => some ((s.write (.channelctrlClr (1 <<< 2))).set t (.releasing c))
    | .releasing c =>
      some ({ s with inUse := Function.update s.inUse c.kind false }.set t .none)
    | _ => Option.none
  | .drop t =>
    match s.lives t with
    | .held c => some (s.set t (if c.kind = .sha then .clearing c else .releasing c))
    | _ => Option.none

/-- The program starts without handles; the application may have taken the DCP
peripheral itself. -/
def start (dcpTaken : Bool) : State :=
  { inUse := fun _ => false, initialized := false, dcpTaken := dcpTaken, checked := false,
    written := [], lives := fun _ => .none }

/-- The checks have been made, and `init` has run to its end once. -/
def Initialized (s : State) : Prop := s.checked = true ∧ s.written.count .context = 1

def Live (s : State) (k : Kind) : Prop := ∃ t c, s.lives t = .held c ∧ c.kind = k

/-- Inside `init`, after its exchange. -/
def Life.inInit : Life → Bool
  | .building _ .takeDcp => true
  | .building _ .version => true
  | .building _ .capability => true
  | .building _ .context => true
  | _ => false

/-- A constructor of the kind has its channel but has not returned, or the drop
of a handle is on its way. -/
def Life.between (k : Kind) : Life → Bool
  | .building _ .claim => false
  | .building c _ => decide (c.kind = k)
  | .clearing c => decide (c.kind = k)
  | .releasing c => decide (c.kind = k)
  | _ => false

/-- A handle is returned when the DCP is initialized, and a constructor reports
its channel as in use when there is another live handle of the kind. -/
def Good (s : State) : Event → Prop
  | .step t choice =>
    match s.lives t with
    | .building c .claim => exchanges (s.inUse c.kind) choice = false → Live s c.kind
    | .building _ (.setup []) => Initialized s
    | _ => True
  | _ => True

/-- No exchange fails spuriously, and none is made while another constructor
(or the drop of a handle of the kind) is at work between the two ends that the
flag stands for. -/
def Orderly (s : State) : Event → Prop
  | .step t choice =>
    match s.lives t with
    | .building c .claim => (s.inUse c.kind = false → choice = false) ∧
        ∀ t', (s.lives t').between c.kind = false
    | .building _ .exchange => (s.initialized = false → choice = false) ∧
        ∀ t', (s.lives t').inInit = false
    | _ => True
  | _ => True

end UsbArmory.Dcp.Handles
