import UsbArmory.Library.Word

/-!
# Readers and writers of bytes

A parser takes what it reads from the front of its input and stops with an
error, which alternatives recover from, or with a panic. A parser reads a
value from some bytes when it takes exactly these, whatever follows them.
-/

set_option autoImplicit false

namespace UsbArmory.Library.Binary
open UsbArmory.Library.Word

abbrev ByteString := List UInt8

/-- Why there is no value; `endless` is a loop that does not end. -/
inductive Stop (ε : Type) where
  | error (e : ε)
  | panic (message : String)
  | endless
  deriving DecidableEq, Repr

variable {α β ε δ τ : Type}

def Stop.mapError (f : ε → δ) : Stop ε → Stop δ
  | .error e => .error (f e)
  | .panic message => .panic message
  | .endless => .endless

abbrev Reader (τ α : Type) := StateT (List τ) (Except (Stop Unit)) α

abbrev Parser (α : Type) := Reader UInt8 α

abbrev BitParser (α : Type) := Reader Bool α

def expect {m : Type → Type} [Monad m] [MonadExcept (Stop ε) m] (message : String) :
    Option α → m α
  | some a => pure a
  | none => throw (.panic message)

def ensure {m : Type → Type} [Monad m] [MonadExcept (Stop ε) m] (p : Prop) [Decidable p]
    (message : String) : m Unit :=
  if p then pure () else throw (.panic message)

def tagBytes (bs : ByteString) : Parser ByteString := fun input =>
  if bs.isPrefixOf input then .ok (bs, input.drop bs.length) else .error (.error ())

def beU8 : Parser UInt8
  | b0::rest => .ok (b0, rest)
  | _ => .error (.error ())

def beU16 : Parser UInt16
  | b0::b1::rest => .ok (ofBe16 b0 b1, rest)
  | _ => .error (.error ())

def beU32 : Parser UInt32
  | b0::b1::b2::b3::rest => .ok (ofBe32 b0 b1 b2 b3, rest)
  | _ => .error (.error ())

def leU32 : Parser UInt32
  | b0::b1::b2::b3::rest => .ok (ofLe32 b0 b1 b2 b3, rest)
  | _ => .error (.error ())

def alt (p q : Parser α) : Parser α := fun input =>
  match p.run input with
  | .error (.error ()) => q.run input
  | result => result

def count (p : Parser α) : ℕ → Parser (List α)
  | 0 => pure []
  | n+1 => do
    let a ← p
    let rest ← count p n
    pure (a::rest)

/-- The bits of a byte, the most significant first. -/
def bitsOf (b : UInt8) : List Bool :=
  [7, 6, 5, 4, 3, 2, 1, 0].map b.toNat.testBit

def ofBits (bs : List Bool) : ℕ := bs.foldl (fun n b => 2*n+b.toNat) 0

def takeBits (n : ℕ) : BitParser UInt8 := fun input =>
  if n ≤ input.length then .ok (UInt8.ofNat (ofBits (input.take n)), input.drop n)
  else .error (.error ())

def tagBits (pattern : UInt8) (n : ℕ) : BitParser UInt8 := do
  let b ← takeBits n
  if b = pattern then pure b else throw (.error ())

/-- What is left of a byte that the bit parser has begun is dropped. -/
def bits (p : BitParser α) : Parser α := fun input =>
  match p.run (input.flatMap bitsOf) with
  | .ok (a, rest) => .ok (a, input.drop ((8*input.length-rest.length+7)/8))
  | .error stop => .error stop

def Reads (p : Reader τ α) (bs : List τ) (a : α) : Prop :=
  ∀ rest, p.run (bs ++ rest) = .ok (a, rest)

theorem reads_pure (a : α) : Reads (pure a : Reader τ α) [] a := fun _ => rfl

theorem run_get (f : List τ → Reader τ α) (input : List τ) :
    (get >>= f).run input = (f input).run input := rfl

theorem run_bind_ok {p : Reader τ α} {f : α → Reader τ β} {input rest : List τ} {a : α}
    (hp : p.run input = .ok (a, rest)) : (p >>= f).run input = (f a).run rest := by
  rw [StateT.run_bind, hp]
  rfl

theorem run_bind_error {p : Reader τ α} {f : α → Reader τ β} {input : List τ} {stop : Stop Unit}
    (hp : p.run input = .error stop) : (p >>= f).run input = .error stop := by
  rw [StateT.run_bind, hp]
  rfl

theorem run_expect_some (message : String) (a : α) (f : α → Reader τ β) (input : List τ) :
    ((expect message (some a) : Reader τ α) >>= f).run input = (f a).run input := rfl

theorem run_expect_none (message : String) (f : α → Reader τ β) (input : List τ) :
    ((expect message none : Reader τ α) >>= f).run input = .error (.panic message) := rfl

theorem run_bind_reads {p : Reader τ α} {f : α → Reader τ β} {bs : List τ} {a : α}
    (hp : Reads p bs a) (rest : List τ) : (p >>= f).run (bs ++ rest) = (f a).run rest :=
  run_bind_ok (hp rest)

theorem reads_bind {p : Reader τ α} {f : α → Reader τ β} {bs cs : List τ} {a : α} {b : β}
    (hp : Reads p bs a) (hf : Reads (f a) cs b) : Reads (p >>= f) (bs ++ cs) b := by
  intro rest
  rw [List.append_assoc, run_bind_reads hp]
  exact hf rest

theorem reads_step {p : Reader τ α} {f : α → Reader τ β} {cs : List τ} {a : α} {b : β}
    (hp : Reads p [] a) (hf : Reads (f a) cs b) : Reads (p >>= f) cs b :=
  reads_bind hp hf

theorem reads_last {p : Reader τ α} {f : α → Reader τ β} {bs : List τ} {a : α} {b : β}
    (hp : Reads p bs a) (hf : Reads (f a) [] b) : Reads (p >>= f) bs b := by
  rw [← List.append_nil bs]
  exact reads_bind hp hf

theorem reads_tagBytes (bs : ByteString) : Reads (tagBytes bs) bs bs := by
  intro rest
  have hprefix : bs.isPrefixOf (bs ++ rest) = true :=
    List.isPrefixOf_iff_prefix.mpr (List.prefix_append bs rest)
  show (if bs.isPrefixOf (bs ++ rest) then _ else _) = _
  rw [if_pos hprefix, List.drop_left]

theorem reads_beU16 (x : UInt16) : Reads beU16 (toBe16 x) x := by
  intro rest
  show Except.ok (ofBe16 (x >>> 8).toUInt8 x.toUInt8, rest) = _
  rw [ofBe16_toBe16]

theorem reads_beU32 (x : UInt32) : Reads beU32 (toBe32 x) x := by
  intro rest
  show Except.ok (ofBe32 (x >>> 24).toUInt8 (x >>> 16).toUInt8 (x >>> 8).toUInt8 x.toUInt8,
      rest) = _
  rw [ofBe32_toBe32]

theorem reads_leU32 (x : UInt32) : Reads leU32 (toLe32 x) x := by
  intro rest
  show Except.ok (ofLe32 x.toUInt8 (x >>> 8).toUInt8 (x >>> 16).toUInt8 (x >>> 24).toUInt8,
      rest) = _
  rw [ofLe32_toLe32]

theorem reads_alt {p q : Parser α} {bs : ByteString} {a : α} (h : Reads p bs a) :
    Reads (alt p q) bs a := by
  intro rest
  show (match p.run (bs ++ rest) with
    | .error (.error ()) => q.run (bs ++ rest)
    | result => result) = _
  rw [h rest]

theorem reads_alt_right {p q : Parser α} {bs : ByteString} {a : α}
    (hp : ∀ rest, p.run (bs ++ rest) = .error (.error ())) (hq : Reads q bs a) :
    Reads (alt p q) bs a := by
  intro rest
  show (match p.run (bs ++ rest) with
    | .error (.error ()) => q.run (bs ++ rest)
    | result => result) = _
  rw [hp rest]
  exact hq rest

theorem reads_count {p : Parser α} {enc : α → ByteString} (h : ∀ a, Reads p (enc a) a)
    (as : List α) :
    Reads (count p as.length) (as.flatMap enc) as := by
  induction as with
  | nil => exact reads_pure []
  | cons a as ih => exact reads_bind (h a) (reads_last ih (reads_pure _))

theorem reads_expect {message : String} {v : Option α} {a : α} (h : v = some a) :
    Reads (expect message v : Reader τ α) [] a := by
  intro rest
  rw [h]
  rfl

theorem reads_ensure {message : String} {p : Prop} [Decidable p] (h : p) :
    Reads (ensure p message : Reader τ Unit) [] () := by
  intro rest
  unfold ensure
  rw [if_pos h]
  rfl

theorem reads_takeBits (bs : List Bool) :
    Reads (takeBits bs.length) bs (UInt8.ofNat (ofBits bs)) := by
  intro rest
  have hlen : bs.length ≤ (bs ++ rest).length := by simp
  show (if bs.length ≤ (bs ++ rest).length then _ else _) = _
  rw [if_pos hlen, List.take_left, List.drop_left]

theorem reads_tagBits (bs : List Bool) :
    Reads (tagBits (UInt8.ofNat (ofBits bs)) bs.length) bs (UInt8.ofNat (ofBits bs)) := by
  refine reads_last (reads_takeBits bs) ?_
  rw [if_pos rfl]
  exact reads_pure _

theorem reads_bits {p : BitParser α} {b : UInt8} {a : α} (h : Reads p (bitsOf b) a) :
    Reads (bits p) [b] a := by
  intro rest
  show (match p.run (bitsOf b ++ rest.flatMap bitsOf) with
    | .ok (a, left) => Except.ok (a, (b::rest).drop ((8*(b::rest).length-left.length+7)/8))
    | .error stop => .error stop) = _
  rw [h (rest.flatMap bitsOf)]
  have hlen : (rest.flatMap bitsOf).length = 8*rest.length := by
    simp [List.length_flatMap, bitsOf, List.map_const', Nat.mul_comm]
  have hone : (8*(b::rest).length-(rest.flatMap bitsOf).length+7)/8 = 1 := by
    rw [hlen, List.length_cons]
    omega
  show Except.ok (a, (b::rest).drop ((8*(b::rest).length-(rest.flatMap bitsOf).length+7)/8)) = _
  rw [hone]
  rfl

theorem bits_error {p : BitParser α} {input : ByteString} {stop : Stop Unit}
    (h : p.run (input.flatMap bitsOf) = .error stop) : (bits p).run input = .error stop := by
  show bits p input = _
  unfold bits
  rw [h]

abbrev Writer (α : Type) := StateT ByteString (Except (Stop Empty)) α

def writeAll (bs : ByteString) : Writer Unit := fun w => .ok ((), w ++ bs)

def Writes (p : Writer Unit) (bs : ByteString) : Prop := ∀ w, p.run w = .ok ((), w ++ bs)

theorem writes_all (bs : ByteString) : Writes (writeAll bs) bs := fun _ => rfl

theorem writes_seq {p q : Writer Unit} {bs cs : ByteString} (hp : Writes p bs) (hq : Writes q cs) :
    Writes (do p; q) (bs ++ cs) := by
  intro w
  rw [StateT.run_bind, hp w, ← List.append_assoc]
  exact hq (w ++ bs)

theorem writes_lift {x : Except (Stop Empty) α} {a : α} {f : α → Writer Unit} {bs : ByteString}
    (hx : x = .ok a) (h : Writes (f a) bs) : Writes ((liftM x : Writer α) >>= f) bs := by
  intro w
  rw [hx]
  exact h w

theorem writes_forM {p : α → Writer Unit} {enc : α → ByteString} (h : ∀ a, Writes (p a) (enc a))
    (as : List α) : Writes (as.forM p) (as.flatMap enc) := by
  induction as with
  | nil =>
    intro w
    rw [List.flatMap_nil, List.append_nil]
    rfl
  | cons a as ih => exact writes_seq (h a) ih

theorem bind_ok {σ : Type} {x : StateT σ (Except (Stop ε)) α} {f : α → StateT σ (Except (Stop ε)) β}
    {s u : σ} {b : β} (h : (x >>= f).run s = .ok (b, u)) :
    ∃ a t, x.run s = .ok (a, t) ∧ (f a).run t = .ok (b, u) := by
  rw [StateT.run_bind] at h
  cases hx : x.run s with
  | error stop =>
    rw [hx] at h
    cases h
  | ok r =>
    rw [hx] at h
    exact ⟨r.1, r.2, rfl, h⟩

theorem bind_of_ok {x : Except ε α} {a : α} {f : α → Except ε β} (h : x = .ok a) :
    (x >>= f) = f a := by
  rw [h]
  rfl

theorem ok_of_bind {x : Except ε α} {f : α → Except ε β} {b : β} (h : (x >>= f) = .ok b) :
    ∃ a, x = .ok a ∧ f a = .ok b := by
  cases x with
  | error stop => cases h
  | ok a => exact ⟨a, rfl, h⟩

theorem expect_some {message : String} {v : Option α} {a : α} (h : v = some a) :
    (expect message v : Except (Stop ε) α) = .ok a := by
  rw [h]
  rfl

theorem expect_add32 (o : Overflow) (message : String) {a b : UInt32}
    (h : a.toNat+b.toNat < 2^32) : ∃ c,
      (expect message (o.add32 a b) : Except (Stop ε) UInt32) = .ok c ∧
        c.toNat = a.toNat+b.toNat := by
  obtain ⟨c, hadd, hsum⟩ := add32_exact o a b h
  exact ⟨c, expect_some hadd, hsum⟩

theorem expect_ok {message : String} {v : Option α} {a : α}
    (h : (expect message v : Except (Stop ε) α) = .ok a) : v = some a := by
  cases v with
  | none => cases h
  | some b =>
    cases h
    rfl

theorem expect_run_ok {σ : Type} {message : String} {v : Option α} {a : α} {s t : σ}
    (h : (expect message v : StateT σ (Except (Stop ε)) α).run s = .ok (a, t)) :
    v = some a ∧ t = s := by
  cases v with
  | none => cases h
  | some b =>
    cases h
    exact ⟨rfl, rfl⟩

theorem ensure_run_ok {σ : Type} {message : String} {p : Prop} [Decidable p] {s t : σ}
    (h : (ensure p message : StateT σ (Except (Stop ε)) Unit).run s = .ok ((), t)) :
    p ∧ t = s := by
  unfold ensure at h
  split at h
  next hp =>
    cases h
    exact ⟨hp, rfl⟩
  next => cases h

theorem lift_ok {σ : Type} {x : Except (Stop ε) α} {s t : σ} {a : α}
    (h : (liftM x : StateT σ (Except (Stop ε)) α).run s = .ok (a, t)) : x = .ok a ∧ t = s := by
  cases x with
  | error stop => cases h
  | ok b =>
    cases h
    exact ⟨rfl, rfl⟩

end UsbArmory.Library.Binary
