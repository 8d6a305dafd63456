import UsbArmory.Boot.Encoding
import UsbArmory.Library.Consume
import UsbArmory.Library.Run

/-!
# The commands of a DCD as bytes

What the parser of the commands makes of its input, position by position: a
position is the length that is left and the bytes from there on.
-/

set_option autoImplicit false

namespace UsbArmory.Boot.Walk
open UsbArmory.Library.Word UsbArmory.Library.Binary UsbArmory.Library.Consume
open UsbArmory.Boot.Commands UsbArmory.Boot.Encoding

variable {o : Overflow} {m left : UInt16} {input rest body : ByteString} {hi lo p : UInt8}
variable {w : Bytes}

/-- The width that the low bits of a parameter byte stand for. -/
def widthOf (p : UInt8) : Option Bytes :=
  if p &&& 7 = 1 then some .b1 else if p &&& 7 = 2 then some .b2
  else if p &&& 7 = 4 then some .b4 else none

def flagsAt (set mask : Bool) : Flags :=
  if mask then if set then .setBitmask else .clearBitmask else .writeValue

def flagsOf (p : UInt8) : Flags := flagsAt (p.toNat.testBit 4) (p.toNat.testBit 3)

/-- A command header at the front of the input, with its reserved bits clear. -/
structure Begins (input : ByteString) (hi lo p : UInt8) (body : ByteString) : Prop where
  bytes : input = commandTag::hi::lo::p::body
  reserved : p >>> 5 = 0

/-- The bytes of the pairs that a command of the length has. -/
def pairsSize (length : UInt16) (w : Bytes) : ℕ :=
  (length.toNat-4)/(4+w.toU8.toNat)*(4+w.toU8.toNat)

inductive Next (o : Overflow) : UInt16 × ByteString → UInt16 × ByteString → Prop where
  | command {m left : UInt16} {input body : ByteString} {hi lo p : UInt8} {w : Bytes}
      (hm : m ≠ 0) (hbegins : Begins input hi lo p body) (hw : widthOf p = some w)
      (hleft : o.sub16 m (ofBe16 hi lo) = some left) (hfour : 4 ≤ ofBe16 hi lo)
      (hlong : pairsSize (ofBe16 hi lo) w ≤ body.length) :
      Next o (m, input) (left, body.drop (pairsSize (ofBe16 hi lo) w))

theorem forall_byte {P : UInt8 → Prop} (h : ∀ n < 256, P (UInt8.ofNat n)) (p : UInt8) : P p := by
  have hp := h p.toNat p.toNat_lt
  rw [UInt8.ofNat_toNat] at hp
  exact hp

theorem bits_of_reserved (p : UInt8) : p >>> 5 = 0 → bitsOf p =
    [false, false, false, p.toNat.testBit 4, p.toNat.testBit 3] ++ (bitsOf p).drop 5 := by
  revert p
  refine forall_byte ?_
  decide +kernel

theorem bits_of_width (p : UInt8) : p >>> 5 = 0 → ∀ w ∈ widthOf p, bitsOf p =
    [false, false, false, p.toNat.testBit 4, p.toNat.testBit 3] ++ (bitsOf w.toU8).drop 5 := by
  revert p
  refine forall_byte ?_
  decide +kernel

theorem reserved_bits (p : UInt8) :
    UInt8.ofNat (ofBits ((bitsOf p).take 3)) = 0 ↔ p >>> 5 = 0 := by
  revert p
  refine forall_byte ?_
  decide +kernel

theorem width_bits (p : UInt8) :
    UInt8.ofNat (ofBits ((bitsOf p).drop 5)) = p &&& 7 := by
  revert p
  refine forall_byte ?_
  decide +kernel

theorem reads_flagsAt (set mask : Bool) :
    Reads Flags.parse [false, false, false, set, mask] (flagsAt set mask) := by
  refine reads_bind (reads_tagBits [false, false, false]) ?_
  cases set <;> cases mask <;> exact reads_last (reads_takeBits [_, _]) (reads_pure _)

theorem reads_parameterOf (hp : p >>> 5 = 0) (hw : widthOf p = some w) :
    Reads (bits WriteDataCommandParameter.parse) [p] ⟨w, flagsOf p⟩ := by
  apply reads_bits
  rw [bits_of_width p hp w hw]
  exact reads_bind (reads_flagsAt _ _) (reads_last (reads_width w) (reads_pure _))

theorem parameter_reserved (hp : p >>> 5 ≠ 0) (rest : ByteString) :
    (bits WriteDataCommandParameter.parse).run (p::rest) = .error (.error ()) := by
  have hflags : ∀ more, Flags.parse.run (bitsOf p ++ more) = .error (.error ()) := by
    intro more
    have hthree : ((bitsOf p).take 3).length = 3 := rfl
    have htag : (tagBits 0b000 3).run (bitsOf p ++ more) = .error (.error ()) := by
      show (takeBits ((bitsOf p).take 3).length >>= _).run
        ((bitsOf p).take 3 ++ ((bitsOf p).drop 3 ++ more)) = _
      rw [run_bind_reads (reads_takeBits _), if_neg fun h => hp ((reserved_bits p).mp h)]
      rfl
    rw [Flags.parse, run_bind_error htag]
  apply bits_error
  rw [List.flatMap_cons, WriteDataCommandParameter.parse, run_bind_error (hflags _)]

theorem parameter_width (hp : p >>> 5 = 0) (hw : widthOf p = none) (rest : ByteString) :
    (bits WriteDataCommandParameter.parse).run (p::rest) = .error (.panic "TODO") := by
  have hwidth : ∀ more, Bytes.parse.run ((bitsOf p).drop 5 ++ more) = .error (.panic "TODO") := by
    intro more
    show (takeBits ((bitsOf p).drop 5).length >>= _).run ((bitsOf p).drop 5 ++ more) = _
    rw [run_bind_reads (reads_takeBits _), width_bits]
    unfold widthOf at hw
    split_ifs at hw with h1 h2 h4
    rw [if_neg h1, if_neg h2, if_neg h4]
    rfl
  apply bits_error
  rw [List.flatMap_cons, bits_of_reserved p hp, List.append_assoc, WriteDataCommandParameter.parse,
    run_bind_reads (reads_flagsAt _ _), run_bind_error (hwidth _)]

theorem tag_foreign {t b : UInt8} (h : b ≠ t) (rest : ByteString) :
    (tagBytes [t]).run (b::rest) = .error (.error ()) := by
  have hno : [t].isPrefixOf (b::rest) = false := by
    show (t == b && _) = false
    rw [beq_eq_false_iff_ne.mpr h.symm, Bool.false_and]
  show (if [t].isPrefixOf (b::rest) then _ else _) = _
  rw [hno]
  rfl

theorem beU16_run (hi lo : UInt8) (rest : ByteString) :
    beU16.run (hi::lo::rest) = .ok (ofBe16 hi lo, rest) := rfl

theorem header_run (t : UInt8) (rest : ByteString) : WriteDataCommandHeader.parse.run (t::rest) =
    if t = commandTag then (do
      let length ← beU16
      let parameter ← bits WriteDataCommandParameter.parse
      pure ⟨t, length, parameter⟩ : Parser WriteDataCommandHeader).run rest
    else .error (.error ()) := by
  split
  next ht =>
    subst ht
    exact run_bind_reads (reads_tagBytes [commandTag]) rest
  next ht =>
    rw [WriteDataCommandHeader.parse, run_bind_error (tag_foreign ht rest)]

theorem header_foreign (h : ∀ hi lo p body, ¬Begins input hi lo p body) :
    WriteDataCommandHeader.parse.run input = .error (.error ()) := by
  match input with
  | [] => rfl
  | t::rest =>
    rw [header_run]
    split
    next ht =>
      subst ht
      match rest with
      | [] | [_] | [_, _] => rfl
      | hi::lo::p::body =>
        have hp : p >>> 5 ≠ 0 := fun hzero => h hi lo p body ⟨rfl, hzero⟩
        rw [run_bind_ok (beU16_run hi lo (p::body)), run_bind_error (parameter_reserved hp body)]
    next => rfl

theorem header_width (h : Begins input hi lo p body) (hw : widthOf p = none) :
    WriteDataCommandHeader.parse.run input = .error (.panic "TODO") := by
  rw [h.bytes, header_run, if_pos rfl, run_bind_ok (beU16_run hi lo (p::body)),
    run_bind_error (parameter_width h.reserved hw body)]

theorem header_ok (h : Begins input hi lo p body) (hw : widthOf p = some w) :
    WriteDataCommandHeader.parse.run input =
      .ok (⟨commandTag, ofBe16 hi lo, ⟨w, flagsOf p⟩⟩, body) := by
  rw [h.bytes, header_run, if_pos rfl, run_bind_ok (beU16_run hi lo (p::body))]
  exact run_bind_reads (reads_parameterOf h.reserved hw) body

theorem begins_unique {hi' lo' p' : UInt8} {body' : ByteString} (h : Begins input hi lo p body)
    (h' : Begins input hi' lo' p' body') : hi' = hi ∧ lo' = lo ∧ p' = p ∧ body' = body := by
  have heq := h'.bytes.symm.trans h.bytes
  simp only [List.cons.injEq, true_and] at heq
  exact heq

theorem next_unique {a b c : UInt16 × ByteString} (hb : Next o a b) (hc : Next o a c) : c = b := by
  obtain ⟨-, hbegins, hw, hleft, -, -⟩ := hb
  obtain ⟨-, hbegins', hw', hleft', -, -⟩ := hc
  obtain ⟨rfl, rfl, rfl, rfl⟩ := begins_unique hbegins hbegins'
  cases hw.symm.trans hw'
  cases hleft.symm.trans hleft'
  rfl

def Decent (o : Overflow) (st : UInt16 × ByteString) : Prop :=
  st.1 ≠ 0 → ∀ hi lo p body, Begins st.2 hi lo p body →
    (widthOf p).isSome = true ∧ (o.sub16 st.1 (ofBe16 hi lo)).isSome = true ∧ 4 ≤ ofBe16 hi lo

/-- A command that has been parsed, and the position behind it. -/
structure Took (o : Overflow) (m : UInt16) (input : ByteString) (command : WriteDataCommand)
    (left : UInt16) (rest : ByteString) : Prop where
  next : Next o (m, input) (left, rest)
  bytes : ∃ hi lo p body w, Begins input hi lo p body ∧ widthOf p = some w ∧
    command.header = ⟨commandTag, ofBe16 hi lo, ⟨w, flagsOf p⟩⟩ ∧
    o.sub16 m (ofBe16 hi lo) = some left ∧ 4 ≤ ofBe16 hi lo ∧
    command.addressValue.length = ((ofBe16 hi lo).toNat-4)/(4+w.toU8.toNat) ∧
    pairsSize (ofBe16 hi lo) w ≤ body.length ∧ rest = body.drop (pairsSize (ofBe16 hi lo) w) ∧
    (w = .b4 → body = command.addressValue.flatMap pairBytes ++ rest)

/-- What the parser of a command comes to, by what stands at the position. -/
inductive Outcome (o : Overflow) (m : UInt16) (input : ByteString) :
    Except (Stop Unit) ((Command × UInt16) × ByteString) → Prop where
  | error (hdecent : Decent o (m, input)) (hlast : ∀ st, ¬Next o (m, input) st) :
      Outcome o m input (.error (.error ()))
  | panic (message : String) (h : ¬Decent o (m, input)) :
      Outcome o m input (.error (.panic message))
  | took (command : WriteDataCommand) (left : UInt16) (rest : ByteString)
      (hdecent : Decent o (m, input)) (htook : Took o m input command left rest) :
      Outcome o m input (.ok ((.writeData command, left), rest))

theorem fixed_pair (w : Bytes) : Fixed (AddressValue.parseOne w) (4+w.toU8.toNat) := by
  refine fixed_bind fixed_beU32 fun address => ?_
  cases w with
  | b1 => exact fixed_bind (fixed_map _ fixed_beU8) fun value => fixed_pure _
  | b2 => exact fixed_bind (fixed_map _ fixed_beU16) fun value => fixed_pure _
  | b4 => exact fixed_bind fixed_beU32 fun value => fixed_pure _

theorem pairs_count {length : UInt16} (hfour : 4 ≤ length) (w : Bytes) :
    ((length-commandSize)/(4+w.toU8.toUInt16)).toNat = (length.toNat-4)/(4+w.toU8.toNat) := by
  have hdivisor : (4+w.toU8.toUInt16).toNat = 4+w.toU8.toNat := by cases w <;> rfl
  have hsize : (length-commandSize).toNat = length.toNat-4 :=
    UInt16.toNat_sub_of_le length commandSize hfour
  rw [UInt16.toNat_div, hdivisor, hsize]

theorem fixed_pairs {length : UInt16} (hfour : 4 ≤ length) (w : Bytes) :
    Fixed (AddressValue.parse (length-commandSize) w) (pairsSize length w) := by
  unfold AddressValue.parse pairsSize
  rw [pairs_count hfour w]
  exact fixed_count (fixed_pair w) _

theorem spells_pair : Spells (AddressValue.parseOne .b4) pairBytes := by
  intro input av rest h
  obtain ⟨address, t, haddress, h₁⟩ := bind_ok h
  obtain ⟨value, t', hvalue, h₂⟩ := bind_ok h₁
  cases h₂
  rw [spells_beU32 _ _ _ haddress, spells_beU32 _ _ _ hvalue, pairBytes, List.append_assoc]

theorem command_outcome (o : Overflow) (hm : m ≠ 0) (input : ByteString) :
    Outcome o m input ((WriteDataCommand.parse o m).run input) := by
  unfold WriteDataCommand.parse
  by_cases hbegins : ∃ hi lo p body, Begins input hi lo p body
  · obtain ⟨hi, lo, p, body, hbegins⟩ := hbegins
    cases hw : widthOf p with
    | none =>
      rw [run_bind_error (header_width hbegins hw)]
      refine .panic _ fun hdecent => ?_
      obtain ⟨hwidth, -⟩ := hdecent hm hi lo p body hbegins
      rw [hw] at hwidth
      cases hwidth
    | some w =>
      rw [run_bind_ok (header_ok hbegins hw)]
      dsimp only
      cases hleft : o.sub16 m (ofBe16 hi lo) with
      | none =>
        rw [run_expect_none]
        refine .panic _ fun hdecent => ?_
        obtain ⟨-, hsome, -⟩ := hdecent hm hi lo p body hbegins
        rw [hleft] at hsome
        cases hsome
      | some left =>
        rw [run_expect_some]
        by_cases hfour : commandSize ≤ ofBe16 hi lo
        · rw [checkedSub, if_pos hfour, run_expect_some]
          have hdecent : Decent o (m, input) := by
            intro _ hi' lo' p' body' hbegins'
            obtain ⟨rfl, rfl, rfl, rfl⟩ := begins_unique hbegins hbegins'
            rw [hw, hleft]
            exact ⟨rfl, rfl, hfour⟩
          by_cases hlong : pairsSize (ofBe16 hi lo) w ≤ body.length
          · obtain ⟨avs, havs⟩ := (fixed_pairs hfour w).some hlong
            rw [run_bind_ok havs]
            refine .took ⟨⟨commandTag, ofBe16 hi lo, ⟨w, flagsOf p⟩⟩, avs⟩ left _ hdecent ?_
            refine ⟨.command hm hbegins hw hleft hfour hlong, hi, lo, p, body, w, hbegins, hw, rfl,
              hleft, hfour, ?_, hlong, rfl, ?_⟩
            · rw [← pairs_count hfour w]
              exact count_length havs
            · rintro rfl
              exact spells_count spells_pair _ _ _ _ havs
          · rw [run_bind_error ((fixed_pairs hfour w).short (by omega))]
            refine .error hdecent fun st hnext => ?_
            obtain ⟨-, hbegins', hw', -, -, hlong'⟩ := hnext
            obtain ⟨rfl, rfl, rfl, rfl⟩ := begins_unique hbegins hbegins'
            cases hw.symm.trans hw'
            exact hlong hlong'
        · rw [checkedSub, if_neg hfour, run_expect_none]
          exact .panic _ fun hdecent => hfour (hdecent hm hi lo p body hbegins).2.2
  · have hnone : ∀ hi lo p body, ¬Begins input hi lo p body :=
      fun hi lo p body h => hbegins ⟨hi, lo, p, body, h⟩
    rw [run_bind_error (header_foreign hnone)]
    refine .error (fun _ hi lo p body h => absurd h (hnone hi lo p body)) fun st hnext => ?_
    obtain ⟨-, h, -⟩ := hnext
    exact hnone _ _ _ _ h

end UsbArmory.Boot.Walk
