import UsbArmory.Boot.DeclaredBytes
import UsbArmory.Library.Settle

/-!
# Which bytes make the parser of a DCD panic

The parser of the commands panics exactly if it comes to a position where
something is a panic; the DCD adds the checks of its length.
-/

set_option autoImplicit false

namespace UsbArmory.Boot.DcdPanics
open UsbArmory.Library.Word UsbArmory.Library.Binary UsbArmory.Library.Run UsbArmory.Library.Settle
open UsbArmory.Boot.Commands UsbArmory.Boot.Walk UsbArmory.Boot.DeclaredBytes

variable {o : Overflow} {m left : UInt16} {input rest body : ByteString} {hi lo : UInt8}

abbrev Walks (o : Overflow) := Relation.ReflTransGen (Next o)

structure DcdCalm (o : Overflow) (input : ByteString) : Prop where
  max : ∀ hi lo rest, input = headerTag::hi::lo::rest → ofBe16 hi lo ≤ maxLength
  whole : ∀ hi lo body, input = headerTag::hi::lo::version::body → headerSize ≤ ofBe16 hi lo
  decent : ∀ hi lo body, input = headerTag::hi::lo::version::body →
    Always (Next o) (Decent o) (ofBe16 hi lo-headerSize, body)
  slice : ∀ hi lo body rest, input = headerTag::hi::lo::version::body →
    Walks o (ofBe16 hi lo-headerSize, body) (0, rest) → (ofBe16 hi lo).toNat ≤ input.length

theorem next_shorter (h : Next o (m, input) (left, rest)) : rest.length+4 ≤ input.length := by
  obtain ⟨-, hbegins, -, -, -, hlong⟩ := h
  rw [hbegins.bytes, List.length_drop]
  simp only [List.length_cons]
  omega

theorem always_next {P : UInt16 × ByteString → Prop} {st : UInt16 × ByteString}
    (hhere : P (m, input))
    (hnext : Next o (m, input) st) : Always (Next o) P (m, input) ↔ Always (Next o) P st := by
  constructor
  · intro h
    exact (always_iff.mp h).2 st hnext
  · intro h
    refine always_iff.mpr ⟨hhere, fun st' hst' => ?_⟩
    rw [next_unique hnext hst']
    exact h

theorem always_last {P : UInt16 × ByteString → Prop} (hhere : P (m, input))
    (hlast : ∀ st, ¬Next o (m, input) st) : Always (Next o) P (m, input) :=
  always_iff.mpr ⟨hhere, fun st hst => absurd hst (hlast st)⟩

theorem last_zero (st : UInt16 × ByteString) : ¬Next o (0, input) st := by
  rintro ⟨hm⟩
  contradiction

theorem next_decent {st : UInt16 × ByteString} (h : Next o (m, input) st) :
    Decent o (m, input) := by
  obtain ⟨-, hbegins, hw, hleft, hfour, -⟩ := h
  intro _ hi lo p body hbegins'
  obtain ⟨rfl, rfl, rfl, rfl⟩ := begins_unique hbegins hbegins'
  rw [hw, hleft]
  exact ⟨rfl, rfl, hfour⟩

theorem loop_succ {fuel : ℕ} (hm : m ≠ 0) : Command.parseLoop o (fuel+1) m = (do
    let r ← WriteDataCommand.parse o m
    let list ← Command.parseLoop o fuel r.2
    pure (r.1::list)) := by
  conv_lhs => unfold Command.parseLoop
  rw [if_neg hm]

theorem ends_loop (fuel : ℕ) (hfuel : input.length < fuel) :
    Ends (Always (Next o) (Decent o) (m, input)) (fun r => Walks o (m, input) (0, r.2))
      ((Command.parseLoop o fuel m).run input) := by
  induction fuel generalizing m input with
  | zero => cases hfuel
  | succ fuel ih =>
    by_cases hm : m = 0
    · subst hm
      rw [RoundTrip.parseLoop_zero]
      exact .ok (always_last (fun h => absurd rfl h) last_zero) .refl
    · rw [loop_succ hm]
      have hout := command_outcome o hm input
      generalize hrun : (WriteDataCommand.parse o m).run input = r at hout
      cases hout with
      | error hdecent hlast =>
        rw [run_bind_error hrun]
        exact .error () (always_last hdecent hlast)
      | panic message h =>
        rw [run_bind_error hrun]
        exact .panic message fun halways => h (always_iff.mp halways).1
      | took command left rest hdecent htook =>
        rw [run_bind_ok hrun, StateT.run_bind]
        have hshort := next_shorter htook.next
        have hrest : rest.length < fuel := by omega
        have hloop := ih (m := left) hrest
        have hbind := hloop.bind (f := fun r => (pure (.writeData command::r.1) :
          Parser (List Command)).run r.2) (R := fun _ => True)
          (S := fun r => Walks o (m, input) (0, r.2))
          fun r _ hwalks => .ok trivial (.head htook.next hwalks)
        refine hbind.congr ?_ fun _ _ => id
        rw [always_next hdecent htook.next]
        exact ⟨And.left, fun h => ⟨h, fun _ _ => trivial⟩⟩

theorem loop_walks (fuel : ℕ) (hfuel : input.length < fuel) (h : Walks o (m, input) (0, rest)) :
    ∃ cmds, (Command.parseLoop o fuel m).run input = .ok (cmds, rest) := by
  induction fuel generalizing m input with
  | zero => cases hfuel
  | succ fuel ih =>
    by_cases hm : m = 0
    · subst hm
      rw [RoundTrip.parseLoop_zero]
      rcases Relation.ReflTransGen.cases_head h with heq | ⟨st, hst, -⟩
      · cases heq
        exact ⟨[], rfl⟩
      · exact absurd hst (last_zero st)
    · rcases Relation.ReflTransGen.cases_head h with heq | ⟨st, hst, hwalks⟩
      · cases heq
        exact absurd rfl hm
      · rw [loop_succ hm]
        have hout := command_outcome o hm input
        generalize hrun : (WriteDataCommand.parse o m).run input = r at hout
        cases hout with
        | error hdecent hlast => exact absurd hst (hlast st)
        | panic message hpanic => exact absurd (next_decent hst) hpanic
        | took command left rest' hdecent htook =>
          rw [next_unique htook.next hst] at hwalks
          have hshort := next_shorter htook.next
          obtain ⟨cmds, hcmds⟩ := ih (by omega) hwalks
          refine ⟨.writeData command::cmds, ?_⟩
          rw [run_bind_ok hrun, run_bind_ok hcmds]
          rfl

theorem run_bind_tag {α : Type} (t : UInt8) (f : ByteString → Parser α) (rest : ByteString) :
    (tagBytes [t] >>= f).run (t::rest) = (f [t]).run rest :=
  run_bind_reads (reads_tagBytes [t]) rest

theorem header_run (t hi lo : UInt8) (rest : ByteString) : Header.parse.run (t::hi::lo::rest) =
    if t = headerTag then
      if ofBe16 hi lo ≤ maxLength then (do
        let v ← tagBytes [version]
        pure ⟨t, ofBe16 hi lo, v.headD 0⟩ : Parser Header).run rest
      else .error (.panic "not yet implemented: bubble up error")
    else .error (.error ()) := by
  rw [Header.parse]
  split
  next ht =>
    subst ht
    rw [run_bind_tag, run_bind_ok (beU16_run hi lo rest), ensure]
    split
    · rfl
    · rfl
  next ht => rw [run_bind_error (tag_foreign ht _)]

theorem header_parsed {hi lo : UInt8} (hmax : ofBe16 hi lo ≤ maxLength) (body : ByteString) :
    Header.parse.run (headerTag::hi::lo::version::body) =
      .ok (⟨headerTag, ofBe16 hi lo, version⟩, body) := by
  rw [header_run, if_pos rfl, if_pos hmax, run_bind_tag]
  rfl

theorem header_error (hmax : ∀ hi lo rest, input = headerTag::hi::lo::rest →
    ofBe16 hi lo ≤ maxLength)
    (h : ∀ hi lo body, input ≠ headerTag::hi::lo::version::body) :
    Header.parse.run input = .error (.error ()) := by
  match input with
  | [] => rfl
  | [t] | [t, _] =>
    by_cases ht : t = headerTag
    · subst ht
      rfl
    · exact run_bind_error (tag_foreign ht _)
  | t::hi::lo::rest =>
    rw [header_run]
    split
    next ht =>
      subst ht
      rw [if_pos (hmax hi lo rest rfl)]
      match rest with
      | [] => rfl
      | v::body => exact run_bind_error (tag_foreign (fun hv => h hi lo body (by rw [hv])) body)
    next => rfl

theorem dcd_body {hi lo : UInt8} (hmax : ofBe16 hi lo ≤ maxLength)
    (hwhole : headerSize ≤ ofBe16 hi lo) (body : ByteString) :
    (Dcd.parse o).run (headerTag::hi::lo::version::body) = (do
      let commands ← Command.parseLoop o (body.length+1) (ofBe16 hi lo-headerSize)
      ensure ((ofBe16 hi lo).toNat ≤ body.length+4) "range end index out of range"
      pure ⟨⟨headerTag, ofBe16 hi lo, version⟩, commands,
        (headerTag::hi::lo::version::body).take (ofBe16 hi lo).toNat⟩ : Parser Dcd).run body := by
  rw [Dcd.parse, run_get, run_bind_ok (header_parsed hmax body), checkedSub, if_pos hwhole,
    run_expect_some]
  rfl

theorem dcd_short {hi lo : UInt8} (hmax : ofBe16 hi lo ≤ maxLength)
    (hshort : ¬headerSize ≤ ofBe16 hi lo) (body : ByteString) :
    (Dcd.parse o).run (headerTag::hi::lo::version::body) = .error (.panic "TODO") := by
  rw [Dcd.parse, run_get, run_bind_ok (header_parsed hmax body), checkedSub, if_neg hshort,
    run_expect_none]

theorem calm_body {hi lo : UInt8} {body : ByteString} :
    DcdCalm o (headerTag::hi::lo::version::body) ↔ ofBe16 hi lo ≤ maxLength ∧
      headerSize ≤ ofBe16 hi lo ∧ Always (Next o) (Decent o) (ofBe16 hi lo-headerSize, body) ∧
      ∀ rest, Walks o (ofBe16 hi lo-headerSize, body) (0, rest) →
        (ofBe16 hi lo).toNat ≤ body.length+4 := by
  constructor
  · intro h
    exact ⟨h.max hi lo _ rfl, h.whole hi lo body rfl, h.decent hi lo body rfl,
      fun rest => h.slice hi lo body rest rfl⟩
  · rintro ⟨hmax, hwhole, hdecent, hslice⟩
    constructor
    · rintro _ _ _ ⟨⟩
      exact hmax
    · rintro _ _ _ ⟨⟩
      exact hwhole
    · rintro _ _ _ ⟨⟩
      exact hdecent
    · rintro _ _ _ rest ⟨⟩
      exact hslice rest

theorem ends_dcd (o : Overflow) (input : ByteString) :
    Ends (DcdCalm o input) (fun r => r.1.asBytes <+: input) ((Dcd.parse o).run input) := by
  by_cases hmax : ∀ hi lo rest, input = headerTag::hi::lo::rest → ofBe16 hi lo ≤ maxLength
  · by_cases hbody : ∃ hi lo body, input = headerTag::hi::lo::version::body
    · obtain ⟨hi, lo, body, rfl⟩ := hbody
      by_cases hwhole : headerSize ≤ ofBe16 hi lo
      · rw [dcd_body (hmax hi lo _ rfl) hwhole]
        have hfuel := Nat.lt_succ_self body.length
        have hloop := ends_loop (o := o) (m := ofBe16 hi lo-headerSize) (body.length+1) hfuel
        generalize hrun :
          (Command.parseLoop o (body.length+1) (ofBe16 hi lo-headerSize)).run body = r
          at hloop
        have hcalm : DcdCalm o (headerTag::hi::lo::version::body) ↔ _ := calm_body
        cases hloop with
        | ok hdecent hwalks =>
          rw [run_bind_ok hrun, ensure]
          split
          next hfits =>
            refine .ok (hcalm.mpr ⟨hmax hi lo _ rfl, hwhole, hdecent, fun _ _ => hfits⟩) ?_
            exact List.take_prefix _ _
          next hfits => exact .panic _ fun h => hfits ((hcalm.mp h).2.2.2 _ hwalks)
        | error e hdecent =>
          rw [run_bind_error hrun]
          refine .error e (hcalm.mpr ⟨hmax hi lo _ rfl, hwhole, hdecent, fun rest hwalks => ?_⟩)
          obtain ⟨cmds, hcmds⟩ := loop_walks _ hfuel hwalks
          cases hrun.symm.trans hcmds
        | panic message hdecent =>
          rw [run_bind_error hrun]
          exact .panic message fun h => hdecent (hcalm.mp h).2.2.1
      · rw [dcd_short (hmax hi lo _ rfl) hwhole]
        exact .panic _ fun h => hwhole (h.whole hi lo body rfl)
    · have hnone : ∀ hi lo body, input ≠ headerTag::hi::lo::version::body :=
        fun hi lo body h => hbody ⟨hi, lo, body, h⟩
      rw [Dcd.parse, run_get, run_bind_error (header_error hmax hnone)]
      exact .error () ⟨hmax, fun _ _ _ h => absurd h (hnone _ _ _),
        fun _ _ _ h => absurd h (hnone _ _ _),
        fun _ _ _ _ h => absurd h (hnone _ _ _)⟩
  · simp only [not_forall] at hmax
    obtain ⟨hi, lo, rest, rfl, hlong⟩ := hmax
    have hpanic : Header.parse.run (headerTag::hi::lo::rest) =
        .error (.panic "not yet implemented: bubble up error") := by
      rw [header_run, if_pos rfl, if_neg hlong]
    rw [Dcd.parse, run_get, run_bind_error hpanic]
    exact .panic _ fun h => hlong (h.max hi lo rest rfl)

end UsbArmory.Boot.DcdPanics
