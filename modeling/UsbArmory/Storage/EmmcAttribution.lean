import UsbArmory.Storage.EmmcSteps

/-!
# Responses reach the call that asked for them

As long as no step leaves a flag behind and no flag comes late, every call that
returns a response has seen the flags of its own command.
-/

set_option autoImplicit false

namespace UsbArmory.Storage.EmmcAttribution
open UsbArmory.Library.Latch UsbArmory.Library.Run UsbArmory.Storage.EmmcCommand
open UsbArmory.Storage.EmmcDriver UsbArmory.Storage.EmmcInvariant UsbArmory.Storage.EmmcSteps

/-- The assertion at the head of a call holds, a command is issued with nothing
of a failed one latched, and a response is returned to its own call. -/
def Good (s : State) : Event → Prop
  | .call _ => s.pc = .idle → isSet s.intStatus .cc = false
  | .advance reading =>
    (reading = true → ∀ cmd, s.pc = .entered cmd → NoneLeft s) ∧
      ∀ t, s.advance reading = some t → ∀ r ∈ t.last, Attributed r
  | _ => True

theorem inv_good {s : State} {e : Event} (hi : Inv s) (htidy : Tidy s e) : Good s e := by
  have hphase := hi.phase
  cases e with
  | clearTc => trivial
  | call cmd =>
    intro hpc
    simp only [Phase, hpc] at hphase
    exact isSet_eq_false.mpr hphase.cc
  | advance reading =>
    refine ⟨fun _ cmd hpc => ?_, fun t ht => (advance_inv hi htidy ht).last⟩
    simp only [Phase, hpc] at hphase
    exact hphase.1.noneLeft
  | raise id f word => trivial

theorem tidy_good (debug : Bool) (rsp : Reply) (arg xfrTyp : UInt32) (es : List Event)
    (h : Along (step debug) Tidy es (start rsp arg xfrTyp)) :
    Along (step debug) Good es (start rsp arg xfrTyp) :=
  along_of_invariant (fun _ _ _ hi htidy hs => step_inv hi htidy hs)
    (fun _ _ hi htidy => inv_good hi htidy) es (start_inv rsp arg xfrTyp) h

theorem enter_clear {s : State} {debug : Bool} {cmd : Command}
    (h : isSet s.intStatus .cc = false) : s.enter debug cmd = some (s.goto (.entered cmd)) := by
  rw [State.enter, h, Bool.and_false]
  rfl

/-- Where an error exit leaves a flag of its command, the next command is issued
with that flag latched. -/
theorem untidy_exit (debug : Bool) {s t : State} {reading : Bool} {mask : Flag → Bool}
    (hmask : mask ∈ errExit s reading) (hleft : ¬Within s.intStatus s.issued mask)
    (h : s.advance reading = some t) (cmd : Command) :
    ¬Along (step debug) Good [.call cmd, .advance true] t := by
  obtain ⟨e, rfl⟩ := errExit_fail hmask h
  intro hgood
  have hcc : isSet (s.fail mask e).intStatus .cc = false := hgood.1 rfl
  have hcall : step debug (s.fail mask e) (.call cmd) =
      some ((s.fail mask e).goto (.entered cmd)) := enter_clear hcc
  have hnone : Absent (clear s.intStatus mask) s.issued :=
    (hgood.2 _ hcall).1.1 rfl cmd rfl s.issued rfl
  refine hleft fun f hf => ?_
  by_cases hm : mask f = true
  · exact hm
  · refine absurd ?_ (hnone f)
    rw [clear, if_neg hm]
    exact hf

def rca : Rca := ⟨2, by decide⟩

/-- A command that the card does not answer, then a block that is read. -/
def retried : List Event :=
  [.call (.sendStatus rca), .advance true, .raise 1 .ctoe 0, .advance false, .advance false,
    .clearTc, .call (.readSingleBlock 7), .advance true, .raise 2 .cc 0x900, .advance false,
    .advance false, .advance false, .raise 2 .dint 0, .raise 2 .tc 0, .advance false,
    .advance false]

theorem tidy_of_none {s : State} {reading : Bool} (herr : errExit s reading = none)
    (hok : okExit s = none) : Tidy s (.advance reading) := by
  constructor
  · intro mask hmask
    rw [herr] at hmask
    cases hmask
  · intro mask hmask
    rw [hok] at hmask
    cases hmask

theorem retried_tidy : Along (step true) Tidy retried (start ⟨0, 0⟩ 0 0) := by
  refine along_next (fun h => nomatch h) rfl (along_next (tidy_of_none rfl rfl) rfl ?_)
  refine along_next (.inl ⟨rfl, rfl⟩) rfl (along_next (tidy_of_none rfl rfl) rfl ?_)
  refine along_next ⟨fun mask hmask f hf => ?_, fun _ h => nomatch h⟩ rfl ?_
  · cases hmask
    cases f with
    | ctoe => rfl
    | _ => cases hf
  refine along_next trivial rfl (along_next (fun _ => rfl) rfl ?_)
  refine along_next (tidy_of_none rfl rfl) rfl (along_next (.inl ⟨rfl, rfl⟩) rfl ?_)
  refine along_next (tidy_of_none rfl rfl) rfl (along_next (tidy_of_none rfl rfl) rfl ?_)
  refine along_next (tidy_of_none rfl rfl) rfl (along_next (.inl ⟨rfl, rfl⟩) rfl ?_)
  refine along_next (.inl ⟨rfl, rfl⟩) rfl (along_next (tidy_of_none rfl rfl) rfl ?_)
  refine along_next ⟨fun _ h => (nomatch h), fun mask hmask f hf hset => ?_⟩ rfl trivial
  cases hmask
  rcases hf with rfl | rfl
  · cases hset
  · rfl

theorem tidy_good_retried : Along (step true) Good retried (start ⟨0, 0⟩ 0 0) :=
  tidy_good true ⟨0, 0⟩ 0 0 retried retried_tidy

/-- The reply to a command that timed out comes while the next call waits for
the bus. -/
def lateReply : List Event :=
  [.call (.sendStatus rca), .advance true, .advance false, .advance true,
    .call (.sendStatus rca), .raise 1 .cc 0x900, .advance true, .advance false, .advance false,
    .advance false]

def badCrc : List Event :=
  [.call (.sendStatus rca), .advance true, .raise 1 .cc 0x900, .raise 1 .cce 0, .advance false,
    .advance false, .call (.sendStatus rca)]

/-- The card reports an error and the transfer takes place. -/
def cardFault : List Event :=
  [.clearTc, .call (.readSingleBlock 7), .advance true, .raise 1 .cc 0x80000900, .advance false,
    .advance false, .advance false, .raise 1 .tc 0, .raise 1 .dint 0, .call (.sendStatus rca),
    .advance true]

/-- The command of the last call, and the one whose response it returned. -/
def answered (s : State) : Option (ℕ × ℕ) :=
  match s.last with
  | some (id, .ok rsp _ _) => some (id, rsp.sender)
  | _ => none

theorem late_not_good :
    (exec (step true) lateReply (start ⟨0, 0⟩ 0 0)).bind answered = some (2, 1) ∧
      ¬Along (step true) Good lateReply (start ⟨0, 0⟩ 0 0) ∧
      ¬Along (step true) Good badCrc (start ⟨0, 0⟩ 0 0) ∧
      ¬Along (step true) Good cardFault (start ⟨0, 0⟩ 0 0) := by
  refine ⟨rfl, fun h => ?_, fun h => ?_, fun h => ?_⟩
  · have hissue := (((((((h.2 _ rfl).2 _ rfl).2 _ rfl).2 _ rfl).2 _ rfl).2 _ rfl).1).1
    exact hissue rfl _ rfl 1 rfl .cc List.mem_cons_self
  · have hcall := ((((((h.2 _ rfl).2 _ rfl).2 _ rfl).2 _ rfl).2 _ rfl).2 _ rfl).1
    cases hcall rfl
  · have hissue := ((((((((((h.2 _ rfl).2 _ rfl).2 _ rfl).2 _ rfl).2 _ rfl).2 _ rfl).2 _ rfl).2 _
      rfl).2 _ rfl).2 _ rfl).1.1
    exact hissue rfl _ rfl 1 rfl .tc List.mem_cons_self

end UsbArmory.Storage.EmmcAttribution
