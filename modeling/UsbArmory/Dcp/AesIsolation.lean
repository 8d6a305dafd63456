import UsbArmory.Dcp.AesInvariant

/-!
# When two AES-128 handles stay apart

The pointer register still names the command of a call at its semaphore write
if and only if no call of the other handle has come in between. If one has, the
engine executes that call's command once more and never the other.
-/

set_option autoImplicit false

namespace UsbArmory.Dcp.AesIsolation
open UsbArmory.Library.Run UsbArmory.Dcp.Command UsbArmory.Dcp.Aes UsbArmory.Dcp.AesInvariant

variable {aes : Cipher} {m m' : Machine} {o : Call}

/-- Some semaphore write has had another command executed. -/
def Lost (m : Machine) : Prop := ∃ k, k < m.channel.executed.length ∧ k < m.started.length ∧
  m.channel.executed[k]? ≠ (m.started.map Call.own)[k]?

theorem lost_not_sound (h : Lost m) : ¬Sound aes m := by
  intro hs
  obtain ⟨k, -, -, hne⟩ := h
  rw [hs.executed] at hne
  exact hne rfl

theorem ch3sema_grows (aes : Cipher) (ch : Channel) :
    ∃ fs, (ch.ch3sema aes).executed = ch.executed ++ fs := by
  unfold Channel.ch3sema
  split
  · exact ⟨[], (List.append_nil _).symm⟩
  · split
    · exact ⟨[], (List.append_nil _).symm⟩
    · exact ⟨_, rfl⟩

theorem step_grows {e : Event} (hs : step aes m e = some m') :
    (∃ fs, m'.channel.executed = m.channel.executed ++ fs) ∧
    ∃ cs, m'.started = m.started ++ cs := by
  cases e with
  | begin c =>
    simp only [step] at hs
    split at hs
    next =>
      cases hs
      exact ⟨⟨[], (List.append_nil _).symm⟩, [], (List.append_nil _).symm⟩
    next => cases hs
  | resume =>
    obtain ⟨⟨o, pc⟩, -, rfl⟩ := Option.map_eq_some_iff.mp hs
    cases pc with
    | called => exact ⟨⟨[], (List.append_nil _).symm⟩, [], (List.append_nil _).symm⟩
    | built => exact ⟨⟨[], (List.append_nil _).symm⟩, [], (List.append_nil _).symm⟩
    | pointed struck => exact ⟨ch3sema_grows aes m.channel, [o], rfl⟩
    | started =>
      simp only [resume]
      split
      · exact ⟨⟨[], (List.append_nil _).symm⟩, [], (List.append_nil _).symm⟩
      · exact ⟨⟨[], (List.append_nil _).symm⟩, [], (List.append_nil _).symm⟩
  | preempt c =>
    cases hcur : m.cur with
    | none => simp [step, hcur] at hs
    | some x =>
      obtain ⟨o, pc⟩ := x
      simp only [step, hcur] at hs
      split at hs
      next =>
        cases hs
        exact ⟨⟨[c.own], (whole_spec aes m.channel c).1⟩, [c], rfl⟩
      next => cases hs

theorem lost_step {e : Event} (h : Lost m) (hs : step aes m e = some m') : Lost m' := by
  obtain ⟨⟨fs, hfs⟩, cs, hcs⟩ := step_grows hs
  obtain ⟨k, hk, hk', hne⟩ := h
  refine ⟨k, ?_, ?_, ?_⟩
  · rw [hfs, List.length_append]
    omega
  · rw [hcs, List.length_append]
    omega
  · have hmap : k < (m.started.map Call.own).length := by
      rw [List.length_map]
      exact hk'
    rw [hfs, hcs, List.map_append, List.getElem?_append_left hk, List.getElem?_append_left hmap]
    exact hne

theorem struck_lost (h : Inv aes m) (hcur : m.cur = some (o, .pointed true))
    (hs : step aes m .resume = some m') : Lost m' := by
  obtain ⟨a, f, hptr, hframe, hid⟩ := h.ready o _ hcur
  have hexec : (m.channel.ch3sema aes).executed = m.channel.executed ++ [f] := by
    simp [Channel.ch3sema, hptr, hframe]
  simp only [step, hcur, Option.map_some, Option.some.injEq] at hs
  have hlen : m.channel.executed.length = m.started.length := by
    rw [h.sound.executed, List.length_map]
  cases hs
  refine ⟨m.started.length, ?_, ?_, ?_⟩
  · show m.started.length < (m.channel.ch3sema aes).executed.length
    rw [hexec, List.length_append, hlen]
    exact Nat.lt_succ_self _
  · show m.started.length < (m.started ++ [o]).length
    rw [List.length_append]
    exact Nat.lt_succ_self _
  · show (m.channel.ch3sema aes).executed[m.started.length]? ≠
      ((m.started ++ [o]).map Call.own)[m.started.length]?
    rw [hexec, List.map_append, ← hlen, List.getElem?_concat_length, hlen]
    have hmap : (m.started.map Call.own ++ [o].map Call.own)[m.started.length]? = some o.own := by
      rw [List.getElem?_append_right (by simp)]
      simp
    rw [hmap]
    intro heq
    exact hid (congrArg Frame.id (Option.some.inj heq))

theorem inv_start (aes : Cipher) : Inv aes start := by
  constructor
  · exact ⟨rfl, List.nodup_nil, fun r hr => absurd hr List.not_mem_nil⟩
  · intro c hc
    exact absurd hc List.not_mem_nil
  · intro o pc he
    cases he
  · intro o pc he
    cases he
  · intro o he
    cases he
  · intro o pc he
    cases he

theorem undisturbed_or_struck (m : Machine) (e : Event) :
    Undisturbed m e ∨ e = .resume ∧ ∃ o, m.cur = some (o, .pointed true) := by
  cases e with
  | begin c => exact Or.inl trivial
  | preempt c => exact Or.inl trivial
  | resume =>
    by_cases h : ∃ o, m.cur = some (o, .pointed true)
    · exact Or.inr ⟨rfl, h⟩
    · exact Or.inl fun o ho => h ⟨o, ho⟩

theorem run_sound_or_lost (es : List Event) (h : Inv aes m)
    (hrun : exec (step aes) es m = some m') :
    Along (step aes) Undisturbed es m ∧ Inv aes m' ∨
      ¬Along (step aes) Undisturbed es m ∧ Lost m' := by
  induction es generalizing m with
  | nil =>
    cases hrun
    exact Or.inl ⟨trivial, h⟩
  | cons e es ih =>
    obtain ⟨t, ht, hrest⟩ := exec_cons hrun
    rcases undisturbed_or_struck m e with hu | ⟨rfl, o, hcur⟩
    · rcases ih (inv_step h hu ht) hrest with ⟨halong, hinv⟩ | ⟨hnot, hlost⟩
      · refine Or.inl ⟨⟨hu, fun t' ht' => ?_⟩, hinv⟩
        cases ht.symm.trans ht'
        exact halong
      · exact Or.inr ⟨fun ha => hnot (ha.2 t ht), hlost⟩
    · refine Or.inr ⟨fun ha => ha.1 o hcur, ?_⟩
      exact exec_invariant (I := Lost) (fun _ _ _ hl hs => lost_step hl hs) es
        (struck_lost h hcur ht) hrest

/-- In every run, whatever calls preempt each other: the engine has executed the
command of each call once, and the calls return with their blocks done, if and
only if no call has gone on from its pointer write after being preempted there. -/
theorem sound_iff_undisturbed (aes : Cipher) (es : List Event) (m : Machine)
    (hrun : exec (step aes) es start = some m) :
    Sound aes m ↔ Along (step aes) Undisturbed es start := by
  rcases run_sound_or_lost es (inv_start aes) hrun with ⟨halong, hinv⟩ | ⟨hnot, hlost⟩
  · exact ⟨fun _ => halong, fun _ => hinv.sound⟩
  · exact ⟨fun hs => absurd hs (lost_not_sound hlost), fun ha => absurd ha hnot⟩

/-- A call on the RAM-key handle, and one on the hardware-key handle. -/
def ramCall : Call :=
  ⟨0, .key0, true, 1000, 2000, [1, 2, 3, 4, 5, 6, 7, 8, 9, 10, 11, 12, 13, 14, 15, 16]⟩

def hwCall : Call :=
  ⟨1, .otpKey, true, 3000, 4000, [16, 15, 14, 13, 12, 11, 10, 9, 8, 7, 6, 5, 4, 3, 2, 1]⟩

/-- A stand-in cipher for runs on fixed inputs: every byte plus the key. -/
def shift : Cipher := fun key encrypt block =>
  block.map fun b => if encrypt then b+UInt8.ofNat key.toNat else b-UInt8.ofNat key.toNat

/-- The hardware-key call comes before the pointer write of the other. -/
def early : List Event :=
  [.begin ramCall, .resume, .preempt hwCall, .resume, .resume, .resume]

theorem early_runs : (exec (step shift) early start).isSome = true := by
  decide

theorem sound_iff_undisturbed_early : Sound shift ((exec (step shift) early start).get early_runs) ↔
    Along (step shift) Undisturbed early start :=
  sound_iff_undisturbed shift early _ (Option.some_get early_runs).symm

/-- The hardware-key call comes between the two register writes of the other. -/
def between : List Event :=
  [.begin ramCall, .resume, .resume, .preempt hwCall, .resume, .resume]

theorem between_runs : (exec (step shift) between start).isSome = true := by
  decide

/-- The command of the hardware-key call is executed twice and the other never;
its caller still waits. -/
theorem between_lost : ¬Sound shift ((exec (step shift) between start).get between_runs) ∧
    (((exec (step shift) between start).get between_runs).channel.executed.map Frame.id) = [1, 1] ∧
      ((exec (step shift) between start).get between_runs).cur.isSome = true := by
  refine ⟨fun hs => ?_, by decide, by decide⟩
  have hids := congrArg (List.map Frame.id) hs.executed
  revert hids
  decide

end UsbArmory.Dcp.AesIsolation
