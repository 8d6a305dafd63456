import UsbArmory.Storage.Files

/-!
# Which paths close their files

Two of the paths do not keep what `File` promises: an open behind which `seek`
fails leaves the file open, and a created file whose closure fails is dropped,
which panics where the close fails too.
-/

set_option autoImplicit false

namespace UsbArmory.Storage.FileClosing
open UsbArmory.Library.Binary UsbArmory.Library.Trace UsbArmory.Storage.Files

section Paths
variable {E R α : Type} {lfs : Littlefs E R} {path : Path} {before ops : List Op}

theorem sound_iff_run {x : Calls α} {g : α → Option (Except E R)} {result : Except (Stop Empty) α}
    (hpath : path.run lfs = g <$> x) (hrun : perform x before = (result, before ++ ops)) :
    Sound lfs path before ↔ ClosedOnce ops ∧ (path.helper = true →
      ∃ r, result.map g = .ok (some r) ∧ (Failed ops → ∃ e, r = .error e)) := by
  have hmap : perform (path.run lfs) before = (result.map g, before ++ ops) := by
    rw [hpath, perform_map, hrun]
  rw [Sound, hmap]
  refine ⟨?_, fun hsound => ⟨ops, rfl, hsound⟩⟩
  rintro ⟨others, hops, hsound⟩
  rw [List.append_cancel_left hops]
  exact hsound

theorem perform_openAndThen_error {e : E}
    (h : perform (File.open lfs) before = (.ok (.error e), before ++ ops)) :
    perform (File.openAndThen lfs) before = (.ok (.error e), before ++ (ops ++ [.released])) := by
  rw [File.openAndThen, perform_bind_ok h, ← List.append_assoc]
  rfl

theorem perform_createAndThen_error {e : E}
    (h : perform (File.create lfs) before = (.ok (.error e), before ++ ops)) :
    perform (File.createAndThen lfs) before = (.ok (.error e), before ++ (ops ++ [.released])) := by
  rw [File.createAndThen, perform_bind_ok h, ← List.append_assoc]
  rfl

/-- The end of a helper: the error of the close comes before what the closure returned. -/
theorem perform_ending (lfs : Littlefs E R) (file : Handle) (res : Except E R) (before : List Op) :
    ∃ close : Except E Unit, perform (do
        match ← File.close lfs ⟨some file⟩ with
        | .error e =>
          release
          pure (.error e)
        | .ok () =>
          release
          pure res) before =
      (.ok (close >>= fun _ => res), before ++ [.closed close.isOk, .released]) := by
  refine ⟨lfs.close before, ?_⟩
  rw [perform_bind_ok (perform_close _ _ _)]
  cases lfs.close before with
  | error e => exact Prod.ext rfl (List.append_assoc _ _ _)
  | ok => exact Prod.ext rfl (List.append_assoc _ _ _)

theorem perform_openAndThen_ok {file : Handle}
    (h : perform (File.open lfs) before = (.ok (.ok ⟨some file⟩), before ++ ops)) :
    ∃ (closure : Except E R) (close : Except E Unit), perform (File.openAndThen lfs) before =
      (.ok (close >>= fun _ => closure), before ++ (ops ++
        [.closure closure.isOk, .closed close.isOk, .released])) := by
  obtain ⟨close, hend⟩ := perform_ending lfs file (lfs.closure (before ++ ops))
    (before ++ ops ++ [.closure (lfs.closure (before ++ ops)).isOk])
  refine ⟨lfs.closure (before ++ ops), close, ?_⟩
  rw [File.openAndThen, perform_bind_ok h]
  refine (perform_call_bind _ _ _ _).trans (hend.trans ?_)
  rw [List.append_assoc, List.append_assoc]
  rfl

theorem perform_createAndThen_ok {file : Handle} {r : R}
    (h : perform (File.create lfs) before = (.ok (.ok ⟨some file⟩), before ++ ops))
    (hclosure : lfs.closure (before ++ ops) = .ok r) : ∃ close : Except E Unit,
      perform (File.createAndThen lfs) before = (.ok (close >>= fun _ => .ok r),
        before ++ (ops ++ [.closure true, .closed close.isOk, .released])) := by
  obtain ⟨close, hend⟩ := perform_ending lfs file (.ok r) (before ++ ops ++ [.closure true])
  refine ⟨close, ?_⟩
  rw [File.createAndThen, perform_bind_ok h]
  refine (perform_call_bind _ _ _ _).trans ?_
  rw [hclosure]
  refine hend.trans ?_
  rw [List.append_assoc, List.append_assoc]
  rfl

theorem perform_createAndThen_dropped {file : Handle} {e : E}
    (h : perform (File.create lfs) before = (.ok (.ok ⟨some file⟩), before ++ ops))
    (hclosure : lfs.closure (before ++ ops) = .error e) : perform (File.createAndThen lfs) before =
      if (lfs.close (before ++ ops ++ [.closure false])).isOk then
        (.ok (.error e), before ++ (ops ++ [.closure false, .closed true, .released]))
      else (.error (.panic "called Result::unwrap() on an Err value"),
        before ++ (ops ++ [.closure false, .closed false])) := by
  rw [File.createAndThen, perform_bind_ok h]
  refine (perform_call_bind _ _ _ _).trans ?_
  rw [hclosure]
  show perform (File.drop lfs ⟨some file⟩ >>= _) (before ++ ops ++ [.closure false]) = _
  rw [perform_bind, perform_drop, ← List.append_assoc, ← List.append_assoc]
  cases lfs.close (before ++ ops ++ [.closure false]) with
  | error e => exact Prod.ext rfl (List.append_assoc _ _ _)
  | ok => 
    refine Prod.ext rfl ?_
    show _ ++ _ ++ _ = _
    rw [List.append_assoc, List.append_assoc]
    rfl

theorem perform_session_error {creates : Bool} {e : E} (closes : Bool)
    (h : perform (obtain lfs creates) before = (.ok (.error e), before ++ ops)) :
    perform (session lfs creates closes) before = (.ok (), before ++ (ops ++ [.released])) := by
  rw [session, perform_bind_ok h, ← List.append_assoc]
  rfl

theorem perform_session_ok {creates : Bool} {file : Handle} (closes : Bool)
    (h : perform (obtain lfs creates) before = (.ok (.ok ⟨some file⟩), before ++ ops)) :
    ∃ result rest, perform (session lfs creates closes) before =
      (result, before ++ (ops ++ rest)) ∧ replay rest true = some false := by
  rw [session, perform_bind_ok h]
  show ∃ result rest, perform (if closes then _ else _) _ = _ ∧ _
  cases closes with
  | true =>
    refine ⟨.ok (), [.closed (lfs.close (before ++ ops)).isOk, .released], ?_, rfl⟩
    show perform (File.close lfs ⟨some file⟩ >>= _) _ = _
    rw [perform_bind_ok (perform_close _ _ _), ← List.append_assoc]
    exact Prod.ext rfl (List.append_assoc _ _ _)
  | false =>
    show ∃ result rest, perform (File.drop lfs ⟨some file⟩ >>= _) _ = _ ∧ _
    rw [perform_bind, perform_drop]
    cases lfs.close (before ++ ops) with
    | error e => exact ⟨_, [.closed false], Prod.ext rfl (List.append_assoc _ _ _), rfl⟩
    | ok =>
      refine ⟨.ok (), [.closed true, .released], Prod.ext rfl ?_, rfl⟩
      show _ ++ _ ++ _ = _
      rw [List.append_assoc, List.append_assoc]
      rfl

theorem error_of_failed (closure : Except E R) {close : Except E Unit} (hops : ¬Failed ops)
    (h : Failed (ops ++ [.closure closure.isOk, .closed close.isOk, .released])) :
    ∃ e, (close >>= fun _ => closure) = .error e := by
  cases close with
  | error e => exact ⟨e, rfl⟩
  | ok =>
    cases closure with
    | error e => exact ⟨e, rfl⟩
    | ok r =>
      refine absurd ?_ hops
      simpa [Failed, Except.isOk, Except.toBool] using h

theorem openAndThen_iff (lfs : Littlefs E R) (before : List Op) :
    Sound lfs .openAndThen before ↔ ¬Unseekable lfs false before := by
  obtain ⟨ops, r, h⟩ := obtains lfs before false
  have hrun := perform_obtain h
  cases r with
  | error e =>
    rw [sound_iff_run rfl (perform_openAndThen_error hrun), h.error_iff]
    exact and_iff_left fun _ => ⟨.error e, rfl, fun _ => ⟨e, rfl⟩⟩
  | ok file =>
    obtain ⟨rfl, -, -, -⟩ := h.ok_iff []
    obtain ⟨closure, close, hhelper⟩ := perform_openAndThen_ok hrun
    obtain ⟨-, hseek, hfailed, hclosed⟩ :=
      h.ok_iff [.closure closure.isOk, .closed close.isOk, .released]
    rw [sound_iff_run rfl hhelper]
    exact iff_of_true ⟨hclosed.mpr rfl, fun _ => ⟨_, rfl, error_of_failed closure hfailed⟩⟩ hseek

theorem createAndThen_iff (lfs : Littlefs E R) (before : List Op) :
    Sound lfs .createAndThen before ↔ ¬FailsTwice lfs .createAndThen before := by
  obtain ⟨ops, r, h⟩ := obtains lfs before true
  have hrun := perform_obtain h
  cases h with
  | createError e hcreate =>
    rw [sound_iff_run rfl (perform_createAndThen_error hrun)]
    refine iff_of_true ⟨by decide, fun _ => ⟨.error e, rfl, fun _ => ⟨e, rfl⟩⟩⟩ ?_
    simp [FailsTwice, hcreate, Except.isOk, Except.toBool]
  | created hcreate =>
    cases hclosure : lfs.closure (before ++ [.created true]) with
    | ok r =>
      obtain ⟨close, hhelper⟩ := perform_createAndThen_ok hrun hclosure
      rw [sound_iff_run rfl hhelper]
      refine iff_of_true ⟨rfl, fun _ => ⟨_, rfl, ?_⟩⟩ ?_
      · exact error_of_failed (.ok r) (show ¬Failed [.created true] by decide)
      · simp [FailsTwice, hclosure, Except.isOk, Except.toBool]
    | error e =>
      have hhelper := perform_createAndThen_dropped hrun hclosure
      rw [List.append_assoc] at hhelper
      cases hclose : (lfs.close (before ++ [.created true, .closure false])).isOk with
      | true =>
        rw [show [Op.created true] ++ [.closure false] = [.created true, .closure false] from rfl,
          if_pos hclose] at hhelper
        rw [sound_iff_run rfl hhelper]
        refine iff_of_true ⟨by decide, fun _ => ⟨.error e, rfl, fun _ => ⟨e, rfl⟩⟩⟩ ?_
        simp [FailsTwice, hclose]
      | false =>
        rw [show [Op.created true] ++ [.closure false] = [.created true, .closure false] from rfl,
          if_neg (by simp [hclose])] at hhelper
        rw [sound_iff_run rfl hhelper]
        refine iff_of_false ?_ (not_not_intro ?_)
        · rintro ⟨-, hreported⟩
          obtain ⟨r, hr, -⟩ := hreported rfl
          cases hr
        · refine ⟨rfl, ?_, ?_, hclose⟩
          · rw [hcreate]
            rfl
          · rw [hclosure]
            rfl

theorem session_iff (lfs : Littlefs E R) (creates closes : Bool) (before : List Op) :
    Sound lfs (.session creates closes) before ↔ ¬Unseekable lfs creates before := by
  obtain ⟨ops, r, h⟩ := obtains lfs before creates
  have hrun := perform_obtain h
  cases r with
  | error e =>
    rw [sound_iff_run rfl (perform_session_error closes hrun), h.error_iff]
    exact and_iff_left fun hhelper => Bool.noConfusion hhelper
  | ok file =>
    obtain ⟨rfl, -, -, -⟩ := h.ok_iff []
    obtain ⟨result, rest, hsession, hrest⟩ := perform_session_ok closes hrun
    obtain ⟨-, hseek, -, hclosed⟩ := h.ok_iff rest
    rw [sound_iff_run rfl hsession]
    exact iff_of_true ⟨hclosed.mpr hrest, fun hhelper => Bool.noConfusion hhelper⟩ hseek

/-- A path keeps the promise of `File` unless `seek` fails behind an open, or
the closure and the drop behind it fail on a created file. -/
theorem sound_iff (lfs : Littlefs E R) (path : Path) (before : List Op) :
    Sound lfs path before ↔ ¬Unseekable lfs path.creates before ∧ ¬FailsTwice lfs path before := by
  cases path with
  | openAndThen =>
    rw [openAndThen_iff]
    refine (and_iff_left ?_).symm
    rintro ⟨hpath, -⟩
    cases hpath
  | createAndThen =>
    rw [createAndThen_iff]
    refine (and_iff_right ?_).symm
    rintro ⟨hcreates, -⟩
    cases hcreates
  | session creates closes =>
    rw [session_iff]
    refine (and_iff_left ?_).symm
    rintro ⟨hpath, -⟩
    cases hpath

end Paths

/-- Whatever is not named here succeeds. -/
def failing (seek closure close : Bool) : Littlefs Unit Unit where
  openFile _ := .ok ()
  create _ := .ok ()
  seek _ := if seek then .error () else .ok ()
  closure _ := if closure then .error () else .ok ()
  close _ := if close then .error () else .ok ()

/-- One path leaves the file open, the other panics. -/
theorem failing_not_sound : ¬Sound (failing true false false) .openAndThen [] ∧
    ¬Sound (failing false true true) .createAndThen [] := by
  constructor
  · rw [openAndThen_iff]
    exact not_not_intro ⟨rfl, rfl, rfl⟩
  · rw [createAndThen_iff]
    exact not_not_intro ⟨rfl, rfl, rfl, rfl⟩

end UsbArmory.Storage.FileClosing
