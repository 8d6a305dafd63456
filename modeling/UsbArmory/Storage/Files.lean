import UsbArmory.Library.Trace

/-!
# Files of the file system

`File` closes its littlefs2 file when it is closed or dropped, and the two
helpers run a closure on a file whose allocation they own. littlefs2's own file
does not close itself. What each call returns is left to the surroundings.
-/

set_option autoImplicit false

namespace UsbArmory.Storage.Files
open UsbArmory.Library.Binary UsbArmory.Library.Trace

/-- The calls of littlefs2 and of the closure, with whether they return `Ok`,
and the end of the allocation. -/
inductive Op
  | opened (ok : Bool)
  | created (ok : Bool)
  | seek (ok : Bool)
  | closure (ok : Bool)
  | closed (ok : Bool)
  | released
deriving DecidableEq

/-- What the calls return, which may depend on all the calls before. -/
structure Littlefs (E R : Type) where
  openFile : List Op → Except E Unit
  create : List Op → Except E Unit
  seek : List Op → Except E Unit
  closure : List Op → Except E R
  close : List Op → Except E Unit

/-- An error of littlefs2 is a value here; what stops a run is a panic. -/
abbrev Calls (α : Type) := Traced Op Empty α

structure Handle

structure File where
  inner : Option Handle

section Program
variable {E R α : Type}

def call (op : Bool → Op) (result : List Op → Except E α) : Calls (Except E α) :=
  operation fun before => (op (result before).isOk, .ok (result before))

def release : Calls Unit := operation fun _ => (.released, .ok ())

variable (lfs : Littlefs E R)

def File.open : Calls (Except E File) := do
  match ← call .opened lfs.openFile with
  | .error e => pure (.error e)
  | .ok () =>
    match ← call .seek lfs.seek with
    | .error e => pure (.error e)
    | .ok () => pure (.ok ⟨some ⟨⟩⟩)

def File.create : Calls (Except E File) := do
  match ← call .created lfs.create with
  | .error e => pure (.error e)
  | .ok () => pure (.ok ⟨some ⟨⟩⟩)

/-- `Drop::drop` -/
def File.drop (self : File) : Calls Unit :=
  match self.inner with
  | none => pure ()
  | some _ => do
    match ← call .closed lfs.close with
    | .error _ => throw (.panic "called Result::unwrap() on an Err value")
    | .ok () => pure ()

def File.close (self : File) : Calls (Except E Unit) :=
  match self.inner with
  | none => throw (.panic "internal error: entered unreachable code")
  | some _ => do
    let res ← call .closed lfs.close
    File.drop lfs ⟨none⟩
    pure res

def File.openAndThen : Calls (Except E R) := do
  match ← File.open lfs with
  | .error e =>
    release
    pure (.error e)
  | .ok file =>
    let res ← call .closure lfs.closure
    match ← file.close lfs with
    | .error e =>
      release
      pure (.error e)
    | .ok () =>
      release
      pure res

def File.createAndThen : Calls (Except E R) := do
  match ← File.create lfs with
  | .error e =>
    release
    pure (.error e)
  | .ok file =>
    match ← call .closure lfs.closure with
    | .error e =>
      file.drop lfs
      release
      pure (.error e)
    | .ok r =>
      match ← file.close lfs with
      | .error e =>
        release
        pure (.error e)
      | .ok () =>
        release
        pure (.ok r)

def obtain (creates : Bool) : Calls (Except E File) :=
  if creates then File.create lfs else File.open lfs

/-- A caller that has the allocation, and closes the file or drops it. -/
def session (creates closes : Bool) : Calls Unit := do
  match ← obtain lfs creates with
  | .error _ => release
  | .ok file =>
    if closes then
      let _ ← file.close lfs
      release
    else
      file.drop lfs
      release

end Program

/-- Whether the allocation holds a file that littlefs2 has open. It must not be
opened twice, closed twice, or released while it does. -/
def step : Bool → Op → Option Bool
  | true, .opened true | true, .created true | true, .released | false, .closed _ => none
  | false, .opened true | false, .created true => some true
  | true, .closed _ => some false
  | holds, _ => some holds

def replay (ops : List Op) (holds : Bool) : Option Bool := ops.foldlM step holds

/-- Each file that is opened is closed once before its allocation is released. -/
def ClosedOnce (ops : List Op) : Prop := replay ops false = some false

instance (ops : List Op) : Decidable (ClosedOnce ops) :=
  inferInstanceAs (Decidable (replay ops false = some false))

inductive Path
  | openAndThen
  | createAndThen
  | session (creates closes : Bool)
deriving DecidableEq

section Paths
variable {E R α : Type} (lfs : Littlefs E R)

def Path.run : Path → Calls (Option (Except E R))
  | .openAndThen => some <$> File.openAndThen lfs
  | .createAndThen => some <$> File.createAndThen lfs
  | .session creates closes => (fun _ => none) <$> Files.session lfs creates closes

def Path.creates : Path → Bool
  | .openAndThen => false
  | .createAndThen => true
  | .session creates _ => creates

def Path.helper : Path → Bool
  | .session _ _ => false
  | _ => true

def Failed (ops : List Op) : Prop := .closure false ∈ ops ∨ .closed false ∈ ops

instance (ops : List Op) : Decidable (Failed ops) :=
  inferInstanceAs (Decidable (.closure false ∈ ops ∨ .closed false ∈ ops))

def Sound (path : Path) (before : List Op) : Prop :=
  ∃ ops, (perform (path.run lfs) before).2 = before ++ ops ∧ ClosedOnce ops ∧
    (path.helper = true → ∃ r, (perform (path.run lfs) before).1 = .ok (some r) ∧
      (Failed ops → ∃ e, r = .error e))

/-- The file is open and `seek` fails. -/
def Unseekable (creates : Bool) (before : List Op) : Prop :=
  creates = false ∧ (lfs.openFile before).isOk = true ∧
    (lfs.seek (before ++ [.opened true])).isOk = false

/-- The closure fails on a created file, and so does the close behind it. -/
def FailsTwice (path : Path) (before : List Op) : Prop :=
  path = .createAndThen ∧ (lfs.create before).isOk = true ∧
    (lfs.closure (before ++ [.created true])).isOk = false ∧
    (lfs.close (before ++ [.created true, .closure false])).isOk = false

variable {lfs} {path : Path} {before ops : List Op}

theorem perform_call_bind {β : Type} (op : Bool → Op) (result : List Op → Except E α)
    (f : Except E α → Calls β) (before : List Op) : perform (call op result >>= f) before =
      perform (f (result before)) (before ++ [op (result before).isOk]) := perform_bind_ok rfl

/-- How a file is obtained. Where `seek` fails the file is open behind an error. -/
inductive Obtains (lfs : Littlefs E R) (before : List Op) : Bool → List Op → Except E File → Prop
  | openError (e : E) (hopen : lfs.openFile before = .error e) :
      Obtains lfs before false [.opened false] (.error e)
  | seekError (e : E) (hopen : lfs.openFile before = .ok ())
      (hseek : lfs.seek (before ++ [.opened true]) = .error e) :
      Obtains lfs before false [.opened true, .seek false] (.error e)
  | opened (hopen : lfs.openFile before = .ok ())
      (hseek : lfs.seek (before ++ [.opened true]) = .ok ()) :
      Obtains lfs before false [.opened true, .seek true] (.ok ⟨some ⟨⟩⟩)
  | createError (e : E) (hcreate : lfs.create before = .error e) :
      Obtains lfs before true [.created false] (.error e)
  | created (hcreate : lfs.create before = .ok ()) :
      Obtains lfs before true [.created true] (.ok ⟨some ⟨⟩⟩)

theorem obtains (lfs : Littlefs E R) (before : List Op) (creates : Bool) :
    ∃ ops r, Obtains lfs before creates ops r := by
  cases creates with
  | true =>
    rcases hcreate : lfs.create before with e | ⟨⟩
    · exact ⟨_, _, .createError e hcreate⟩
    · exact ⟨_, _, .created hcreate⟩
  | false =>
    rcases hopen : lfs.openFile before with e | ⟨⟩
    · exact ⟨_, _, .openError e hopen⟩
    · rcases hseek : lfs.seek (before ++ [.opened true]) with e | ⟨⟩
      · exact ⟨_, _, .seekError e hopen hseek⟩
      · exact ⟨_, _, .opened hopen hseek⟩

theorem perform_obtain {creates : Bool} {r : Except E File} (h : Obtains lfs before creates ops r) :
    perform (obtain lfs creates) before = (.ok r, before ++ ops) := by
  cases h with
  | openError e hopen =>
    show perform (call .opened lfs.openFile >>= _) before = _
    rw [perform_call_bind, hopen]
    rfl
  | seekError e hopen hseek =>
    show perform (call .opened lfs.openFile >>= _) before = _
    rw [perform_call_bind, hopen]
    show perform (call .seek lfs.seek >>= _) (before ++ [.opened true]) = _
    rw [perform_call_bind, hseek, List.append_assoc]
    rfl
  | opened hopen hseek =>
    show perform (call .opened lfs.openFile >>= _) before = _
    rw [perform_call_bind, hopen]
    show perform (call .seek lfs.seek >>= _) (before ++ [.opened true]) = _
    rw [perform_call_bind, hseek, List.append_assoc]
    rfl
  | createError e hcreate =>
    show perform (call .created lfs.create >>= _) before = _
    rw [perform_call_bind, hcreate]
    rfl
  | created hcreate =>
    show perform (call .created lfs.create >>= _) before = _
    rw [perform_call_bind, hcreate]
    rfl

theorem Obtains.unseekable_iff {creates : Bool} {r : Except E File}
    (h : Obtains lfs before creates ops r) :
    Unseekable lfs creates before ↔ ops = [.opened true, .seek false] := by
  cases h with
  | openError e hopen => simp [Unseekable, hopen, Except.isOk, Except.toBool]
  | seekError e hopen hseek => simp [Unseekable, hopen, hseek, Except.isOk, Except.toBool]
  | opened hopen hseek => simp [Unseekable, hopen, hseek, Except.isOk, Except.toBool]
  | createError e hcreate => simp [Unseekable]
  | created hcreate => simp [Unseekable]

theorem Obtains.error_iff {creates : Bool} {e : E} (h : Obtains lfs before creates ops (.error e)) :
    ClosedOnce (ops ++ [.released]) ↔ ¬Unseekable lfs creates before := by
  rw [h.unseekable_iff]
  cases h with
  | openError e hopen => decide
  | seekError e hopen hseek => decide
  | createError e hcreate => decide

theorem Obtains.ok_iff {creates : Bool} {file : File}
    (h : Obtains lfs before creates ops (.ok file)) (rest : List Op) : file = ⟨some ⟨⟩⟩ ∧
      ¬Unseekable lfs creates before ∧ ¬Failed ops ∧
      (ClosedOnce (ops ++ rest) ↔ replay rest true = some false) := by
  rw [h.unseekable_iff]
  cases h with
  | opened hopen hseek => exact ⟨rfl, by decide, by decide, Iff.rfl⟩
  | created hcreate => exact ⟨rfl, by decide, by decide, Iff.rfl⟩

theorem perform_close (lfs : Littlefs E R) (h : Handle) (before : List Op) :
    perform (File.close lfs ⟨some h⟩) before =
      (.ok (lfs.close before), before ++ [.closed (lfs.close before).isOk]) := rfl

theorem perform_drop (lfs : Littlefs E R) (h : Handle) (before : List Op) :
    perform (File.drop lfs ⟨some h⟩) before =
      (if (lfs.close before).isOk then .ok ()
        else .error (.panic "called Result::unwrap() on an Err value"),
      before ++ [.closed (lfs.close before).isOk]) := by
  rw [File.drop, perform_call_bind]
  cases lfs.close before <;> rfl

end Paths

end UsbArmory.Storage.Files
