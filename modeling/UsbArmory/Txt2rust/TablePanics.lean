import UsbArmory.Library.Traversal
import UsbArmory.Txt2rust.RowShapes

/-!
# Where the table parser stops

A line that begins with an address and a width is the middle of a row in three
lines, and the parser gives up where the lines around it cannot hold the rest.
-/

set_option autoImplicit false

namespace UsbArmory.Txt2rust.TablePanics
open UsbArmory.Library.Binary UsbArmory.Library.Strings UsbArmory.Library.Whitespace
open UsbArmory.Library.Traversal UsbArmory.Txt2rust.Parse UsbArmory.Txt2rust.Rows
open UsbArmory.Txt2rust.RowReading UsbArmory.Txt2rust.TableLines UsbArmory.Txt2rust.RowShapes

variable {α β : Type} {w : Window} {prev next text : Text} {address : UInt32} {bits : UInt8}
  {columns : Option Text}

def windowsFrom : Option Text → List Text → List Window
  | _, [] => []
  | prev, row::rest => ⟨prev, row, rest.head?⟩::windowsFrom (some row) rest

def windows (txt : Text) : List Window := windowsFrom none (lines txt)

def Split (w : Window) : Prop := LooksSplit (trim w.row)

/-- There is a line above and one below, which has both parentheses. -/
def Enclosed (w : Window) : Prop :=
  ∃ prev next, w.above = some prev ∧ w.below = some next ∧ '(' ∈ next ∧ ')' ∈ next

/-- The line above is a section reference and nothing else. -/
def UnderSection (w : Window) : Prop :=
  ∃ prev, w.above = some prev ∧ isSection (trim prev) = true ∧ ' ' ∉ trim prev

/-- The message for a row in three lines that is not enclosed. -/
inductive Refused : Window → String → Prop where
  | first (row : Text) (below : Option Text) :
      Refused ⟨none, row, below⟩ "found split row; previous line is required"
  | last (above row : Text) :
      Refused ⟨some above, row, none⟩ "found split row; next line is required"
  | unclosed {above row below : Text} (parens : ¬('(' ∈ below ∧ ')' ∈ below)) :
      Refused ⟨some above, row, some below⟩ ("not implemented: \n" ++ String.ofList (trim above) ++
        "\n" ++ String.ofList (trim row) ++ "\n" ++ String.ofList (trim below))

def Quiet (x : Found α) : Prop := ∃ v, x.run = .ok v

theorem quiet_found (v : Option α) : Quiet (found v) := ⟨v, rfl⟩

theorem quiet_pure (a : α) : Quiet (pure a : Found α) := ⟨some a, rfl⟩

theorem quiet_bind {x : Found α} {f : α → Found β} (hx : Quiet x) (hf : ∀ a, Quiet (f a)) :
    Quiet (x >>= f) := by
  obtain ⟨v, hv⟩ := hx
  cases v with
  | none =>
    refine ⟨none, ?_⟩
    rw [OptionT.run_bind, hv]
    rfl
  | some a =>
    obtain ⟨o, ho⟩ := hf a
    refine ⟨o, ?_⟩
    rw [OptionT.run_bind, hv]
    exact ho

theorem quiet_lastColumns (s : Text) : Quiet (lastColumns s) :=
  quiet_bind (quiet_found _) fun _ => quiet_bind (quiet_found _) fun _ =>
    quiet_bind (quiet_found _) fun _ => quiet_pure _

theorem quiet_oneRow (address : UInt32) (rest : Text) : Quiet (oneRow address rest) := by
  refine quiet_bind (quiet_found _) fun description => ?_
  dsimp only
  split
  · exact ⟨none, rfl⟩
  · exact quiet_bind (quiet_found _) fun columns => quiet_bind (quiet_found _) fun bits =>
      quiet_bind (quiet_found _) fun last => quiet_bind (quiet_lastColumns _) fun _ => quiet_pure _

theorem quiet_line (h : ¬Split w) : Quiet w.line := by
  rcases line_unsplit w.above w.below h with hnone | ⟨address, rest, -, hone⟩
  · exact ⟨none, hnone⟩
  · rw [Window.line, hone]
    exact quiet_oneRow address rest

theorem withoutSection_defined (h : ¬(isSection prev = true ∧ ' ' ∉ prev)) :
    ∃ d, withoutSection prev = .ok d := by
  unfold withoutSection
  dsimp only
  split
  next hsection =>
    cases hsplit : (rsplitOnce ' ' prev).2 with
    | some front => exact ⟨trim front, rfl⟩
    | none =>
      have hwhole := rsplitOnce_whole hsplit
      rw [rsplitOnce_none hwhole] at hsection
      exact absurd ⟨hsection, hwhole⟩ h
  next => exact ⟨prev, rfl⟩

theorem withoutSection_alone (hsection : isSection prev = true) (hspace : ' ' ∉ prev) :
    withoutSection prev = .error (.panic "UNREACHABLE") := by
  unfold withoutSection
  rw [rsplitOnce_none hspace]
  exact if_pos hsection

theorem contains_iff (next : Text) : ((trim next).contains '(' && (trim next).contains ')') = true ↔
    '(' ∈ next ∧ ')' ∈ next := by
  rw [Bool.and_eq_true_iff, List.contains_iff_mem, List.contains_iff_mem, mem_trim_iff rfl,
    mem_trim_iff rfl]

theorem aroundRow_parens (hparens : '(' ∈ next ∧ ')' ∈ next) (text prev : Text) :
    ∃ f : Text → Text × Text, aroundRow text prev (trim next) = f <$> withoutSection prev := by
  have hopen : '(' ∈ trim next := mem_trim rfl hparens.1
  cases hsplit : (rsplitOnce '(' (trim next)).2 with
  | none => exact absurd hopen (rsplitOnce_whole hsplit)
  | some before =>
    unfold aroundRow
    simp only [(contains_iff next).mpr hparens, hsplit]
    exact ⟨_, rfl⟩

theorem aroundRow_unclosed (hparens : ¬('(' ∈ next ∧ ')' ∈ next)) :
    aroundRow text prev (trim next) = .error (.panic ("not implemented: \n" ++
      String.ofList prev ++ "\n" ++ String.ofList text ++ "\n" ++ String.ofList (trim next))) :=
  if_neg fun h => hparens ((contains_iff next).mp h)

theorem splitRow_around {above below : Text} {around : Except (Stop Empty) (Text × Text)}
    (h : aroundRow text (trim above) (trim below) = around) :
    (∀ texts, around = .ok texts →
      Quiet (splitRow text address bits columns (some above) (some below))) ∧
    ∀ stop, around = .error stop →
      (splitRow text address bits columns (some above) (some below)).run = .error stop := by
  unfold splitRow
  rw [expect_some rfl, expect_some rfl, run_lift, run_lift, h]
  constructor
  · rintro texts rfl
    rw [run_lift]
    exact quiet_bind (quiet_found _) fun _ => quiet_bind (quiet_lastColumns _) fun _ => quiet_pure _
  · rintro stop rfl
    rfl

theorem quiet_split (h : Split w) (henclosed : Enclosed w) (hsection : ¬UnderSection w) :
    Quiet w.line := by
  obtain ⟨address, bits, columns, hline⟩ := line_split w.above w.below h
  obtain ⟨prev, next, habove, hbelow, hparens⟩ := henclosed
  obtain ⟨f, hf⟩ := aroundRow_parens hparens (trim w.row) (trim prev)
  obtain ⟨d, hd⟩ := withoutSection_defined fun halone => hsection ⟨prev, habove, halone⟩
  rw [Window.line, hline, habove, hbelow]
  refine (splitRow_around hf).1 (f d) ?_
  rw [hd]
  rfl

theorem split_section (h : Split w) (henclosed : Enclosed w) (hsection : UnderSection w) :
    w.line.run = .error (.panic "UNREACHABLE") := by
  obtain ⟨address, bits, columns, hline⟩ := line_split w.above w.below h
  obtain ⟨prev, next, habove, hbelow, hparens⟩ := henclosed
  obtain ⟨prev', habove', halone, hspace⟩ := hsection
  cases habove.symm.trans habove'
  obtain ⟨f, hf⟩ := aroundRow_parens hparens (trim w.row) (trim prev)
  rw [Window.line, hline, habove, hbelow]
  refine (splitRow_around hf).2 _ ?_
  rw [withoutSection_alone halone hspace]
  rfl

theorem split_refused (h : Split w) (henclosed : ¬Enclosed w) :
    ∃ message, Refused w message ∧ w.line.run = .error (.panic message) := by
  obtain ⟨address, bits, columns, hline⟩ := line_split w.above w.below h
  obtain ⟨above, row, below⟩ := w
  rw [Window.line, hline]
  cases above with
  | none => exact ⟨_, .first row below, rfl⟩
  | some prev =>
    cases below with
    | none => exact ⟨_, .last prev row, rfl⟩
    | some next =>
      have hparens : ¬('(' ∈ next ∧ ')' ∈ next) := fun h => henclosed ⟨prev, next, rfl, rfl, h⟩
      exact ⟨_, .unclosed hparens, (splitRow_around (aroundRow_unclosed hparens)).2 _ rfl⟩

theorem line_stops {stop : Stop Empty} (h : w.line.run = .error stop) : Split w ∧
    (Enclosed w ∧ UnderSection w ∧ stop = .panic "UNREACHABLE" ∨
      ¬Enclosed w ∧ ∃ message, Refused w message ∧ stop = .panic message) := by
  have hquiet : ¬Quiet w.line := by
    rintro ⟨v, hv⟩
    cases hv.symm.trans h
  have hsplit : Split w := by_contra fun hsplit => hquiet (quiet_line hsplit)
  refine ⟨hsplit, ?_⟩
  by_cases henclosed : Enclosed w
  · have hsection : UnderSection w :=
      by_contra fun hsection => hquiet (quiet_split hsplit henclosed hsection)
    have hline := split_section hsplit henclosed hsection
    exact .inl ⟨henclosed, hsection, Except.error.inj (h.symm.trans hline)⟩
  · obtain ⟨message, hmessage, hline⟩ := split_refused hsplit henclosed
    exact .inr ⟨henclosed, message, hmessage, Except.error.inj (h.symm.trans hline)⟩

theorem line_panics {stop : Stop Empty} (h : w.line.run = .error stop) :
    ∃ message, stop = .panic message := by
  rcases (line_stops h).2 with ⟨-, -, hstop⟩ | ⟨-, message, -, hstop⟩
  · exact ⟨_, hstop⟩
  · exact ⟨message, hstop⟩

theorem refused_of_panic {message : String} (hsection : Split w → Enclosed w → ¬UnderSection w)
    (h : w.line.run = .error (.panic message)) : Split w ∧ ¬Enclosed w ∧ Refused w message := by
  obtain ⟨hsplit, ⟨henclosed, hunder, -⟩ | ⟨henclosed, _, hmessage, hstop⟩⟩ := line_stops h
  · exact absurd hunder (hsection hsplit henclosed)
  · cases hstop
    exact ⟨hsplit, henclosed, hmessage⟩

theorem rowsFrom_windows (prev : Option Text) (ls : List Text) :
    rowsFrom prev ls = List.reduceOption <$> (windowsFrom prev ls).mapM (·.line.run) := by
  induction ls generalizing prev with
  | nil => rfl
  | cons row rest ih =>
    rw [rowsFrom, windowsFrom, List.mapM_cons, ih]
    show (line row prev rest.head?).run >>= _ = _ <$> ((line row prev rest.head?).run >>= _)
    cases (line row prev rest.head?).run with
    | error stop => rfl
    | ok found =>
      cases (windowsFrom (some row) rest).mapM (·.line.run) with
      | error stop => rfl
      | ok founds => cases found <;> rfl

theorem mem_windowsFrom {prev : Option Text} {ls : List Text} (h : w ∈ windowsFrom prev ls) :
    w.row ∈ ls := by
  induction ls generalizing prev with
  | nil => cases h
  | cons row rest ih =>
    rcases h with _ | ⟨_, h⟩
    · exact List.mem_cons_self
    · exact List.mem_cons_of_mem _ (ih h)

theorem registerTable_windows (txt : Text) :
    registerTable txt = List.reduceOption <$> (windows txt).mapM (·.line.run) :=
  rowsFrom_windows none (lines txt)

theorem table_outcome (txt : Text) : (∃ registers, registerTable txt = .ok registers) ∨
    ∃ message front w back, registerTable txt = .error (.panic message) ∧ w ∈ windows txt ∧
      windows txt = front ++ w::back ∧ (∀ v ∈ front, Quiet v.line) ∧
      w.line.run = .error (.panic message) := by
  rw [registerTable_windows]
  cases hrun : (windows txt).mapM (·.line.run) with
  | ok founds => exact .inl ⟨founds.reduceOption, rfl⟩
  | error stop =>
    obtain ⟨front, w, back, hsplit, hfront, hw⟩ := mapM_error hrun
    obtain ⟨message, rfl⟩ := line_panics hw
    have hmem : w ∈ windows txt := by
      rw [hsplit]
      exact List.mem_append_right _ List.mem_cons_self
    exact .inr ⟨message, front, w, back, rfl, hmem, hsplit, hfront, hw⟩

theorem enclosed_of_quiet (h : Quiet w.line) (hsplit : Split w) : Enclosed w := by
  by_contra henclosed
  obtain ⟨v, hv⟩ := h
  obtain ⟨message, -, hline⟩ := split_refused hsplit henclosed
  cases hline.symm.trans hv

theorem table_rows {txt : Text} {registers : List Register}
    (h : registerTable txt = .ok registers) :
    (∀ w ∈ windows txt, Quiet w.line) ∧ Picked RowOf (windows txt) registers := by
  rw [registerTable_windows] at h
  obtain ⟨founds, hrun, rfl⟩ := map_ok_iff.mp h
  have hall := mapM_ok hrun
  have hquiet : ∀ w ∈ windows txt, Quiet w.line := by
    intro w hw
    obtain ⟨found, -, hfound⟩ := mem_of_forall₂ hall w hw
    exact ⟨found, hfound⟩
  refine ⟨hquiet, picked_reduceOption (hall.imp ?_)⟩
  intro w found hfound r
  rw [← line_iff, hfound]
  exact ⟨congrArg Except.ok, Except.ok.inj⟩

theorem address_of_row {r : Register} (h : RowOf w r) : ∃ word rest,
    CutAt ' ' (trim w.row) word rest ∧ HexAddress word ∧ absAddr word = some r.absAddr := by
  obtain ⟨word, rest, first, hcut, haddress, -⟩ := h
  exact ⟨word, rest, hcut, hexAddress_of_absAddr haddress, haddress⟩

/-- The parser returns a list or panics. Where no section reference stands alone above an
enclosed row, it returns exactly if every row in three lines is enclosed, and otherwise
refuses the first that is not. What it returns are the registers of the rows, in order. -/
theorem returns_iff_enclosed (txt : Text) :
    ((∃ registers, registerTable txt = .ok registers) ∨
      ∃ message, registerTable txt = .error (.panic message)) ∧
    ((∀ w ∈ windows txt, Split w → Enclosed w → ¬UnderSection w) →
      ((∃ registers, registerTable txt = .ok registers) ↔
        ∀ w ∈ windows txt, Split w → Enclosed w) ∧
      ∀ message, registerTable txt = .error (.panic message) → ∃ front w back,
        windows txt = front ++ w::back ∧ (∀ v ∈ front, Split v → Enclosed v) ∧ Split w ∧
          Refused w message) ∧
    ∀ registers, registerTable txt = .ok registers → Picked RowOf (windows txt) registers ∧
      ∀ r ∈ registers, ∃ l ∈ lines txt, ∃ word rest, CutAt ' ' (trim l) word rest ∧
        HexAddress word ∧ absAddr word = some r.absAddr := by
  refine ⟨?_, fun hsection => ?_, fun registers hrun => ?_⟩
  · rcases table_outcome txt with hok | ⟨message, _, _, _, hrun, -⟩
    · exact .inl hok
    · exact .inr ⟨message, hrun⟩
  · refine ⟨⟨?_, fun hall => ?_⟩, fun message hrun => ?_⟩
    · rintro ⟨registers, hrun⟩ w hw
      exact enclosed_of_quiet ((table_rows hrun).1 w hw)
    · rcases table_outcome txt with hok | ⟨message, front, w, back, -, hw, -, -, hline⟩
      · exact hok
      · obtain ⟨hsplit, henclosed, -⟩ := refused_of_panic (hsection w hw) hline
        exact absurd (hall w hw hsplit) henclosed
    · rcases table_outcome txt with ⟨registers, hok⟩
        | ⟨message', front, w, back, hrun', hw, hwindows,
        hfront, hline⟩
      · cases hok.symm.trans hrun
      · cases hrun'.symm.trans hrun
        obtain ⟨hsplit, -, hmessage⟩ := refused_of_panic (hsection w hw) hline
        have hbefore : ∀ v ∈ front, Split v → Enclosed v :=
          fun v hv => enclosed_of_quiet (hfront v hv)
        exact ⟨front, w, back, hwindows, hbefore, hsplit, hmessage⟩
  · obtain ⟨-, hpicked⟩ := table_rows hrun
    refine ⟨hpicked, fun r hr => ?_⟩
    obtain ⟨w, hw, hrow⟩ := exists_of_picked hpicked r hr
    obtain ⟨word, rest, hcut, haddress⟩ := address_of_row hrow
    exact ⟨w.row, mem_windowsFrom hw, word, rest, hcut, haddress⟩

/-- A row in three lines at the start or at the end of the text, above a line without
parentheses, and below a section reference alone. -/
theorem split_rows_refused :
    registerTable "20C_C024 32 R/W 0000_0000h".toList =
      .error (.panic "found split row; previous line is required") ∧
    registerTable "Counter\n20C_C024 32 R/W 0000_0000h".toList =
      .error (.panic "found split row; next line is required") ∧
    registerTable "Counter\n20C_C024 32 R/W 0000_0000h\nSNVS_HPRTCMR".toList =
      .error (.panic "not implemented: \nCounter\n20C_C024 32 R/W 0000_0000h\nSNVS_HPRTCMR") ∧
    registerTable "46.7.5/2932\n20C_C024 32 R/W 0000_0000h\n(SNVS_HPRTCMR)".toList =
      .error (.panic "UNREACHABLE") := by
  refine ⟨?_, ?_, ?_, ?_⟩ <;> decide +kernel

end UsbArmory.Txt2rust.TablePanics
