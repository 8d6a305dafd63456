import UsbArmory.Txt2rust.TableText

/-!
# Tables of rows

A table of rows, in one line or in three, gives its registers back where no
description is taken for something else.
-/

set_option autoImplicit false

namespace UsbArmory.Txt2rust.Tables
open UsbArmory.Library.Binary UsbArmory.Library.Strings UsbArmory.Library.Numerals
open UsbArmory.Library.Whitespace UsbArmory.Txt2rust.Parse UsbArmory.Txt2rust.Rows
open UsbArmory.Txt2rust.RowReading UsbArmory.Txt2rust.TableLines UsbArmory.Txt2rust.TableText

variable {row : Row} {prev : Option Text} {rest : List Text}

theorem open_single (h : row.Valid) (afterDescription afterName : ℕ) :
    Opens (spaces row.indent ++
      row.addressColumns (row.descriptionColumns afterDescription afterName row.tail)) := by
  have htrim := trim_columns (framed_address h
      (framed_description row h afterDescription afterName))
    (blank_spaces row.indent) row.tail
  have hspaces : ∀ u, ' '::(spaces afterDescription ++ u) = spaces afterDescription ++ ' '::u := by
    intro u
    have hsucc : ' '::spaces afterDescription = spaces afterDescription ++ [' '] :=
      List.replicate_succ' ..
    rw [← List.cons_append, hsucc, List.append_assoc]
    rfl
  refine ⟨addressText row.digits row.register.absAddr ++ ' '::(spaces row.afterAddress ++
    (row.register.description ++ spaces afterDescription)) ++ [' '],
    row.nameColumns afterName (trimEnd row.tail), htrim.trans ?_, ?_⟩
  · rw [Row.addressColumns, Row.descriptionColumns, hspaces]
    simp only [List.append_assoc, List.cons_append, List.nil_append]
  · intro c hc
    rw [List.getLast?_concat] at hc
    cases hc
    rfl

theorem open_below (name : Text) (below : ℕ) (tail : Text) :
    Opens (spaces below ++ ('('::(name ++ [')']) ++ tail)) :=
  ⟨[], _, trim_below name below tail, nofun⟩

theorem open_last (h : row.Valid) : ∀ l ∈ row.lines.getLast?, Opens l := by
  unfold Row.lines
  cases row.form with
  | single afterDescription afterName =>
    rintro _ ⟨⟩
    exact open_single h _ _
  | split above heading aboveEnd below belowTail =>
    rintro _ ⟨⟩
    exact open_below _ _ _

theorem rowsFrom_none {l : Text} (rest : List Text)
    (h : (line l prev rest.head?).run = .ok none) :
    rowsFrom prev (l::rest) = rowsFrom (some l) rest := by
  rw [rowsFrom, bind_of_ok h]
  cases rowsFrom (some l) rest <;> rfl

theorem rowsFrom_ok {l : Text} {rs : List Register} (h : rowsFrom prev (l::rest) = .ok rs) :
    ∃ found rs', (line l prev rest.head?).run = .ok found ∧ rowsFrom (some l) rest = .ok rs' ∧
      rs = found.toList ++ rs' := by
  obtain ⟨found, hline, h⟩ := ok_of_bind h
  obtain ⟨rs', hrest, h⟩ := ok_of_bind h
  cases h
  exact ⟨found, rs', hline, hrest, rfl⟩

theorem rowsFrom_some {l : Text} {r : Register} (rest : List Text)
    (h : (line l prev rest.head?).run = .ok (some r)) :
    rowsFrom prev (l::rest) = (r::·) <$> rowsFrom (some l) rest := by
  rw [rowsFrom, bind_of_ok h]
  cases rowsFrom (some l) rest <;> rfl

/-- The line of a row that does not hold its description and name. -/
def middle (row : Row) : Text := spaces row.indent ++ row.addressColumns (row.widthColumns row.tail)

theorem middle_closed (h : row.Valid) : '(' ∉ middle row := by
  have hspaces : ∀ n, '(' ∉ spaces n := plain_spaces (by decide)
  have haddress : '(' ∉ addressText row.digits row.register.absAddr :=
    plain_address (by decide) (by decide) _ _
  simp only [middle, Row.addressColumns, List.mem_append, List.mem_cons, not_or]
  exact ⟨hspaces _, haddress, by decide, hspaces _, plain_columns row h h.tail⟩

theorem above_closed (h : row.Valid) {heading : Option (ℕ × Text)}
    (hh : ∀ w ∈ heading, Heading w.2) (above aboveEnd : ℕ) :
    '(' ∉ spaces above ++ (row.register.description ++ headingText aboveEnd heading) :=
  mem_above (by decide) h.description.2.2.1 above aboveEnd fun w hw => (hh w hw).plain.1

theorem line_split (h : row.Valid) {heading : Option (ℕ × Text)} (hh : ∀ w ∈ heading, Heading w.2)
    {belowTail : Text} (hbelow : Tail belowTail) (above aboveEnd below : ℕ) :
    (line (middle row)
      (some (spaces above ++ (row.register.description ++ headingText aboveEnd heading)))
      (some (spaces below ++ ('('::(row.register.name ++ [')']) ++ belowTail)))).run =
    (withoutSection (aboveText row.register.description heading)).map fun description =>
      some { row.register with description := description } := by
  have haround : ∀ text, aroundRow text
      (trim (spaces above ++ (row.register.description ++ headingText aboveEnd heading)))
      (trim (spaces below ++ ('('::(row.register.name ++ [')']) ++ belowTail))) =
      (withoutSection (aboveText row.register.description heading)).map
        fun description => (description, row.register.name) := by
    intro text
    rw [aroundRow_below h hbelow, trim_above h.description.1 h.description.2.1 hh]
  rw [middle, line_middle row h _ _ haround]
  cases withoutSection (aboveText row.register.description heading) <;> rfl

theorem rowsFrom_clear (h : row.Valid) (hclear : row.Clear) (prev : Option Text)
    (rest : List Text) : rowsFrom prev (row.lines ++ rest) =
      (row.register::·) <$> rowsFrom row.lines.getLast? rest := by
  have hform := h.form
  unfold Row.Clear at hclear
  unfold Row.lines
  cases hf : row.form with
  | single afterDescription afterName =>
    rw [hf] at hclear
    exact rowsFrom_some rest (congrArg OptionT.run (line_single row h _ _ hclear _ _))
  | split above heading aboveEnd below belowTail =>
    rw [hf] at hclear hform
    obtain ⟨hheading, hbelow⟩ := hform
    obtain ⟨hlooks, hsection⟩ := hclear
    obtain ⟨hbegins, hends, -, -, -⟩ := h.description
    have hquiet : ∀ next, (line (spaces above ++ (row.register.description ++
        headingText aboveEnd heading)) prev next).run = .ok none := by
      intro next
      refine line_quiet (above_closed h hheading _ _) ?_
      rw [trim_above hbegins hends hheading, looks_above hends hheading]
      exact hlooks
    have hdescription : withoutSection (aboveText row.register.description heading) =
        .ok row.register.description := by
      cases heading with
      | none => exact withoutSection_plain (hsection rfl)
      | some gw => exact withoutSection_heading hbegins hends (hheading _ rfl)
    have hmiddle := line_split h hheading hbelow above aboveEnd below
    rw [hdescription] at hmiddle
    show rowsFrom prev (_::middle row::_::rest) = _
    rw [rowsFrom_none (_::_::rest) (hquiet _), rowsFrom_some (_::rest) hmiddle,
      rowsFrom_none rest (line_below _ _ _)]
    rfl

theorem clear_of_rowsFrom (h : row.Valid) (hprev : ∀ p ∈ prev, Opens p) {rs : List Register}
    (hrun : rowsFrom prev (row.lines ++ rest) = .ok rs) : ∃ found rs',
      rowsFrom row.lines.getLast? rest = .ok rs' ∧ rs = Option.toList found ++ rs' ∧
        (found = some row.register → row.Clear) := by
  have hform := h.form
  unfold Row.Clear
  unfold Row.lines at hrun ⊢
  cases hf : row.form with
  | single afterDescription afterName =>
    rw [hf] at hrun
    obtain ⟨found, rs', hline, hrest, rfl⟩ := rowsFrom_ok hrun
    refine ⟨found, rs', hrest, rfl, ?_⟩
    rintro rfl
    cases hwidth : width (splitOnce ' ' row.register.description).1 with
    | none => rfl
    | some bits =>
      have hword : (splitOnce ' ' (row.descriptionColumns afterDescription afterName
          (trimEnd (trimEnd row.tail)))).1 = (splitOnce ' ' row.register.description).1 :=
        splitOnce_front _ _ _
      rw [Row.addressColumns, line_width h.digits.1 h.digits.2.2
        (framed_description row h afterDescription afterName) _ _ _ _ _ (hword ▸ hwidth)] at hline
      exact absurd (splitRow_opens hprev hline) h.description.2.2.1
  | split above heading aboveEnd below belowTail =>
    rw [hf] at hrun hform
    obtain ⟨hheading, hbelow⟩ := hform
    obtain ⟨hbegins, hends, -, -, -⟩ := h.description
    have hlooks : ¬LooksSplit row.register.description := by
      intro hlooks
      rw [← looks_above hends hheading, ← trim_above hbegins hends hheading above
        aboveEnd] at hlooks
      obtain ⟨found, rs', hline, -⟩ := rowsFrom_ok hrun
      have hnext : ∀ n ∈ some (middle row), '(' ∉ n := by
        rintro _ ⟨⟩
        exact middle_closed h
      have hloud : ∃ message, (line _ prev (some (middle row))).run = .error (.panic message) :=
        line_loud hlooks hnext
      obtain ⟨message, hpanic⟩ := hloud
      cases hpanic.symm.trans hline
    have habove : ¬LooksSplit (trim (spaces above ++ (row.register.description ++
        headingText aboveEnd heading))) := by
      rw [trim_above hbegins hends hheading, looks_above hends hheading]
      exact hlooks
    have hquiet : (line (spaces above ++ (row.register.description ++
        headingText aboveEnd heading)) prev (some (middle row))).run = .ok none :=
      line_quiet (above_closed h hheading above aboveEnd) habove
    have hbelow' : ∀ prev next, (line (spaces below ++ ('('::(row.register.name ++ [')']) ++
      belowTail)) prev next).run = .ok none := fun _ _ => line_below _ _ _
    change rowsFrom prev (_::middle row::_::rest) = .ok rs at hrun
    rw [rowsFrom_none (_::_::rest) hquiet] at hrun
    obtain ⟨found, rs', hline, hrest, rfl⟩ := rowsFrom_ok hrun
    rw [rowsFrom_none rest (hbelow' _ _)] at hrest
    refine ⟨found, rs', hrest, rfl, fun hfound => ⟨hlooks, ?_⟩⟩
    rintro rfl
    by_contra hsection
    have hmiddle := (line_split h hheading hbelow above aboveEnd below).symm.trans hline
    cases hd : withoutSection (aboveText row.register.description none) with
    | error stop =>
      rw [hd] at hmiddle
      cases hmiddle
    | ok description =>
      rw [hd, hfound] at hmiddle
      refine withoutSection_shorter (Bool.of_not_eq_false hsection) hd ?_
      exact congrArg Register.description (Option.some.inj (Except.ok.inj hmiddle))

theorem rows_clear {rows : List Row} (h : ∀ row ∈ rows, row.Valid)
    (hclear : ∀ row ∈ rows, row.Clear) (prev : Option Text) :
    rowsFrom prev (rows.flatMap Row.lines) = .ok (rows.map (·.register)) := by
  induction rows generalizing prev with
  | nil => rfl
  | cons row rows ih =>
    have hrest := ih (fun r hr => h r (List.mem_cons_of_mem _ hr))
      (fun r hr => hclear r (List.mem_cons_of_mem _ hr)) row.lines.getLast?
    rw [List.flatMap_cons, rowsFrom_clear (h row List.mem_cons_self)
      (hclear row List.mem_cons_self), hrest]
    rfl

/-- Each row adds at most one register, so where all are found each row has added its own. -/
theorem clear_rows {rows : List Row} (h : ∀ row ∈ rows, row.Valid) {prev : Option Text}
    (hprev : ∀ p ∈ prev, Opens p) {rs : List Register}
    (hrun : rowsFrom prev (rows.flatMap Row.lines) = .ok rs) :
    rs.length ≤ rows.length ∧ (rs = rows.map (·.register) → ∀ row ∈ rows, row.Clear) := by
  induction rows generalizing prev rs with
  | nil =>
    cases hrun
    exact ⟨Nat.le_refl _, fun _ => nofun⟩
  | cons row rows ih =>
    have hrow := h row List.mem_cons_self
    obtain ⟨found, rs', hrest, rfl, hfound⟩ := clear_of_rowsFrom hrow hprev hrun
    obtain ⟨hlen, hclear⟩ := ih (fun r hr => h r (List.mem_cons_of_mem _ hr)) (open_last hrow) hrest
    cases found with
    | none =>
      refine ⟨Nat.le_succ_of_le hlen, fun heq => ?_⟩
      have hcount := congrArg List.length heq
      rw [List.length_map, List.length_cons] at hcount
      have hsame : (Option.toList none ++ rs').length = rs'.length := rfl
      omega
    | some r =>
      refine ⟨Nat.succ_le_succ hlen, fun heq => ?_⟩
      obtain ⟨hr, hrs⟩ := List.cons.inj heq
      rintro other (_ | ⟨_, hother⟩)
      · exact hfound (congrArg some hr)
      · exact hclear hrs other hother

/-- A table gives back its registers, all of them, in order and nothing else, exactly
if every row is clear. -/
theorem parses_back_iff_clear (rows : List Row) (h : ∀ row ∈ rows, row.Valid) (broken : Bool) :
    registerTable (textOf broken (rows.flatMap Row.lines)) = .ok (rows.map (·.register)) ↔
      ∀ row ∈ rows, row.Clear := by
  have hplain : ∀ l ∈ rows.flatMap Row.lines, Plain l := by
    intro l hl
    obtain ⟨row, hrow, hl⟩ := List.mem_flatMap.mp hl
    exact plain_lines (h row hrow) l hl
  rw [registerTable, lines_textOf broken hplain]
  have hnone : ∀ p ∈ (none : Option Text), Opens p := nofun
  constructor
  · intro hrun
    exact (clear_rows h hnone hrun).2 rfl
  · intro hclear
    exact rows_clear h hclear none

def receiver : Row where
  register := ⟨0x2018000, "UART Receiver Register".toList, "UART7_URXD".toList, 32, .readOnly, 0⟩
  digits := 3
  indent := 2
  afterAddress := 2
  afterWidth := 6
  afterAccess := 6
  tail := "    55.15.1/3611".toList
  form := .single 0 20

def monotonicCounter : Row where
  register := ⟨0x20CC05C, "SNVS_LP Secure Monotonic Counter MSB Register".toList,
    "SNVS_LPSMCMR".toList, 32, .readWrite, 0⟩
  digits := 3
  indent := 1
  afterAddress := 40
  afterWidth := 5
  afterAccess := 5
  tail := []
  form := .split 12 (some (30, "46.7.12/".toList)) 0 13 "    2942".toList

def bitCounter : Row where
  register := ⟨0x2018004, "32 bit counter".toList, "UART7_UCNT".toList, 32, .readOnly, 0⟩
  digits := 3
  indent := 2
  afterAddress := 2
  afterWidth := 6
  afterAccess := 6
  tail := []
  form := .single 0 20

theorem receiver_valid : receiver.Valid where
  name := by decide
  description := ⟨⟨'U', _, rfl, rfl⟩, ⟨"UART Receiver Registe".toList, 'r', rfl, rfl⟩,
    by decide, by decide, by decide⟩
  width := .inr (.inr rfl)
  digits := by decide
  tail := by
    refine ⟨?_, by decide⟩
    rintro _ ⟨⟩
    rfl
  form := trivial

theorem monotonicCounter_valid : monotonicCounter.Valid where
  name := by decide
  description := ⟨⟨'S', _, rfl, rfl⟩,
    ⟨"SNVS_LP Secure Monotonic Counter MSB Registe".toList, 'r', rfl, rfl⟩,
    by decide, by decide, by decide⟩
  width := .inr (.inr rfl)
  digits := by decide
  tail := ⟨nofun, by decide⟩
  form := by
    refine ⟨?_, ?_, by decide⟩
    · rintro _ ⟨⟩
      exact ⟨by decide, solid_iff.mp (by decide), by decide⟩
    · rintro _ ⟨⟩
      rfl

theorem bitCounter_valid : bitCounter.Valid where
  name := by decide
  description := ⟨⟨'3', _, rfl, rfl⟩, ⟨"32 bit counte".toList, 'r', rfl, rfl⟩,
    by decide, by decide, by decide⟩
  width := .inr (.inr rfl)
  digits := by decide
  tail := ⟨nofun, by decide⟩
  form := trivial

theorem receiver_clear : receiver.Clear := by
  show width _ = none
  decide

theorem monotonicCounter_clear : monotonicCounter.Clear := by
  refine ⟨?_, nofun⟩
  rintro ⟨haddress, -⟩
  revert haddress
  decide

theorem parses_back_iff_clear_uart : (∀ row ∈ [receiver, monotonicCounter], row.Valid) ∧
    (∀ row ∈ [receiver, monotonicCounter], row.Clear) ∧
    registerTable (textOf false ([receiver, monotonicCounter].flatMap Row.lines)) =
      .ok ([receiver, monotonicCounter].map (·.register)) := by
  have hvalid : ∀ row ∈ [receiver, monotonicCounter], row.Valid := by
    rintro row (_ | ⟨_, _ | ⟨_, hrow⟩⟩)
    · exact receiver_valid
    · exact monotonicCounter_valid
    · cases hrow
  have hclear : ∀ row ∈ [receiver, monotonicCounter], row.Clear := by
    rintro row (_ | ⟨_, _ | ⟨_, hrow⟩⟩)
    · exact receiver_clear
    · exact monotonicCounter_clear
    · cases hrow
  exact ⟨hvalid, hclear, (parses_back_iff_clear _ hvalid false).mpr hclear⟩

/-- A row in one line whose description begins with a width is taken for a split one. -/
theorem bit_counter_lost : bitCounter.Valid ∧ registerTable (textOf true bitCounter.lines) =
    .error (.panic "found split row; previous line is required") :=
  ⟨bitCounter_valid, by decide +kernel⟩

end UsbArmory.Txt2rust.Tables
