import UsbArmory.Txt2rust.TableLines

/-!
# The lines of a row as text

No line of a row breaks, and none ends in a carriage return.
-/

set_option autoImplicit false

namespace UsbArmory.Txt2rust.TableText
open UsbArmory.Library.Binary UsbArmory.Library.Strings UsbArmory.Library.Numerals
open UsbArmory.Library.Whitespace UsbArmory.Txt2rust.Parse UsbArmory.Txt2rust.Rows
open UsbArmory.Txt2rust.RowReading UsbArmory.Txt2rust.TableLines

variable {row : Row}

theorem plain_framed {f : Text → Text} (hf : Framed f) (a : Text) {t : Text} (ht : '\r' ∉ t)
    (hbreak : '\n' ∉ a ++ f t) : Plain (a ++ f t) := by
  obtain ⟨front, c, hfront, hc⟩ := hf.ends
  have hline : a ++ f t = (a ++ front) ++ (c::t) := by
    rw [hf.tail, hfront]
    simp only [List.append_assoc, List.singleton_append]
  refine ⟨by rw [hline]; simp, hbreak, fun hlast => ?_⟩
  rw [hline, List.getLast?_append, List.getLast?_cons] at hlast
  cases ht' : t.getLast? with
  | none =>
    rw [ht'] at hlast
    cases hlast
    cases hc
  | some x =>
    rw [ht'] at hlast
    cases hlast
    exact ht (List.mem_of_getLast? ht')

theorem framed_append {s : Text} (hb : Begins s) (he : Ends s) : Framed (s ++ ·) where
  tail t := by rw [List.append_nil]
  begins := begins_append hb []
  ends := by
    rw [List.append_nil]
    exact he

theorem unbroken_columns (h : row.Valid) {tail : Text} (htail : '\n' ∉ tail) :
    '\n' ∉ row.widthColumns tail := by
  have hspaces : ∀ n, '\n' ∉ spaces n := plain_spaces (by decide)
  have hvalue : '\n' ∉ valueText row.register.resetValue :=
    plain_value (by decide) (by decide) (by decide) _
  have haccess : '\n' ∉ accessText row.register.access := by
    cases row.register.access <;> decide
  have hwidth : '\n' ∉ widthText row.register.width := by
    rcases h.width with hw | hw | hw <;> rw [hw] <;> decide
  simp only [Row.widthColumns, Row.accessColumns, List.mem_append, List.mem_cons, not_or]
  exact ⟨hwidth, by decide, hspaces _, haccess, by decide, hspaces _, hvalue, htail⟩

theorem unbroken_address {r : Text} (hr : '\n' ∉ r) :
    '\n' ∉ spaces row.indent ++ row.addressColumns r := by
  have haddress : '\n' ∉ addressText row.digits row.register.absAddr :=
    plain_address (by decide) (by decide) _ _
  have hspaces : ∀ n, '\n' ∉ spaces n := plain_spaces (by decide)
  simp only [Row.addressColumns, List.mem_append, List.mem_cons, not_or]
  exact ⟨hspaces _, haddress, by decide, hspaces _, hr⟩

theorem framed_address {f : Text → Text} (h : row.Valid) (hf : Framed f) :
    Framed fun t => row.addressColumns (f t) :=
  framed_cons hf (begins_address h.digits.1 _) (' '::spaces row.afterAddress)

theorem plain_single (h : row.Valid) (afterDescription afterName : ℕ) :
    Plain (spaces row.indent ++
      row.addressColumns (row.descriptionColumns afterDescription afterName row.tail)) := by
  have hcolumns : '\n' ∉ row.descriptionColumns afterDescription afterName row.tail := by
    have hspaces : ∀ n, '\n' ∉ spaces n := plain_spaces (by decide)
    simp only [Row.descriptionColumns, Row.nameColumns, List.mem_append, List.mem_cons, not_or]
    exact ⟨h.description.2.2.2.2, by decide, hspaces _, by decide, h.name.2.2.2.2, by decide,
      by decide, hspaces _, unbroken_columns h h.tail.plain.2.2.1⟩
  exact plain_framed (framed_address h (framed_description row h afterDescription afterName)) _
    h.tail.plain.2.2.2 (unbroken_address hcolumns)

theorem plain_middle (h : row.Valid) :
    Plain (spaces row.indent ++ row.addressColumns (row.widthColumns row.tail)) :=
  plain_framed (framed_address h (framed_width row h)) _ h.tail.plain.2.2.2
    (unbroken_address (unbroken_columns h h.tail.plain.2.2.1))

theorem above_grouped (d : Text) (aboveEnd : ℕ) (heading : Option (ℕ × Text)) :
    d ++ headingText aboveEnd heading = aboveText d heading ++ spaces aboveEnd := by
  cases heading with
  | none => rfl
  | some gw => simp only [headingText, aboveText, List.append_assoc, List.cons_append]

theorem mem_above {c : Char} (hc : c ≠ ' ') {d : Text} (hd : c ∉ d) (above aboveEnd : ℕ)
    {heading : Option (ℕ × Text)} (hh : ∀ w ∈ heading, c ∉ w.2) :
    c ∉ spaces above ++ (d ++ headingText aboveEnd heading) := by
  have hspaces : ∀ n, c ∉ spaces n := plain_spaces hc
  cases heading with
  | none =>
    simp only [headingText, List.mem_append, not_or]
    exact ⟨hspaces _, hd, hspaces _⟩
  | some gw =>
    simp only [headingText, List.mem_append, List.mem_cons, not_or]
    exact ⟨hspaces _, hd, hc, hspaces _, hh _ rfl, hspaces _⟩

theorem plain_above (h : row.Valid) {heading : Option (ℕ × Text)}
    (hh : ∀ w ∈ heading, Heading w.2) (above aboveEnd : ℕ) :
    Plain (spaces above ++ (row.register.description ++ headingText aboveEnd heading)) := by
  obtain ⟨hbegins, hends, -, -, hbreak⟩ := h.description
  have habove : Begins (aboveText row.register.description heading) ∧
      Ends (aboveText row.register.description heading) := by
    cases heading with
    | none => exact ⟨hbegins, hends⟩
    | some gw => exact ⟨begins_append hbegins _,
        ends_append _ (ends_cons _ (ends_append _ (heading_solid (hh _ rfl)).2.1))⟩
  have hheading : ∀ w ∈ heading, '\n' ∉ w.2 := fun w hw hmem =>
    absurd ((hh w hw).solid _ hmem) (by decide)
  have hunbroken := mem_above (by decide) hbreak above aboveEnd hheading
  rw [above_grouped] at hunbroken ⊢
  exact plain_framed (framed_append habove.1 habove.2) _ (plain_spaces (by decide) _) hunbroken

theorem plain_below (h : row.Valid) {tail : Text} (htail : Tail tail) (below : ℕ) :
    Plain (spaces below ++ ('('::(row.register.name ++ [')']) ++ tail)) := by
  have hunbroken : '\n' ∉ spaces below ++ ('('::(row.register.name ++ [')']) ++ tail) := by
    simp only [List.mem_append, List.mem_cons, List.not_mem_nil, not_or, or_false]
    exact ⟨plain_spaces (by decide) _, ⟨by decide, h.name.2.2.2.2, by decide⟩, htail.plain.2.2.1⟩
  exact plain_framed (framed_append ⟨'(', _, rfl, rfl⟩
    (ends_cons _ (ends_append _ ⟨[], ')', rfl, rfl⟩)))
    _ htail.plain.2.2.2 hunbroken

theorem plain_lines (h : row.Valid) : ∀ l ∈ row.lines, Plain l := by
  intro l hl
  have hform := h.form
  unfold Row.lines at hl
  cases hf : row.form with
  | single afterDescription afterName =>
    rw [hf] at hl
    rcases List.mem_singleton.mp hl with rfl
    exact plain_single h _ _
  | split above heading aboveEnd below belowTail =>
    rw [hf] at hl hform
    obtain ⟨hheading, hbelow⟩ := hform
    simp only [List.mem_cons, List.not_mem_nil, or_false] at hl
    rcases hl with rfl | rfl | rfl
    · exact plain_above h hheading _ _
    · exact plain_middle h
    · exact plain_below h hbelow _

end UsbArmory.Txt2rust.TableText
