import UsbArmory.Txt2rust.TableLines

/-!
# The shapes of a row

What a line has to look like, with the lines around it, to be a row of the
table, and the register that it stands for.
-/

set_option autoImplicit false

namespace UsbArmory.Txt2rust.RowShapes
open UsbArmory.Library.Binary UsbArmory.Library.Strings UsbArmory.Library.Numerals
open UsbArmory.Library.Whitespace UsbArmory.Txt2rust.Parse UsbArmory.Txt2rust.Rows
open UsbArmory.Txt2rust.RowReading UsbArmory.Txt2rust.TableLines

variable {α β : Type} {s rest prev next text d name : Text} {address : UInt32} {bits : UInt8}
  {acc : Access} {value : UInt32} {r : Register}

structure Window where
  above : Option Text
  row : Text
  below : Option Text
  deriving DecidableEq, Repr

def Window.line (w : Window) : Found Register := Parse.line w.row w.above w.below

/-- One halfword, or two with an underscore between them. -/
def HexAddress (s : Text) : Prop :=
  Numeral 16 s ∨ ∃ upper lower, CutAt '_' s upper lower ∧ Numeral 16 upper ∧ Numeral 16 lower

def LastColumns (s : Text) (acc : Access) (value : UInt32) : Prop :=
  ∃ word rest last, CutAt ' ' s word rest ∧ access word = some acc ∧
    FirstPart ' ' (trim rest) last ∧ resetValue last = some value

def OneLine (rest : Text) (r : Register) : Prop :=
  ∃ before behind columns word last, CutAtLast '(' rest before behind ∧
    r.description = trim before ∧ CutAt ')' behind r.name columns ∧ ' ' ∉ r.name ∧ '_' ∈ r.name ∧
    CutAt ' ' (trim columns) word last ∧ width word = some r.width ∧
    LastColumns (trim last) r.access r.resetValue

/-- The line above a row, less a section reference at its end. -/
def AboveRow (prev d : Text) : Prop := ∃ last, LastPart ' ' prev last ∧
  if isSection last then ∃ front, CutAtLast ' ' prev front last ∧ d = trim front else d = prev

def AroundRow (prev next d name : Text) : Prop :=
  ∃ before behind front, ')' ∈ next ∧ CutAtLast '(' next before behind ∧
    FirstPart ')' behind name ∧ AboveRow prev front ∧
    d = if trim before = [] then front else front ++ ' '::trim before

def ThreeLines (rest : Text) (above below : Option Text) (r : Register) : Prop :=
  ∃ prev next word last, above = some prev ∧ below = some next ∧
    AroundRow (trim prev) (trim next) r.description r.name ∧ CutAt ' ' rest word last ∧
    width word = some r.width ∧ LastColumns (trim last) r.access r.resetValue

/-- The register of a row; behind the address stands a width only if the row has three lines. -/
def RowOf (w : Window) (r : Register) : Prop :=
  ∃ word rest first, CutAt ' ' (trim w.row) word rest ∧ absAddr word = some r.absAddr ∧
    FirstPart ' ' (trim rest) first ∧
    if width first = none then OneLine (trim rest) r else ThreeLines (trim rest) w.above w.below r

theorem hexAddress_of_absAddr (h : absAddr s = some address) : HexAddress s := by
  unfold absAddr at h
  split at h
  next => cases h
  next upper lower hupper hlower =>
    obtain ⟨_, hlow, -⟩ := Option.map_eq_some_iff.mp h
    exact .inr ⟨_, _, cutAt_iff.mpr ⟨hlower, rfl⟩, parse_numeral hupper, parse_numeral hlow⟩
  next halfword hhalf hnone =>
    rw [splitOnce_none (splitOnce_whole hnone)] at hhalf
    exact .inl (parse_numeral hhalf)

theorem found_iff {v : Option α} {f : α → Found β} {b : β} :
    (found v >>= f).run = .ok (some b) ↔ ∃ a, v = some a ∧ (f a).run = .ok (some b) := by
  constructor
  · intro h
    obtain ⟨a, ha, hf⟩ := found_ok h
    exact ⟨a, by cases ha; rfl, hf⟩
  · rintro ⟨a, rfl, hf⟩
    exact hf

theorem lift_iff {x : Except (Stop Empty) α} {f : α → Found β} {b : β} :
    ((liftM x : Found α) >>= f).run = .ok (some b) ↔ ∃ a, x = .ok a ∧ (f a).run = .ok (some b) := by
  constructor
  · intro h
    obtain ⟨a, ha, hf⟩ := found_ok h
    exact ⟨a, of_run_lift ha, hf⟩
  · rintro ⟨a, rfl, hf⟩
    exact hf

theorem expect_iff {message : String} {v : Option α} {a : α} :
    (expect message v : Except (Stop Empty) α) = .ok a ↔ v = some a := ⟨expect_ok, expect_some⟩

theorem lastColumns_iff :
    (lastColumns s).run = .ok (some (acc, value)) ↔ LastColumns s acc value := by
  unfold lastColumns LastColumns
  simp only [found_iff]
  constructor
  · rintro ⟨a, ha, rest, hrest, v, hv, h⟩
    cases h
    exact ⟨_, rest, _, cutAt_iff.mpr ⟨hrest, rfl⟩, ha, firstPart_iff.mpr rfl, hv⟩
  · rintro ⟨word, rest, last, hcut, ha, hlast, hv⟩
    obtain ⟨hrest, rfl⟩ := cutAt_iff.mp hcut
    cases firstPart_iff.mp hlast
    exact ⟨acc, ha, rest, hrest, value, hv, rfl⟩

theorem withoutSection_iff : withoutSection prev = .ok d ↔ AboveRow prev d := by
  unfold withoutSection AboveRow
  constructor
  · intro h
    refine ⟨_, lastPart_iff.mpr rfl, ?_⟩
    dsimp only at h
    split at h
    next hsection =>
      rw [if_pos hsection]
      obtain ⟨front, hfront, hd⟩ := ok_of_bind h
      cases hd
      exact ⟨front, cutAtLast_iff.mpr ⟨expect_ok hfront, rfl⟩, rfl⟩
    next hsection =>
      rw [if_neg hsection]
      cases h
      rfl
  · rintro ⟨last, hlast, h⟩
    cases lastPart_iff.mp hlast
    split at h
    next hsection =>
      obtain ⟨front, hcut, rfl⟩ := h
      dsimp only
      rw [if_pos hsection, expect_some (cutAtLast_iff.mp hcut).1]
      rfl
    next hsection =>
      cases h
      exact if_neg hsection

theorem aroundRow_iff :
    aroundRow text prev next = .ok (d, name) ↔ AroundRow prev next d name := by
  unfold aroundRow AroundRow
  constructor
  · intro h
    split at h
    next hparens =>
      have hclose : ')' ∈ next := List.mem_of_elem_eq_true (Bool.and_eq_true_iff.mp hparens).2
      obtain ⟨before, hbefore, h⟩ := ok_of_bind h
      obtain ⟨front, hfront, h⟩ := ok_of_bind h
      cases h
      exact ⟨before, _, front, hclose, cutAtLast_iff.mpr ⟨expect_ok hbefore, rfl⟩,
        firstPart_iff.mpr rfl, withoutSection_iff.mp hfront, rfl⟩
    next => cases h
  · rintro ⟨before, behind, front, hclose, hcut, hname, hfront, rfl⟩
    have hopen : '(' ∈ next := by
      rw [hcut.1]
      exact List.mem_append_right _ List.mem_cons_self
    obtain ⟨hbefore, rfl⟩ := cutAtLast_iff.mp hcut
    cases firstPart_iff.mp hname
    have hparens : (next.contains '(' && next.contains ')') = true :=
      Bool.and_eq_true_iff.mpr ⟨List.elem_eq_true_of_mem hopen, List.elem_eq_true_of_mem hclose⟩
    rw [if_pos hparens, bind_of_ok (expect_some hbefore)]
    dsimp only
    rw [bind_of_ok (withoutSection_iff.mpr hfront)]
    rfl

theorem splitRow_iff {above below : Option Text} {columns : Option Text} :
    (splitRow text address bits columns above below).run = .ok (some r) ↔
      ∃ prev next last, above = some prev ∧ below = some next ∧
        AroundRow (trim prev) (trim next) r.description r.name ∧ columns = some last ∧
        LastColumns (trim last) r.access r.resetValue ∧ r.absAddr = address ∧ r.width = bits := by
  unfold splitRow
  simp only [lift_iff, found_iff, expect_iff]
  constructor
  · rintro ⟨prev, hprev, next, hnext, ⟨d, name⟩, haround, last, hlast, h⟩
    obtain ⟨⟨acc, value⟩, hcolumns, h⟩ := found_ok h
    cases h
    exact ⟨prev, next, last, hprev, hnext, aroundRow_iff.mp haround, hlast,
      lastColumns_iff.mp hcolumns, rfl, rfl⟩
  · rintro ⟨prev, next, last, hprev, hnext, haround, hlast, hcolumns, rfl, rfl⟩
    refine ⟨prev, hprev, next, hnext, _, aroundRow_iff.mpr haround, last, hlast, ?_⟩
    dsimp only
    rw [OptionT.run_bind, lastColumns_iff.mpr hcolumns]
    rfl

theorem oneRow_iff :
    (oneRow address rest).run = .ok (some r) ↔ OneLine rest r ∧ r.absAddr = address := by
  unfold oneRow OneLine
  simp only [found_iff]
  constructor
  · rintro ⟨before, hbefore, h⟩
    split at h
    next => cases h
    next hname =>
      obtain ⟨hspace, hunder⟩ := Bool.or_eq_false_iff.mp (Bool.eq_false_iff.mpr hname)
      change (found _ >>= _).run = _ at h
      simp only [found_iff] at h
      obtain ⟨columns, hcolumns, bits, hbits, last, hlast, h⟩ := h
      obtain ⟨⟨acc, value⟩, hvalue, h⟩ := found_ok h
      obtain rfl := Option.some.inj (Except.ok.inj h)
      refine ⟨⟨before, _, columns, _, last, cutAtLast_iff.mpr ⟨hbefore, rfl⟩, rfl,
        cutAt_iff.mpr ⟨hcolumns, rfl⟩, ?_, ?_, cutAt_iff.mpr ⟨hlast, rfl⟩, hbits,
        lastColumns_iff.mp hvalue⟩, rfl⟩
      · exact fun hmem => absurd (List.elem_eq_true_of_mem hmem) (Bool.eq_false_iff.mp hspace)
      · exact List.mem_of_elem_eq_true (by simpa using hunder)
  · rintro ⟨⟨before, behind, columns, word, last, hcut, hd, hname, hspace, hunder, hword, hbits,
      hvalue⟩, rfl⟩
    obtain ⟨hbefore, rfl⟩ := cutAtLast_iff.mp hcut
    obtain ⟨hcolumns, hname⟩ := cutAt_iff.mp hname
    obtain ⟨hlast, rfl⟩ := cutAt_iff.mp hword
    refine ⟨before, hbefore, ?_⟩
    have hplain : (r.name.contains ' ' || !r.name.contains '_') = false := by
      simp only [List.contains_eq_mem, decide_eq_false hspace, decide_eq_true hunder]
      rfl
    rw [hname, hplain, if_neg Bool.false_ne_true]
    show (found _ >>= _).run = _
    simp only [found_iff]
    refine ⟨columns, hcolumns, _, hbits, last, hlast, ?_⟩
    rw [OptionT.run_bind, lastColumns_iff.mpr hvalue, ← hd]
    rfl

theorem line_iff (w : Window) (r : Register) : w.line.run = .ok (some r) ↔ RowOf w r := by
  unfold Window.line line RowOf
  simp only [found_iff]
  constructor
  · rintro ⟨address, haddress, rest, hrest, h⟩
    refine ⟨_, rest, (splitOnce ' ' (trim rest)).1, cutAt_iff.mpr ⟨hrest, rfl⟩, ?_⟩
    split at h
    next bits hbits =>
      obtain ⟨prev, next, last, habove, hbelow, haround, hlast, hvalue, rfl, rfl⟩ :=
        splitRow_iff.mp h
      refine ⟨haddress, firstPart_iff.mpr rfl, ?_⟩
      rw [if_neg (by rw [hbits]; nofun)]
      exact ⟨prev, next, _, last, habove, hbelow, haround, cutAt_iff.mpr ⟨hlast, rfl⟩, hbits,
        hvalue⟩
    next hbits =>
      obtain ⟨hone, rfl⟩ := oneRow_iff.mp h
      refine ⟨haddress, firstPart_iff.mpr rfl, ?_⟩
      rw [if_pos hbits]
      exact hone
  · rintro ⟨word, rest, first, hcut, haddress, hfirst, h⟩
    obtain ⟨hrest, rfl⟩ := cutAt_iff.mp hcut
    cases firstPart_iff.mp hfirst
    refine ⟨r.absAddr, haddress, rest, hrest, ?_⟩
    split at h
    next hbits =>
      rw [hbits]
      exact oneRow_iff.mpr ⟨h, rfl⟩
    next hbits =>
      obtain ⟨prev, next, word, last, habove, hbelow, haround, hword, hwidth, hvalue⟩ := h
      obtain ⟨hlast, rfl⟩ := cutAt_iff.mp hword
      rw [hwidth]
      exact splitRow_iff.mpr ⟨prev, next, last, habove, hbelow, haround, hlast, hvalue, rfl, rfl⟩

end UsbArmory.Txt2rust.RowShapes
