import Mathlib.Data.List.Basic
import UsbArmory.Library.Strings

/-!
# White space and lines

What trimming leaves of a text between white space, and the lines of a text
that is put together from lines.
-/

set_option autoImplicit false

namespace UsbArmory.Library.Whitespace
open UsbArmory.Library.Strings

variable {a s t u : Text} {c : Char}

def Blank (s : Text) : Prop := ∀ c ∈ s, isWhitespace c = true

def Begins (s : Text) : Prop := ∃ c rest, s = c::rest ∧ isWhitespace c = false

def Ends (s : Text) : Prop := ∃ rest c, s = rest ++ [c] ∧ isWhitespace c = false

def spaces (n : ℕ) : Text := List.replicate n ' '

/-- `str::splitn(2, char::is_whitespace)` -/
def splitBlank : Text → Text × Option Text
  | [] => ([], none)
  | x::xs => if isWhitespace x then ([], some xs) else (x::(splitBlank xs).1, (splitBlank xs).2)

theorem splitBlank_append (h : ∀ x ∈ s, isWhitespace x = false) (hc : isWhitespace c = true)
    (t : Text) : splitBlank (s ++ c::t) = (s, some t) := by
  induction s with
  | nil => exact if_pos hc
  | cons x s ih =>
    have hx : isWhitespace x = false := h x List.mem_cons_self
    have htail := ih fun y hy => h y (List.mem_cons_of_mem _ hy)
    rw [List.cons_append, splitBlank, htail, hx]
    rfl

theorem solid_iff : (s.all fun c => !isWhitespace c) = true ↔ ∀ c ∈ s, isWhitespace c = false := by
  simp

theorem blank_spaces (n : ℕ) : Blank (spaces n) := by
  intro c hc
  rw [List.eq_of_mem_replicate hc]
  rfl

theorem begins_append (h : Begins s) (t : Text) : Begins (s ++ t) := by
  obtain ⟨c, rest, rfl, hc⟩ := h
  exact ⟨c, rest ++ t, rfl, hc⟩

theorem ends_append (s : Text) (h : Ends t) : Ends (s ++ t) := by
  obtain ⟨rest, c, rfl, hc⟩ := h
  exact ⟨s ++ rest, c, (List.append_assoc _ _ _).symm, hc⟩

theorem ends_cons (c : Char) (h : Ends t) : Ends (c::t) := ends_append [c] h

theorem trimStart_blank (ha : Blank a) (s : Text) : trimStart (a ++ s) = trimStart s :=
  List.dropWhile_append_of_pos ha

theorem trimStart_begins (h : Begins s) : trimStart s = s := by
  obtain ⟨c, rest, rfl, hc⟩ := h
  rw [trimStart, List.dropWhile_cons, hc]
  rfl

theorem trimEnd_ends (h : Ends s) (t : Text) : trimEnd (s ++ t) = s ++ trimEnd t := by
  obtain ⟨rest, c, rfl, hc⟩ := h
  have hbegins : ∀ u : Text, (u ++ (rest ++ [c]).reverse).dropWhile isWhitespace =
      u.dropWhile isWhitespace ++ (rest ++ [c]).reverse := by
    intro u
    have hlast : (rest ++ [c]).reverse = c::rest.reverse := by simp
    induction u with
    | nil => rw [List.nil_append, hlast, List.dropWhile_cons, hc]; rfl
    | cons x u ih =>
      rw [List.cons_append, List.dropWhile_cons, List.dropWhile_cons]
      split
      · exact ih
      · rfl
  rw [trimEnd, List.reverse_append, hbegins, List.reverse_append, List.reverse_reverse, trimEnd]

theorem trimEnd_blank (h : Blank s) : trimEnd s = [] := by
  have hrev : ∀ c ∈ s.reverse, isWhitespace c = true := fun c hc => h c (List.mem_reverse.mp hc)
  have hdrop := trimStart_blank hrev []
  rw [List.append_nil] at hdrop
  exact congrArg List.reverse hdrop

theorem trimEnd_front (s : Text) : trimEnd s <+: s := by
  have hsuffix := List.dropWhile_suffix isWhitespace (l := s.reverse)
  have hprefix := List.reverse_prefix.mpr hsuffix
  rw [List.reverse_reverse] at hprefix
  exact hprefix

theorem length_trim_le (s : Text) : (trim s).length ≤ s.length :=
  Nat.le_trans (trimEnd_front _).length_le (List.dropWhile_suffix isWhitespace).length_le

theorem of_mem_trim (h : c ∈ trim s) : c ∈ s :=
  (List.dropWhile_suffix isWhitespace).subset ((trimEnd_front _).subset h)

theorem mem_trim (hc : isWhitespace c = false) (h : c ∈ s) : c ∈ trim s := by
  have hdrop : ∀ u : Text, c ∈ u → c ∈ u.dropWhile isWhitespace := by
    intro u hu
    induction u with
    | nil => cases hu
    | cons x u ih =>
      rw [List.dropWhile_cons]
      split
      next hx =>
        rcases hu with _ | ⟨_, hu⟩
        · rw [hc] at hx
          cases hx
        · exact ih hu
      next => exact hu
  exact List.mem_reverse.mpr (hdrop _ (List.mem_reverse.mpr (hdrop _ h)))

theorem mem_trim_iff (hc : isWhitespace c = false) : c ∈ trim s ↔ c ∈ s :=
  ⟨of_mem_trim, mem_trim hc⟩

theorem trim_framed (ha : Blank a) (hb : Begins s) (he : Ends s) (t : Text) :
    trim (a ++ (s ++ t)) = s ++ trimEnd t := by
  rw [trim, trimStart_blank ha, trimStart_begins (begins_append hb t), trimEnd_ends he]

theorem trim_between (ha : Blank a) (hb : Begins s) (he : Ends s) (ht : Blank t) :
    trim (a ++ (s ++ t)) = s := by
  rw [trim_framed ha hb he, trimEnd_blank ht, List.append_nil]

theorem split_ends (h : Ends s) : ∃ u v, s = u ++ v ∧ Blank u ∧ Begins v ∧ Ends v := by
  obtain ⟨rest, c, rfl, hc⟩ := h
  induction rest with
  | nil => exact ⟨[], [c], rfl, nofun, ⟨c, [], rfl, hc⟩, ⟨[], c, rfl, hc⟩⟩
  | cons x rest ih =>
    cases hx : isWhitespace x with
    | false => exact ⟨[], _, rfl, nofun, ⟨x, _, rfl, hx⟩, ⟨x::rest, c, rfl, hc⟩⟩
    | true =>
      obtain ⟨u, v, hsplit, hu, hv⟩ := ih
      refine ⟨x::u, v, congrArg (x::·) hsplit, ?_, hv⟩
      rintro y (_ | ⟨_, hy⟩)
      · exact hx
      · exact hu y hy

theorem trim_ends (h : Ends s) (t : Text) : trim (s ++ t) = trim s ++ trimEnd t := by
  obtain ⟨u, v, rfl, hu, hbegins, hends⟩ := split_ends h
  have hself := trim_framed hu hbegins hends []
  rw [List.append_nil] at hself
  have hnil : trimEnd [] = [] := rfl
  rw [hnil, List.append_nil] at hself
  rw [List.append_assoc, trim_framed hu hbegins hends, hself]

/-- Lines that stay lines: no line break in them, and no carriage return at their ends. -/
def Plain (l : Text) : Prop := l ≠ [] ∧ '\n' ∉ l ∧ l.getLast? ≠ some '\r'

/-- The text of lines, with or without a line break behind the last one. -/
def textOf (broken : Bool) (ls : List Text) : Text :=
  let t := ls.flatMap (· ++ ['\n'])
  if broken then t else t.dropLast

theorem linesFrom_step (hc : c ≠ '\n') (acc cs : Text) :
    linesFrom acc (c::cs) = linesFrom (c::acc) cs := by
  conv_lhs => unfold linesFrom
  split
  next h => cases h
  next h => cases h
  next h => exact absurd (List.cons.inj h).1 hc
  next h => exact absurd (List.cons.inj h).1 hc
  next h =>
    cases h
    rfl

theorem linesFrom_break {acc : Text} (hacc : acc.head? ≠ some '\r') (cs : Text) :
    linesFrom acc ('\n'::cs) = acc.reverse::linesFrom [] cs := by
  conv_lhs => unfold linesFrom
  split
  next h => cases h
  next h => cases h
  next h =>
    exact absurd rfl hacc
  next h =>
    cases h
    rfl
  next hline _ h =>
    cases h
    exact (hline rfl).elim

theorem linesFrom_line {l acc : Text} (hl : '\n' ∉ l)
    (hlast : (acc.reverse ++ l).getLast? ≠ some '\r') (rest : Text) :
    linesFrom acc (l ++ '\n'::rest) = (acc.reverse ++ l)::linesFrom [] rest := by
  induction l generalizing acc with
  | nil =>
    rw [List.append_nil] at hlast ⊢
    rw [List.getLast?_reverse] at hlast
    exact linesFrom_break hlast rest
  | cons c l ih =>
    have hc : c ≠ '\n' := fun heq => hl (by rw [heq]; exact List.mem_cons_self)
    have hrev : (c::acc).reverse ++ l = acc.reverse ++ c::l := by simp
    rw [List.cons_append, linesFrom_step hc, ← hrev]
    exact ih (fun h => hl (List.mem_cons_of_mem _ h)) (by rw [hrev]; exact hlast)

theorem linesFrom_last {l acc : Text} (hl : '\n' ∉ l) (hne : acc.reverse ++ l ≠ []) :
    linesFrom acc l = [acc.reverse ++ l] := by
  induction l generalizing acc with
  | nil =>
    rw [List.append_nil] at hne ⊢
    cases acc with
    | nil => exact absurd rfl hne
    | cons x acc => rfl
  | cons c l ih =>
    have hc : c ≠ '\n' := fun heq => hl (by rw [heq]; exact List.mem_cons_self)
    have hrev : (c::acc).reverse ++ l = acc.reverse ++ c::l := by simp
    rw [linesFrom_step hc, ← hrev]
    exact ih (fun h => hl (List.mem_cons_of_mem _ h)) (by rw [hrev]; exact hne)

theorem lines_broken {ls : List Text} (h : ∀ l ∈ ls, Plain l) :
    lines (ls.flatMap (· ++ ['\n'])) = ls := by
  induction ls with
  | nil => rfl
  | cons l ls ih =>
    obtain ⟨-, hl, hlast⟩ := h l List.mem_cons_self
    have hacc : (([] : Text).reverse ++ l).getLast? ≠ some '\r' := hlast
    rw [List.flatMap_cons, List.append_assoc]
    exact (linesFrom_line hl hacc _).trans
      (congrArg (l::·) (ih fun l' hl' => h l' (List.mem_cons_of_mem _ hl')))

theorem lines_textOf (broken : Bool) {ls : List Text} (h : ∀ l ∈ ls, Plain l) :
    lines (textOf broken ls) = ls := by
  cases broken with
  | true => exact lines_broken h
  | false =>
    show lines (ls.flatMap (· ++ ['\n'])).dropLast = ls
    induction ls with
    | nil => rfl
    | cons l ls ih =>
      obtain ⟨hne, hl, hlast⟩ := h l List.mem_cons_self
      have htail : ∀ l' ∈ ls, Plain l' := fun l' hl' => h l' (List.mem_cons_of_mem _ hl')
      cases ls with
      | nil =>
        rw [List.flatMap_cons, List.flatMap_nil, List.append_nil, List.dropLast_concat]
        exact linesFrom_last hl hne
      | cons l' ls =>
        have hcons : ((l::l'::ls).flatMap (· ++ ['\n'])).dropLast =
            l ++ '\n'::((l'::ls).flatMap (· ++ ['\n'])).dropLast := by
          have hrest : (l'::ls).flatMap (· ++ ['\n']) ≠ [] := by simp
          rw [List.flatMap_cons, List.append_assoc, List.dropLast_append_of_ne_nil (by simp)]
          rw [List.singleton_append, List.dropLast_cons_of_ne_nil hrest]
        have hacc : (([] : Text).reverse ++ l).getLast? ≠ some '\r' := hlast
        rw [hcons]
        exact (linesFrom_line hl hacc _).trans (congrArg (l::·) (ih htail))

theorem textOf_concat (broken : Bool) (ls : List Text) (l : Text) :
    textOf broken (ls ++ [l]) =
      ls.flatMap (· ++ ['\n']) ++ (l ++ if broken then ['\n'] else []) := by
  have hall : (ls ++ [l]).flatMap (· ++ ['\n']) = ls.flatMap (· ++ ['\n']) ++ l ++ ['\n'] := by
    simp
  cases broken with
  | true => exact hall.trans (List.append_assoc _ _ _)
  | false =>
    show ((ls ++ [l]).flatMap (· ++ ['\n'])).dropLast = _ ++ (l ++ [])
    rw [hall, List.dropLast_concat, List.append_nil]

/-- A text of lines without white space around them keeps all but its last line break. -/
theorem trim_textOf (broken : Bool) {ls : List Text} (hne : ls ≠ [])
    (h : ∀ l ∈ ls, Begins l ∧ Ends l) : trim (textOf broken ls) = textOf false ls := by
  obtain ⟨ls, l, rfl⟩ := (List.eq_nil_or_concat' ls).resolve_left hne
  have hl := h l (List.mem_append_right _ List.mem_cons_self)
  have hbegins : Begins (ls.flatMap (· ++ ['\n']) ++ l) := by
    cases ls with
    | nil => exact hl.1
    | cons first ls =>
      rw [List.flatMap_cons, List.append_assoc, List.append_assoc]
      exact begins_append (h first List.mem_cons_self).1 _
  have hblank : Blank (if broken then ['\n'] else []) := by
    intro c hc
    cases broken with
    | true => rw [List.mem_singleton.mp hc]; rfl
    | false => cases hc
  have hfalse : textOf false (ls ++ [l]) = ls.flatMap (· ++ ['\n']) ++ l := by
    rw [textOf_concat]
    exact congrArg (_ ++ ·) (List.append_nil l)
  rw [hfalse, textOf_concat, ← List.append_assoc]
  exact trim_between (a := []) nofun hbegins (ends_append _ hl.2) hblank

end UsbArmory.Library.Whitespace
