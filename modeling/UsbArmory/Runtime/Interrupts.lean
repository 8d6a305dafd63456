import Mathlib.Data.List.DropRight
import UsbArmory.Library.Binary
import UsbArmory.Library.Numerals
import UsbArmory.Library.Whitespace

/-!
# The interrupt table

The build script takes the reserved interrupts out of the list and fills the
gap in front of each one that is left. The reserved ones behind the last one
leave no gap.
-/

set_option autoImplicit false

namespace UsbArmory.Runtime.Interrupts
open UsbArmory.Library.Binary UsbArmory.Library.Strings UsbArmory.Library.Numerals
open UsbArmory.Library.Whitespace

inductive BuildError where
  | parseInt
  | text (message : String)
  deriving DecidableEq

structure Interrupt where
  name : Text
  irq : UInt16
  description : Text
  deriving DecidableEq

/-- Which names `format_ident!` takes, what it panics with at another one, and which names can be
those of a variant, of a foreign function and of a symbol: a keyword or `_` cannot. -/
structure Idents where
  accepts : Text → Bool
  message : Text → String
  legal : Text → Bool

section Code
variable (ids : Idents)

def Idents.formatIdent (name : Text) : Except (Stop BuildError) Text :=
  if ids.accepts name then pure name else throw (.panic (ids.message name))

def okOr {α : Type} (v : Option α) (e : BuildError) : Except (Stop BuildError) α :=
  v.elim (throw (.error e)) pure

/-- One round of the loop over the lines; a split has always a first part. -/
def parseLine (line : Text) : Except (Stop BuildError) Interrupt := do
  let parts := splitBlank line
  let irq ← okOr (fromStrRadix 10 65536 parts.1) .parseInt
  let rest ← okOr parts.2 (.text "unexpected EOF")
  let parts := splitBlank (trim rest)
  let description ← okOr parts.2 (.text "expected the description; found EOF")
  return ⟨parts.1, UInt16.ofNat irq, trim description⟩

def entriesOf : List Text → Except (Stop BuildError) (List Interrupt)
  | [] => return []
  | line::rest => do
    let entry ← parseLine line
    let entries ← entriesOf rest
    return entry::entries

/-- `to_lowercase` gives these letters for their two cases only. -/
def isReserved (entry : Interrupt) : Bool :=
  entry.name.map Char.toLower == "reserved".toList

def defaultHandler : Text := "DefaultHandler".toList

def irqStart : UInt16 := 32

def nirqs : ℕ := 128

/-- The reserved elements in front of an interrupt. An overflow wraps in a build script. -/
def padding : ℕ → UInt16 → UInt16 → Except (Stop BuildError) (List Text × UInt16)
  | 0, pos, irq => if pos = irq then return ([], pos) else throw .endless
  | fuel+1, pos, irq =>
    if pos = irq then return ([], pos)
    else do
      let (elmts, last) ← padding fuel (pos+1) irq
      return (defaultHandler::elmts, last)

def elements : UInt16 → List Interrupt → Except (Stop BuildError) (List Text)
  | _, [] => return []
  | pos, interrupt::rest => do
    let (reserved, pos) ← padding 65536 pos interrupt.irq
    let name ← ids.formatIdent interrupt.name
    let elmts ← elements (pos+1) rest
    return reserved ++ name::elmts

/-- The description, the name and the number of a variant of `enum Interrupt`. -/
abbrev Variant := Text × Text × UInt16

def variantsOf : List Interrupt → Except (Stop BuildError) (List Variant)
  | [] => return []
  | interrupt::rest => do
    let name ← ids.formatIdent interrupt.name
    let variants ← variantsOf rest
    return (interrupt.description, name, interrupt.irq)::variants

/-- `enum Interrupt`, the elements of `SPIS` and the linker script. -/
structure Generated where
  variants : List Variant
  spis : List Text
  script : Text

def txt2rust (txt : Text) : Except (Stop BuildError) Generated := do
  let entries ← entriesOf (lines (trim txt))
  if entries.length ≠ nirqs then
    throw (.error (.text "`interrupts.txt` must have 128 entries"))
  let interrupts := entries.filter fun entry => !isReserved entry
  let variants ← variantsOf ids interrupts
  let elmts ← elements ids irqStart interrupts
  return ⟨variants, elmts, interrupts.flatMap fun interrupt =>
    "PROVIDE(".toList ++ interrupt.name ++ " = DefaultHandler);\n".toList⟩

end Code

/-- The handler that the table should have for an entry. -/
def handler (entry : Interrupt) : Text :=
  if isReserved entry then defaultHandler else entry.name

def Numbered : ℕ → List Interrupt → Prop
  | _, [] => True
  | n, e::es => e.irq.toNat = n ∧ Numbered (n+1) es

/-- Each interrupt that is not reserved has a name that is an identifier. -/
def Accepted (ids : Idents) (es : List Interrupt) : Prop :=
  ∀ e ∈ es, isReserved e = false → ids.accepts e.name = true

/-- The names that are not reserved are legal ones, and no two are the same. -/
structure Named (ids : Idents) (es : List Interrupt) : Prop where
  accepted : Accepted ids es
  legal : ∀ e ∈ es, isReserved e = false → ids.legal e.name = true
  distinct : ((es.filter fun e => !isReserved e).map Interrupt.name).Nodup

/-- What the compiler asks of the code: the names of the variants of one enumeration are legal
and differ, and the table has as many elements as its type says. -/
structure Compiles (ids : Idents) (code : Generated) : Prop where
  legal : ∀ v ∈ code.variants, ids.legal v.2.1 = true
  distinct : (code.variants.map fun v => v.2.1).Nodup
  table : code.spis.length = nirqs

variable {ids : Idents} {es : List Interrupt} {e : Interrupt} {n k : ℕ} {pos irq : UInt16}

theorem formatIdent_ok (h : ids.accepts e.name = true) : ids.formatIdent e.name = .ok e.name :=
  if_pos h

theorem padding_gap (fuel : ℕ) (hk : k ≤ fuel) (h : irq.toNat = pos.toNat+k) :
    padding fuel pos irq = .ok (List.replicate k defaultHandler, irq) := by
  induction k generalizing fuel pos with
  | zero =>
    have heq : pos = irq := UInt16.toNat.inj h.symm
    cases fuel with
    | zero => exact (if_pos heq).trans (by rw [heq]; rfl)
    | succ fuel => exact (if_pos heq).trans (by rw [heq]; rfl)
  | succ k ih =>
    obtain ⟨fuel, rfl⟩ : ∃ m, fuel = m+1 := ⟨fuel-1, by omega⟩
    have hlt := irq.toNat_lt
    have hne : pos ≠ irq := by
      rintro rfl
      omega
    have hnext : (pos+1).toNat = pos.toNat+1 := by
      rw [UInt16.toNat_add]
      exact Nat.mod_eq_of_lt (by show pos.toNat+1 < 65536; omega)
    rw [padding, if_neg hne, ih fuel (by omega) (by omega)]
    rfl

theorem elements_cons {es : List Interrupt} {elmts : List Text} (hk : e.irq.toNat = pos.toNat+k)
    (hname : ids.accepts e.name = true) (h : elements ids (e.irq+1) es = .ok elmts) :
    elements ids pos (e::es) = .ok (List.replicate k defaultHandler ++ e.name::elmts) := by
  have hlt := e.irq.toNat_lt
  rw [elements, padding_gap 65536 (by omega) hk]
  show (ids.formatIdent e.name >>= _) = _
  rw [formatIdent_ok hname]
  show (elements ids (e.irq+1) es >>= _) = _
  rw [h]
  rfl

theorem elements_served (hnum : Numbered (pos.toNat+k) es) (hnames : Accepted ids es)
    (hlen : pos.toNat+k+es.length ≤ 65535) (hnil : es = [] → k = 0)
    (hlast : ∀ h : es ≠ [], isReserved (es.getLast h) = false) :
    elements ids pos (es.filter fun e => !isReserved e) =
      .ok (List.replicate k defaultHandler ++ es.map handler) := by
  induction es generalizing pos k with
  | nil =>
    rw [hnil rfl]
    rfl
  | cons e es ih =>
    have hrest : Accepted ids es := fun e' he' => hnames e' (List.mem_cons_of_mem _ he')
    have htail : ∀ h : es ≠ [], isReserved (es.getLast h) = false := by
      intro h
      have hcons := hlast (List.cons_ne_nil e es)
      rwa [List.getLast_cons h] at hcons
    rw [List.length_cons] at hlen
    cases he : isReserved e with
    | true =>
      have hne : es ≠ [] := by
        rintro rfl
        have hlone : isReserved e = false := hlast (List.cons_ne_nil e [])
        rw [he] at hlone
        cases hlone
      have hstep := @ih (k+1) pos hnum.2 hrest (by omega)
        (fun h => absurd h hne) htail
      rw [List.filter_cons_of_neg (by rw [he]; decide), hstep, List.replicate_succ', List.map_cons,
        handler, he, if_pos rfl, List.append_assoc]
      rfl
    | false =>
      have hirq : e.irq.toNat = pos.toNat+k := hnum.1
      have hnext : (e.irq+1).toNat = pos.toNat+k+1 := by
        rw [UInt16.toNat_add, hirq]
        exact Nat.mod_eq_of_lt (by show pos.toNat+k+1 < 65536; omega)
      have hnum' : Numbered ((e.irq+1).toNat+0) es := by
        rw [hnext]
        exact hnum.2
      have hstep := @ih 0 (e.irq+1) hnum' hrest (by omega) (fun _ => rfl) htail
      rw [List.filter_cons_of_pos (by rw [he]; decide),
        elements_cons hirq (hnames e List.mem_cons_self he) hstep, List.map_cons, handler, he]
      rfl

theorem numbered_front {fs : List Interrupt} (h : Numbered n (es ++ fs)) : Numbered n es := by
  induction es generalizing n with
  | nil => trivial
  | cons e es ih => exact ⟨h.1, ih h.2⟩

/-- The entries up to the last one that is not reserved. -/
def served (es : List Interrupt) : List Interrupt := es.rdropWhile isReserved

theorem filter_served (es : List Interrupt) :
    es.filter (fun e => !isReserved e) = (served es).filter fun e => !isReserved e := by
  have hsplit : served es ++ es.rtakeWhile isReserved = es := List.rdropWhile_append_rtakeWhile
  have hnone : (es.rtakeWhile isReserved).filter (fun e => !isReserved e) = [] := by
    rw [List.filter_eq_nil_iff]
    intro e he
    rw [List.mem_rtakeWhile_imp he]
    decide
  conv_lhs => rw [← hsplit, List.filter_append, hnone, List.append_nil]

theorem elements_numbered (hnum : Numbered 32 es) (hlen : es.length = nirqs)
    (hnames : Accepted ids es) : elements ids irqStart (es.filter fun e => !isReserved e) =
      .ok ((served es).map handler) := by
  have hpre : served es <+: es := List.rdropWhile_prefix isReserved es
  have hle := hpre.length_le
  have hfront : Numbered (irqStart.toNat+0) (served es) := by
    obtain ⟨rest, hrest⟩ := hpre
    rw [← hrest] at hnum
    exact numbered_front hnum
  have hnames' : Accepted ids (served es) := fun e he => hnames e (hpre.subset he)
  rw [filter_served]
  refine elements_served hfront hnames' ?_ (fun _ => rfl) fun h => ?_
  · exact Nat.le_trans (Nat.add_le_add_left (hle.trans_eq hlen) _) (by decide)
  · exact (Bool.not_eq_true _).mp (List.rdropWhile_last_not isReserved es h)

theorem variants_named (h : Accepted ids es) :
    variantsOf ids (es.filter fun e => !isReserved e) =
      .ok ((es.filter fun e => !isReserved e).map fun e => (e.description, e.name, e.irq)) := by
  induction es with
  | nil => rfl
  | cons e es ih =>
    have hrest := ih fun e' he' => h e' (List.mem_cons_of_mem _ he')
    cases he : isReserved e with
    | true => rw [List.filter_cons_of_neg (by rw [he]; decide), hrest]
    | false =>
      rw [List.filter_cons_of_pos (by rw [he]; decide), variantsOf,
        formatIdent_ok (h e List.mem_cons_self he)]
      show (variantsOf ids _ >>= _) = _
      rw [hrest]
      rfl

theorem variants_panic (h : ¬Accepted ids es) :
    ∃ message, variantsOf ids (es.filter fun e => !isReserved e) = .error (.panic message) := by
  induction es with
  | nil => exact absurd (fun _ => nofun) h
  | cons e es ih =>
    cases he : isReserved e with
    | true =>
      rw [List.filter_cons_of_neg (by rw [he]; decide)]
      refine ih fun hrest => h ?_
      rintro e' (_ | ⟨_, he'⟩) hnot
      · rw [he] at hnot
        cases hnot
      · exact hrest e' he' hnot
    | false =>
      rw [List.filter_cons_of_pos (by rw [he]; decide), variantsOf]
      cases hname : ids.accepts e.name with
      | false =>
        rw [Idents.formatIdent, hname]
        exact ⟨_, rfl⟩
      | true =>
        obtain ⟨message, hpanic⟩ := ih fun hrest => h <| by
          rintro e' (_ | ⟨_, he'⟩) hnot
          · exact hname
          · exact hrest e' he' hnot
        refine ⟨message, ?_⟩
        rw [formatIdent_ok hname]
        show (variantsOf ids _ >>= _) = _
        rw [hpanic]
        rfl

/-- An element for each entry, its handler or the default one. -/
structure Table (entries : List Interrupt) (spis : List Text) : Prop where
  length : spis.length = nirqs
  handlers : ∀ (i : ℕ) entry, entries[i]? = some entry → spis[i]? = some (handler entry)

def LastServed (entries : List Interrupt) : Prop :=
  ∀ entry, entries.getLast? = some entry → isReserved entry = false

theorem lastServed_iff (hlen : es.length = nirqs) :
    LastServed es ↔ (served es).length = nirqs := by
  have hne : es ≠ [] := by
    rintro rfl
    cases hlen
  have hpre : served es <+: es := List.rdropWhile_prefix isReserved es
  have hself : (served es).length = nirqs ↔ served es = es := by
    rw [← hlen]
    exact ⟨hpre.eq_of_length, congrArg List.length⟩
  rw [hself, served, List.rdropWhile_eq_self_iff, LastServed, List.getLast?_eq_some_getLast hne]
  constructor
  · intro h _
    rw [h _ rfl]
    decide
  · rintro h entry heq
    cases heq
    exact (Bool.not_eq_true _).mp (h hne)

section File
variable {txt : Text} {entries : List Interrupt}

theorem txt2rust_panics (h : entriesOf (lines (trim txt)) = .ok entries)
    (hlen : entries.length = nirqs) (hnames : ¬Accepted ids entries) :
    ∃ message, txt2rust ids txt = .error (.panic message) := by
  obtain ⟨message, hpanic⟩ := variants_panic hnames
  refine ⟨message, ?_⟩
  rw [txt2rust, h]
  show (if entries.length ≠ nirqs then _ else _) = _
  rw [if_neg (not_not_intro hlen)]
  show (variantsOf ids _ >>= _) = _
  rw [hpanic]
  rfl

theorem txt2rust_spis (h : entriesOf (lines (trim txt)) = .ok entries)
    (hnum : Numbered 32 entries) (hlen : entries.length = nirqs) (hnames : Accepted ids entries) :
    ∃ code, txt2rust ids txt = .ok code ∧ code.spis = (served entries).map handler ∧
      code.variants =
        (entries.filter fun e => !isReserved e).map fun e => (e.description, e.name, e.irq) := by
  rw [txt2rust, h]
  show ∃ code, (if entries.length ≠ nirqs then _ else _) = _ ∧ _
  rw [if_neg (not_not_intro hlen)]
  show ∃ code, (variantsOf ids _ >>= _) = _ ∧ _
  rw [variants_named hnames]
  show ∃ code, (elements ids irqStart _ >>= _) = _ ∧ _
  rw [elements_numbered hnum hlen hnames]
  exact ⟨_, rfl, rfl, rfl⟩

/-- The table is right exactly if its last entry is an interrupt, and the names are identifiers. -/
theorem table_iff (ids : Idents) (h : entriesOf (lines (trim txt)) = .ok entries)
    (hnum : Numbered 32 entries) (hlen : entries.length = nirqs) :
    (∃ code, txt2rust ids txt = .ok code ∧ Table entries code.spis) ↔
      Accepted ids entries ∧ LastServed entries := by
  by_cases hnames : Accepted ids entries
  · obtain ⟨code, hcode, hspis, -⟩ := txt2rust_spis h hnum hlen hnames
    rw [lastServed_iff hlen]
    constructor
    · rintro ⟨code', hcode', htable⟩
      cases hcode.symm.trans hcode'
      have hlength := htable.length
      rw [hspis, List.length_map] at hlength
      exact ⟨hnames, hlength⟩
    · rintro ⟨-, hserved⟩
      have hpre : served entries <+: entries := List.rdropWhile_prefix isReserved entries
      have hall : served entries = entries := hpre.eq_of_length (hserved.trans hlen.symm)
      rw [hall] at hspis
      refine ⟨code, hcode, ?_, fun i entry hentry => ?_⟩
      · rw [hspis, List.length_map, hlen]
      · rw [hspis, List.getElem?_map, hentry]
        rfl
  · obtain ⟨message, hpanic⟩ := txt2rust_panics h hlen hnames
    constructor
    · rintro ⟨code, hcode, -⟩
      cases hcode.symm.trans hpanic
    · rintro ⟨hnamed, -⟩
      exact absurd hnamed hnames

theorem variants_generated {code : Generated} (h : entriesOf (lines (trim txt)) = .ok entries)
    (hnum : Numbered 32 entries) (hlen : entries.length = nirqs) (hnames : Accepted ids entries)
    (hcode : txt2rust ids txt = .ok code) : code.variants =
      (entries.filter fun e => !isReserved e).map fun e => (e.description, e.name, e.irq) := by
  obtain ⟨code', hcode', -, hvariants⟩ := txt2rust_spis h hnum hlen hnames
  cases hcode.symm.trans hcode'
  exact hvariants

/-- The generated code compiles, with the table of the list, exactly if besides the names are
legal and no two are the same. -/
theorem compiles_iff (ids : Idents) (h : entriesOf (lines (trim txt)) = .ok entries)
    (hnum : Numbered 32 entries) (hlen : entries.length = nirqs) :
    (∃ code, txt2rust ids txt = .ok code ∧ Compiles ids code ∧ Table entries code.spis) ↔
      Named ids entries ∧ LastServed entries := by
  have htable := table_iff ids h hnum hlen
  have hmem : ∀ e, e ∈ entries.filter (fun e => !isReserved e) ↔
      e ∈ entries ∧ isReserved e = false := by
    intro e
    rw [List.mem_filter, Bool.not_eq_true']
  constructor
  · rintro ⟨code, hcode, hcompiles, ht⟩
    obtain ⟨hnames, hlast⟩ := htable.mp ⟨code, hcode, ht⟩
    have hvariants := variants_generated h hnum hlen hnames hcode
    have hlegal := hcompiles.legal
    have hdistinct := hcompiles.distinct
    rw [hvariants] at hlegal hdistinct
    rw [List.map_map] at hdistinct
    refine ⟨⟨hnames, fun e he hserved => ?_, hdistinct⟩, hlast⟩
    exact hlegal _ (List.mem_map_of_mem ((hmem e).mpr ⟨he, hserved⟩))
  · rintro ⟨hnamed, hlast⟩
    obtain ⟨code, hcode, ht⟩ := htable.mpr ⟨hnamed.accepted, hlast⟩
    have hvariants := variants_generated h hnum hlen hnamed.accepted hcode
    refine ⟨code, hcode, ⟨?_, ?_, ht.length⟩, ht⟩
    · rw [hvariants]
      intro v hv
      obtain ⟨e, he, rfl⟩ := List.mem_map.mp hv
      obtain ⟨hentry, hserved⟩ := (hmem e).mp he
      exact hnamed.legal e hentry hserved
    · rw [hvariants, List.map_map]
      exact hnamed.distinct

end File

/-- A row of the list, with the spaces between its columns. -/
def row (gaps : ℕ × ℕ) (e : Interrupt) : Text :=
  decimal e.irq.toNat ++ ' '::(spaces gaps.1 ++ (e.name ++ ' '::(spaces gaps.2 ++ e.description)))

structure Writable (e : Interrupt) : Prop where
  irq : e.irq.toNat < 256
  name : e.name ≠ []
  solid : ∀ c ∈ e.name, isWhitespace c = false
  begins : Begins e.description
  ends : Ends e.description
  line : '\n' ∉ e.description

theorem decimal_solid (h : n < 256) : ∀ c ∈ decimal n, isWhitespace c = false := by
  have hall : ((decimal n).all fun c => !isWhitespace c) = true := by
    refine forall_below (n := 256)
      (P := fun n => ((decimal n).all fun c => !isWhitespace c) = true) ?_ n h
    decide +kernel
  exact solid_iff.mp hall

theorem begins_name (h : Writable e) (t : Text) : Begins (e.name ++ t) := by
  refine begins_append ?_ t
  obtain ⟨c, rest, hname⟩ := List.exists_cons_of_ne_nil h.name
  refine ⟨c, rest, hname, h.solid c ?_⟩
  rw [hname]
  exact List.mem_cons_self

theorem parse_parts {line number rest name description : Text}
    (hnumber : splitBlank line = (number, some rest))
    (hirq : fromStrRadix 10 65536 number = some n)
    (hname : splitBlank (trim rest) = (name, some description)) :
    parseLine line = .ok ⟨name, UInt16.ofNat n, trim description⟩ := by
  simp only [parseLine, hnumber, hirq]
  show (okOr (splitBlank (trim rest)).2 _ >>= _) = _
  rw [hname]
  rfl

theorem parse_row (gaps : ℕ × ℕ) (h : Writable e) : parseLine (row gaps e) = .ok e := by
  have hirq := parse_mono (by decide : 256 ≤ 65536) (parse_decimal h.irq)
  have hends : Ends (e.name ++ ' '::(spaces gaps.2 ++ e.description)) :=
    ends_append _ (ends_cons _ (ends_append _ h.ends))
  have hrest := trim_between (blank_spaces gaps.1) (begins_name h _) hends (t := []) nofun
  have hdescription := trim_between (blank_spaces gaps.2) h.begins h.ends (t := []) nofun
  rw [List.append_nil] at hrest hdescription
  have hname := splitBlank_append (c := ' ') h.solid rfl (spaces gaps.2 ++ e.description)
  have hnumber := splitBlank_append (c := ' ') (decimal_solid h.irq) rfl
    (spaces gaps.1 ++ (e.name ++ ' '::(spaces gaps.2 ++ e.description)))
  rw [row, parse_parts hnumber hirq (by rw [hrest]; exact hname), hdescription,
    UInt16.ofNat_toNat]

theorem entries_rows (gaps : Interrupt → ℕ × ℕ) (h : ∀ e ∈ es, Writable e) :
    entriesOf (es.map fun e => row (gaps e) e) = .ok es := by
  induction es with
  | nil => rfl
  | cons e es ih =>
    rw [List.map_cons, entriesOf, parse_row (gaps e) (h e List.mem_cons_self),
      ih fun e' he' => h e' (List.mem_cons_of_mem _ he')]
    rfl

theorem notMem_solid {s : Text} (h : ∀ c ∈ s, isWhitespace c = false) : '\n' ∉ s :=
  fun hmem => absurd (h _ hmem) (by decide)

theorem row_ends (gaps : ℕ × ℕ) (h : Writable e) : Ends (row gaps e) :=
  ends_append _ (ends_cons _ (ends_append _ (ends_append _ (ends_cons _ (ends_append _ h.ends)))))

theorem row_begins (gaps : ℕ × ℕ) (h : Writable e) : Begins (row gaps e) := by
  have hne : decimal e.irq.toNat ≠ [] := by
    intro hnil
    have hirq := parse_decimal h.irq
    rw [hnil] at hirq
    cases hirq
  obtain ⟨c, rest, hnumber⟩ := List.exists_cons_of_ne_nil hne
  have hc := decimal_solid h.irq c (by rw [hnumber]; exact List.mem_cons_self)
  exact begins_append ⟨c, rest, hnumber, hc⟩ _

theorem row_plain (gaps : ℕ × ℕ) (h : Writable e) : Plain (row gaps e) := by
  have hgap : ∀ n, '\n' ∉ spaces n := fun n hmem =>
    absurd (List.eq_of_mem_replicate hmem) (by decide)
  obtain ⟨rest, c, hrow, hc⟩ := row_ends gaps h
  refine ⟨?_, ?_, ?_⟩
  · rw [hrow]
    exact List.append_ne_nil_of_right_ne_nil _ (List.cons_ne_nil c [])
  · simp [row, notMem_solid (decimal_solid h.irq), notMem_solid h.solid, hgap, h.line]
  · rw [hrow, List.getLast?_append]
    rintro heq
    cases heq
    cases hc

/-- The file of some rows, with or without a line break at its end. -/
def fileOf (broken : Bool) (gaps : Interrupt → ℕ × ℕ) (es : List Interrupt) : Text :=
  textOf broken (es.map fun e => row (gaps e) e)

theorem entries_file (broken : Bool) (gaps : Interrupt → ℕ × ℕ) (hes : es ≠ [])
    (h : ∀ e ∈ es, Writable e) : entriesOf (lines (trim (fileOf broken gaps es))) = .ok es := by
  have hplain : ∀ l ∈ es.map (fun e => row (gaps e) e), Plain l := by
    intro l hl
    obtain ⟨e, he, rfl⟩ := List.mem_map.mp hl
    exact row_plain _ (h e he)
  have htrim : trim (fileOf broken gaps es) = fileOf false gaps es := by
    refine trim_textOf broken (List.map_eq_nil_iff.not.mpr hes) fun l hl => ?_
    obtain ⟨e, he, rfl⟩ := List.mem_map.mp hl
    exact ⟨row_begins _ (h e he), row_ends _ (h e he)⟩
  rw [htrim, fileOf, lines_textOf false hplain]
  exact entries_rows gaps h

end UsbArmory.Runtime.Interrupts
