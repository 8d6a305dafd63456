import UsbArmory.Txt2rust.Rows

/-!
# Reading the lines of a row

What the parser finds in each line of a row, whatever the lines around it are.
-/

set_option autoImplicit false

namespace UsbArmory.Txt2rust.RowReading
open UsbArmory.Library.Binary UsbArmory.Library.Strings UsbArmory.Library.Numerals
open UsbArmory.Library.Whitespace UsbArmory.Txt2rust.Parse UsbArmory.Txt2rust.Rows

variable {α β : Type} {row : Row} {a s t tail : Text} {c : Char} {w : UInt8}

theorem found_some (v : α) (f : α → Found β) : (found (some v) >>= f) = f v := rfl

theorem run_lift (v : α) (f : α → Found β) :
    ((liftM (Except.ok v : Except (Stop Empty) α) : Found α) >>= f) = f v := rfl

theorem plain_address (hc : toDigit 16 c = none) (hunder : c ≠ '_') (k : ℕ) (v : UInt32) :
    c ∉ addressText k v := by
  intro h
  rcases List.mem_append.mp h with h | h
  · exact notMem_hex hc _ _ h
  · rcases List.mem_cons.mp h with h | h
    · exact hunder h
    · exact notMem_hex hc _ _ h

theorem plain_value (hc : toDigit 16 c = none) (hunder : c ≠ '_') (hh : c ≠ 'h') (v : UInt32) :
    c ∉ valueText v := by
  intro h
  rcases List.mem_append.mp h with h | h
  · exact plain_address hc hunder 4 v h
  · exact hh (List.mem_singleton.mp h)

theorem plain_access (acc : Access) : ' ' ∉ accessText acc ∧ '(' ∉ accessText acc := by
  cases acc <;> decide

theorem plain_width (h : w = 8 ∨ w = 16 ∨ w = 32) : ' ' ∉ widthText w ∧ '(' ∉ widthText w := by
  rcases h with rfl | rfl | rfl <;> decide

theorem begins_hex {k : ℕ} (hk : 0 < k) (n : ℕ) : Begins (hex k n) := by
  have hsolid : ∀ d < 16, isWhitespace (upperDigit d) = false := by decide
  cases hhex : hex k n with
  | nil =>
    obtain ⟨j, rfl⟩ : ∃ j, k = j+1 := ⟨k-1, by omega⟩
    simp [hex] at hhex
  | cons c rest =>
    obtain ⟨d, hd, rfl⟩ := mem_hex (w := k) (n := n) (hhex ▸ List.mem_cons_self)
    exact ⟨_, rest, rfl, hsolid d hd⟩

theorem begins_address {k : ℕ} (hk : 0 < k) (v : UInt32) : Begins (addressText k v) :=
  begins_append (begins_hex hk _) _

theorem begins_value (v : UInt32) : Begins (valueText v) :=
  begins_append (begins_address (by decide) v) _

theorem ends_value (v : UInt32) : Ends (valueText v) := ⟨_, 'h', rfl, rfl⟩

theorem begins_access (acc : Access) : Begins (accessText acc) := by
  cases acc
  · exact ⟨'R', _, rfl, rfl⟩
  · exact ⟨'R', _, rfl, rfl⟩
  · exact ⟨'W', _, rfl, rfl⟩
  · exact ⟨'w', _, rfl, rfl⟩

theorem begins_width (h : w = 8 ∨ w = 16 ∨ w = 32) : Begins (widthText w) := by
  rcases h with rfl | rfl | rfl
  · exact ⟨'8', _, rfl, rfl⟩
  · exact ⟨'1', _, rfl, rfl⟩
  · exact ⟨'3', _, rfl, rfl⟩

theorem tail_trimEnd (h : Tail t) : Tail (trimEnd t) := by
  have hprefix := trimEnd_front t
  have hsub : ∀ c ∈ trimEnd t, c ∈ t := fun c hc => hprefix.subset hc
  refine ⟨fun c hc => ?_, fun hc => h.plain.1 (hsub _ hc), fun hc => h.plain.2.1 (hsub _ hc),
    fun hc => h.plain.2.2.1 (hsub _ hc), fun hc => h.plain.2.2.2 (hsub _ hc)⟩
  obtain ⟨rest, hrest⟩ := hprefix
  cases htrim : trimEnd t with
  | nil =>
    rw [htrim] at hc
    cases hc
  | cons x u =>
    rw [htrim] at hc hrest
    cases hc
    exact h.gap _ (by rw [← hrest]; rfl)

theorem word_tail (hs : ' ' ∉ s) (h : Tail t) : (splitOnce ' ' (s ++ t)).1 = s := by
  cases t with
  | nil => rw [List.append_nil, splitOnce_none hs]
  | cons c t =>
    cases h.gap c rfl
    rw [splitOnce_append hs]

structure Framed (f : Text → Text) : Prop where
  tail : ∀ t, f t = f [] ++ t
  begins : Begins (f [])
  ends : Ends (f [])

theorem trim_columns {f : Text → Text} (hf : Framed f) (ha : Blank a) (t : Text) :
    trim (a ++ f t) = f (trimEnd t) := by
  rw [hf.tail t, trim_framed ha hf.begins hf.ends, ← hf.tail]

theorem framed_value (v : UInt32) : Framed (valueText v ++ ·) where
  tail t := by rw [List.append_nil]
  begins := begins_append (begins_value v) []
  ends := by
    rw [List.append_nil]
    exact ends_value v

theorem framed_cons {f : Text → Text} (hf : Framed f) (hs : Begins s) (a : Text) :
    Framed fun t => s ++ (a ++ f t) where
  tail t := by rw [hf.tail t, List.append_assoc, List.append_assoc]
  begins := begins_append hs _
  ends := ends_append _ (ends_append _ hf.ends)

theorem framed_access (row : Row) : Framed row.accessColumns :=
  framed_cons (framed_value _) (begins_access _) (' '::spaces row.afterAccess)

theorem framed_width (row : Row) (h : row.Valid) : Framed row.widthColumns :=
  framed_cons (framed_access row) (begins_width h.width) (' '::spaces row.afterWidth)

theorem lastColumns_row (row : Row) (htail : Tail tail) :
    lastColumns (row.accessColumns tail) =
      pure (row.register.access, row.register.resetValue) := by
  have hvalue : ' ' ∉ valueText row.register.resetValue :=
    plain_value (by decide) (by decide) (by decide) _
  unfold lastColumns Row.accessColumns
  rw [splitOnce_append (plain_access _).1]
  dsimp only
  rw [access_text, found_some, found_some,
    trim_columns (framed_value row.register.resetValue) (blank_spaces _),
    word_tail hvalue (tail_trimEnd htail), resetValue_text, found_some]

theorem plain_spaces (hc : c ≠ ' ') (n : ℕ) : c ∉ spaces n :=
  fun h => hc (List.eq_of_mem_replicate h)

theorem plain_columns (row : Row) (h : row.Valid) (htail : Tail tail) :
    '(' ∉ row.widthColumns tail := by
  have hspaces : ∀ n, '(' ∉ spaces n := plain_spaces (by decide)
  have hvalue : '(' ∉ valueText row.register.resetValue :=
    plain_value (by decide) (by decide) (by decide) _
  simp only [Row.widthColumns, Row.accessColumns, List.mem_append, List.mem_cons, not_or]
  exact ⟨(plain_width h.width).2, by decide, hspaces _, (plain_access _).2, by decide, hspaces _,
    hvalue, htail.plain.1⟩

theorem oneRow_row (row : Row) (h : row.Valid) (htail : Tail tail) (address : UInt32)
    (afterDescription afterName : ℕ) :
    oneRow address (row.descriptionColumns afterDescription afterName tail) =
      pure { row.register with absAddr := address } := by
  obtain ⟨hunder, hspace, hopen, hclose, -⟩ := h.name
  obtain ⟨hbegins, hends, -, -, -⟩ := h.description
  have hname : '(' ∉ row.nameColumns afterName tail := by
    have hspaces : ∀ n, '(' ∉ spaces n := plain_spaces (by decide)
    simp only [Row.nameColumns, List.mem_append, List.mem_cons, not_or]
    exact ⟨hopen, by decide, by decide, hspaces _, plain_columns row h htail⟩
  have hdescription : row.descriptionColumns afterDescription afterName tail =
      (row.register.description ++ spaces (afterDescription+1)) ++
        '('::row.nameColumns afterName tail := by
    rw [Row.descriptionColumns, List.append_assoc]
    rfl
  have htrim : trim (row.register.description ++ spaces (afterDescription+1)) =
      row.register.description :=
    trim_between (a := []) nofun hbegins hends (blank_spaces _)
  have hcontains : (row.register.name.contains ' ' || !row.register.name.contains '_') = false := by
    simp only [List.contains_eq_mem, decide_eq_false hspace, decide_eq_true hunder]
    rfl
  have hafter : trim (' '::(spaces afterName ++ row.widthColumns tail)) =
      row.widthColumns (trimEnd tail) :=
    trim_columns (framed_width row h) (blank_spaces (afterName+1)) tail
  unfold oneRow
  rw [hdescription, rsplitOnce_append hname]
  dsimp only
  rw [found_some, htrim, Row.nameColumns, splitOnce_append hclose]
  dsimp only
  rw [hcontains, if_neg Bool.false_ne_true]
  show (found (some _) >>= _) = _
  rw [found_some, hafter, Row.widthColumns, splitOnce_append (plain_width h.width).1]
  dsimp only
  rw [width_text h.width, found_some, found_some, trim_columns (framed_access row) (blank_spaces _),
    lastColumns_row row (tail_trimEnd (tail_trimEnd htail))]
  rfl

theorem splitRow_row (row : Row) (htail : Tail tail) (line : Text) (address : UInt32)
    (bits : UInt8) (gap : ℕ) (prev next : Text) {around : Except (Stop Empty) (Text × Text)}
    (haround : aroundRow line (trim prev) (trim next) = around) :
    (splitRow line address bits (some (spaces gap ++ row.accessColumns tail)) (some prev)
      (some next)).run = around.map fun texts => some ⟨address, texts.1, texts.2, bits,
        row.register.access, row.register.resetValue⟩ := by
  unfold splitRow
  rw [expect_some rfl, expect_some rfl, run_lift, run_lift, haround]
  cases around with
  | error stop => rfl
  | ok texts =>
    rw [run_lift]
    dsimp only
    rw [found_some, trim_columns (framed_access row) (blank_spaces _),
      lastColumns_row row (tail_trimEnd htail)]
    rfl

theorem solid_address (k : ℕ) (v : UInt32) : ' ' ∉ addressText k v :=
  plain_address (by decide) (by decide) k v

theorem trim_address {k : ℕ} {v : UInt32} (hk : 0 < k) {f : Text → Text} (hf : Framed f)
    (indent gap : ℕ) (tail : Text) :
    trim (spaces indent ++ (addressText k v ++ ' '::(spaces gap ++ f tail))) =
      addressText k v ++ ' '::(spaces gap ++ f (trimEnd tail)) := by
  have hframed : Framed fun t => addressText k v ++ (' '::spaces gap ++ f t) :=
    framed_cons hf (begins_address hk v) _
  exact trim_columns hframed (blank_spaces indent) tail

theorem line_width {k : ℕ} {v : UInt32} (hk : 0 < k) (hv : v.toNat/65536 < 16^k)
    {f : Text → Text} (hf : Framed f) (indent gap : ℕ) (tail : Text) (prev next : Option Text)
    {bits : UInt8} (hw : width (splitOnce ' ' (f (trimEnd (trimEnd tail)))).1 = some bits) :
    line (spaces indent ++ (addressText k v ++ ' '::(spaces gap ++ f tail))) prev next =
      splitRow (addressText k v ++ ' '::(spaces gap ++ f (trimEnd tail))) v bits
        (splitOnce ' ' (f (trimEnd (trimEnd tail)))).2 prev next := by
  unfold line
  rw [trim_address hk hf]
  dsimp only
  rw [splitOnce_append (solid_address k v)]
  dsimp only
  rw [absAddr_text hk hv, found_some, found_some, trim_columns hf (blank_spaces gap), hw]

theorem line_other {k : ℕ} {v : UInt32} (hk : 0 < k) (hv : v.toNat/65536 < 16^k)
    {f : Text → Text} (hf : Framed f) (indent gap : ℕ) (tail : Text) (prev next : Option Text)
    (hw : width (splitOnce ' ' (f (trimEnd (trimEnd tail)))).1 = none) :
    line (spaces indent ++ (addressText k v ++ ' '::(spaces gap ++ f tail))) prev next =
      oneRow v (f (trimEnd (trimEnd tail))) := by
  unfold line
  rw [trim_address hk hf]
  dsimp only
  rw [splitOnce_append (solid_address k v)]
  dsimp only
  rw [absAddr_text hk hv, found_some, found_some, trim_columns hf (blank_spaces gap), hw]

theorem framed_description (row : Row) (h : row.Valid) (afterDescription afterName : ℕ) :
    Framed (row.descriptionColumns afterDescription afterName) := by
  have hname : Framed fun t => row.descriptionColumns afterDescription afterName t :=
    { tail := fun t => by
        simp only [Row.descriptionColumns, Row.nameColumns, (framed_width row h).tail t,
          List.append_assoc, List.cons_append]
      begins := begins_append h.description.1 _
      ends := ends_append _ (ends_cons _ (ends_append _ (ends_cons _ (ends_append _ (ends_cons _
        (ends_cons _ (ends_append _ (framed_width row h).ends))))))) }
  exact hname

theorem line_single (row : Row) (h : row.Valid) (afterDescription afterName : ℕ)
    (hclear : width (splitOnce ' ' row.register.description).1 = none) (prev next : Option Text) :
    line (spaces row.indent ++ row.addressColumns
      (row.descriptionColumns afterDescription afterName row.tail)) prev next =
        pure row.register := by
  have hword : (splitOnce ' ' (row.descriptionColumns afterDescription afterName
      (trimEnd (trimEnd row.tail)))).1 = (splitOnce ' ' row.register.description).1 :=
    splitOnce_front _ _ _
  rw [Row.addressColumns, line_other h.digits.1 h.digits.2.2
    (framed_description row h afterDescription afterName) _ _ _ _ _ (by rw [hword, hclear])]
  exact oneRow_row row h (tail_trimEnd (tail_trimEnd h.tail)) _ _ _

theorem line_middle (row : Row) (h : row.Valid) (prev next : Text)
    {around : Except (Stop Empty) (Text × Text)}
    (haround : ∀ text, aroundRow text (trim prev) (trim next) = around) :
    (line (spaces row.indent ++ row.addressColumns (row.widthColumns row.tail)) (some prev)
      (some next)).run = around.map fun texts =>
        some { row.register with description := texts.1, name := texts.2 } := by
  have hsplit : splitOnce ' ' (row.widthColumns (trimEnd (trimEnd row.tail))) =
      (widthText row.register.width,
        some (spaces row.afterWidth ++ row.accessColumns (trimEnd (trimEnd row.tail)))) :=
    splitOnce_append (plain_width h.width).1 _
  have hwidth : width (splitOnce ' ' (row.widthColumns (trimEnd (trimEnd row.tail)))).1 =
      some row.register.width := by rw [hsplit, width_text h.width]
  rw [Row.addressColumns, line_width h.digits.1 h.digits.2.2 (framed_width row h) _ _ _ _ _ hwidth,
    hsplit, splitRow_row row (tail_trimEnd (tail_trimEnd h.tail)) _ _ _ _ _ _ (haround _)]

end UsbArmory.Txt2rust.RowReading
