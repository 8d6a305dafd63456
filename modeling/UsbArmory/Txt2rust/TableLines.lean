import UsbArmory.Txt2rust.RowReading

/-!
# Lines that are not rows

The lines above and below a split row, and a row in one line that is taken for
a split one.
-/

set_option autoImplicit false

namespace UsbArmory.Txt2rust.TableLines
open UsbArmory.Library.Binary UsbArmory.Library.Strings UsbArmory.Library.Numerals
open UsbArmory.Library.Whitespace UsbArmory.Txt2rust.Parse UsbArmory.Txt2rust.Rows
open UsbArmory.Txt2rust.RowReading

variable {row : Row} {l p s w : Text} {prev next : Option Text}

theorem found_ok {α β : Type} {x : Found α} {f : α → Found β} {b : β}
    (h : (x >>= f).run = .ok (some b)) : ∃ a, x.run = .ok (some a) ∧ (f a).run = .ok (some b) := by
  rw [OptionT.run_bind] at h
  obtain ⟨v, hv, hf⟩ := ok_of_bind h
  cases v with
  | none => cases hf
  | some a => exact ⟨a, hv, hf⟩

theorem of_run_lift {α : Type} {x : Except (Stop Empty) α} {a : α}
    (h : (liftM x : Found α).run = .ok (some a)) : x = .ok a := by
  cases x with
  | error stop => cases h
  | ok b =>
    cases h
    rfl

theorem absAddr_open (s : Text) : absAddr ('('::s) = none := rfl

theorem line_foreign (h : absAddr (splitOnce ' ' (trim l)).1 = none) :
    (line l prev next).run = .ok none := by
  unfold line
  dsimp only
  rw [h]
  rfl

/-- A line that does not look like a split row is passed over or read as a row of its own. -/
theorem line_unsplit (prev next : Option Text) (h : ¬LooksSplit (trim l)) :
    (line l prev next).run = .ok none ∨
      ∃ address rest, (∀ c ∈ rest, c ∈ l) ∧ line l prev next = oneRow address rest := by
  cases haddress : absAddr (splitOnce ' ' (trim l)).1 with
  | none => exact .inl (line_foreign haddress)
  | some address =>
    unfold line
    dsimp only
    rw [haddress, found_some]
    cases hrest : (splitOnce ' ' (trim l)).2 with
    | none => exact .inl rfl
    | some rest =>
      rw [found_some]
      cases hwidth : width (splitOnce ' ' (trim rest)).1 with
      | some bits => exact absurd ⟨by rw [haddress]; rfl, rest, hrest, by rw [hwidth]; rfl⟩ h
      | none =>
        refine .inr ⟨address, trim rest, fun c hc => of_mem_trim ?_, rfl⟩
        rw [(splitOnce_some hrest).1]
        exact List.mem_append_right _ (List.mem_cons_of_mem _ (of_mem_trim hc))

theorem line_split (prev next : Option Text) (h : LooksSplit (trim l)) : ∃ address bits columns,
    line l prev next = splitRow (trim l) address bits columns prev next := by
  obtain ⟨haddress, rest, hrest, hwidth⟩ := h
  obtain ⟨address, haddress⟩ := Option.isSome_iff_exists.mp haddress
  obtain ⟨bits, hwidth⟩ := Option.isSome_iff_exists.mp hwidth
  refine ⟨address, bits, (splitOnce ' ' (trim rest)).2, ?_⟩
  unfold line
  dsimp only
  rw [haddress, found_some, hrest, found_some, hwidth]

theorem line_quiet (hplain : '(' ∉ l) (h : ¬LooksSplit (trim l)) :
    (line l prev next).run = .ok none := by
  rcases line_unsplit prev next h with hnone | ⟨address, rest, hrest, hone⟩
  · exact hnone
  · have hopen : '(' ∉ rest := fun hmem => hplain (hrest _ hmem)
    rw [hone, oneRow, rsplitOnce_none hopen]
    rfl

theorem line_loud (h : LooksSplit (trim l)) (hnext : ∀ n ∈ next, '(' ∉ n) :
    ∃ message, (line l prev next).run = .error (.panic message) := by
  obtain ⟨address, bits, columns, hline⟩ := line_split prev next h
  rw [hline]
  unfold splitRow
  cases prev with
  | none => exact ⟨_, rfl⟩
  | some p =>
    cases next with
    | none => exact ⟨_, rfl⟩
    | some n =>
      have hnone : '(' ∉ trim n := fun hmem => hnext n rfl (of_mem_trim hmem)
      have hcontains : (trim n).contains '(' = false := by
        rw [List.contains_eq_mem, decide_eq_false hnone]
      rw [expect_some rfl, expect_some rfl, run_lift, run_lift, aroundRow, hcontains]
      exact ⟨_, rfl⟩

/-- A parenthesis opens at the front or behind a space. -/
def Opens (l : Text) : Prop := ∃ a b, trim l = a ++ '('::b ∧ ∀ c ∈ a.getLast?, c = ' '

theorem aroundRow_opens {text n description name : Text} (hp : Opens p)
    (h : aroundRow text (trim p) n = .ok (description, name)) : '(' ∈ description := by
  obtain ⟨a, b, hab, hlast⟩ := hp
  have hopen : '(' ∈ trim p := by
    rw [hab]
    exact List.mem_append_right _ List.mem_cons_self
  have hfront : ∀ u, isSection (rsplitOnce ' ' (trim p)).1 = true →
      (rsplitOnce ' ' (trim p)).2 = some u → '(' ∈ u := by
    intro u hsection hu
    obtain ⟨hsplit, hspace⟩ := rsplitOnce_some hu
    generalize (rsplitOnce ' ' (trim p)).1 = last at hsection hsplit hspace
    rw [hab] at hsplit
    rcases List.append_eq_append_iff.mp hsplit with ⟨v, hu', hrest⟩ | ⟨v, ha, hrest⟩
    · cases v with
      | nil => cases hrest
      | cons x v =>
        cases hrest
        rw [hu']
        exact List.mem_append_right _ List.mem_cons_self
    · cases v with
      | nil => cases hrest
      | cons x v =>
        cases hrest
        cases hv : v.getLast? with
        | none =>
          rw [List.getLast?_eq_none_iff.mp hv] at hsection
          cases hsection
        | some y =>
          have hy : y ∈ v := List.mem_of_getLast? hv
          have hspaced : y = ' ' := hlast y (by
            rw [ha, List.getLast?_append, List.getLast?_cons, hv]
            rfl)
          exact absurd (List.mem_append_left _ (hspaced ▸ hy)) hspace
  have hshort : ∀ d, withoutSection (trim p) = .ok d → '(' ∈ d := by
    intro d hd
    unfold withoutSection at hd
    dsimp only at hd
    split at hd
    next hsection =>
      cases hu : (rsplitOnce ' ' (trim p)).2 with
      | none =>
        rw [hu] at hd
        cases hd
      | some u =>
        rw [hu] at hd
        cases hd
        exact mem_trim rfl (hfront u hsection hu)
    next =>
      cases hd
      exact hopen
  unfold aroundRow at h
  split at h
  next =>
    obtain ⟨before, -, h⟩ := ok_of_bind h
    obtain ⟨d, hd, h⟩ := ok_of_bind h
    have hmem := hshort d hd
    cases h
    split
    · exact hmem
    · exact List.mem_append_left _ hmem
  next => cases h

theorem splitRow_opens {text : Text} {address : UInt32} {bits : UInt8} {rest : Option Text}
    {r : Register} (hprev : ∀ p ∈ prev, Opens p)
    (h : (splitRow text address bits rest prev next).run = .ok (some r)) : '(' ∈ r.description := by
  unfold splitRow at h
  obtain ⟨p, hp, h⟩ := found_ok h
  obtain ⟨n, -, h⟩ := found_ok h
  obtain ⟨⟨description, name⟩, haround, h⟩ := found_ok h
  obtain ⟨rest', -, h⟩ := found_ok h
  obtain ⟨⟨acc, value⟩, -, h⟩ := found_ok h
  cases h
  exact aroundRow_opens (hprev p (expect_ok (of_run_lift hp))) (of_run_lift haround)

theorem trim_below (name : Text) (below : ℕ) (tail : Text) :
    trim (spaces below ++ ('('::(name ++ [')']) ++ tail)) = '('::(name ++ [')']) ++ trimEnd tail :=
  trim_framed (blank_spaces below) ⟨'(', _, rfl, rfl⟩
    (ends_cons _ (ends_append _ ⟨[], ')', rfl, rfl⟩)) tail

theorem line_below (name : Text) (below : ℕ) (tail : Text) :
    (line (spaces below ++ ('('::(name ++ [')']) ++ tail)) prev next).run = .ok none := by
  apply line_foreign
  rw [trim_below]
  have hfront : ∃ t, (splitOnce ' ' ('('::(name ++ [')']) ++ trimEnd tail)).1 = '('::t := ⟨_, rfl⟩
  obtain ⟨t, ht⟩ := hfront
  rw [ht]
  exact absAddr_open t

theorem aroundRow_below (h : row.Valid) {tail : Text} (htail : Tail tail) (below : ℕ)
    (text p : Text) : aroundRow text p (trim (spaces below ++
      ('('::(row.register.name ++ [')']) ++ tail))) =
      (withoutSection p).map fun description => (description, row.register.name) := by
  obtain ⟨-, -, hopen, hclose, -⟩ := h.name
  have hplain := (tail_trimEnd htail).plain
  have hnext : '('::(row.register.name ++ [')']) ++ trimEnd tail =
      [] ++ '('::(row.register.name ++ ')'::trimEnd tail) := by simp
  have hafter : '(' ∉ row.register.name ++ ')'::trimEnd tail := by
    simp only [List.mem_append, List.mem_cons, not_or]
    exact ⟨hopen, by decide, hplain.1⟩
  have hcontains : (('('::(row.register.name ++ ')'::trimEnd tail)).contains '(' &&
      ('('::(row.register.name ++ ')'::trimEnd tail)).contains ')') = true := by
    simp [List.contains_eq_mem]
  rw [trim_below, hnext, aroundRow, List.nil_append, hcontains, if_pos rfl, ← List.nil_append
    ('('::_), rsplitOnce_append hafter]
  dsimp only
  rw [bind_of_ok (expect_some rfl), splitOnce_append hclose]
  cases withoutSection p <;> rfl

/-- The line above a split row, without the white space around it. -/
def aboveText (description : Text) : Option (ℕ × Text) → Text
  | none => description
  | some (gap, w) => description ++ ' '::(spaces gap ++ w)

theorem heading_solid (h : Heading w) : Begins w ∧ Ends w ∧ ' ' ∉ w := by
  have hne : w ≠ [] := by
    rintro rfl
    cases h.found
  refine ⟨?_, ?_, fun hmem => absurd (h.solid _ hmem) (by decide)⟩
  · obtain ⟨c, rest, rfl⟩ := List.exists_cons_of_ne_nil hne
    exact ⟨c, rest, rfl, h.solid c List.mem_cons_self⟩
  · exact ⟨w.dropLast, w.getLast hne, (List.dropLast_concat_getLast hne).symm,
      h.solid _ (List.getLast_mem hne)⟩

theorem trim_above {d : Text} (hb : Begins d) (he : Ends d) {heading : Option (ℕ × Text)}
    (hh : ∀ w ∈ heading, Heading w.2) (above aboveEnd : ℕ) :
    trim (spaces above ++ (d ++ headingText aboveEnd heading)) = aboveText d heading := by
  cases heading with
  | none => exact trim_between (blank_spaces _) hb he (blank_spaces _)
  | some gw =>
    obtain ⟨gap, w⟩ := gw
    obtain ⟨-, hends, -⟩ := heading_solid (hh _ rfl)
    have hgroup : d ++ headingText aboveEnd (some (gap, w)) =
        (d ++ ' '::(spaces gap ++ w)) ++ spaces aboveEnd := by
      simp only [headingText, List.append_assoc, List.cons_append]
    rw [hgroup]
    exact trim_between (blank_spaces _) (begins_append hb _)
      (ends_append _ (ends_cons _ (ends_append _ hends))) (blank_spaces _)

theorem width_heading (h : Heading w) : width w = none := by
  have hdot : w.contains '.' = true := (Bool.and_eq_true_iff.mp h.found).2
  unfold width
  split_ifs with h8 h16 h32
  · rw [h8] at hdot
    cases hdot
  · rw [h16] at hdot
    cases hdot
  · rw [h32] at hdot
    cases hdot
  · rfl

theorem ends_rest {d rest : Text} (he : Ends d) (hsplit : (splitOnce ' ' d).2 = some rest) :
    Ends rest := by
  obtain ⟨hd, -⟩ := splitOnce_some hsplit
  obtain ⟨front, c, hlast, hc⟩ := he
  rcases List.eq_nil_or_concat rest with rfl | ⟨front', c', rfl⟩
  · rw [hlast] at hd
    have hspace : c = ' ' := (List.append_inj' hd rfl).2 |> List.singleton_inj.mp
    rw [hspace] at hc
    cases hc
  · rw [List.concat_eq_append] at hd ⊢
    rw [hlast, ← List.cons_append, ← List.append_assoc] at hd
    have hsame : c = c' := (List.append_inj' hd rfl).2 |> List.singleton_inj.mp
    exact ⟨front', c', rfl, hsame ▸ hc⟩

/-- Section information does not make a line look like a row, nor hides that it does. -/
theorem looks_above {d : Text} (he : Ends d) {heading : Option (ℕ × Text)}
    (hh : ∀ w ∈ heading, Heading w.2) : LooksSplit (aboveText d heading) ↔ LooksSplit d := by
  cases heading with
  | none => exact Iff.rfl
  | some gw =>
    obtain ⟨gap, w⟩ := gw
    have hw := hh _ rfl
    obtain ⟨hbegins, hends, hspace⟩ := heading_solid hw
    have htail : trimEnd (' '::(spaces gap ++ w)) = ' '::(spaces gap ++ w) := by
      have hall := trimEnd_ends (ends_cons ' ' (ends_append (spaces gap) hends)) []
      rw [List.append_nil] at hall
      rw [hall]
      exact List.append_nil _
    cases hsplit : (splitOnce ' ' d).2 with
    | none =>
      have hplain := splitOnce_whole hsplit
      have habove : splitOnce ' ' (aboveText d (some (gap, w))) = (d, some (spaces gap ++ w)) :=
        splitOnce_append hplain _
      have hnone : width (splitOnce ' ' (trim (spaces gap ++ w))).1 = none := by
        have htrim := trim_framed (blank_spaces gap) hbegins hends []
        rw [List.append_nil] at htrim
        rw [htrim, trimEnd, List.reverse_nil, List.dropWhile_nil, List.reverse_nil, List.append_nil,
          splitOnce_none hspace]
        exact width_heading hw
      constructor
      · rintro ⟨-, rest, hrest, hwidth⟩
        rw [habove] at hrest
        cases hrest
        rw [hnone] at hwidth
        cases hwidth
      · rintro ⟨-, rest, hrest, -⟩
        rw [hsplit] at hrest
        cases hrest
    | some rest =>
      obtain ⟨hd, hfirst⟩ := splitOnce_some hsplit
      have habove : splitOnce ' ' (aboveText d (some (gap, w))) =
          ((splitOnce ' ' d).1, some (rest ++ ' '::(spaces gap ++ w))) := by
        have hgroup : aboveText d (some (gap, w)) =
            (splitOnce ' ' d).1 ++ ' '::(rest ++ ' '::(spaces gap ++ w)) := by
          conv_lhs => rw [aboveText, hd]
          simp only [List.append_assoc, List.cons_append]
        rw [hgroup]
        exact splitOnce_append hfirst _
      have hword : (splitOnce ' ' (trim (rest ++ ' '::(spaces gap ++ w)))).1 =
          (splitOnce ' ' (trim rest)).1 := by
        rw [trim_ends (ends_rest he hsplit), htail, splitOnce_front]
      unfold LooksSplit
      rw [habove, hsplit]
      simp only [Option.some.injEq, exists_eq_left', hword]

theorem withoutSection_heading {d : Text} (hb : Begins d) (he : Ends d) {gap : ℕ}
    (hw : Heading w) : withoutSection (aboveText d (some (gap, w))) = .ok d := by
  obtain ⟨-, -, hspace⟩ := heading_solid hw
  have hgroup : aboveText d (some (gap, w)) = (d ++ spaces gap) ++ ' '::w := by
    have hspaces : ' '::spaces gap = spaces gap ++ [' '] := List.replicate_succ' ..
    rw [aboveText, ← List.cons_append, hspaces]
    simp only [List.append_assoc, List.singleton_append]
  have htrim := trim_between (a := []) nofun hb he (blank_spaces gap)
  rw [List.nil_append] at htrim
  rw [withoutSection, hgroup, rsplitOnce_append hspace]
  dsimp only
  rw [if_pos hw.found, expect_some rfl]
  exact congrArg Except.ok htrim

theorem withoutSection_plain {d : Text} (h : isSection (rsplitOnce ' ' d).1 = false) :
    withoutSection d = .ok d := by
  rw [withoutSection]
  rw [h, if_neg Bool.false_ne_true]
  rfl

theorem withoutSection_shorter {d d' : Text} (h : isSection (rsplitOnce ' ' d).1 = true)
    (hd : withoutSection d = .ok d') : d' ≠ d := by
  rw [withoutSection] at hd
  rw [if_pos h] at hd
  cases hsplit : (rsplitOnce ' ' d).2 with
  | none =>
    rw [hsplit] at hd
    cases hd
  | some front =>
    rw [hsplit] at hd
    cases hd
    obtain ⟨hwhole, -⟩ := rsplitOnce_some hsplit
    have hlen := congrArg List.length hwhole
    rw [List.length_append, List.length_cons] at hlen
    intro heq
    have hshort := length_trim_le front
    rw [heq] at hshort
    omega

end UsbArmory.Txt2rust.TableLines
