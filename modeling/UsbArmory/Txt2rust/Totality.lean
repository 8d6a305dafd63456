import UsbArmory.Txt2rust.InstanceRuns

/-!
# Where the compression returns

The prefix is what stands before some underscore of the first name, if the
second name begins with it, digits included. The loop over the instances goes
on only if an instance number is written again as it stands in the name.
-/

set_option autoImplicit false

namespace UsbArmory.Txt2rust.Totality
open UsbArmory.Library UsbArmory.Library.Binary UsbArmory.Library.Strings
open UsbArmory.Library.Numerals UsbArmory.Library.Grouping
open UsbArmory.Txt2rust.Compress UsbArmory.Txt2rust.InstanceRuns

variable {s t u first second : Text} {names : List Text} {fuel : ℕ}
variable {name : Text} {regs : List Parse.Register} {blocks : List Block}

def Boundary (b s : Text) : Prop := b ++ ['_'] <+: s

/-- The second name begins with this, and all names with what is before the digits at its end. -/
def Shared (second : Text) (names : List Text) (b : Text) : Prop :=
  b <+: second ∧ ∀ n ∈ names, (stripDigits b).1 <+: n

def Longest (P : Text → Prop) (b : Text) : Prop := P b ∧ ∀ c, P c → c.length ≤ b.length

theorem boundary_last (ht : '_' ∉ t) (b : Text) :
    Boundary b (s ++ '_'::t) ↔ b = s ∨ Boundary b s := by
  constructor
  · rintro ⟨u, hu⟩
    rw [List.append_assoc, List.singleton_append] at hu
    rcases List.append_eq_append_iff.mp hu with ⟨v, hs, hv⟩ | ⟨v, hb, hv⟩
    · cases v with
      | nil => exact .inl (by rw [hs, List.append_nil])
      | cons c v =>
        cases (List.cons.inj hv).1
        refine .inr ⟨v, ?_⟩
        rw [hs, List.append_assoc, List.singleton_append]
    · cases v with
      | nil => exact .inl (by rw [hb, List.append_nil])
      | cons c v =>
        obtain ⟨-, htail⟩ := List.cons.inj hv
        exact absurd (htail ▸ List.mem_append_right _ List.mem_cons_self) ht
  · rintro (rfl | ⟨u, rfl⟩)
    · exact ⟨t, by rw [List.append_assoc, List.singleton_append]⟩
    · exact ⟨u ++ '_'::t, (List.append_assoc _ _ _).symm⟩

theorem boundary_none (h : '_' ∉ s) (b : Text) : ¬Boundary b s := by
  rintro ⟨u, rfl⟩
  exact h (by simp)

theorem strip_split (s : Text) : ∃ ds, s = (stripDigits s).1 ++ ds ∧ '_' ∉ ds := by
  refine ⟨(s.reverse.takeWhile Char.isDigit).reverse, ?_, fun hmem => ?_⟩
  · rw [stripDigits, ← List.reverse_append, List.takeWhile_append_dropWhile, List.reverse_reverse]
  · have hdigit := List.mem_takeWhile_imp (List.mem_reverse.mp hmem)
    exact absurd hdigit (by decide)

theorem strip_length (s : Text) : (stripDigits s).1.length ≤ s.length := by
  obtain ⟨ds, hs, -⟩ := strip_split s
  have hlen := congrArg List.length hs
  rw [List.length_append] at hlen
  omega

theorem boundary_strip (b s : Text) : Boundary b (stripDigits s).1 ↔ Boundary b s := by
  obtain ⟨ds, hs, hds⟩ := strip_split s
  constructor
  · rintro ⟨u, hu⟩
    rw [hs, ← hu]
    exact ⟨u ++ ds, (List.append_assoc _ _ _).symm⟩
  · intro h
    rw [hs] at h
    obtain ⟨u, hu⟩ := h
    rcases List.append_eq_append_iff.mp hu with ⟨v, hstrip, -⟩ | ⟨v, hb, hv⟩
    · exact ⟨v, hstrip.symm⟩
    · cases v using List.reverseRecOn with
      | nil =>
        rw [List.append_nil] at hb
        exact hb ▸ List.prefix_rfl
      | append_singleton v c =>
        rw [← List.append_assoc] at hb
        obtain ⟨-, hc⟩ := List.append_inj' hb rfl
        have hmem : '_' ∈ ds := by
          rw [hv, ← List.singleton_inj.mp hc]
          simp
        exact absurd hmem hds

theorem prefixLoop_shared {m : Text} (hs : (rsplitOnce '_' s).2 = some m)
    (h : Shared second names m) :
    prefixLoop first second names (fuel+1) s = .ok (stripDigits m) := by
  have hall : names.all (startsWith (stripDigits m).1) = true :=
    List.all_eq_true.mpr fun n hn => startsWith_iff.mpr (h.2 n hn)
  unfold prefixLoop
  simp only [hs]
  rw [if_pos (startsWith_iff.mpr h.1), if_pos hall]

theorem prefixLoop_next (first : Text) (fuel : ℕ) {m : Text} (hs : (rsplitOnce '_' s).2 = some m)
    (h : ¬Shared second names m) : ∃ r, (r = m ∨ r = (stripDigits m).1) ∧
      prefixLoop first second names (fuel+1) s = prefixLoop first second names fuel r := by
  conv in prefixLoop _ _ _ (fuel+1) _ => unfold prefixLoop
  simp only [hs]
  by_cases hsecond : startsWith m second = true
  · have hall : ¬names.all (startsWith (stripDigits m).1) = true := fun hall =>
      h ⟨startsWith_iff.mp hsecond, fun n hn => startsWith_iff.mp (List.all_eq_true.mp hall n hn)⟩
    rw [if_pos hsecond, if_neg hall]
    exact ⟨_, .inr rfl, rfl⟩
  · rw [if_neg hsecond]
    exact ⟨m, .inl rfl, rfl⟩

theorem prefixLoop_longest (first second : Text) (names : List Text) (hfuel : s.length < fuel) :
    (∃ b, Longest (fun b => Boundary b s ∧ Shared second names b) b ∧
      prefixLoop first second names fuel s = .ok (stripDigits b)) ∨
    ((∀ b, Boundary b s → ¬Shared second names b) ∧
      ∃ message, prefixLoop first second names fuel s = .error (.panic message)) := by
  induction fuel generalizing s with
  | zero => exact absurd hfuel (Nat.not_lt_zero _)
  | succ fuel ih =>
    cases hs : (rsplitOnce '_' s).2 with
    | none =>
      have hnone : '_' ∉ s := fun hmem => by
        have hsplit := splitOnce_whole (Option.map_eq_none_iff.mp hs)
        exact hsplit (List.mem_reverse.mpr hmem)
      refine .inr ⟨fun b hb => absurd hb (boundary_none hnone b), ?_⟩
      unfold prefixLoop
      simp only [hs]
      exact ⟨_, rfl⟩
    | some m =>
      obtain ⟨hsplit, htail⟩ := rsplitOnce_some hs
      have hlast : ∀ b, Boundary b s ↔ b = m ∨ Boundary b m := by
        intro b
        conv_lhs => rw [hsplit]
        exact boundary_last htail b
      by_cases hm : Shared second names m
      · refine .inl ⟨m, ⟨⟨(hlast m).mpr (.inl rfl), hm⟩, fun c hc => ?_⟩,
          prefixLoop_shared hs hm⟩
        rcases (hlast c).mp hc.1 with rfl | hbound
        · exact Nat.le_refl _
        · exact (List.prefix_append c _).length_le.trans hbound.length_le
      · obtain ⟨r, hr, hrun⟩ := prefixLoop_next first fuel hs hm
        have hbound : ∀ b, Boundary b r ↔ Boundary b m := by
          rcases hr with rfl | rfl
          · exact fun _ => Iff.rfl
          · exact fun b => boundary_strip b m
        have hlen : r.length < s.length := by
          have hle : r.length ≤ m.length := by
            rcases hr with rfl | rfl
            · exact Nat.le_refl _
            · exact strip_length m
          rw [hsplit, List.length_append, List.length_cons]
          omega
        have hsame : ∀ b, Boundary b s ∧ Shared second names b ↔
            Boundary b r ∧ Shared second names b := by
          intro b
          rw [hlast, hbound]
          refine and_congr_left fun hb => or_iff_right ?_
          rintro rfl
          exact hm hb
        rw [hrun]
        rcases ih (s := r) (by omega) with ⟨b, hb, hfound⟩ | ⟨hnone, hpanic⟩
        · refine .inl ⟨b, ⟨(hsame b).mpr hb.1, fun c hc => hb.2 c ((hsame c).mp hc)⟩, hfound⟩
        · exact .inr ⟨fun b hb hshared => hnone b ((hsame b).mp ⟨hb, hshared⟩).1 hshared, hpanic⟩

/-- What the search for a common prefix looks for in the names. -/
def Candidate : List Text → Text → Prop
  | first::second::rest, b => Boundary b first ∧ Shared second (first::second::rest) b
  | _, _ => False

theorem candidate_boundary {b : Text} (h : Candidate names b) :
    ∀ n ∈ names.head?, Boundary b n := by
  match names with
  | first::second::rest =>
    intro n hn
    exact Option.some.inj hn ▸ h.1

theorem longest_unique {b c : Text} (hb : Longest (Candidate names) b)
    (hc : Longest (Candidate names) c) : b = c := by
  cases names with
  | nil => exact hb.1.elim
  | cons n names =>
    have hpre : ∀ {a : Text}, Candidate (n::names) a → a <+: n := fun ha =>
      (List.prefix_append _ _).trans (candidate_boundary ha n rfl)
    have hlen : b.length = c.length := Nat.le_antisymm (hc.2 b hb.1) (hb.2 c hc.1)
    exact (List.prefix_of_prefix_length_le (hpre hb.1) (hpre hc.1) hlen.le).eq_of_length hlen

theorem prefix_found {r : Text × Bool} :
    findCommonPrefix names = .ok r ↔ ∃ b, Longest (Candidate names) b ∧ stripDigits b = r := by
  match names with
  | [] => exact ⟨nofun, fun ⟨_, hb, _⟩ => hb.1.elim⟩
  | [_] => exact ⟨nofun, fun ⟨_, hb, _⟩ => hb.1.elim⟩
  | first::second::rest =>
    rcases prefixLoop_longest first second (first::second::rest)
      (Nat.lt_succ_self first.length) with ⟨b, hb, hfound⟩ | ⟨hnone, message, hpanic⟩
    · constructor
      · intro h
        exact ⟨b, hb, Except.ok.inj (hfound.symm.trans h)⟩
      · rintro ⟨c, hc, rfl⟩
        have heq : c = b := longest_unique hc hb
        exact heq ▸ hfound
    · constructor
      · intro h
        cases hpanic.symm.trans h
      · rintro ⟨c, hc, -⟩
        exact absurd hc.1.2 (hnone c hc.1.1)

/-- Numbered below 256, as a number is written. -/
def Numbered (name : Text) (reg : Parse.Register) : Prop := ∃ i < 256, OfInstance name i reg

/-- The number is found again in the first name of the run. -/
def Readable (name : Text) (b : Block) : Prop :=
  extractInstance (trimStartMatches name b.first.name) = .ok b.index

theorem runs_exist (h : ∀ reg ∈ regs, Numbered name reg) : ∃ blocks, Runs name regs blocks := by
  induction regs with
  | nil => exact ⟨[], .nil⟩
  | cons reg regs ih =>
    obtain ⟨i, hi, hreg⟩ := h reg List.mem_cons_self
    obtain ⟨blocks, hruns⟩ := ih fun reg' hreg' => h reg' (List.mem_cons_of_mem _ hreg')
    have halone : ∀ reg' ∈ [reg], OfInstance name i reg' :=
      fun reg' hreg' => List.mem_singleton.mp hreg' ▸ hreg
    cases hruns with
    | nil => exact ⟨[⟨i, reg, []⟩], .cons (b := ⟨i, reg, []⟩) hi halone nofun .nil⟩
    | @cons b rest blocks hindex hsame hnext hrest =>
      by_cases hjoin : b.index = i
      · -- the register begins the run that was the first one
        refine ⟨⟨i, reg, b.registers⟩::blocks, .cons (b := ⟨i, reg, b.registers⟩) hi ?_ ?_ hrest⟩
        · rintro reg' (_ | ⟨_, hreg'⟩)
          · exact hreg
          · exact hjoin ▸ hsame reg' hreg'
        · exact hjoin ▸ hnext
      · refine ⟨⟨i, reg, []⟩::b::blocks, .cons (b := ⟨i, reg, []⟩) hi halone ?_
          (.cons hindex hsame hnext hrest)⟩
        intro reg' hreg' hof
        cases hreg'
        exact hjoin (instance_unique hindex hi (hsame b.first List.mem_cons_self) hof)

theorem runs_numbered (h : Runs name regs blocks) : ∀ reg ∈ regs, Numbered name reg := by
  induction h with
  | nil => exact nofun
  | @cons b rest blocks hindex hsame hnext hrest ih =>
    intro reg hreg
    rcases List.mem_append.mp hreg with hmem | hmem
    · exact ⟨b.index, hindex, hsame reg hmem⟩
    · exact ih reg hmem

theorem loop_unreadable {b : Block} {rest : List Parse.Register} (hindex : b.index < 256)
    (hfirst : OfInstance name b.index b.first) (hread : ¬Readable name b) (fuel : ℕ)
    (ps qs : List Peripheral) : instancesLoop name fuel (b.registers ++ rest) ps ≠ .ok qs := by
  show instancesLoop name fuel (b.first::(b.others ++ rest)) ps ≠ .ok qs
  cases hi : extractInstance (trimStartMatches name b.first.name) with
  | error stop =>
    intro h
    cases fuel with
    | zero => cases h
    | succ fuel =>
      unfold instancesLoop at h
      rw [hi] at h
      cases h
  | ok i =>
    refine loop_stuck hi (Bool.eq_false_iff.mpr fun hstart => hread ?_) fuel ps qs
    have heq := instance_unique (instance_lt hi) hindex (startsWith_iff.mp hstart) hfirst
    rw [Readable, hi, heq]

/-- The loop comes to the end of the runs that are readable, whatever it has found before. -/
theorem loop_returns (hruns : Runs name regs blocks) (hfuel : regs.length ≤ fuel)
    {gs : List (List Block)} (hu : Uniform (layout name) gs) :
    (∃ ps, instancesLoop name fuel regs (gs.map (peripheralOf name)) = .ok ps) ↔
      ∀ b ∈ blocks, Readable name b := by
  induction hruns generalizing fuel gs with
  | nil =>
    refine ⟨fun _ => nofun, fun _ => ⟨gs.map (peripheralOf name), ?_⟩⟩
    cases fuel <;> rfl
  | @cons b rest blocks hindex hsame hnext hrest ih =>
    by_cases hread : Readable name b
    · cases fuel with
      | zero => exact absurd hfuel (Nat.not_succ_le_zero _)
      | succ fuel =>
        obtain ⟨htake, hdrop⟩ := takeWhile_block b hsame hnext
        have hrun : instancesLoop name (fuel+1) (b.registers ++ rest) (gs.map (peripheralOf name)) =
            instancesLoop name fuel rest ((join (layout name) b gs).map (peripheralOf name)) := by
          have hcons : b.registers ++ rest = b.first::(b.others ++ rest) := rfl
          rw [hcons, loop_step hread, ← hcons, htake, hdrop]
          exact bind_of_ok (addInstance_join b hu)
        have hlen : rest.length ≤ fuel := by
          rw [List.length_append, Block.registers, List.length_cons] at hfuel
          omega
        rw [hrun, ih hlen (join_uniform hu b), List.forall_mem_cons]
        exact (and_iff_right hread).symm
    · refine iff_of_false ?_ fun hall => hread (hall b List.mem_cons_self)
      rintro ⟨ps, hps⟩
      exact loop_unreadable hindex (hsame b.first List.mem_cons_self) hread fuel _ ps hps

structure Tidy (name : Text) (regs : List Parse.Register) : Prop where
  numbered : ∀ reg ∈ regs, Numbered name reg
  heads : ∀ blocks, Runs name regs blocks → ∀ b ∈ blocks, Readable name b

theorem instances_return (name : Text) (regs : List Parse.Register) :
    (∃ ps, instancesLoop name regs.length regs [] = .ok ps) ↔ Tidy name regs := by
  have hnone : Uniform (layout name) ([] : List (List Block)) := nofun
  constructor
  · rintro ⟨ps, hps⟩
    obtain ⟨blocks, hruns, -⟩ := loop_runs regs.length hnone hps
    refine ⟨runs_numbered hruns, fun blocks' hruns' => ?_⟩
    exact (loop_returns hruns' (Nat.le_refl _) hnone).mp ⟨ps, hps⟩
  · intro h
    obtain ⟨blocks, hruns⟩ := runs_exist h.numbered
    exact (loop_returns hruns (Nat.le_refl _) hnone).mpr (h.heads blocks hruns)

theorem base_le {first : Parse.Register} {others : List Parse.Register}
    (h : first::others <:+ sortByAddress regs) :
    ∀ reg ∈ first::others, first.absAddr ≤ reg.absAddr := by
  let le := fun a b : Parse.Register => a.absAddr ≤ b.absAddr
  have htotal : Std.Total le := ⟨fun a b => UInt32.le_total a.absAddr b.absAddr⟩
  have htrans : IsTrans Parse.Register le := ⟨fun _ _ _ => UInt32.le_trans⟩
  have hsorted : (sortByAddress regs).Pairwise le := List.pairwise_insertionSort le regs
  have hrest := List.pairwise_cons.mp (hsorted.sublist h.sublist)
  rintro reg (_ | ⟨_, hreg⟩)
  · exact UInt32.le_refl _
  · exact hrest.1 reg hreg

structure Compressible (regs : List Parse.Register) (b : Text) : Prop where
  longest : Longest (Candidate (regs.map (·.name))) b
  tidy : (stripDigits b).2 = true → Tidy (stripDigits b).1 regs

/-- The compression comes to an end without a panic exactly on the registers with a prefix. -/
theorem compressible_iff (regs : List Parse.Register) :
    (∃ ps, registers regs = .ok ps) ↔ ∃ b, Compressible (sortByAddress regs) b := by
  constructor
  · rintro ⟨ps, hps⟩
    obtain ⟨name, numbered, hname⟩ := registers_found hps
    obtain ⟨b, hb, hstrip⟩ := prefix_found.mp hname
    refine ⟨b, hb, fun hnumbered => ?_⟩
    rw [hstrip] at hnumbered ⊢
    cases hnumbered
    unfold registers at hps
    rw [bind_of_ok hname] at hps
    exact (instances_return _ _).mp ⟨ps, hps⟩
  · rintro ⟨b, hb, htidy⟩
    have hname := prefix_found.mpr ⟨b, hb, rfl⟩
    cases hnumbered : (stripDigits b).2 with
    | true =>
      obtain ⟨ps, hps⟩ := (instances_return _ _).mpr (htidy hnumbered)
      refine ⟨ps, ?_⟩
      unfold registers
      rw [bind_of_ok hname]
      simp only [hnumbered, if_pos]
      exact hps
    | false =>
      unfold registers
      rw [bind_of_ok hname]
      simp only [hnumbered]
      cases hsorted : sortByAddress regs with
      | nil =>
        rw [hsorted] at hb
        exact hb.1.elim
      | cons first rest => exact ⟨_, rfl⟩

/-- A common prefix, and behind it an underscore or a `u8` and an underscore. -/
def Follows (p n : Text) : Prop := p ++ ['_'] <+: n ∨ ∃ ds, ds ≠ [] ∧ ds.all Char.isDigit ∧
  (fromStrRadix 10 256 ds).isSome ∧ p ++ ds ++ ['_'] <+: n

theorem follows_number (p ds : Text) (hne : ds ≠ []) (hdigits : ds.all Char.isDigit)
    (hsome : (fromStrRadix 10 256 ds).isSome) (rest : Text) :
    Follows p (p ++ ds ++ ['_'] ++ rest) :=
  .inr ⟨ds, hne, hdigits, hsome, List.prefix_append _ _⟩

def uart : Text := ['U', 'A', 'R', 'T']

/-- A register of the instance with this number, as it is written. -/
def uartRegister (absAddr : UInt32) (ds rest : Text) : Parse.Register :=
  ⟨absAddr, [], uart ++ ds ++ ['_'] ++ rest, 32, .readWrite, 0⟩

def single : List Parse.Register := [uartRegister 0 ['1'] ['X']]

def zeros : List Parse.Register :=
  [uartRegister 0 ['0', '1'] ['A'], uartRegister 4 ['0', '1'] ['B']]

def apart : List Parse.Register := [uartRegister 0 ['1'] ['X'], uartRegister 4 ['2'] ['Y']]

/-- There is no second name, the number is written without its zero for ever, or the second
name has another number. -/
theorem compressible_not :
    (∀ regs ∈ [single, zeros, apart], regs ≠ [] ∧ ∀ reg ∈ regs, Follows uart reg.name) ∧
    registers single = .error (.panic "index out of bounds") ∧
    registers zeros = .error .endless ∧
    (∀ fuel ps, instancesLoop uart fuel zeros [] ≠ .ok ps) ∧
    registers apart =
      .error (.panic "no common prefix between `UART1_X` and `UART2_Y`") := by
  have hone := follows_number uart ['1'] (by decide) (by decide) (by decide)
  have htwo := follows_number uart ['2'] (by decide) (by decide) (by decide)
  have hzero := follows_number uart ['0', '1'] (by decide) (by decide) (by decide)
  refine ⟨?_, rfl, rfl, fun fuel ps => loop_stuck (i := 1) rfl rfl fuel [] ps, rfl⟩
  rintro regs (_ | ⟨_, _ | ⟨_, _ | ⟨_, ⟨⟩⟩⟩⟩)
  · exact ⟨nofun, List.forall_mem_singleton.mpr (hone ['X'])⟩
  · exact ⟨nofun, List.forall_mem_cons.mpr
      ⟨hzero ['A'], List.forall_mem_singleton.mpr (hzero ['B'])⟩⟩
  · exact ⟨nofun, List.forall_mem_cons.mpr
      ⟨hone ['X'], List.forall_mem_singleton.mpr (htwo ['Y'])⟩⟩

end UsbArmory.Txt2rust.Totality
