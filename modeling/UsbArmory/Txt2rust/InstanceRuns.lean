import Mathlib.Data.List.TakeWhile
import UsbArmory.Library.Grouping
import UsbArmory.Txt2rust.Compress

/-!
# The instances in a list of registers

The loop over the instances takes maximal runs of registers of one instance,
and its peripherals are the groups of runs with one layout.
-/

set_option autoImplicit false

namespace UsbArmory.Txt2rust.InstanceRuns
open UsbArmory.Library UsbArmory.Library.Binary UsbArmory.Library.Strings
open UsbArmory.Library.Numerals UsbArmory.Library.Grouping UsbArmory.Txt2rust.Compress
open UsbArmory.Txt2rust.Parse (Access)

variable {name : Text} {i j : ℕ} {regs rest : List Parse.Register} {reg : Parse.Register}

def OfInstance (name : Text) (i : ℕ) (reg : Parse.Register) : Prop :=
  instancePrefix name i <+: reg.name

/-- Neighbours of one instance. -/
structure Block where
  index : ℕ
  first : Parse.Register
  others : List Parse.Register

def Block.registers (b : Block) : List Parse.Register := b.first::b.others

/-- The maximal runs of one instance each. -/
inductive Runs (name : Text) : List Parse.Register → List Block → Prop where
  | nil : Runs name [] []
  | cons {b : Block} {rest : List Parse.Register} {blocks : List Block} (hindex : b.index < 256)
      (hsame : ∀ reg ∈ b.registers, OfInstance name b.index reg)
      (hnext : ∀ reg ∈ rest.head?, ¬OfInstance name b.index reg) (hrest : Runs name rest blocks) :
      Runs name (b.registers ++ rest) (b::blocks)

def layout (name : Text) (b : Block) : List (UInt32 × Text × Access × UInt32) :=
  b.registers.map fun reg => (reg.absAddr-b.first.absAddr,
    trimStartMatches (instancePrefix name b.index) reg.name, reg.access, reg.resetValue)

def compressed (name : Text) (b : Block) : List Register := b.registers.map fun reg =>
  compress b.first.absAddr (trimStartMatches (instancePrefix name b.index) reg.name) reg

def entry (b : Block) : ℕ × UInt32 := (b.index, b.first.absAddr)

/-- The peripheral of the runs of one layout; the first of them gives the registers. -/
def peripheralOf (name : Text) (g : List Block) : Peripheral :=
  ⟨name, .many (SortedMap.ofEntries (g.map entry)), (g.head?.map (compressed name)).getD []⟩

theorem prefix_ne_nil (name : Text) (i : ℕ) : instancePrefix name i ≠ [] := by
  simp [instancePrefix]

theorem instance_unique (hi : i < 256) (hj : j < 256) (h : OfInstance name i reg)
    (h' : OfInstance name j reg) : i = j := by
  obtain ⟨t, ht⟩ := h
  obtain ⟨t', ht'⟩ := h'
  have heq : decimal i ++ '_'::t = decimal j ++ '_'::t' := by
    have hname := ht.trans ht'.symm
    simp only [instancePrefix, List.append_assoc] at hname
    exact List.append_cancel_left hname
  have hsplit := congrArg (splitOnce '_') heq
  rw [splitOnce_append (decimal_plain hi), splitOnce_append (decimal_plain hj)] at hsplit
  have hdecimal := (Prod.mk.inj hsplit).1
  have hsome := parse_decimal hi
  rw [hdecimal, parse_decimal hj] at hsome
  exact (Option.some.inj hsome).symm

theorem beq_iff (ls ls' : List Register) :
    (ls == ls') = true ↔ ls.map Register.key = ls'.map Register.key := by
  induction ls generalizing ls' with
  | nil => cases ls' <;> simp
  | cons r ls ih =>
    cases ls' with
    | nil => simp
    | cons r' ls' =>
      have hcons : (r::ls == r'::ls') = ((r.key == r'.key) && (ls == ls')) := rfl
      rw [hcons, Bool.and_eq_true, beq_iff_eq, ih]
      simp

theorem compressed_eq_iff (b b' : Block) :
    (compressed name b == compressed name b') = true ↔ layout name b = layout name b' := by
  have hkey : ∀ b : Block, (compressed name b).map Register.key =
      (layout name b).map fun l => (l.1, l.2.1, l.2.2.1, some l.2.2.2) := by
    intro b
    simp only [compressed, layout, List.map_map]
    rfl
  have hinj : Function.Injective fun l : UInt32 × Text × Access × UInt32 =>
      (l.1, l.2.1, l.2.2.1, some l.2.2.2) := by
    rintro ⟨a, b, c, d⟩ ⟨a', b', c', d'⟩ h
    simpa using h
  rw [beq_iff, hkey, hkey]
  exact (List.map_injective_iff.mpr hinj).eq_iff

theorem addInstance_cons (i : ℕ) (baseAddr : UInt32) (registers : List Register)
    (p : Peripheral) (ps : List Peripheral) :
    addInstance name i baseAddr registers (p::ps) =
      if p.registers == registers then match p with
        | ⟨periphName, .many map, periphRegisters⟩ =>
          .ok (⟨periphName, .many (SortedMap.insert i baseAddr map), periphRegisters⟩::ps)
        | _ => .error (.panic "internal error: entered unreachable code")
      else (addInstance name i baseAddr registers ps).map (p::·) := by
  by_cases h : (p.registers == registers) = true
  · rw [if_pos h, addInstance, List.findIdx?_cons, if_pos h]
    obtain ⟨periphName, instances, periphRegisters⟩ := p
    cases instances <;> rfl
  · rw [if_neg h, addInstance, addInstance, List.findIdx?_cons, if_neg h]
    cases hidx : ps.findIdx? fun periph => periph.registers == registers with
    | none => rfl
    | some idx =>
      simp only [Option.map_some, List.getElem?_cons_succ]
      cases ps[idx]? with
      | none => rfl
      | some q =>
        obtain ⟨periphName, instances, periphRegisters⟩ := q
        cases instances <;> rfl

theorem peripheral_join {g : List Block} {b : Block} (hg : g ≠ []) :
    peripheralOf name (g ++ [b]) = ⟨name, .many (SortedMap.insert b.index b.first.absAddr
      (SortedMap.ofEntries (g.map entry))), (peripheralOf name g).registers⟩ := by
  obtain ⟨first, rest, rfl⟩ := List.exists_cons_of_ne_nil hg
  rw [peripheralOf, List.map_append]
  exact congrArg (fun m => (⟨name, .many m, compressed name first⟩ : Peripheral))
    (SortedMap.ofEntries_snoc _ _)

theorem addInstance_join (b : Block) {gs : List (List Block)} (hu : Uniform (layout name) gs) :
    addInstance name b.index b.first.absAddr (compressed name b) (gs.map (peripheralOf name)) =
      .ok ((join (layout name) b gs).map (peripheralOf name)) := by
  induction gs with
  | nil => rfl
  | cons g gs ih =>
    have htail : Uniform (layout name) gs := fun g' hg' => hu g' (List.mem_cons_of_mem _ hg')
    obtain ⟨first, rest, rfl, -⟩ := hu g List.mem_cons_self
    have hkey : ((peripheralOf name (first::rest)).registers == compressed name b) = true ↔
        HasKey (layout name) (layout name b) (first::rest) := by
      show (compressed name first == compressed name b) = true ↔ some _ = some _
      rw [compressed_eq_iff, Option.some.injEq]
    rw [List.map_cons, addInstance_cons, join, ih htail]
    by_cases h : HasKey (layout name) (layout name b) (first::rest)
    · rw [if_pos (hkey.mpr h), if_pos h, List.map_cons, peripheral_join (List.cons_ne_nil _ _)]
      rfl
    · rw [if_neg fun heq => h (hkey.mp heq), if_neg h]
      rfl

theorem loop_step {first : Parse.Register} {others : List Parse.Register}
    (hi : extractInstance (trimStartMatches name first.name) = .ok i) (fuel : ℕ)
    (ps : List Peripheral) : instancesLoop name (fuel+1) (first::others) ps =
      addInstance name i first.absAddr
        (((first::others).takeWhile fun reg => startsWith (instancePrefix name i) reg.name).map
          fun reg => compress first.absAddr
            (trimStartMatches (instancePrefix name i) reg.name) reg) ps
        >>= instancesLoop name fuel
          ((first::others).dropWhile fun reg => startsWith (instancePrefix name i) reg.name) := by
  conv_lhs => unfold instancesLoop
  rw [bind_of_ok hi]

theorem instance_lt {s : Text} (h : extractInstance s = .ok i) : i < 256 :=
  parse_lt (by decide) (expect_ok h)

theorem loop_stuck {first : Parse.Register} {others : List Parse.Register}
    (hi : extractInstance (trimStartMatches name first.name) = .ok i)
    (hother : startsWith (instancePrefix name i) first.name = false) (fuel : ℕ)
    (ps qs : List Peripheral) : instancesLoop name fuel (first::others) ps ≠ .ok qs := by
  induction fuel generalizing ps with
  | zero => exact nofun
  | succ fuel ih =>
    intro h
    rw [loop_step hi] at h
    obtain ⟨ps', -, hrest⟩ := ok_of_bind h
    rw [List.dropWhile_cons, if_neg (by rw [hother]; exact Bool.false_ne_true)] at hrest
    exact ih ps' hrest

theorem takeWhile_block (b : Block) (hsame : ∀ reg ∈ b.registers, OfInstance name b.index reg)
    (hnext : ∀ reg ∈ rest.head?, ¬OfInstance name b.index reg) :
    (b.registers ++ rest).takeWhile (fun reg => startsWith (instancePrefix name b.index) reg.name) =
      b.registers ∧
    (b.registers ++ rest).dropWhile (fun reg => startsWith (instancePrefix name b.index) reg.name) =
      rest := by
  have hall : ∀ reg ∈ b.registers, startsWith (instancePrefix name b.index) reg.name = true :=
    fun reg hreg => startsWith_iff.mpr (hsame reg hreg)
  rw [List.takeWhile_append_of_pos hall, List.dropWhile_append_of_pos hall]
  cases rest with
  | nil => exact ⟨List.append_nil _, rfl⟩
  | cons reg rest =>
    have hreg : ¬startsWith (instancePrefix name b.index) reg.name = true :=
      fun h => hnext reg rfl (startsWith_iff.mp h)
    rw [List.takeWhile_cons, if_neg hreg, List.dropWhile_cons, if_neg hreg, List.append_nil]
    exact ⟨rfl, rfl⟩

theorem runs_unique {blocks blocks' : List Block} (h : Runs name regs blocks)
    (h' : Runs name regs blocks') : blocks = blocks' := by
  induction h generalizing blocks' with
  | nil =>
    cases h' with
    | nil => rfl
  | @cons b rest blocks hindex hsame hnext hrest ih =>
    generalize hregs : b.registers ++ rest = regs at h'
    cases h' with
    | nil => cases hregs
    | @cons b' rest' blocks' hindex' hsame' hnext' hrest' =>
      have hfirst : b.first = b'.first := (List.cons.inj hregs).1
      have hsame₁ := hsame b.first List.mem_cons_self
      have hsame₂ := hsame' b'.first List.mem_cons_self
      rw [← hfirst] at hsame₂
      have hi : b.index = b'.index := instance_unique hindex hindex' hsame₁ hsame₂
      obtain ⟨htake, hdrop⟩ := takeWhile_block b hsame hnext
      obtain ⟨htake', hdrop'⟩ := takeWhile_block b' hsame' hnext'
      rw [hregs, hi] at htake hdrop
      have hregisters := htake.symm.trans htake'
      have hrest'' : rest = rest' := hdrop.symm.trans hdrop'
      subst hrest''
      rw [ih hrest']
      obtain ⟨index, first, others⟩ := b
      obtain ⟨index', first', others'⟩ := b'
      cases hi
      cases hregisters
      rfl

theorem loop_runs (fuel : ℕ) {gs : List (List Block)} (hu : Uniform (layout name) gs)
    {ps : List Peripheral}
    (h : instancesLoop name fuel regs (gs.map (peripheralOf name)) = .ok ps) :
    ∃ blocks, Runs name regs blocks ∧
      ps = (blocks.foldl (fun gs b => join (layout name) b gs) gs).map (peripheralOf name) := by
  induction fuel generalizing regs gs with
  | zero =>
    cases regs with
    | nil =>
      cases h
      exact ⟨[], .nil, rfl⟩
    | cons first others => cases h
  | succ fuel ih =>
    cases regs with
    | nil =>
      cases h
      exact ⟨[], .nil, rfl⟩
    | cons first others =>
      cases hi : extractInstance (trimStartMatches name first.name) with
      | error stop =>
        unfold instancesLoop at h
        rw [hi] at h
        cases h
      | ok i =>
        cases hfirst : startsWith (instancePrefix name i) first.name with
        | false => exact absurd h (loop_stuck hi hfirst (fuel+1) _ ps)
        | true =>
          rw [loop_step hi, List.takeWhile_cons, if_pos hfirst, List.dropWhile_cons,
            if_pos hfirst] at h
          let same := fun reg : Parse.Register => startsWith (instancePrefix name i) reg.name
          let b : Block := ⟨i, first, others.takeWhile same⟩
          have hadd := addInstance_join b hu
          obtain ⟨ps', hps', hrest⟩ := ok_of_bind h
          cases hps'.symm.trans hadd
          obtain ⟨blocks, hruns, hps⟩ := ih (join_uniform hu b) hrest
          refine ⟨b::blocks, ?_, hps⟩
          have hregs : first::others = b.registers ++ others.dropWhile same := by
            show _ = first::(others.takeWhile same ++ others.dropWhile same)
            rw [List.takeWhile_append_dropWhile]
          rw [hregs]
          refine .cons (instance_lt hi) ?_ ?_ hruns
          · rintro reg (_ | ⟨_, hreg⟩)
            · exact startsWith_iff.mp hfirst
            · have hmem : same reg = true := List.mem_takeWhile_imp hreg
              exact startsWith_iff.mp hmem
          · intro reg hreg hof
            have hnot := List.head?_dropWhile_not same others
            rw [hreg] at hnot
            exact Bool.false_ne_true (hnot.symm.trans (startsWith_iff.mpr hof))

theorem registers_numbered {input : List Parse.Register} {ps : List Peripheral}
    (h : registers input = .ok ps)
    (hname : findCommonPrefix ((sortByAddress input).map (·.name)) = .ok (name, true)) :
    ∃ blocks, Runs name (sortByAddress input) blocks ∧
      ps = (groups (layout name) blocks).map (peripheralOf name) := by
  unfold registers at h
  rw [bind_of_ok hname] at h
  have hnone : Uniform (layout name) ([] : List (List Block)) := nofun
  exact loop_runs _ hnone h

theorem registers_single {input : List Parse.Register} {ps : List Peripheral}
    (h : registers input = .ok ps)
    (hname : findCommonPrefix ((sortByAddress input).map (·.name)) = .ok (name, false)) :
    ∃ base, ps = [⟨name, .single base, (sortByAddress input).map fun reg =>
      compress base (trimStartMatches ['_'] (trimStartMatches name reg.name)) reg⟩] := by
  unfold registers at h
  rw [bind_of_ok hname] at h
  generalize sortByAddress input = sorted at h
  cases sorted with
  | nil => cases h
  | cons first rest =>
    cases h
    exact ⟨first.absAddr, rfl⟩

theorem registers_found {input : List Parse.Register} {ps : List Peripheral}
    (h : registers input = .ok ps) :
    ∃ name numbered, findCommonPrefix ((sortByAddress input).map (·.name)) =
      .ok (name, numbered) := by
  obtain ⟨⟨name, numbered⟩, hname, -⟩ := ok_of_bind h
  exact ⟨name, numbered, hname⟩

theorem prefixLoop_all {first second : Text} {names : List Text} {numbered : Bool} (fuel : ℕ)
    {s : Text} (h : prefixLoop first second names fuel s = .ok (name, numbered)) :
    ∀ n ∈ names, name <+: n := by
  induction fuel generalizing s with
  | zero =>
    unfold prefixLoop at h
    split at h
    · cases h
    · cases h
  | succ fuel ih =>
    cases hs : (rsplitOnce '_' s).2 with
    | none =>
      unfold prefixLoop at h
      simp only [hs] at h
      cases h
    | some maybePrefix =>
      unfold prefixLoop at h
      simp only [hs] at h
      split at h
      · split at h
        next hall =>
          cases h
          intro n hn
          exact startsWith_iff.mp (List.all_eq_true.mp hall n hn)
        next => exact ih h
      · exact ih h

theorem common_prefix {names : List Text} {numbered : Bool}
    (h : findCommonPrefix names = .ok (name, numbered)) : ∀ n ∈ names, name <+: n := by
  unfold findCommonPrefix at h
  split at h
  · exact prefixLoop_all _ h
  · cases h

end UsbArmory.Txt2rust.InstanceRuns