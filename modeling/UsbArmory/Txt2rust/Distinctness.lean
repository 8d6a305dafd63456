import UsbArmory.Txt2rust.Expansion

/-!
# The names in the generated crate

The crate has one module for each peripheral, one export for each instance
and one structure for each register. Their names are distinct exactly if the
runs of instances have one layout and no name is another behind its prefix.
-/

set_option autoImplicit false

namespace UsbArmory.Txt2rust.Distinctness
open UsbArmory.Library UsbArmory.Library.Strings UsbArmory.Library.Grouping
open UsbArmory.Library.Numerals UsbArmory.Library.Keyed UsbArmory.Txt2rust.Compress
open UsbArmory.Txt2rust.InstanceRuns UsbArmory.Txt2rust.Expansion

variable {name : Text} {input : List Parse.Register} {ps : List Peripheral} {blocks : List Block}

/-- The modules that `krate` declares, for the lower casing `lower`. -/
def modules (lower : Text → Text) (ps : List Peripheral) : List Text :=
  ps.map fun p => lower p.name

/-- The structures of instances that `krate` exports. -/
def exports (ps : List Peripheral) : List Text := ps.flatMap fun p => match p.instances with
  | .single _ => [p.name]
  | .many map => map.map fun e => p.name ++ decimal e.1

/-- The structures of registers in the module of a peripheral. -/
def structs (p : Peripheral) : List Text := p.registers.map (·.name)

structure Distinct (input : List Parse.Register) (ps : List Peripheral) : Prop where
  names : (ps.map (·.name)).Nodup
  structs : (input.map (·.name)).Nodup → ∀ p ∈ ps, (structs p).Nodup
  modules : ∀ lower, (modules lower ps).Nodup
  exports : (exports ps).Nodup

/-- All runs have one layout, and no name of a run is another one behind copies of the prefix. -/
structure Alike (input : List Parse.Register) (name : Text) (blocks : List Block) : Prop where
  layouts : ∀ b ∈ blocks, ∀ b' ∈ blocks, layout name b = layout name b'
  names : (input.map (·.name)).Nodup → ∀ b ∈ blocks, ∀ reg ∈ b.registers, ∀ reg' ∈ b.registers,
    ∀ k > 0, reg.name ≠ copies k (instancePrefix name b.index) ++ reg'.name

/-- No two names have one rest behind copies of the prefix, but for underscores in front of it. -/
def Apart (input : List Parse.Register) (name : Text) : Prop :=
  (input.map (·.name)).Nodup → ∀ reg ∈ input, ∀ reg' ∈ input, ∀ j k n rest,
    (name <+: rest → name = []) → (name <+: copies n ['_'] ++ rest → name = []) →
    reg.name = copies j name ++ (copies n ['_'] ++ rest) →
    reg'.name = copies k name ++ rest → reg.name = reg'.name

def Tellable (input : List Parse.Register) : Prop := ∀ name numbered,
  findCommonPrefix ((sortByAddress input).map (·.name)) = .ok (name, numbered) →
    if numbered then ∀ blocks, Runs name (sortByAddress input) blocks → Alike input name blocks
    else Apart input name

theorem decimal_injective {i j : ℕ} (hi : i < 256) (hj : j < 256) (h : decimal i = decimal j) :
    i = j := by
  have hsome := parse_decimal hi
  rw [h, parse_decimal hj] at hsome
  exact (Option.some.inj hsome).symm

theorem modules_nodup (lower : Text → Text) (h : ps.length ≤ 1) : (modules lower ps).Nodup := by
  match ps, h with
  | [], _ => exact List.nodup_nil
  | [p], _ => exact List.nodup_singleton _

def shortNames (name : Text) (b : Block) : List Text := (layout name b).map fun l => l.2.1

theorem structs_peripheral (first : Block) (rest : List Block) :
    structs (peripheralOf name (first::rest)) = shortNames name first := by
  simp only [structs, peripheralOf, shortNames, layout, List.head?_cons, Option.map_some,
    Option.getD_some, compressed, List.map_map]
  rfl

theorem shortNames_nodup {b : Block} (hb : (b.registers.map (·.name)).Nodup) :
    (shortNames name b).Nodup ↔ ∀ reg ∈ b.registers, ∀ reg' ∈ b.registers, ∀ k > 0,
      reg.name ≠ copies k (instancePrefix name b.index) ++ reg'.name := by
  have hp := prefix_ne_nil name b.index
  have hshort : shortNames name b = b.registers.map fun reg =>
      trimStartMatches (instancePrefix name b.index) reg.name := by
    rw [shortNames, layout, List.map_map]
    rfl
  rw [hshort, nodup_iff hb]
  constructor
  · intro h reg hreg reg' hreg' k hk heq
    have hsame := h reg hreg reg' hreg' ((trim_eq_iff hp).mpr ⟨k, .inl heq⟩)
    have hlen := congrArg List.length heq
    rw [List.length_append, copies_length, hsame] at hlen
    have hpos := Nat.mul_pos hk (List.length_pos_iff.mpr hp)
    omega
  · intro h reg hreg reg' hreg' heq
    obtain ⟨k, hk⟩ := (trim_eq_iff hp).mp heq
    rcases Nat.eq_zero_or_pos k with rfl | hpos
    · rcases hk with hk | hk
      · exact hk
      · exact hk.symm
    · rcases hk with hk | hk
      · exact absurd hk (h reg hreg reg' hreg' k hpos)
      · exact absurd hk (h reg' hreg' reg hreg k hpos)

theorem runs_index {regs : List Parse.Register} (h : Runs name regs blocks) :
    ∀ b ∈ blocks, b.index < 256 := by
  induction h with
  | nil => exact nofun
  | cons hindex _ _ _ ih =>
    rintro b (_ | ⟨_, hb⟩)
    · exact hindex
    · exact ih b hb

theorem block_names {b : Block} (hruns : Runs name (sortByAddress input) blocks) (hb : b ∈ blocks)
    (h : (input.map (·.name)).Nodup) : (b.registers.map (·.name)).Nodup := by
  have hsorted : ((sortByAddress input).map (·.name)).Nodup :=
    ((sorted_perm input).map (·.name)).nodup_iff.mpr h
  rw [runs_flatten hruns] at hsorted
  have hsub : b.registers.Sublist (blocks.flatMap Block.registers) :=
    List.sublist_flatten_of_mem (List.mem_map_of_mem hb)
  exact (hsub.map (·.name)).nodup hsorted

theorem exports_nodup (hruns : Runs name (sortByAddress input) blocks)
    (hlen : (groups (layout name) blocks).length ≤ 1) :
    (exports ((groups (layout name) blocks).map (peripheralOf name))).Nodup := by
  have hindex : ∀ g ∈ groups (layout name) blocks, ∀ b ∈ g, b.index < 256 := by
    intro g hg b hb
    have hperm : (groups (layout name) blocks).flatten.Perm blocks := groups_perm blocks
    exact runs_index hruns b (hperm.subset (List.mem_flatten.mpr ⟨g, hg, hb⟩))
  match hgs : groups (layout name) blocks, hlen with
  | [], _ => exact List.nodup_nil
  | [g], _ =>
    rw [hgs] at hindex
    have hkeys : ∀ e ∈ SortedMap.ofEntries (g.map entry), e.1 < 256 := by
      intro e he
      have hmem := (SortedMap.ofEntries_keys (g.map entry) e.1).mp (List.mem_map_of_mem he)
      simp only [List.map_map, List.mem_map, Function.comp_apply] at hmem
      obtain ⟨b, hb, heq⟩ := hmem
      rw [← heq]
      exact hindex g List.mem_cons_self b hb
    show (List.map _ (SortedMap.ofEntries (g.map entry)) ++ []).Nodup
    rw [List.append_nil]
    have hsorted := SortedMap.ofEntries_sorted (g.map entry)
    refine List.pairwise_map.mpr (hsorted.imp_of_mem fun {e e'} he he' hlt heq => ?_)
    have hdecimal := List.append_cancel_left heq
    exact absurd (decimal_injective (hkeys e he) (hkeys e' he') hdecimal) (Nat.ne_of_lt hlt)

theorem numbered_iff (hruns : Runs name (sortByAddress input) blocks) :
    Distinct input ((groups (layout name) blocks).map (peripheralOf name)) ↔
      Alike input name blocks := by
  have hlayouts : (((groups (layout name) blocks).map (peripheralOf name)).map (·.name)).Nodup ↔
      ∀ b ∈ blocks, ∀ b' ∈ blocks, layout name b = layout name b' := by
    rw [← groups_length, List.map_map]
    show (List.map (fun _ => name) _).Nodup ↔ _
    rw [List.map_const', List.nodup_replicate]
  have hperm : (groups (layout name) blocks).flatten.Perm blocks := groups_perm blocks
  have huniform : Uniform (layout name) (groups (layout name) blocks) := groups_uniform blocks
  constructor
  · intro h
    refine ⟨hlayouts.mp h.names, fun hnames b hb => ?_⟩
    obtain ⟨g, hg, hbg⟩ := List.mem_flatten.mp (hperm.symm.subset hb)
    have hstructs := h.structs hnames _ (List.mem_map_of_mem hg)
    obtain ⟨first, rest, rfl, -⟩ := huniform g hg
    rw [structs_peripheral, shortNames,
      uniform_key huniform hg List.mem_cons_self hbg] at hstructs
    exact (shortNames_nodup (block_names hruns hb hnames)).mp hstructs
  · intro h
    have hlen : (groups (layout name) blocks).length ≤ 1 := (groups_length blocks).mpr h.layouts
    refine ⟨hlayouts.mpr h.layouts, fun hnames p hp => ?_, fun lower => ?_,
      exports_nodup hruns hlen⟩
    · obtain ⟨g, hg, rfl⟩ := List.mem_map.mp hp
      obtain ⟨first, rest, rfl, -⟩ := huniform g hg
      have hfirst : first ∈ blocks :=
        hperm.subset (List.mem_flatten.mpr ⟨_, hg, List.mem_cons_self⟩)
      rw [structs_peripheral]
      exact (shortNames_nodup (block_names hruns hfirst hnames)).mpr (h.names hnames first hfirst)
    · exact modules_nodup lower (by rw [List.length_map]; exact hlen)

theorem shared_rest (name s t : Text) :
    trimStartMatches ['_'] (trimStartMatches name s) =
      trimStartMatches ['_'] (trimStartMatches name t) ↔
    ∃ j k n rest, (name <+: rest → name = []) ∧ (name <+: copies n ['_'] ++ rest → name = []) ∧
      (s = copies j name ++ (copies n ['_'] ++ rest) ∧ t = copies k name ++ rest ∨
        t = copies j name ++ (copies n ['_'] ++ rest) ∧ s = copies k name ++ rest) := by
  obtain ⟨j, hs, hbare⟩ := trim_rest name s
  obtain ⟨k, ht, hbare'⟩ := trim_rest name t
  rw [trim_eq_iff (List.cons_ne_nil _ _)]
  constructor
  · rintro ⟨n, h | h⟩
    · rw [h] at hs hbare
      exact ⟨j, k, n, _, hbare', hbare, .inl ⟨hs, ht⟩⟩
    · rw [h] at ht hbare'
      exact ⟨k, j, n, _, hbare, hbare', .inr ⟨ht, hs⟩⟩
  · rintro ⟨j, k, n, rest, hrest, hlong, ⟨rfl, rfl⟩ | ⟨rfl, rfl⟩⟩
    · rw [trim_bare hlong, trim_bare hrest]
      exact ⟨n, .inl rfl⟩
    · rw [trim_bare hlong, trim_bare hrest]
      exact ⟨n, .inr rfl⟩

theorem apart_iff : Apart input name ↔ ((input.map (·.name)).Nodup → ∀ reg ∈ input,
    ∀ reg' ∈ input, trimStartMatches ['_'] (trimStartMatches name reg.name) =
      trimStartMatches ['_'] (trimStartMatches name reg'.name) → reg.name = reg'.name) := by
  constructor
  · intro h hnames reg hreg reg' hreg' heq
    obtain ⟨j, k, n, rest, hrest, hlong, hx | hx⟩ := (shared_rest _ _ _).mp heq
    · exact h hnames reg hreg reg' hreg' j k n rest hrest hlong hx.1 hx.2
    · exact (h hnames reg' hreg' reg hreg j k n rest hrest hlong hx.1 hx.2).symm
  · intro h hnames reg hreg reg' hreg' j k n rest hrest hlong hx hy
    apply h hnames reg hreg reg' hreg'
    exact (shared_rest _ _ _).mpr ⟨j, k, n, rest, hrest, hlong, .inl ⟨hx, hy⟩⟩

theorem single_iff (base : UInt32) :
    Distinct input [⟨name, .single base, (sortByAddress input).map fun reg =>
      compress base (trimStartMatches ['_'] (trimStartMatches name reg.name)) reg⟩] ↔
      Apart input name := by
  have hperm := sorted_perm input
  have hstructs : (input.map (·.name)).Nodup →
      ((((sortByAddress input).map fun reg => compress base
        (trimStartMatches ['_'] (trimStartMatches name reg.name)) reg).map (·.name)).Nodup ↔
        ∀ reg ∈ input, ∀ reg' ∈ input, trimStartMatches ['_'] (trimStartMatches name reg.name) =
          trimStartMatches ['_'] (trimStartMatches name reg'.name) → reg.name = reg'.name) := by
    intro hnames
    rw [List.map_map]
    show (List.map (fun reg : Parse.Register =>
      trimStartMatches ['_'] (trimStartMatches name reg.name)) _).Nodup ↔ _
    rw [(hperm.map _).nodup_iff, nodup_iff hnames]
  rw [apart_iff]
  constructor
  · intro h hnames
    exact (hstructs hnames).mp (h.structs hnames _ List.mem_cons_self)
  · intro h
    refine ⟨List.nodup_singleton _, fun hnames p hp => ?_, fun lower => List.nodup_singleton _,
      List.nodup_singleton _⟩
    cases List.mem_singleton.mp hp
    exact (hstructs hnames).mpr (h hnames)

/-- The names are distinct exactly on the inputs whose registers can be told apart. -/
theorem distinct_iff_tellable (input : List Parse.Register) (ps : List Peripheral)
    (h : registers input = .ok ps) : Distinct input ps ↔ Tellable input := by
  obtain ⟨name, numbered, hfound⟩ := registers_found h
  have htellable : Tellable input ↔ if numbered then
      ∀ blocks, Runs name (sortByAddress input) blocks → Alike input name blocks
      else Apart input name := by
    refine ⟨fun htell => htell name numbered hfound, fun hcond name' numbered' hfound' => ?_⟩
    cases hfound.symm.trans hfound'
    exact hcond
  rw [htellable]
  cases numbered with
  | true =>
    obtain ⟨blocks, hruns, rfl⟩ := registers_numbered h hfound
    rw [numbered_iff hruns, if_pos rfl]
    refine ⟨fun halike blocks' hruns' => ?_, fun hall => hall blocks hruns⟩
    rw [runs_unique hruns' hruns]
    exact halike
  | false =>
    obtain ⟨base, rfl⟩ := registers_single h hfound
    rw [single_iff base, if_neg Bool.false_ne_true]

/-- Two instances; the last register has the given name. -/
def instances (last : Text) : List Parse.Register :=
  [⟨0, [], ['U', '1', '_', 'A'], 32, .readWrite, 0⟩,
    ⟨4, [], ['U', '1', '_', 'B'], 32, .readWrite, 0⟩,
    ⟨16, [], ['U', '2', '_', 'A'], 32, .readWrite, 0⟩, ⟨20, [], last, 32, .readWrite, 0⟩]

theorem distinct_iff_tellable_instances : Tellable (instances ['U', '2', '_', 'B']) :=
  (distinct_iff_tellable (instances ['U', '2', '_', 'B']) _ rfl).mp
    ⟨by decide, by decide, fun _ => List.nodup_singleton _, by decide⟩

/-- An instance of another layout becomes a second peripheral of the same name. -/
theorem instances_twice : ∃ ps, registers (instances ['U', '2', '_', 'C']) = .ok ps ∧
    ¬Distinct (instances ['U', '2', '_', 'C']) ps := by
  refine ⟨_, rfl, fun h => ?_⟩
  have hnames := h.names
  revert hnames
  decide

end UsbArmory.Txt2rust.Distinctness
