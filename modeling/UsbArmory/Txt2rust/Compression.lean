import UsbArmory.Txt2rust.Expansion

/-!
# What the compression keeps

The peripherals expand to exactly the registers that they come from under a
condition on the names, the layouts and the widths.
-/

set_option autoImplicit false

namespace UsbArmory.Txt2rust.Compression
open UsbArmory.Library UsbArmory.Library.Strings UsbArmory.Library.Grouping
open UsbArmory.Library.Keyed UsbArmory.Txt2rust.Compress UsbArmory.Txt2rust.InstanceRuns
open UsbArmory.Txt2rust.Expansion

variable {name n : Text} {input : List Parse.Register} {ps : List Peripheral}

def Lossless (input : List Parse.Register) (ps : List Peripheral) : Prop :=
  (ps.flatMap expand).Perm (input.map itemOf)

instance (input : List Parse.Register) (ps : List Peripheral) : Decidable (Lossless input ps) :=
  inferInstanceAs (Decidable (List.Perm _ _))

/-- Behind the prefix stands one underscore, and what the trimming of the prefix
would take away does not begin there. -/
def Underscored (name n : Text) : Prop := ∃ s, n = name ++ '_'::s ∧ ¬['_'] <+: s ∧
  (name = [] ∨ name = ['_'] ∨ ¬name <+: '_'::s)

def Clear (input : List Parse.Register) : Prop := ∀ name numbered,
  findCommonPrefix ((sortByAddress input).map (·.name)) = .ok (name, numbered) →
    if numbered then ∀ blocks, Runs name (sortByAddress input) blocks → Separate name blocks
    else ∀ reg ∈ input, Underscored name reg.name

theorem underscore_trim {s : Text} (h : ¬['_'] <+: s) : trimStartMatches ['_'] ('_'::s) = s := by
  show trimStartMatches ['_'] (['_'] ++ s) = s
  rw [trim_append (List.cons_ne_nil _ _), trim_eq_self h]

theorem underscored_iff (h : name <+: n) :
    name ++ '_'::trimStartMatches ['_'] (trimStartMatches name n) = n ↔ Underscored name n := by
  constructor
  · intro heq
    refine ⟨_, heq.symm, ?_, ?_⟩
    · obtain ⟨-, -, hnot⟩ := trim_spec (List.cons_ne_nil '_' []) (trimStartMatches name n)
      exact hnot
    · by_cases hname : name = []
      · exact .inl hname
      · refine .inr (Classical.or_iff_not_imp_right.mpr fun hprefix => ?_)
        obtain ⟨u, hu⟩ := not_not.mp hprefix
        obtain ⟨c, rest, rfl⟩ := List.exists_cons_of_ne_nil hname
        have hn : n = (c::rest) ++ ((c::rest) ++ u) := by rw [hu, heq]
        have htrim : trimStartMatches (c::rest) n = trimStartMatches (c::rest) u := by
          rw [hn, trim_append hname, trim_append hname]
        have hle := Nat.le_trans (trim_length ['_'] (trimStartMatches (c::rest) u))
          (trim_length (c::rest) u)
        rw [htrim] at hu
        have hlen := congrArg List.length hu
        simp only [List.length_append, List.length_cons] at hlen
        have hrest : rest = [] := List.length_eq_zero_iff.mp (by omega)
        rw [hrest]
        exact congrArg (·::[]) (List.cons.inj hu).1
  · rintro ⟨s, rfl, hs, rfl | rfl | hname⟩
    · show '_'::trimStartMatches ['_'] (trimStartMatches [] ('_'::s)) = '_'::s
      rw [trim_nil, underscore_trim hs]
    · have htwice : trimStartMatches ['_'] (['_'] ++ '_'::s) = s := by
        rw [trim_append (List.cons_ne_nil _ _), underscore_trim hs]
      rw [htwice, trim_eq_self hs]
    · have hne : name ≠ [] := by
        rintro rfl
        exact hname List.nil_prefix
      rw [trim_append hne, trim_eq_self hname, underscore_trim hs]

theorem single_iff {base : UInt32} {regs : List Parse.Register}
    (hname : ∀ reg ∈ regs, name <+: reg.name) (hnodup : (regs.map (·.absAddr)).Nodup) :
    (expand ⟨name, .single base, regs.map fun reg => compress base
      (trimStartMatches ['_'] (trimStartMatches name reg.name)) reg⟩).Perm (regs.map itemOf) ↔
      ∀ reg ∈ regs, Underscored name reg.name := by
  have hkey : ∀ reg : Parse.Register, base+(reg.absAddr-base) = reg.absAddr :=
    fun reg => add_sub _ _
  have haddresses : (expand ⟨name, .single base, regs.map fun reg => compress base
      (trimStartMatches ['_'] (trimStartMatches name reg.name)) reg⟩).map Item.address =
      (regs.map itemOf).map Item.address := by
    rw [expand_single, List.map_map, List.map_map, List.map_map]
    exact List.map_congr_left fun reg _ => hkey reg
  have hdistinct : ((regs.map itemOf).map Item.address).Nodup := by
    rw [List.map_map]
    exact hnodup
  rw [perm_iff_eq haddresses (haddresses ▸ hdistinct), expand_single, List.map_map,
    List.map_inj_left]
  refine forall₂_congr fun reg hreg => ?_
  rw [← underscored_iff (hname reg hreg)]
  simp only [Function.comp_apply, placed, compress, itemOf, Item.mk.injEq, hkey, true_and, and_true,
    List.append_assoc, List.singleton_append]

/-- The compression is lossless exactly on the clear inputs. -/
theorem lossless_iff_clear (input : List Parse.Register) (ps : List Peripheral)
    (hnodup : (input.map (·.absAddr)).Nodup) (h : registers input = .ok ps) :
    Lossless input ps ↔ Clear input := by
  have hperm := sorted_perm input
  have hsorted : ((sortByAddress input).map (·.absAddr)).Nodup :=
    (hperm.map (·.absAddr)).nodup_iff.mpr hnodup
  have hitems := hperm.map itemOf
  have hlossless : Lossless input ps ↔
      (ps.flatMap expand).Perm ((sortByAddress input).map itemOf) :=
    ⟨fun h => h.trans hitems.symm, fun h => h.trans hitems⟩
  obtain ⟨name, numbered, hfound⟩ := registers_found h
  have hclear : Clear input ↔ if numbered then
      ∀ blocks, Runs name (sortByAddress input) blocks → Separate name blocks
      else ∀ reg ∈ input, Underscored name reg.name := by
    refine ⟨fun hclear => hclear name numbered hfound, fun hcond name' numbered' hfound' => ?_⟩
    cases hfound.symm.trans hfound'
    exact hcond
  rw [hlossless, hclear]
  cases numbered with
  | true =>
    obtain ⟨blocks, hruns, rfl⟩ := registers_numbered h hfound
    rw [numbered_iff hruns hsorted, if_pos rfl]
    refine ⟨fun hseparate blocks' hruns' => ?_, fun hall => hall blocks hruns⟩
    rw [runs_unique hruns' hruns]
    exact hseparate
  | false =>
    obtain ⟨base, rfl⟩ := registers_single h hfound
    have hname : ∀ reg ∈ sortByAddress input, name <+: reg.name := fun reg hreg =>
      common_prefix hfound reg.name (List.mem_map_of_mem hreg)
    rw [List.flatMap_singleton, single_iff hname hsorted, if_neg Bool.false_ne_true]
    exact ⟨fun hall reg hreg => hall reg (hperm.mem_iff.mpr hreg),
      fun hall reg hreg => hall reg (hperm.mem_iff.mp hreg)⟩

def instances (width : UInt8) : List Parse.Register :=
  [⟨0, [], ['U', '1', '_', 'A'], 32, .readWrite, 0⟩,
    ⟨4, [], ['U', '1', '_', 'B'], 32, .readWrite, 0⟩,
    ⟨16, [], ['U', '2', '_', 'A'], 32, .readWrite, 0⟩,
    ⟨20, [], ['U', '2', '_', 'B'], width, .readWrite, 0⟩]

theorem lossless_iff_clear_instances : Clear (instances 32) :=
  (lossless_iff_clear (instances 32) _ (by decide) rfl).mp (by decide)

/-- Two instances whose second registers have different widths. -/
theorem instances_lost : ∃ ps, registers (instances 16) = .ok ps ∧ ¬Lossless (instances 16) ps := by
  refine ⟨_, rfl, ?_⟩
  decide

end UsbArmory.Txt2rust.Compression
