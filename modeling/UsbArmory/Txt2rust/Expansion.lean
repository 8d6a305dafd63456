import UsbArmory.Library.Keyed
import UsbArmory.Txt2rust.InstanceRuns

/-!
# Peripherals as registers again

The items of the peripherals of numbered instances are those of the registers
exactly if the runs of one layout have the same widths and instance numbers of
their own, and no name begins with its prefix twice.
-/

set_option autoImplicit false

namespace UsbArmory.Txt2rust.Expansion
open UsbArmory.Library UsbArmory.Library.Strings UsbArmory.Library.Grouping
open UsbArmory.Library.Keyed
open UsbArmory.Txt2rust.Compress UsbArmory.Txt2rust.InstanceRuns
open UsbArmory.Txt2rust.Parse (Access)

variable {name : Text} {b : Block} {g : List Block}

structure Item where
  address : UInt32
  name : Text
  width : UInt8
  access : Access
  resetValue : Option UInt32
  deriving DecidableEq

def itemOf (reg : Parse.Register) : Item :=
  ⟨reg.absAddr, reg.name, reg.width, reg.access, some reg.resetValue⟩

def placed (pre : Text) (baseAddr : UInt32) (r : Register) : Item :=
  ⟨baseAddr+r.offset, pre ++ r.name, r.width, r.access, r.resetValue⟩

def expand (p : Peripheral) : List Item :=
  match p.instances with
  | .single baseAddr => p.registers.map (placed (p.name ++ ['_']) baseAddr)
  | .many map => map.flatMap fun e => p.registers.map (placed (instancePrefix p.name e.1) e.2)

theorem expand_single (name : Text) (baseAddr : UInt32) (rs : List Register) :
    expand ⟨name, .single baseAddr, rs⟩ = rs.map (placed (name ++ ['_']) baseAddr) := rfl

def widths (b : Block) : List UInt8 := b.registers.map (·.width)

/-- No name begins with its instance prefix twice, and two runs of one layout
have different instance numbers and the same widths. -/
structure Separate (name : Text) (blocks : List Block) : Prop where
  names : ∀ b ∈ blocks, ∀ reg ∈ b.registers,
    ¬instancePrefix name b.index ++ instancePrefix name b.index <+: reg.name
  layouts : blocks.Pairwise fun b b' => layout name b = layout name b' →
    b.index ≠ b'.index ∧ widths b = widths b'

theorem add_sub (a b : UInt32) : b+(a-b) = a := by
  rw [UInt32.add_comm, UInt32.sub_add_cancel]

/-- The items that the first of a group's runs makes of another one. -/
def madeOf (name : Text) (first b : Block) : List Item :=
  (compressed name first).map (placed (instancePrefix name b.index) b.first.absAddr)

def made (name : Text) : List Block → List Item
  | [] => []
  | first::rest => (first::rest).flatMap (madeOf name first)

def kept (g : List Block) : List Item := g.flatMap fun b => b.registers.map itemOf

/-- Registers of one layout make the items of others if their widths are the
same and the names have been trimmed once. -/
theorem placed_eq_iff {base base' : UInt32} {p p' : Text} (regs regs' : List Parse.Register)
    (hlayout : (regs.map fun reg => (reg.absAddr-base, trimStartMatches p reg.name, reg.access,
      reg.resetValue)) = regs'.map fun reg => (reg.absAddr-base', trimStartMatches p' reg.name,
      reg.access, reg.resetValue)) :
    (regs.map fun reg => placed p' base' (compress base (trimStartMatches p reg.name) reg)) =
      regs'.map itemOf ↔ regs.map (·.width) = regs'.map (·.width) ∧
        ∀ reg ∈ regs', p' ++ trimStartMatches p' reg.name = reg.name := by
  induction regs generalizing regs' with
  | nil =>
    cases regs' with
    | nil => exact ⟨fun _ => ⟨rfl, nofun⟩, fun _ => rfl⟩
    | cons reg' regs' => cases hlayout
  | cons reg regs ih =>
    cases regs' with
    | nil => cases hlayout
    | cons reg' regs' =>
      simp only [List.map_cons, List.cons.injEq, Prod.mk.injEq] at hlayout
      obtain ⟨⟨hoffset, hname, haccess, hreset⟩, htail⟩ := hlayout
      have hitem : placed p' base' (compress base (trimStartMatches p reg.name) reg) = itemOf reg' ↔
          reg.width = reg'.width ∧ p' ++ trimStartMatches p' reg'.name = reg'.name := by
        simp only [placed, compress, itemOf, Item.mk.injEq, hoffset, hname, haccess, hreset,
          add_sub,
          true_and, and_true]
        exact and_comm
      rw [List.map_cons, List.map_cons, List.map_cons, List.map_cons, List.cons.injEq,
        List.cons.injEq, hitem, ih regs' htail, List.forall_mem_cons]
      tauto

theorem madeOf_eq_iff {first : Block} (hlayout : layout name first = layout name b)
    (hb : ∀ reg ∈ b.registers, OfInstance name b.index reg) :
    madeOf name first b = b.registers.map itemOf ↔ widths first = widths b ∧
      ∀ reg ∈ b.registers, ¬instancePrefix name b.index ++
        instancePrefix name b.index <+: reg.name := by
  rw [madeOf, compressed, List.map_map]
  refine (placed_eq_iff _ _ hlayout).trans (and_congr_right fun _ => ?_)
  exact forall₂_congr fun reg hreg => trim_prefix_iff (prefix_ne_nil name b.index) (hb reg hreg)

theorem madeOf_addresses {first : Block} (hlayout : layout name first = layout name b) :
    (madeOf name first b).map Item.address = b.registers.map (·.absAddr) := by
  have hfirst : (madeOf name first b).map Item.address =
      (layout name first).map fun l => b.first.absAddr+l.1 := by
    simp only [madeOf, compressed, layout, List.map_map]
    rfl
  have hblock : (layout name b).map (fun l => b.first.absAddr+l.1) =
      b.registers.map (·.absAddr) := by
    simp only [layout, List.map_map]
    exact List.map_congr_left fun reg _ => add_sub _ _
  rw [hfirst, hlayout, hblock]

theorem layout_length (name : Text) (b : Block) : (layout name b).length = b.registers.length :=
  List.length_map _

theorem madeOf_length {first : Block} (hlayout : layout name first = layout name b) :
    (madeOf name first b).length = b.registers.length := by
  rw [← layout_length name b, ← hlayout, layout_length, madeOf, compressed, List.length_map,
    List.length_map]

theorem group_perm (hnodup : (g.map Block.index).Nodup) :
    (expand (peripheralOf name g)).Perm (made name g) := by
  cases g with
  | nil => exact .refl _
  | cons first rest =>
    have hentries : (SortedMap.ofEntries ((first::rest).map entry)).Perm
        ((first::rest).map entry) := by
      apply SortedMap.ofEntries_perm
      rw [List.map_map]
      exact hnodup
    have hexpand := List.Perm.flatMap_right (fun e : ℕ × UInt32 =>
      (compressed name first).map (placed (instancePrefix name e.1) e.2)) hentries
    rw [List.flatMap_map] at hexpand
    exact hexpand

/-- A group has no more items than its registers, and as many only if its
instance numbers are different. -/
theorem group_length {first : Block} {rest : List Block}
    (hsame : ∀ b ∈ rest, layout name b = layout name first) :
    (expand (peripheralOf name (first::rest))).length ≤ (kept (first::rest)).length ∧
      ((expand (peripheralOf name (first::rest))).length = (kept (first::rest)).length →
        ((first::rest).map Block.index).Nodup) := by
  have hall : ∀ b ∈ first::rest, (b.registers.map itemOf).length = first.registers.length := by
    rintro b (_ | ⟨_, hb⟩)
    · exact List.length_map _
    · rw [List.length_map, ← layout_length name b, hsame b hb, layout_length]
  have hkept : (kept (first::rest)).length = (first::rest).length*first.registers.length :=
    flatMap_length hall
  have hexpand : (expand (peripheralOf name (first::rest))).length =
      (SortedMap.ofEntries ((first::rest).map entry)).length*first.registers.length := by
    refine flatMap_length fun e _ => ?_
    show (List.map _ (compressed name first)).length = _
    rw [List.length_map, compressed, List.length_map]
  have hpos : 0 < first.registers.length := Nat.succ_pos _
  obtain ⟨hle, hnodup⟩ := SortedMap.ofEntries_length ((first::rest).map entry)
  rw [List.length_map] at hle hnodup
  rw [hkept, hexpand]
  refine ⟨Nat.mul_le_mul_right _ hle, fun heq => ?_⟩
  have hentries := hnodup (Nat.eq_of_mul_eq_mul_right hpos heq)
  rw [List.map_map] at hentries
  exact hentries

/-- A group makes its own items if its runs have the same widths and no name
begins with its prefix twice. -/
theorem group_eq_iff {first : Block} {rest : List Block}
    (hsame : ∀ b ∈ rest, layout name b = layout name first)
    (hof : ∀ b ∈ first::rest, ∀ reg ∈ b.registers, OfInstance name b.index reg) :
    made name (first::rest) = kept (first::rest) ↔ ∀ b ∈ first::rest, widths first = widths b ∧
      ∀ reg ∈ b.registers, ¬instancePrefix name b.index ++
        instancePrefix name b.index <+: reg.name := by
  have hlayout : ∀ b ∈ first::rest, layout name first = layout name b := by
    rintro b (_ | ⟨_, hb⟩)
    · rfl
    · exact (hsame b hb).symm
  have hlen : ∀ b ∈ first::rest, (madeOf name first b).length = (b.registers.map itemOf).length :=
    fun b hb => by rw [madeOf_length (hlayout b hb), List.length_map]
  refine (flatMap_eq_iff hlen).trans (forall₂_congr fun b hb => ?_)
  exact madeOf_eq_iff (hlayout b hb) (hof b hb)

theorem group_addresses {first : Block} {rest : List Block}
    (hsame : ∀ b ∈ rest, layout name b = layout name first) :
    (made name (first::rest)).map Item.address = (kept (first::rest)).map Item.address := by
  rw [made, kept, List.map_flatMap, List.map_flatMap]
  refine List.flatMap_congr fun b hb => ?_
  have hlayout : layout name first = layout name b := by
    rcases hb with _ | ⟨_, hb⟩
    · rfl
    · exact (hsame b hb).symm
  rw [madeOf_addresses hlayout, List.map_map]
  rfl

theorem runs_flatten {regs : List Parse.Register} {blocks : List Block}
    (h : Runs name regs blocks) :
    regs = blocks.flatMap Block.registers := by
  induction h with
  | nil => rfl
  | cons _ _ _ _ ih => rw [List.flatMap_cons, ← ih]

theorem runs_of {regs : List Parse.Register} {blocks : List Block} (h : Runs name regs blocks) :
    ∀ b ∈ blocks, ∀ reg ∈ b.registers, OfInstance name b.index reg := by
  induction h with
  | nil => exact nofun
  | cons _ hsame _ _ ih =>
    rintro b (_ | ⟨_, hb⟩)
    · exact hsame
    · exact ih b hb

theorem sorted_perm (input : List Parse.Register) : (sortByAddress input).Perm input :=
  List.perm_insertionSort _ _

theorem separate_iff (blocks : List Block) : Separate name blocks ↔
    ∀ g ∈ groups (layout name) blocks, ∀ first rest, g = first::rest →
      (g.map Block.index).Nodup ∧ ∀ b ∈ g, widths first = widths b ∧ ∀ reg ∈ b.registers,
        ¬instancePrefix name b.index ++ instancePrefix name b.index <+: reg.name := by
  have hperm : (groups (layout name) blocks).flatten.Perm blocks := groups_perm blocks
  have hmem : ∀ b, b ∈ blocks ↔ ∃ g ∈ groups (layout name) blocks, b ∈ g := fun b => by
    rw [← hperm.mem_iff, List.mem_flatten]
  have hsymm : ∀ b b' : Block, b.index ≠ b'.index ∧ widths b = widths b' →
      b'.index ≠ b.index ∧ widths b' = widths b := fun b b' h => ⟨h.1.symm, h.2.symm⟩
  have hpairs : (blocks.Pairwise fun b b' => layout name b = layout name b' →
      b.index ≠ b'.index ∧ widths b = widths b') ↔ _ := pairwise_groups hsymm blocks
  have hgroup : ∀ (first : Block) (rest : List Block), ((first::rest).Pairwise fun b b' =>
      b.index ≠ b'.index ∧ widths b = widths b') ↔ ((first::rest).map Block.index).Nodup ∧
        ∀ b ∈ first::rest, widths first = widths b := by
    intro first rest
    rw [List.pairwise_and_iff, pairwise_same widths first rest, List.Nodup, List.pairwise_map]
  constructor
  · rintro ⟨hnames, hlayouts⟩ g hg first rest rfl
    obtain ⟨hnodup, hwidths⟩ := (hgroup first rest).mp (hpairs.mp hlayouts _ hg)
    exact ⟨hnodup, fun b hb => ⟨hwidths b hb, hnames b ((hmem b).mpr ⟨_, hg, hb⟩)⟩⟩
  · intro h
    refine ⟨fun b hb => ?_, hpairs.mpr fun g hg => ?_⟩
    · obtain ⟨g, hg, hbg⟩ := (hmem b).mp hb
      obtain ⟨first, rest, rfl, -⟩ := groups_uniform blocks g hg
      exact ((h _ hg first rest rfl).2 b hbg).2
    · obtain ⟨first, rest, rfl, -⟩ := groups_uniform blocks g hg
      obtain ⟨hnodup, hall⟩ := h _ hg first rest rfl
      exact (hgroup first rest).mpr ⟨hnodup, fun b hb => (hall b hb).1⟩

theorem numbered_iff {regs : List Parse.Register} {blocks : List Block}
    (hruns : Runs name regs blocks) (hnodup : (regs.map (·.absAddr)).Nodup) :
    (((groups (layout name) blocks).map (peripheralOf name)).flatMap expand).Perm
      (regs.map itemOf) ↔ Separate name blocks := by
  rw [separate_iff, List.flatMap_map]
  generalize hgs : groups (layout name) blocks = gs
  have hperm : gs.flatten.Perm blocks := hgs ▸ groups_perm blocks
  have huniform : Uniform (layout name) gs := hgs ▸ groups_uniform blocks
  have hkept : (gs.flatMap kept).Perm (regs.map itemOf) := by
    have hflat : gs.flatMap kept = gs.flatten.flatMap fun b => b.registers.map itemOf := by
      rw [← List.flatMap_id, List.flatMap_assoc]
      rfl
    rw [hflat, runs_flatten hruns, List.map_flatMap]
    exact List.Perm.flatMap_right _ hperm
  have hof : ∀ g ∈ gs, ∀ b ∈ g, ∀ reg ∈ b.registers, OfInstance name b.index reg :=
    fun g hg b hb => runs_of hruns b (hperm.subset (List.mem_flatten.mpr ⟨g, hg, hb⟩))
  have hgroup : ∀ g ∈ gs, (expand (peripheralOf name g)).length ≤ (kept g).length ∧
      ((expand (peripheralOf name g)).length = (kept g).length → (g.map Block.index).Nodup) := by
    intro g hg
    obtain ⟨first, rest, rfl, hsame⟩ := huniform g hg
    exact group_length hsame
  have hmade : (∀ g ∈ gs, (g.map Block.index).Nodup) →
      ((gs.flatMap fun g => expand (peripheralOf name g)).Perm (regs.map itemOf) ↔
        ∀ g ∈ gs, made name g = kept g) := by
    intro hindex
    have hexpand : (gs.flatMap fun g => expand (peripheralOf name g)).Perm
        (gs.flatMap (made name)) := List.Perm.flatMap_left _ fun g hg => group_perm (hindex g hg)
    have haddresses : (gs.flatMap (made name)).map Item.address =
        (gs.flatMap kept).map Item.address := by
      rw [List.map_flatMap, List.map_flatMap]
      refine List.flatMap_congr fun g hg => ?_
      obtain ⟨first, rest, rfl, hsame⟩ := huniform g hg
      exact group_addresses hsame
    have hdistinct : ((gs.flatMap kept).map Item.address).Nodup := by
      rw [(hkept.map Item.address).nodup_iff, List.map_map]
      exact hnodup
    have hlen : ∀ g ∈ gs, (made name g).length = (kept g).length := by
      intro g hg
      obtain ⟨first, rest, rfl, hsame⟩ := huniform g hg
      have hlengths := congrArg List.length (group_addresses hsame)
      rw [List.length_map, List.length_map] at hlengths
      exact hlengths
    rw [← flatMap_eq_iff hlen, ← perm_iff_eq haddresses (haddresses ▸ hdistinct)]
    exact ⟨fun h => hexpand.symm.trans (h.trans hkept.symm),
      fun h => hexpand.trans (h.trans hkept)⟩
  constructor
  · intro h g hg first rest hcons
    have hindex : ∀ g ∈ gs, (g.map Block.index).Nodup := by
      have hlen := (h.trans hkept.symm).length_eq
      rw [List.length_flatMap, List.length_flatMap] at hlen
      exact fun g hg => (hgroup g hg).2
        (sum_eq_imp (fun g hg => (hgroup g hg).1) hlen.symm g hg)
    have heq := (hmade hindex).mp h g hg
    subst hcons
    obtain ⟨first', rest', hcons, hsame⟩ := huniform _ hg
    cases hcons
    exact ⟨hindex _ hg, (group_eq_iff hsame (hof _ hg)).mp heq⟩
  · intro h
    have hall : ∀ g ∈ gs, (g.map Block.index).Nodup ∧ made name g = kept g := by
      intro g hg
      obtain ⟨first, rest, rfl, hsame⟩ := huniform g hg
      obtain ⟨hindex, heq⟩ := h _ hg first rest rfl
      exact ⟨hindex, (group_eq_iff hsame (hof _ hg)).mpr heq⟩
    exact (hmade fun g hg => (hall g hg).1).mpr fun g hg => (hall g hg).2

end UsbArmory.Txt2rust.Expansion
