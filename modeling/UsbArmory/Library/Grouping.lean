import Mathlib.Data.List.Induction
import Mathlib.Data.List.Perm.Basic
import Mathlib.Tactic.Common

/-!
# Grouping a list by a key

An element joins the first group with its key, or begins a group of its own
behind the others.
-/

set_option autoImplicit false

namespace UsbArmory.Library.Grouping

variable {B K : Type} [DecidableEq K] {key : B → K} {b : B} {g : List B} {gs : List (List B)}

def HasKey (key : B → K) (k : K) (g : List B) : Prop := g.head?.map key = some k

instance (k : K) (g : List B) : Decidable (HasKey key k g) :=
  inferInstanceAs (Decidable (g.head?.map key = some k))

def join (key : B → K) (b : B) : List (List B) → List (List B)
  | [] => [[b]]
  | g::gs => if HasKey key (key b) g then (g ++ [b])::gs else g::join key b gs

def groups (key : B → K) (bs : List B) : List (List B) := bs.foldl (fun gs b => join key b gs) []

def Uniform (key : B → K) (gs : List (List B)) : Prop :=
  ∀ g ∈ gs, ∃ first rest, g = first::rest ∧ ∀ b ∈ rest, key b = key first

def Apart (key : B → K) (gs : List (List B)) : Prop :=
  gs.Pairwise fun g g' => ∀ b ∈ g, ∀ b' ∈ g', key b ≠ key b'

theorem groups_snoc (bs : List B) (b : B) : groups key (bs ++ [b]) = join key b (groups key bs) :=
  List.foldl_append ..

theorem join_perm (gs : List (List B)) (b : B) :
    (join key b gs).flatten.Perm (gs.flatten ++ [b]) := by
  induction gs with
  | nil => exact .refl _
  | cons g gs ih =>
    unfold join
    split
    · rw [List.flatten_cons, List.flatten_cons, List.append_assoc, List.append_assoc]
      exact List.Perm.append_left g List.perm_append_comm
    · rw [List.flatten_cons, List.flatten_cons, List.append_assoc]
      exact List.Perm.append_left g ih

theorem groups_perm (bs : List B) : (groups key bs).flatten.Perm bs := by
  induction bs using List.reverseRecOn with
  | nil => exact .refl _
  | append_singleton bs b ih =>
    rw [groups_snoc]
    exact (join_perm _ b).trans (ih.append_right [b])

theorem join_uniform (h : Uniform key gs) (b : B) : Uniform key (join key b gs) := by
  induction gs with
  | nil =>
    rintro g (_ | ⟨_, ⟨⟩⟩)
    exact ⟨b, [], rfl, nofun⟩
  | cons g gs ih =>
    have htail : Uniform key gs := fun g' hg' => h g' (List.mem_cons_of_mem _ hg')
    obtain ⟨first, rest, rfl, hrest⟩ := h g List.mem_cons_self
    unfold join
    split
    next hkey =>
      rintro g' (_ | ⟨_, hg'⟩)
      · refine ⟨first, rest ++ [b], rfl, fun b' hb' => ?_⟩
        rcases List.mem_append.mp hb' with hmem | hmem
        · exact hrest b' hmem
        · cases List.mem_singleton.mp hmem
          exact (Option.some.inj hkey).symm
      · exact htail g' hg'
    next =>
      rintro g' (_ | ⟨_, hg'⟩)
      · exact ⟨first, rest, rfl, hrest⟩
      · exact ih htail g' hg'

theorem groups_uniform (bs : List B) : Uniform key (groups key bs) := by
  induction bs using List.reverseRecOn with
  | nil => exact nofun
  | append_singleton bs b ih =>
    rw [groups_snoc]
    exact join_uniform ih b

theorem mem_join {b b' : B} (hg : g ∈ join key b gs) (hb : b' ∈ g) :
    b' = b ∨ ∃ g' ∈ gs, b' ∈ g' := by
  have hmem : b' ∈ (join key b gs).flatten := List.mem_flatten.mpr ⟨g, hg, hb⟩
  rcases List.mem_append.mp ((join_perm gs b).subset hmem) with h | h
  · exact .inr (List.mem_flatten.mp h)
  · exact .inl (List.mem_singleton.mp h)

theorem join_apart (hu : Uniform key gs) (h : Apart key gs) (b : B) :
    Apart key (join key b gs) := by
  induction gs with
  | nil => exact List.pairwise_singleton _ _
  | cons g gs ih =>
    have htail : Uniform key gs := fun g' hg' => hu g' (List.mem_cons_of_mem _ hg')
    obtain ⟨hhead, hrest⟩ := List.pairwise_cons.mp h
    obtain ⟨first, rest, rfl, hsame⟩ := hu g List.mem_cons_self
    unfold join
    split
    next hkey =>
      refine List.pairwise_cons.mpr ⟨fun g' hg' b₁ hb₁ b₂ hb₂ => ?_, hrest⟩
      rcases List.mem_append.mp hb₁ with hmem | hmem
      · exact hhead g' hg' b₁ hmem b₂ hb₂
      · cases List.mem_singleton.mp hmem
        rw [← Option.some.inj hkey]
        exact hhead g' hg' first List.mem_cons_self b₂ hb₂
    next hkey =>
      refine List.pairwise_cons.mpr ⟨fun g' hg' b₁ hb₁ b₂ hb₂ => ?_, ih htail hrest⟩
      rcases mem_join hg' hb₂ with rfl | ⟨g'', hg'', hmem⟩
      · have hfirst : key b₁ = key first := by
          rcases hb₁ with _ | ⟨_, hb₁⟩
          · rfl
          · exact hsame b₁ hb₁
        rw [hfirst]
        exact fun heq => hkey (congrArg some heq)
      · exact hhead g'' hg'' b₁ hb₁ b₂ hmem

theorem groups_apart (bs : List B) : Apart key (groups key bs) := by
  induction bs using List.reverseRecOn with
  | nil => exact List.Pairwise.nil
  | append_singleton bs b ih =>
    rw [groups_snoc]
    exact join_apart (groups_uniform bs) ih b

omit [DecidableEq K] in
theorem uniform_key (hu : Uniform key gs) (hg : g ∈ gs) {a b : B} (ha : a ∈ g) (hb : b ∈ g) :
    key a = key b := by
  obtain ⟨first, rest, rfl, hsame⟩ := hu g hg
  have hfirst : ∀ c ∈ first::rest, key c = key first := by
    rintro c (_ | ⟨_, hc⟩)
    · rfl
    · exact hsame c hc
  rw [hfirst a ha, hfirst b hb]

theorem pairwise_groups {R : B → B → Prop} (hsymm : ∀ a b, R a b → R b a) (bs : List B) :
    (bs.Pairwise fun a b => key a = key b → R a b) ↔ ∀ g ∈ groups key bs, g.Pairwise R := by
  have hswap : ∀ {a b : B}, (key a = key b → R a b) → key b = key a → R b a :=
    fun h heq => hsymm _ _ (h heq.symm)
  have hperm : (groups key bs).flatten.Perm bs := groups_perm bs
  rw [← hperm.pairwise_iff hswap, List.pairwise_flatten]
  constructor
  · rintro ⟨hgroup, -⟩ g hg
    exact (hgroup g hg).imp_of_mem fun ha hb h => h (uniform_key (groups_uniform bs) hg ha hb)
  · intro h
    refine ⟨fun g hg => (h g hg).imp fun {a b} hR (_ : key a = key b) => hR, ?_⟩
    exact (groups_apart bs).imp fun hapart a ha b hb heq => absurd heq (hapart a ha b hb)

theorem groups_length (bs : List B) :
    (groups key bs).length ≤ 1 ↔ ∀ a ∈ bs, ∀ b ∈ bs, key a = key b := by
  have hperm : (groups key bs).flatten.Perm bs := groups_perm bs
  have hmem : ∀ b, b ∈ bs ↔ ∃ g ∈ groups key bs, b ∈ g := fun b => by
    rw [← hperm.mem_iff, List.mem_flatten]
  have hu : Uniform key (groups key bs) := groups_uniform bs
  have hapart : Apart key (groups key bs) := groups_apart bs
  generalize groups key bs = gs at hmem hu hapart
  constructor
  · intro hlen a ha b hb
    obtain ⟨g, hg, hag⟩ := (hmem a).mp ha
    obtain ⟨g', hg', hbg⟩ := (hmem b).mp hb
    have heq : g = g' := by
      match gs, hlen with
      | [_], _ => rw [List.mem_singleton.mp hg, List.mem_singleton.mp hg']
    subst heq
    exact uniform_key hu hg hag hbg
  · intro hall
    match gs with
    | [] | [_] => exact Nat.le_of_ble_eq_true rfl
    | g::g'::gs =>
      obtain ⟨first, rest, rfl, -⟩ := hu g List.mem_cons_self
      obtain ⟨first', rest', rfl, -⟩ := hu g' (List.mem_cons_of_mem _ List.mem_cons_self)
      have hne := (List.pairwise_cons.mp hapart).1 _ List.mem_cons_self first List.mem_cons_self
        first' List.mem_cons_self
      refine absurd (hall first ?_ first' ?_) hne
      · exact (hmem first).mpr ⟨_, List.mem_cons_self, List.mem_cons_self⟩
      · exact (hmem first').mpr ⟨_, List.mem_cons_of_mem _ List.mem_cons_self, List.mem_cons_self⟩

end UsbArmory.Library.Grouping
