import Mathlib.Algebra.Ring.Nat
import Mathlib.Data.List.Nodup
import Mathlib.Data.List.Pairwise
import Mathlib.Tactic.Common

/-!
# Lists in step

Two lists whose elements have the same distinct keys in the same order, and
two lists that are flattened from pieces of the same lengths.
-/

set_option autoImplicit false

namespace UsbArmory.Library.Keyed

variable {A B K : Type} {l l' : List A} {key : A → K}

theorem perm_iff_eq (hkeys : l.map key = l'.map key) (hnodup : (l.map key).Nodup) :
    l.Perm l' ↔ l = l' := by
  refine ⟨fun hperm => ?_, fun h => h ▸ .refl _⟩
  refine List.ext_getElem hperm.length_eq fun n hn hn' => ?_
  have hmem : l'[n] ∈ l := hperm.symm.subset (List.getElem_mem hn')
  have hkey : key l[n] = key l'[n] := by
    have hget := congrArg (fun ks => ks[n]?) hkeys
    simp only [List.getElem?_map, List.getElem?_eq_getElem hn, List.getElem?_eq_getElem hn',
      Option.map_some, Option.some.injEq] at hget
    exact hget
  exact List.inj_on_of_nodup_map hnodup (List.getElem_mem hn) hmem hkey

/-- Of elements with distinct keys, other values are distinct where they tell the keys apart. -/
theorem nodup_iff {f : A → K} {g : A → B} (hf : (l.map f).Nodup) :
    (l.map g).Nodup ↔ ∀ a ∈ l, ∀ b ∈ l, g a = g b → f a = f b := by
  constructor
  · intro hg a ha b hb heq
    rw [List.inj_on_of_nodup_map hg ha hb heq]
  · intro h
    refine List.Nodup.map_on (fun a ha b hb heq => ?_) hf.of_map
    exact List.inj_on_of_nodup_map hf ha hb (h a ha b hb heq)

theorem find?_key [DecidableEq K] (hnodup : (l.map key).Nodup) {a : A} (ha : a ∈ l) :
    l.find? (fun b => key b = key a) = some a := by
  cases hfind : l.find? (fun b => key b = key a) with
  | none => exact absurd (decide_eq_true rfl) (List.find?_eq_none.mp hfind a ha)
  | some b =>
    have hkey : key b = key a := by simpa using List.find?_some hfind
    rw [List.inj_on_of_nodup_map hnodup (List.mem_of_find?_eq_some hfind) ha hkey]

theorem pairwise_same (f : A → B) (a : A) (l : List A) :
    ((a::l).Pairwise fun b c => f b = f c) ↔ ∀ b ∈ a::l, f a = f b := by
  constructor
  · rintro h b (_ | ⟨_, hb⟩)
    · rfl
    · exact (List.pairwise_cons.mp h).1 b hb
  · intro h
    exact List.pairwise_of_forall_mem_list fun b hb c hc => (h b hb).symm.trans (h c hc)

theorem flatMap_eq_iff {f g : A → List B} (hlen : ∀ a ∈ l, (f a).length = (g a).length) :
    l.flatMap f = l.flatMap g ↔ ∀ a ∈ l, f a = g a := by
  induction l with
  | nil => exact ⟨fun _ => nofun, fun _ => rfl⟩
  | cons a l ih =>
    have htail := ih fun b hb => hlen b (List.mem_cons_of_mem _ hb)
    rw [List.flatMap_cons, List.flatMap_cons, List.forall_mem_cons, ← htail]
    constructor
    · intro h
      exact List.append_inj h (hlen a List.mem_cons_self)
    · rintro ⟨hhead, hrest⟩
      rw [hhead, hrest]

theorem flatMap_length {f : A → List B} {n : ℕ} (h : ∀ a ∈ l, (f a).length = n) :
    (l.flatMap f).length = l.length*n := by
  induction l with
  | nil => exact (Nat.zero_mul n).symm
  | cons a l ih =>
    have htail := ih fun b hb => h b (List.mem_cons_of_mem _ hb)
    rw [List.flatMap_cons, List.length_append, h a List.mem_cons_self, htail, List.length_cons,
      Nat.succ_mul, Nat.add_comm]

theorem sum_eq_imp {f g : A → ℕ} (hle : ∀ a ∈ l, f a ≤ g a) (h : (l.map g).sum = (l.map f).sum) :
    ∀ a ∈ l, f a = g a := by
  have hsum : ∀ l : List A, (∀ a ∈ l, f a ≤ g a) → (l.map f).sum ≤ (l.map g).sum := by
    intro l
    induction l with
    | nil => exact fun _ => Nat.le_refl _
    | cons a l ih =>
      intro hle
      have ha := hle a List.mem_cons_self
      have htail := ih fun b hb => hle b (List.mem_cons_of_mem _ hb)
      simp only [List.map_cons, List.sum_cons]
      omega
  induction l with
  | nil => exact nofun
  | cons a l ih =>
    have ha := hle a List.mem_cons_self
    have hrest : ∀ b ∈ l, f b ≤ g b := fun b hb => hle b (List.mem_cons_of_mem _ hb)
    have htail := hsum l hrest
    simp only [List.map_cons, List.sum_cons] at h
    rintro b (_ | ⟨_, hb⟩)
    · omega
    · exact ih hrest (by omega) b hb

end UsbArmory.Library.Keyed
