import Mathlib.Data.List.Induction
import Mathlib.Data.List.Nodup
import Mathlib.Order.Lattice
import Mathlib.Tactic.Common

/-!
# Sorted maps

A map as the list of its entries in the order of the keys.
-/

set_option autoImplicit false

namespace UsbArmory.Library.SortedMap

variable {K V : Type} [LinearOrder K] {k : K} {v : V} {m : List (K × V)}

/-- The value takes the place of the one that the key has had. -/
def insert (k : K) (v : V) : List (K × V) → List (K × V)
  | [] => [(k, v)]
  | e::m => if k < e.1 then (k, v)::e::m else if k = e.1 then (k, v)::m else e::insert k v m

def ofEntries (es : List (K × V)) : List (K × V) := es.foldl (fun m e => insert e.1 e.2 m) []

def Sorted (m : List (K × V)) : Prop := m.Pairwise fun e e' => e.1 < e'.1

theorem ofEntries_snoc (es : List (K × V)) (e : K × V) :
    ofEntries (es ++ [e]) = insert e.1 e.2 (ofEntries es) := List.foldl_append ..

theorem insert_keys (m : List (K × V)) (k' : K) :
    k' ∈ (insert k v m).map Prod.fst ↔ k' = k ∨ k' ∈ m.map Prod.fst := by
  induction m with
  | nil => simp [insert]
  | cons e m ih =>
    unfold insert
    split
    · simp
    · split
      next heq =>
        rw [List.map_cons, List.map_cons, List.mem_cons, List.mem_cons, heq]
        tauto
      next =>
        rw [List.map_cons, List.map_cons, List.mem_cons, List.mem_cons, ih]
        tauto

theorem insert_sorted (h : Sorted m) : Sorted (insert k v m) := by
  induction m with
  | nil => exact List.pairwise_singleton _ _
  | cons e m ih =>
    obtain ⟨hhead, htail⟩ := List.pairwise_cons.mp h
    unfold insert
    split
    next hlt =>
      refine List.pairwise_cons.mpr ⟨fun e' he' => ?_, h⟩
      rcases he' with _ | ⟨_, he'⟩
      · exact hlt
      · exact lt_trans hlt (hhead e' he')
    next hlt =>
      split
      next heq => exact List.pairwise_cons.mpr ⟨fun e' he' => heq ▸ hhead e' he', htail⟩
      next hne =>
        refine List.pairwise_cons.mpr ⟨fun e' he' => ?_, ih htail⟩
        rcases (insert_keys m e'.1).mp (List.mem_map_of_mem he') with heq | hmem
        · rw [heq]
          exact lt_of_le_of_ne (not_lt.mp hlt) (Ne.symm hne)
        · obtain ⟨e'', he'', heq⟩ := List.mem_map.mp hmem
          rw [← heq]
          exact hhead e'' he''

theorem insert_fresh (h : k ∉ m.map Prod.fst) : (insert k v m).Perm ((k, v)::m) := by
  induction m with
  | nil => exact .refl _
  | cons e m ih =>
    have hne : k ≠ e.1 := fun heq => h (by rw [heq]; exact List.mem_cons_self)
    have htail : k ∉ m.map Prod.fst := fun hmem => h (List.mem_cons_of_mem _ hmem)
    unfold insert
    rw [if_neg hne]
    split
    · exact .refl _
    · exact ((ih htail).cons e).trans (.swap _ _ _)

theorem insert_present (hs : Sorted m) (h : k ∈ m.map Prod.fst) :
    (insert k v m).length = m.length := by
  induction m with
  | nil => cases h
  | cons e m ih =>
    obtain ⟨hhead, htail⟩ := List.pairwise_cons.mp hs
    have hle : e.1 ≤ k := by
      rcases List.mem_map.mp h with ⟨e', _ | ⟨_, he'⟩, rfl⟩
      · exact le_refl _
      · exact le_of_lt (hhead e' he')
    unfold insert
    rw [if_neg (not_lt.mpr hle)]
    split
    next => rfl
    next hne =>
      have hmem : k ∈ m.map Prod.fst := by
        rcases List.mem_cons.mp h with heq | hmem
        · exact absurd heq hne
        · exact hmem
      rw [List.length_cons, List.length_cons, ih htail hmem]

theorem ofEntries_sorted (es : List (K × V)) : Sorted (ofEntries es) := by
  induction es using List.reverseRecOn with
  | nil => exact List.Pairwise.nil
  | append_singleton es e ih =>
    rw [ofEntries_snoc]
    exact insert_sorted ih

theorem ofEntries_keys (es : List (K × V)) (k : K) :
    k ∈ (ofEntries es).map Prod.fst ↔ k ∈ es.map Prod.fst := by
  induction es using List.reverseRecOn with
  | nil => exact Iff.rfl
  | append_singleton es e ih =>
    rw [ofEntries_snoc, insert_keys, ih, List.map_append, List.mem_append, List.map_singleton,
      List.mem_singleton]
    exact or_comm

omit [LinearOrder K] in
theorem nodup_snoc {es : List (K × V)} {e : K × V} : ((es ++ [e]).map Prod.fst).Nodup ↔
    (es.map Prod.fst).Nodup ∧ e.1 ∉ es.map Prod.fst := by
  rw [List.map_append, List.map_singleton, List.nodup_append]
  simp only [List.nodup_singleton, List.mem_singleton, true_and]
  constructor
  · rintro ⟨h, hne⟩
    exact ⟨h, fun hmem => hne _ hmem _ rfl rfl⟩
  · rintro ⟨h, hne⟩
    refine ⟨h, ?_⟩
    rintro _ hmem _ rfl rfl
    exact hne hmem

theorem ofEntries_perm {es : List (K × V)} (h : (es.map Prod.fst).Nodup) :
    (ofEntries es).Perm es := by
  induction es using List.reverseRecOn with
  | nil => exact .refl _
  | append_singleton es e ih =>
    obtain ⟨hes, he⟩ := nodup_snoc.mp h
    rw [ofEntries_snoc]
    have hfresh : e.1 ∉ (ofEntries es).map Prod.fst :=
      fun hmem => he ((ofEntries_keys es _).mp hmem)
    exact (insert_fresh hfresh).trans
      (((ih hes).cons e).trans (List.perm_append_singleton e es).symm)

theorem ofEntries_length (es : List (K × V)) : (ofEntries es).length ≤ es.length ∧
    ((ofEntries es).length = es.length → (es.map Prod.fst).Nodup) := by
  induction es using List.reverseRecOn with
  | nil => exact ⟨Nat.le_refl _, fun _ => List.nodup_nil⟩
  | append_singleton es e ih =>
    rw [ofEntries_snoc, List.length_append, List.length_singleton]
    by_cases hmem : e.1 ∈ (ofEntries es).map Prod.fst
    · rw [insert_present (ofEntries_sorted es) hmem]
      exact ⟨by omega, fun heq => absurd heq (by omega)⟩
    · rw [(insert_fresh hmem).length_eq, List.length_cons]
      refine ⟨by omega, fun heq => nodup_snoc.mpr ⟨ih.2 (by omega), fun h => hmem ?_⟩⟩
      exact (ofEntries_keys es _).mpr h

end UsbArmory.Library.SortedMap
