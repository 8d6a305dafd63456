import Mathlib.Data.List.Forall2
import Mathlib.Data.List.ReduceOption

/-!
# A list taken through a fallible function

What becomes of a list whose elements each give a value, nothing or an error:
the values in order, or the error of the first element that has one.
-/

set_option autoImplicit false

namespace UsbArmory.Library.Traversal

variable {α β ε : Type} {R : α → β → Prop} {f : α → β} {x : Except ε α}

theorem map_ok_iff {b : β} : f <$> x = .ok b ↔ ∃ a, x = .ok a ∧ b = f a := by
  cases x with
  | error e =>
    constructor
    · intro h
      cases h
    · rintro ⟨a, h, -⟩
      cases h
  | ok a =>
    constructor
    · intro h
      cases h
      exact ⟨a, rfl, rfl⟩
    · rintro ⟨a', h, rfl⟩
      cases h
      rfl

/-- The elements that have a value give it, in order; the others are passed over. -/
inductive Picked (R : α → β → Prop) : List α → List β → Prop where
  | nil : Picked R [] []
  | skip {a : α} {as : List α} {bs : List β} (none : ∀ b, ¬R a b) (rest : Picked R as bs) :
      Picked R (a::as) bs
  | take {a : α} {b : β} {as : List α} {bs : List β} (value : R a b) (rest : Picked R as bs) :
      Picked R (a::as) (b::bs)

theorem exists_of_picked {as : List α} {bs : List β} (h : Picked R as bs) :
    ∀ b ∈ bs, ∃ a ∈ as, R a b := by
  induction h with
  | nil => nofun
  | skip _ _ ih =>
    intro b hb
    obtain ⟨a, ha, hvalue⟩ := ih b hb
    exact ⟨a, List.mem_cons_of_mem _ ha, hvalue⟩
  | take hvalue _ ih =>
    rintro b (_ | ⟨_, hb⟩)
    · exact ⟨_, List.mem_cons_self, hvalue⟩
    · obtain ⟨a, ha, hvalue⟩ := ih b hb
      exact ⟨a, List.mem_cons_of_mem _ ha, hvalue⟩

theorem picked_reduceOption {as : List α} {os : List (Option β)}
    (h : List.Forall₂ (fun a o => ∀ b, o = some b ↔ R a b) as os) :
    Picked R as os.reduceOption := by
  induction h with
  | nil => exact .nil
  | @cons a o as os hvalue _ ih =>
    cases o with
    | none => exact .skip (fun b hb => nomatch (hvalue b).mpr hb) ih
    | some b => exact .take ((hvalue b).mp rfl) ih

theorem mem_of_forall₂ {as : List α} {bs : List β} (h : List.Forall₂ R as bs) :
    ∀ a ∈ as, ∃ b ∈ bs, R a b := by
  induction h with
  | nil => nofun
  | cons hvalue _ ih =>
    rintro a (_ | ⟨_, ha⟩)
    · exact ⟨_, List.mem_cons_self, hvalue⟩
    · obtain ⟨b, hb, hab⟩ := ih a ha
      exact ⟨b, List.mem_cons_of_mem _ hb, hab⟩

theorem mapM_forall₂ {f : α → Option β} {as : List α} {bs : List β} (h : as.mapM f = some bs) :
    List.Forall₂ (fun a b => f a = some b) as bs := by
  induction as generalizing bs with
  | nil =>
    cases h
    exact .nil
  | cons a as ih =>
    rw [List.mapM_cons] at h
    obtain ⟨b, hb, h⟩ := Option.bind_eq_some_iff.mp h
    obtain ⟨bs', hbs, h⟩ := Option.bind_eq_some_iff.mp h
    cases h
    exact .cons hb (ih hbs)

theorem exists_of_mem_mapM {f : α → Option β} {as : List α} {bs : List β}
    (h : as.mapM f = some bs) {b : β} (hb : b ∈ bs) : ∃ a ∈ as, f a = some b := by
  have hflip : List.Forall₂ (fun b a => f a = some b) bs as := (mapM_forall₂ h).flip
  exact mem_of_forall₂ hflip b hb

theorem mem_mapM_of_mem {f : α → Option β} {as : List α} {bs : List β}
    (h : as.mapM f = some bs) {a : α} (ha : a ∈ as) : ∃ b ∈ bs, f a = some b :=
  mem_of_forall₂ (mapM_forall₂ h) a ha

theorem mapM_ok {f : α → Except ε β} {as : List α} {bs : List β} (h : as.mapM f = .ok bs) :
    List.Forall₂ (fun a b => f a = .ok b) as bs := by
  induction as generalizing bs with
  | nil =>
    cases h
    exact .nil
  | cons a as ih =>
    rw [List.mapM_cons] at h
    cases hb : f a with
    | error e =>
      rw [hb] at h
      cases h
    | ok b =>
      cases hbs : as.mapM f with
      | error e =>
        rw [hb, hbs] at h
        cases h
      | ok bs' =>
        rw [hb, hbs] at h
        cases h
        exact .cons hb (ih hbs)

theorem mapM_error {f : α → Except ε β} {as : List α} {e : ε} (h : as.mapM f = .error e) :
    ∃ front a back, as = front ++ a::back ∧ (∀ x ∈ front, ∃ b, f x = .ok b) ∧ f a = .error e := by
  induction as with
  | nil => cases h
  | cons a as ih =>
    rw [List.mapM_cons] at h
    cases hb : f a with
    | error e' =>
      rw [hb] at h
      cases h
      exact ⟨[], a, as, rfl, nofun, hb⟩
    | ok b =>
      cases hbs : as.mapM f with
      | error e' =>
        rw [hb, hbs] at h
        cases h
        obtain ⟨front, x, back, rfl, hfront, hx⟩ := ih hbs
        refine ⟨a::front, x, back, rfl, ?_, hx⟩
        rintro y (_ | ⟨_, hy⟩)
        · exact ⟨b, hb⟩
        · exact hfront y hy
      | ok bs =>
        rw [hb, hbs] at h
        cases h

end UsbArmory.Library.Traversal
