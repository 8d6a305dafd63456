import Mathlib.Tactic.Common

/-!
# Blocks copied over each other

A buffer into which blocks are copied one after the other shows all of them at
the end if and only if they agree wherever two of them overlap.
-/

set_option autoImplicit false

namespace UsbArmory.Library.Overlay

variable {α : Type}

structure Block (α : Type) where
  offset : ℕ
  data : List α

def Block.covers (b : Block α) (k : ℕ) : Prop := b.offset ≤ k ∧ k < b.offset+b.data.length

instance (b : Block α) (k : ℕ) : Decidable (b.covers k) := inferInstanceAs (Decidable (_ ∧ _))

def place (buf : List α) (b : Block α) : List α :=
  buf.take b.offset ++ (b.data ++ buf.drop (b.offset+b.data.length))

def Shows (buf : List α) (b : Block α) : Prop :=
  ∀ k, b.covers k → buf[k]? = b.data[k-b.offset]?

def Agree (b c : Block α) : Prop :=
  ∀ k, b.covers k → c.covers k → b.data[k-b.offset]? = c.data[k-c.offset]?

def Fits (buf : List α) (b : Block α) : Prop := b.offset+b.data.length ≤ buf.length

variable {buf : List α} {b c : Block α} {bs : List (Block α)}

theorem place_length (h : Fits buf b) : (place buf b).length = buf.length := by
  unfold Fits at h
  unfold place
  simp only [List.length_append, List.length_take, List.length_drop]
  omega

theorem place_covered (h : Fits buf b) {k : ℕ} (hk : b.covers k) :
    (place buf b)[k]? = b.data[k-b.offset]? := by
  unfold Fits at h
  obtain ⟨hlow, hhigh⟩ := hk
  have htake : (buf.take b.offset).length = b.offset := by
    rw [List.length_take]
    omega
  unfold place
  rw [List.getElem?_append_right (by omega), htake, List.getElem?_append_left (by omega)]

theorem place_other (h : Fits buf b) {k : ℕ} (hk : ¬b.covers k) : (place buf b)[k]? = buf[k]? := by
  unfold Fits at h
  have htake : (buf.take b.offset).length = b.offset := by
    rw [List.length_take]
    omega
  unfold place
  by_cases hlow : k < b.offset
  · rw [List.getElem?_append_left (by omega), List.getElem?_take_of_lt hlow]
  · have hhigh : b.offset+b.data.length ≤ k := by
      by_contra hlt
      exact hk ⟨Nat.le_of_not_lt hlow, Nat.lt_of_not_le hlt⟩
    rw [List.getElem?_append_right (by omega), htake, List.getElem?_append_right (by omega),
      List.getElem?_drop]
    congr 1
    omega

theorem fits_place (h : Fits buf b) : Fits (place buf b) c ↔ Fits buf c := by
  unfold Fits
  rw [place_length h]

theorem foldl_length (hfit : ∀ b ∈ bs, Fits buf b) : (bs.foldl place buf).length = buf.length := by
  induction bs generalizing buf with
  | nil => rfl
  | cons b bs ih =>
    have hb := hfit b List.mem_cons_self
    rw [List.foldl_cons, ih fun d hd => (fits_place hb).mpr (hfit d (List.mem_cons_of_mem _ hd)),
      place_length hb]

theorem foldl_other (hfit : ∀ b ∈ bs, Fits buf b) {k : ℕ} (hk : ∀ b ∈ bs, ¬b.covers k) :
    (bs.foldl place buf)[k]? = buf[k]? := by
  induction bs generalizing buf with
  | nil => rfl
  | cons b bs ih =>
    have hb := hfit b List.mem_cons_self
    rw [List.foldl_cons, ih (fun d hd => (fits_place hb).mpr (hfit d (List.mem_cons_of_mem _ hd)))
      fun d hd => hk d (List.mem_cons_of_mem _ hd), place_other hb (hk b List.mem_cons_self)]

theorem shows_foldl (hc : Shows buf c) (hfit : ∀ b ∈ bs, Fits buf b)
    (hagree : ∀ b ∈ bs, Agree b c) : Shows (bs.foldl place buf) c := by
  induction bs generalizing buf with
  | nil => exact hc
  | cons b bs ih =>
    have hb := hfit b List.mem_cons_self
    refine ih ?_ ?_ fun d hd => hagree d (List.mem_cons_of_mem _ hd)
    · intro k hk
      by_cases hcov : b.covers k
      · rw [place_covered hb hcov]
        exact hagree b List.mem_cons_self k hcov hk
      · rw [place_other hb hcov]
        exact hc k hk
    · intro d hd
      exact (fits_place hb).mpr (hfit d (List.mem_cons_of_mem _ hd))

theorem shows_place (h : Fits buf b) : Shows (place buf b) b := fun _ hk => place_covered h hk

theorem shows_agreed (hfit : ∀ d ∈ bs, Fits buf d) (hb : b ∈ bs) (hagree : ∀ d ∈ bs, Agree d b) :
    Shows (bs.foldl place buf) b := by
  induction bs generalizing buf with
  | nil => exact absurd hb List.not_mem_nil
  | cons c bs ih =>
    have hc := hfit c List.mem_cons_self
    have hrest : ∀ d ∈ bs, Fits (place buf c) d := fun d hd =>
      (fits_place hc).mpr (hfit d (List.mem_cons_of_mem _ hd))
    have hothers : ∀ d ∈ bs, Agree d b := fun d hd => hagree d (List.mem_cons_of_mem _ hd)
    rcases List.mem_cons.mp hb with rfl | hb
    · rw [List.foldl_cons]
      exact shows_foldl (shows_place hc) hrest hothers
    · exact ih hrest hb hothers

theorem agree_of_shows (hb : Shows buf b) (hc : Shows buf c) : Agree b c :=
  fun k hbk hck => (hb k hbk).symm.trans (hc k hck)

theorem shows_all_iff (hfit : ∀ b ∈ bs, Fits buf b) :
    (∀ b ∈ bs, Shows (bs.foldl place buf) b) ↔ ∀ b ∈ bs, ∀ c ∈ bs, Agree b c :=
  ⟨fun h b hb c hc => agree_of_shows (h b hb) (h c hc),
    fun h b hb => shows_agreed hfit hb fun d hd => h d hd b hb⟩

end UsbArmory.Library.Overlay
