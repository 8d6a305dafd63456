import Mathlib.Tactic.Common
import Mathlib.Tactic.Ring

/-!
# A list in chunks

`slice::chunks`: pieces of `n` elements, the last one possibly shorter. Lists
of whole chunks have their own induction rule.
-/

set_option autoImplicit false

namespace UsbArmory.Library.Chunks

variable {α : Type*} {n : ℕ}

def chunksFuel (n : ℕ) : ℕ → List α → List (List α)
  | 0, _ => []
  | _+1, [] => []
  | fuel+1, x::xs => (x::xs).take n::chunksFuel n fuel ((x::xs).drop n)

def chunks (n : ℕ) (l : List α) : List (List α) := chunksFuel n l.length l

theorem chunksFuel_eq (hn : 0 < n) (fuel : ℕ) (l : List α) (h : l.length ≤ fuel) :
    chunksFuel n fuel l = chunks n l := by
  induction fuel using Nat.strong_induction_on generalizing l with
  | _ fuel ih =>
    match fuel, l, h with
    | 0, [], _ => rfl
    | fuel+1, [], _ => rfl
    | fuel+1, x::xs, h =>
      have hlen : ((x::xs).drop n).length ≤ xs.length := by
        rw [List.length_drop, List.length_cons]
        omega
      have hfuel : xs.length ≤ fuel := Nat.le_of_succ_le_succ h
      have hleft := ih fuel (Nat.lt_succ_self fuel) _ (hlen.trans hfuel)
      have hright := ih xs.length (Nat.lt_succ_of_le hfuel) _ hlen
      show _::_ = _::chunksFuel n xs.length ((x::xs).drop n)
      rw [hleft, hright]

theorem chunks_cons (hn : 0 < n) (x : α) (xs : List α) :
    chunks n (x::xs) = (x::xs).take n::chunks n ((x::xs).drop n) := by
  have hlen : ((x::xs).drop n).length ≤ xs.length := by
    rw [List.length_drop, List.length_cons]
    omega
  show _::chunksFuel n xs.length ((x::xs).drop n) = _
  rw [chunksFuel_eq hn _ _ hlen]

theorem chunks_append (hn : 0 < n) {chunk : List α} (hc : chunk.length = n) (rest : List α) :
    chunks n (chunk ++ rest) = chunk::chunks n rest := by
  match chunk, hc with
  | [], hc => exact absurd hc (Nat.ne_of_lt hn)
  | x::xs, hc =>
    have hdrop : (x::(xs ++ rest)).drop n = rest := List.drop_left' hc
    have htake : (x::(xs ++ rest)).take n = x::xs := List.take_left' hc
    rw [List.cons_append, chunks_cons hn, htake, hdrop]

theorem chunks_whole (hn : 0 < n) {chunk : List α} (hc : chunk.length = n) :
    chunks n chunk = [chunk] := by
  have happend := chunks_append hn hc []
  rwa [List.append_nil] at happend

theorem chunks_rule (hn : 0 < n) {P : List α → List (List α) → Prop} (nil : P [] [])
    (cons : ∀ chunk rest, 0 < chunk.length → chunk.length ≤ n → P rest (chunks n rest) →
      P (chunk ++ rest) (chunk::chunks n rest)) (l : List α) : P l (chunks n l) := by
  induction hl : l.length using Nat.strong_induction_on generalizing l with
  | _ k ih =>
    match l, hl with
    | [], _ => exact nil
    | x::xs, hl =>
      have hlen : (x::xs).length = xs.length+1 := rfl
      have hdrop : ((x::xs).drop n).length < k := by
        rw [List.length_drop]
        omega
      have hchunk := cons ((x::xs).take n) ((x::xs).drop n)
        (by rw [List.length_take]; omega) (List.length_take_le n _) (ih _ hdrop _ rfl)
      rw [List.take_append_drop] at hchunk
      rw [chunks_cons hn]
      exact hchunk

theorem chunks_flatten (hn : 0 < n) (l : List α) : (chunks n l).flatten = l := by
  refine chunks_rule (P := fun l cs => cs.flatten = l) hn rfl ?_ l
  intro chunk rest _ _ ih
  rw [List.flatten_cons, ih]

theorem mem_chunks (hn : 0 < n) (l : List α) : ∀ c ∈ chunks n l, 0 < c.length ∧ c.length ≤ n := by
  refine chunks_rule (P := fun _ cs => ∀ c ∈ cs, 0 < c.length ∧ c.length ≤ n) hn nofun ?_ l
  intro chunk rest hpos hle ih
  rintro c (_ | ⟨_, hc⟩)
  · exact ⟨hpos, hle⟩
  · exact ih c hc

theorem chunk_induction {P : List α → Prop} (nil : P [])
    (append : ∀ chunk rest : List α, chunk.length = n → n ∣ rest.length → P rest →
      P (chunk ++ rest)) (l : List α) (h : n ∣ l.length) : P l := by
  obtain ⟨k, hk⟩ := h
  induction k generalizing l with
  | zero =>
    have hl : l = [] := List.eq_nil_of_length_eq_zero (by simpa using hk)
    rw [hl]
    exact nil
  | succ k ih =>
    have hlen : l.length = n+n*k := by
      rw [hk]
      ring
    have hdrop : (l.drop n).length = n*k := by
      rw [List.length_drop]
      omega
    have htake : (l.take n).length = n := by
      rw [List.length_take]
      omega
    rw [← List.take_append_drop n l]
    exact append _ _ htake (hdrop ▸ Nat.dvd_mul_right n k) (ih _ hdrop)

end UsbArmory.Library.Chunks
