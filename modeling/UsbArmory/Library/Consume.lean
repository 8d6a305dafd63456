import UsbArmory.Library.Binary

/-!
# How much a parser takes

Parsers of a fixed size fail only where the input is too short. A parser
spells a value where what it has taken is the encoding of the value.
-/

set_option autoImplicit false

namespace UsbArmory.Library.Consume
open UsbArmory.Library.Word UsbArmory.Library.Binary

variable {α β : Type} {p : Parser α} {f : α → Parser β} {k l : ℕ} {input rest : ByteString} {a : α}

def Fixed (p : Parser α) (k : ℕ) : Prop := ∀ input,
  (k ≤ input.length ∧ ∃ a, p.run input = .ok (a, input.drop k)) ∨
    (input.length < k ∧ p.run input = .error (.error ()))

theorem fixed_pure (a : α) : Fixed (pure a) 0 := fun _ => Or.inl ⟨Nat.zero_le _, a, rfl⟩

theorem fixed_bind (hp : Fixed p k) (hf : ∀ a, Fixed (f a) l) : Fixed (p >>= f) (k+l) := by
  intro input
  rw [StateT.run_bind]
  rcases hp input with ⟨hk, a, ha⟩ | ⟨hk, ha⟩
  · rw [ha]
    have hlen : (input.drop k).length = input.length-k := List.length_drop
    rcases hf a (input.drop k) with ⟨hl, b, hb⟩ | ⟨hl, hb⟩
    · refine Or.inl ⟨by omega, b, ?_⟩
      rw [← List.drop_drop]
      exact hb
    · exact Or.inr ⟨by omega, hb⟩
  · rw [ha]
    exact Or.inr ⟨by omega, rfl⟩

theorem fixed_map (h : β → α) {q : Parser β} (hq : Fixed q k) : Fixed (h <$> q) k :=
  fixed_bind hq fun b => fixed_pure (h b)

theorem fixed_count (hp : Fixed p k) (n : ℕ) : Fixed (count p n) (n*k) := by
  induction n with
  | zero =>
    rw [Nat.zero_mul]
    exact fixed_pure []
  | succ n ih =>
    have hsum : (n+1)*k = k+(n*k+0) := by
      rw [Nat.succ_mul, Nat.add_comm, Nat.add_zero]
    rw [hsum]
    exact fixed_bind hp fun a => fixed_bind ih fun as => fixed_pure (a::as)

theorem fixed_beU8 : Fixed beU8 1 := by
  intro input
  match input with
  | [] => exact Or.inr ⟨by decide, rfl⟩
  | b0::rest => exact Or.inl ⟨Nat.le_add_left _ _, b0, rfl⟩

theorem fixed_beU16 : Fixed beU16 2 := by
  intro input
  match input with
  | [] => exact Or.inr ⟨by decide, rfl⟩
  | [_] => exact Or.inr ⟨by simp, rfl⟩
  | b0::b1::rest => exact Or.inl ⟨Nat.le_add_left _ _, ofBe16 b0 b1, rfl⟩

theorem fixed_beU32 : Fixed beU32 4 := by
  intro input
  match input with
  | [] => exact Or.inr ⟨by decide, rfl⟩
  | [_] => exact Or.inr ⟨by simp, rfl⟩
  | [_, _] => exact Or.inr ⟨by simp, rfl⟩
  | [_, _, _] => exact Or.inr ⟨by simp, rfl⟩
  | b0::b1::b2::b3::rest => exact Or.inl ⟨Nat.le_add_left _ _, ofBe32 b0 b1 b2 b3, rfl⟩

theorem fixed_leU32 : Fixed leU32 4 := by
  intro input
  match input with
  | [] => exact Or.inr ⟨by decide, rfl⟩
  | [_] => exact Or.inr ⟨by simp, rfl⟩
  | [_, _] => exact Or.inr ⟨by simp, rfl⟩
  | [_, _, _] => exact Or.inr ⟨by simp, rfl⟩
  | b0::b1::b2::b3::rest => exact Or.inl ⟨Nat.le_add_left _ _, ofLe32 b0 b1 b2 b3, rfl⟩

theorem Fixed.some (hp : Fixed p k) (hk : k ≤ input.length) :
    ∃ a, p.run input = .ok (a, input.drop k) := by
  rcases hp input with ⟨-, h⟩ | ⟨hlt, -⟩
  · exact h
  · omega

theorem Fixed.short (hp : Fixed p k) (hk : input.length < k) :
    p.run input = .error (.error ()) := by
  rcases hp input with ⟨hle, -⟩ | ⟨-, h⟩
  · omega
  · exact h

def Spells (p : Parser α) (enc : α → ByteString) : Prop := ∀ input a rest,
  p.run input = .ok (a, rest) → input = enc a ++ rest

theorem spells_beU32 : Spells beU32 toBe32 := by
  intro input a rest h
  match input with
  | [] | [_] | [_, _] | [_, _, _] => cases h
  | b0::b1::b2::b3::tail =>
    cases h
    rw [toBe32_ofBe32]
    rfl

theorem spells_leU32 : Spells leU32 toLe32 := by
  intro input a rest h
  match input with
  | [] | [_] | [_, _] | [_, _, _] => cases h
  | b0::b1::b2::b3::tail =>
    cases h
    rw [toLe32_ofLe32]
    rfl

theorem tagBytes_ok {bs a : ByteString} (h : (tagBytes bs).run input = .ok (a, rest)) :
    a = bs ∧ input = bs ++ rest := by
  change (if bs.isPrefixOf input then _ else _) = _ at h
  split at h
  next hprefix =>
    obtain ⟨tail, rfl⟩ := List.isPrefixOf_iff_prefix.mp hprefix
    cases h
    rw [List.drop_left]
    exact ⟨rfl, rfl⟩
  next => cases h

theorem alt_ok {q : Parser α} {r : α × ByteString} (h : (alt p q).run input = .ok r) :
    p.run input = .ok r ∨ q.run input = .ok r := by
  change alt p q input = .ok r at h
  unfold alt at h
  split at h
  · exact .inr h
  · exact .inl h

theorem count_length {n : ℕ} {as : List α} (h : (count p n).run input = .ok (as, rest)) :
    as.length = n := by
  induction n generalizing input as with
  | zero =>
    cases h
    rfl
  | succ n ih =>
    obtain ⟨a, t, -, h₁⟩ := bind_ok h
    obtain ⟨as', t', has, h₂⟩ := bind_ok h₁
    cases h₂
    rw [List.length_cons, ih has]

theorem spells_count {enc : α → ByteString} (hp : Spells p enc) (n : ℕ) :
    Spells (count p n) fun as => as.flatMap enc := by
  induction n with
  | zero =>
    intro input as rest h
    cases h
    rfl
  | succ n ih =>
    intro input as rest h
    obtain ⟨a, t, ha, h₁⟩ := bind_ok h
    obtain ⟨as', t', has, h₂⟩ := bind_ok h₁
    cases h₂
    show input = (a::as').flatMap enc ++ rest
    rw [hp _ _ _ ha, ih _ _ _ has, List.flatMap_cons, List.append_assoc]

end UsbArmory.Library.Consume
