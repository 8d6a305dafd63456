import Mathlib.Tactic.Common

/-!
# Strings

Splitting at the first and at the last separator, and removing a pattern from
the front as often as it stands there.
-/

set_option autoImplicit false

namespace UsbArmory.Library.Strings

abbrev Text := List Char

variable {c : Char} {p s t : Text} {k n : ℕ}

/-- `str::splitn(2, c)`: what stands before the first separator, and what follows it. -/
def splitOnce (c : Char) : Text → Text × Option Text
  | [] => ([], none)
  | x::xs => if x = c then ([], some xs) else (x::(splitOnce c xs).1, (splitOnce c xs).2)

/-- `str::rsplitn(2, c)`: what follows the last separator, and what stands before it. -/
def rsplitOnce (c : Char) (s : Text) : Text × Option Text :=
  ((splitOnce c s.reverse).1.reverse, (splitOnce c s.reverse).2.map List.reverse)

/-- `str::starts_with` -/
def startsWith (p s : Text) : Bool := p.isPrefixOf s

def trimLoop (p : Text) : ℕ → Text → Text
  | 0, s => s
  | n+1, s => if startsWith p s then trimLoop p n (s.drop p.length) else s

/-- `str::trim_start_matches`; an empty pattern matches nothing away. -/
def trimStartMatches (p s : Text) : Text := if p = [] then s else trimLoop p s.length s

/-- The characters with the property `White_Space`. -/
def isWhitespace (c : Char) : Bool :=
  let n := c.toNat
  n == 0x20 || (0x09 ≤ n && n ≤ 0x0D) || n == 0x85 || n == 0xA0 || n == 0x1680 ||
    (0x2000 ≤ n && n ≤ 0x200A) || n == 0x2028 || n == 0x2029 || n == 0x202F || n == 0x205F ||
    n == 0x3000

def trimStart (s : Text) : Text := s.dropWhile isWhitespace

def trimEnd (s : Text) : Text := (s.reverse.dropWhile isWhitespace).reverse

def trim (s : Text) : Text := trimEnd (trimStart s)

/-- The lines from here on; the line so far is kept in reverse. -/
def linesFrom : Text → Text → List Text
  | [], [] => []
  | acc, [] => [acc.reverse]
  | '\r'::acc, '\n'::cs => acc.reverse::linesFrom [] cs
  | acc, '\n'::cs => acc.reverse::linesFrom [] cs
  | acc, c::cs => linesFrom (c::acc) cs

/-- `str::lines` -/
def lines (s : Text) : List Text := linesFrom [] s

def copies (k : ℕ) (p : Text) : Text := (List.replicate k p).flatten

theorem startsWith_iff : startsWith p s = true ↔ p <+: s := List.isPrefixOf_iff_prefix

theorem splitOnce_append (h : c ∉ s) (t : Text) : splitOnce c (s ++ c::t) = (s, some t) := by
  induction s with
  | nil =>
    show (if c = c then _ else _) = _
    rw [if_pos rfl]
  | cons x s ih =>
    have hx : x ≠ c := fun heq => h (by rw [heq]; exact List.mem_cons_self)
    have htail : c ∉ s := fun hmem => h (List.mem_cons_of_mem _ hmem)
    show (if x = c then _ else (x::(splitOnce c (s ++ c::t)).1, (splitOnce c (s ++ c::t)).2)) = _
    rw [if_neg hx, ih htail]

theorem splitOnce_none (h : c ∉ s) : splitOnce c s = (s, none) := by
  induction s with
  | nil => rfl
  | cons x s ih =>
    have hx : x ≠ c := fun heq => h (by rw [heq]; exact List.mem_cons_self)
    have htail : c ∉ s := fun hmem => h (List.mem_cons_of_mem _ hmem)
    show (if x = c then _ else _) = _
    rw [if_neg hx, ih htail]

theorem splitOnce_front (c : Char) (s t : Text) :
    (splitOnce c (s ++ c::t)).1 = (splitOnce c s).1 := by
  induction s with
  | nil =>
    show (if c = c then (([] : Text), some t) else _).1 = []
    rw [if_pos rfl]
  | cons x s ih =>
    show (if x = c then ([], some (s ++ c::t)) else (x::(splitOnce c (s ++ c::t)).1, _)).1 =
      (if x = c then ([], some s) else (x::(splitOnce c s).1, _)).1
    split
    · rfl
    · exact congrArg (x::·) ih

theorem splitOnce_some {u : Text} (h : (splitOnce c s).2 = some u) :
    s = (splitOnce c s).1 ++ c::u ∧ c ∉ (splitOnce c s).1 := by
  induction s with
  | nil => cases h
  | cons x s ih =>
    unfold splitOnce at h ⊢
    split at h
    next hx =>
      cases h
      rw [if_pos hx, hx]
      exact ⟨rfl, nofun⟩
    next hx =>
      obtain ⟨hs, hmem⟩ := ih h
      rw [if_neg hx]
      refine ⟨congrArg (x::·) hs, ?_⟩
      rintro (_ | ⟨_, hc⟩)
      · exact hx rfl
      · exact hmem hc

theorem splitOnce_whole (h : (splitOnce c s).2 = none) : c ∉ s := by
  induction s with
  | nil => exact nofun
  | cons x s ih =>
    unfold splitOnce at h
    split at h
    next => cases h
    next hx =>
      rintro (_ | ⟨_, hc⟩)
      · exact hx rfl
      · exact ih h hc

theorem rsplitOnce_some {u : Text} (h : (rsplitOnce c s).2 = some u) :
    s = u ++ c::(rsplitOnce c s).1 ∧ c ∉ (rsplitOnce c s).1 := by
  obtain ⟨v, hv, rfl⟩ := Option.map_eq_some_iff.mp h
  obtain ⟨hs, hmem⟩ := splitOnce_some hv
  refine ⟨?_, fun hc => hmem (List.mem_reverse.mp hc)⟩
  have hrev := congrArg List.reverse hs
  rw [List.reverse_reverse, List.reverse_append, List.reverse_cons, List.append_assoc] at hrev
  exact hrev

theorem rsplitOnce_append (h : c ∉ t) (s : Text) : rsplitOnce c (s ++ c::t) = (t, some s) := by
  have hrev : (s ++ c::t).reverse = t.reverse ++ c::s.reverse := by simp
  have hmem : c ∉ t.reverse := fun hmem => h (List.mem_reverse.mp hmem)
  simp only [rsplitOnce, hrev, splitOnce_append hmem, List.reverse_reverse, Option.map_some]

theorem rsplitOnce_none (h : c ∉ s) : rsplitOnce c s = (s, none) := by
  have hmem : c ∉ s.reverse := fun hmem => h (List.mem_reverse.mp hmem)
  simp only [rsplitOnce, splitOnce_none hmem, List.reverse_reverse, Option.map_none]

/-- The text before the first separator, and the text behind it. -/
def CutAt (c : Char) (s t u : Text) : Prop := s = t ++ c::u ∧ c ∉ t

/-- The text before the last separator, and the text behind it. -/
def CutAtLast (c : Char) (s t u : Text) : Prop := s = t ++ c::u ∧ c ∉ u

def FirstPart (c : Char) (s t : Text) : Prop := c ∉ t ∧ (s = t ∨ ∃ u, s = t ++ c::u)

def LastPart (c : Char) (s t : Text) : Prop := c ∉ t ∧ (s = t ∨ ∃ u, s = u ++ c::t)

theorem cutAt_iff : CutAt c s t p ↔ (splitOnce c s).2 = some p ∧ (splitOnce c s).1 = t := by
  constructor
  · rintro ⟨rfl, hmem⟩
    rw [splitOnce_append hmem]
    exact ⟨rfl, rfl⟩
  · rintro ⟨hp, rfl⟩
    exact splitOnce_some hp

theorem cutAtLast_iff :
    CutAtLast c s t p ↔ (rsplitOnce c s).2 = some t ∧ (rsplitOnce c s).1 = p := by
  constructor
  · rintro ⟨rfl, hmem⟩
    rw [rsplitOnce_append hmem]
    exact ⟨rfl, rfl⟩
  · rintro ⟨ht, rfl⟩
    exact rsplitOnce_some ht

theorem firstPart_iff : FirstPart c s t ↔ (splitOnce c s).1 = t := by
  constructor
  · rintro ⟨hmem, rfl | ⟨u, rfl⟩⟩
    · rw [splitOnce_none hmem]
    · rw [splitOnce_append hmem]
  · rintro rfl
    cases hsplit : (splitOnce c s).2 with
    | none =>
      have hwhole := splitOnce_whole hsplit
      rw [splitOnce_none hwhole]
      exact ⟨hwhole, .inl rfl⟩
    | some u =>
      obtain ⟨hs, hmem⟩ := splitOnce_some hsplit
      exact ⟨hmem, .inr ⟨u, hs⟩⟩

theorem rsplitOnce_whole (h : (rsplitOnce c s).2 = none) : c ∉ s := by
  have hrev := splitOnce_whole (Option.map_eq_none_iff.mp h)
  exact fun hmem => hrev (List.mem_reverse.mpr hmem)

theorem lastPart_iff : LastPart c s t ↔ (rsplitOnce c s).1 = t := by
  constructor
  · rintro ⟨hmem, rfl | ⟨u, rfl⟩⟩
    · rw [rsplitOnce_none hmem]
    · rw [rsplitOnce_append hmem]
  · rintro rfl
    cases hsplit : (rsplitOnce c s).2 with
    | none =>
      have hwhole := rsplitOnce_whole hsplit
      rw [rsplitOnce_none hwhole]
      exact ⟨hwhole, .inl rfl⟩
    | some u =>
      obtain ⟨hs, hmem⟩ := rsplitOnce_some hsplit
      exact ⟨hmem, .inr ⟨u, hs⟩⟩

theorem copies_succ (k : ℕ) (p : Text) : copies (k+1) p = p ++ copies k p := by
  rw [copies, List.replicate_succ, List.flatten_cons, copies]

theorem copies_add (j k : ℕ) (p : Text) : copies (j+k) p = copies j p ++ copies k p := by
  rw [copies, ← List.replicate_append_replicate, List.flatten_append, copies, copies]

theorem copies_length (k : ℕ) (p : Text) : (copies k p).length = k*p.length := by
  induction k with
  | zero => rw [Nat.zero_mul]; rfl
  | succ k ih => rw [copies_succ, List.length_append, ih, Nat.succ_mul, Nat.add_comm]

theorem copies_rest (hp : p ≠ []) (s : Text) :
    ∃ k t, s = copies k p ++ t ∧ ¬p <+: t ∧ k ≤ s.length := by
  by_cases h : p <+: s
  · obtain ⟨u, rfl⟩ := h
    have hpos : 0 < p.length := List.length_pos_iff.mpr hp
    have hlen : (p ++ u).length = p.length+u.length := List.length_append
    obtain ⟨k, t, hu, ht, hk⟩ := copies_rest hp u
    refine ⟨k+1, t, ?_, ht, by omega⟩
    rw [copies_succ, List.append_assoc, ← hu]
  · exact ⟨0, s, rfl, h, Nat.zero_le _⟩
termination_by s.length

theorem trimLoop_copies (ht : ¬p <+: t) (hk : k ≤ n) : trimLoop p n (copies k p ++ t) = t := by
  induction k generalizing n with
  | zero =>
    cases n with
    | zero => rfl
    | succ n =>
      show (if startsWith p t then _ else _) = _
      rw [if_neg fun h => ht (startsWith_iff.mp h)]
      rfl
  | succ k ih =>
    obtain ⟨n, rfl⟩ : ∃ m, n = m+1 := ⟨n-1, by omega⟩
    have hstart : startsWith p (copies (k+1) p ++ t) = true := by
      rw [startsWith_iff, copies_succ, List.append_assoc]
      exact List.prefix_append _ _
    show (if startsWith p _ then _ else _) = _
    rw [if_pos hstart, copies_succ, List.append_assoc, List.drop_left]
    exact ih (by omega)

theorem trim_copies (hp : p ≠ []) (ht : ¬p <+: t) (k : ℕ) :
    trimStartMatches p (copies k p ++ t) = t := by
  have hpos : 0 < p.length := List.length_pos_iff.mpr hp
  have hlen : k ≤ (copies k p ++ t).length := by
    have hmul : k*1 ≤ k*p.length := Nat.mul_le_mul_left k hpos
    rw [List.length_append, copies_length]
    omega
  rw [trimStartMatches, if_neg hp]
  exact trimLoop_copies ht hlen

theorem trim_spec (hp : p ≠ []) (s : Text) :
    ∃ k, s = copies k p ++ trimStartMatches p s ∧ ¬p <+: trimStartMatches p s := by
  obtain ⟨k, t, rfl, ht, -⟩ := copies_rest hp s
  rw [trim_copies hp ht]
  exact ⟨k, rfl, ht⟩

theorem trim_nil (s : Text) : trimStartMatches [] s = s := if_pos rfl

theorem trim_bare (h : p <+: t → p = []) (k : ℕ) : trimStartMatches p (copies k p ++ t) = t := by
  rcases eq_or_ne p [] with rfl | hp
  · rw [trim_nil, copies, List.flatten_eq_nil_iff.mpr (fun _ => List.eq_of_mem_replicate),
      List.nil_append]
  · exact trim_copies hp (fun hstart => hp (h hstart)) k

theorem trim_rest (p s : Text) : ∃ k, s = copies k p ++ trimStartMatches p s ∧
    (p <+: trimStartMatches p s → p = []) := by
  rcases eq_or_ne p [] with rfl | hp
  · exact ⟨0, (trim_nil s).symm, fun _ => rfl⟩
  · obtain ⟨k, hs, hbare⟩ := trim_spec hp s
    exact ⟨k, hs, fun hstart => absurd hstart hbare⟩

theorem trim_eq_self (h : ¬p <+: s) : trimStartMatches p s = s := by
  by_cases hp : p = []
  · subst hp
    exact trim_nil s
  · exact trim_copies hp h 0

theorem trim_append (hp : p ≠ []) (s : Text) :
    trimStartMatches p (p ++ s) = trimStartMatches p s := by
  obtain ⟨k, t, rfl, ht, -⟩ := copies_rest hp s
  rw [trim_copies hp ht, ← List.append_assoc, ← copies_succ, trim_copies hp ht]

theorem trim_prefix_iff (hp : p ≠ []) (h : p <+: s) :
    p ++ trimStartMatches p s = s ↔ ¬p ++ p <+: s := by
  obtain ⟨u, rfl⟩ := h
  rw [trim_append hp, List.append_cancel_left_eq, List.prefix_append_right_inj]
  refine ⟨fun heq => ?_, trim_eq_self⟩
  obtain ⟨-, -, hnot⟩ := trim_spec hp u
  rw [heq] at hnot
  exact hnot

theorem trim_length (p s : Text) : (trimStartMatches p s).length ≤ s.length := by
  by_cases hp : p = []
  · exact Nat.le_of_eq (by rw [hp, trim_nil])
  · obtain ⟨k, hs, -⟩ := trim_spec hp s
    have hlen := congrArg List.length hs
    rw [List.length_append] at hlen
    omega

/-- Two texts leave the same exactly if one is the other behind copies of the pattern. -/
theorem trim_eq_iff (hp : p ≠ []) : trimStartMatches p s = trimStartMatches p t ↔
    ∃ k, s = copies k p ++ t ∨ t = copies k p ++ s := by
  obtain ⟨j, u, rfl, hu, -⟩ := copies_rest hp s
  obtain ⟨k, v, rfl, hv, -⟩ := copies_rest hp t
  rw [trim_copies hp hu, trim_copies hp hv]
  constructor
  · rintro rfl
    rcases Nat.le_total j k with h | h
    · refine ⟨k-j, .inr ?_⟩
      rw [← List.append_assoc, ← copies_add, Nat.sub_add_cancel h]
    · refine ⟨j-k, .inl ?_⟩
      rw [← List.append_assoc, ← copies_add, Nat.sub_add_cancel h]
  · rintro ⟨i, h | h⟩
    · rw [← List.append_assoc, ← copies_add] at h
      rw [← trim_copies hp hu j, h, trim_copies hp hv]
    · rw [← List.append_assoc, ← copies_add] at h
      rw [← trim_copies hp hv k, h, trim_copies hp hu]

end UsbArmory.Library.Strings
