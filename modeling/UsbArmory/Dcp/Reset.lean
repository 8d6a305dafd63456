import UsbArmory.Dcp.Digest

/-!
# A hasher that has been reset

`reset` clears the buffer and makes the next block the first one. The input
counter stays, so the handle has less capacity than a new one.
-/

set_option autoImplicit false

namespace UsbArmory.Dcp.Reset
open UsbArmory.Dcp.Command UsbArmory.Dcp.Hash UsbArmory.Dcp.Issue UsbArmory.Dcp.Chunking
open UsbArmory.Dcp.Digest

variable {core : Bytes → Vector UInt8 32} {s : Sha256}

/-- Cycles of input calls, each ended by `reset`. -/
def cycles : Sha256 → List (List Bytes) → Engine → Except Stop (Sha256 × Engine)
  | s, [], d => .ok (s, d)
  | s, calls::rest, d => do
    let (s, d) ← s.inputs calls d
    cycles s.reset rest d

def counting (c : ℕ) : Sha256 := { Sha256.new with count := c }

def total (history : List (List Bytes)) : ℕ := history.flatten.flatten.length

/-- Each call in turn ends in the same way, and so does the hash. -/
def Alike (core : Bytes → Vector UInt8 32) (s s' : Sha256) (calls : List Bytes) : Prop :=
  ∀ d, (∀ n, (s.inputs (calls.take n) d).map Prod.snd = (s'.inputs (calls.take n) d).map Prod.snd) ∧
    s.hash core calls d = s'.hash core calls d

/-- What a hasher that has counted `t` bytes has counted when the calls are
done or it is out of capacity. -/
def counted : ℕ → List Bytes → ℕ
  | t, [] => t
  | t, call::calls =>
    if call = [] then counted t calls
    else if t+call.length ≤ maxCount then counted (t+call.length) calls
    else t

theorem counted_cons (t : ℕ) (call : Bytes) (calls : List Bytes) : counted t (call::calls) =
    if call = [] then counted t calls
    else if t+call.length ≤ maxCount then counted (t+call.length) calls
    else t := rfl

theorem le_counted (t : ℕ) (calls : List Bytes) : t ≤ counted t calls := by
  induction calls generalizing t with
  | nil => exact Nat.le_refl t
  | cons call calls ih =>
    rw [counted_cons]
    split
    · exact ih t
    · split
      · exact Nat.le_trans (Nat.le_add_right _ _) (ih _)
      · exact Nat.le_refl t

def moved (c : ℕ) (s : Sha256) : Sha256 := { s with count := c+s.count }

theorem inputSlice_moved (c : ℕ) (s : Sha256) (input : Bytes) (d : Engine)
    (h : input = [] ∨ c+(s.count+input.length) ≤ maxCount ∨ maxCount < s.count+input.length) :
    (moved c s).inputSlice input d = (s.inputSlice input d).map fun x => (moved c x.1, x.2) := by
  rw [inputSlice_eq, inputSlice_eq]
  by_cases hnil : input = []
  · rw [if_pos hnil, if_pos hnil]
    rfl
  · rw [if_neg hnil, if_neg hnil]
    rcases h with h | h | h
    · exact absurd h hnil
    · have hmoved : (moved c s).count+input.length ≤ maxCount := by
        show c+s.count+input.length ≤ maxCount
        omega
      rw [if_pos hmoved, if_pos (by omega)]
      show (takeIn s.nextIsFirstBlock s.buffer input d).map _ = _
      cases takeIn s.nextIsFirstBlock s.buffer input d with
      | error stop => rfl
      | ok x =>
        simp only [Except.map, moved]
        rw [Nat.add_assoc]
    · have hmoved : ¬(moved c s).count+input.length ≤ maxCount := by
        show ¬c+s.count+input.length ≤ maxCount
        omega
      rw [if_neg hmoved, if_neg (by omega)]
      rfl

theorem inputSlice_count {s' : Sha256} {d d' : Engine} {input : Bytes} (hnil : input ≠ [])
    (hfit : s.count+input.length ≤ maxCount) (h : s.inputSlice input d = .ok (s', d')) :
    s'.count = s.count+input.length := by
  rw [inputSlice_eq, if_neg hnil, if_pos hfit] at h
  cases htake : takeIn s.nextIsFirstBlock s.buffer input d with
  | error stop =>
    rw [htake] at h
    cases h
  | ok x =>
    rw [htake] at h
    cases h
    rfl

/-- The moved counter does not run out before the other. -/
def Keeps (c t : ℕ) (calls : List Bytes) : Prop :=
  counted t calls = t ∨ c+counted t calls ≤ maxCount

theorem inputs_moved (c : ℕ) (calls : List Bytes) (s : Sha256) (d : Engine)
    (h : Keeps c s.count calls) :
    (moved c s).inputs calls d = (s.inputs calls d).map fun x => (moved c x.1, x.2) := by
  induction calls generalizing s d with
  | nil => rfl
  | cons call calls ih =>
    show ((moved c s).inputSlice call d >>= fun x => x.1.inputs calls x.2) =
      (s.inputSlice call d >>= fun x => x.1.inputs calls x.2).map _
    unfold Keeps at h
    rw [counted_cons] at h
    by_cases hnil : call = []
    · rw [if_pos hnil] at h
      rw [inputSlice_moved c s call d (Or.inl hnil), inputSlice_eq, if_pos hnil]
      exact ih s d h
    · rw [if_neg hnil] at h
      by_cases hfit : s.count+call.length ≤ maxCount
      · rw [if_pos hfit] at h
        have hpos : 0 < call.length := List.length_pos_iff.mpr hnil
        have hle := le_counted (s.count+call.length) calls
        have hfar : c+counted (s.count+call.length) calls ≤ maxCount := by omega
        rw [inputSlice_moved c s call d (Or.inr (Or.inl (by omega)))]
        cases hslice : s.inputSlice call d with
        | error stop => rfl
        | ok x =>
          obtain ⟨s', d'⟩ := x
          apply ih s' d'
          rw [Keeps, inputSlice_count hnil hfit hslice]
          exact Or.inr hfar
      · rw [inputSlice_moved c s call d (Or.inr (Or.inr (by omega))), inputSlice_eq, if_neg hnil,
          if_neg hfit]
        rfl

theorem alike_of_keeps {c : ℕ} {calls : List Bytes} (htakes : ∀ n, Keeps c s.count (calls.take n)) :
    Alike core (moved c s) s calls := by
  intro d
  constructor
  · intro n
    rw [inputs_moved c (calls.take n) s d (htakes n)]
    cases s.inputs (calls.take n) d <;> rfl
  · have hall := htakes calls.length
    rw [List.take_length] at hall
    unfold Sha256.hash
    rw [inputs_moved c calls s d hall]
    cases s.inputs calls d with
    | error stop => rfl
    | ok x => rfl

theorem counted_take_le (t : ℕ) (calls : List Bytes) (n : ℕ) :
    counted t (calls.take n) ≤ counted t calls := by
  induction calls generalizing t n with
  | nil => simp
  | cons call calls ih =>
    cases n with
    | zero => exact le_counted t _
    | succ n =>
      rw [List.take_succ_cons, counted_cons, counted_cons]
      split
      · exact ih t n
      · split
        · exact ih _ n
        · exact Nat.le_refl t

theorem keeps_take {c t : ℕ} {calls : List Bytes} (h : Keeps c t calls) (n : ℕ) :
    Keeps c t (calls.take n) := by
  have hle := counted_take_le t calls n
  have hge := le_counted t (calls.take n)
  unfold Keeps at h ⊢
  omega

theorem runs_out {c : ℕ} (calls : List Bytes) (s : Sha256) (d : Engine)
    (hdone : ∀ n, d.answer n = .done) (hshort : s.buffer.bytes.length < blockSize)
    (h : ¬Keeps c s.count calls) :
    ∃ n d', (moved c s).inputs (calls.take n) d = .error ⟨.capacity, d'⟩ ∧
      ∃ x, s.inputs (calls.take n) d = .ok x := by
  induction calls generalizing s d with
  | nil => exact absurd (Or.inl rfl) h
  | cons call calls ih =>
    unfold Keeps at h
    rw [counted_cons] at h
    by_cases hnil : call = []
    · rw [if_pos hnil] at h
      obtain ⟨n, d', hout, x, hx⟩ := ih s d hdone hshort h
      refine ⟨n+1, d', ?_, x, ?_⟩
      · show ((moved c s).inputSlice call d >>= fun x => x.1.inputs (calls.take n) x.2) = _
        rw [inputSlice_eq, if_pos hnil]
        exact hout
      · show (s.inputSlice call d >>= fun x => x.1.inputs (calls.take n) x.2) = _
        rw [inputSlice_eq, if_pos hnil]
        exact hx
    · rw [if_neg hnil] at h
      by_cases hfit : s.count+call.length ≤ maxCount
      · rw [if_pos hfit] at h
        obtain ⟨ps, buffer', htaken, -, hrun⟩ := takeIn_takesIn s.nextIsFirstBlock call hshort
        have hslice : s.inputSlice call d = .ok (⟨s.nextIsFirstBlock && ps.isEmpty, buffer',
            s.count+call.length⟩, (blocksCmds s.nextIsFirstBlock ps).foldl Engine.execute d) := by
          rw [inputSlice_eq, if_neg hnil, if_pos hfit, hrun d, issueAll_done _ d hdone]
          rfl
        by_cases hmoved : c+(s.count+call.length) ≤ maxCount
        · have hdone' : ∀ n,
              ((blocksCmds s.nextIsFirstBlock ps).foldl Engine.execute d).answer n = .done := by
            intro n
            rw [(executeAll_issued _ d).2]
            exact hdone n
          obtain ⟨n, d', hout, x, hx⟩ := ih ⟨s.nextIsFirstBlock && ps.isEmpty, buffer',
            s.count+call.length⟩ _ hdone' htaken.short (by
              intro hkeeps
              rcases hkeeps with hkeeps | hkeeps
              · exact h (Or.inr (by
                  have hkeeps' : counted (s.count+call.length) calls = s.count+call.length := hkeeps
                  omega))
              · exact h (Or.inr hkeeps))
          refine ⟨n+1, d', ?_, x, ?_⟩
          · show ((moved c s).inputSlice call d >>= fun x => x.1.inputs (calls.take n) x.2) = _
            rw [inputSlice_moved c s call d (Or.inr (Or.inl hmoved)), hslice]
            exact hout
          · show (s.inputSlice call d >>= fun x => x.1.inputs (calls.take n) x.2) = _
            rw [hslice]
            exact hx
        · refine ⟨1, d, ?_, ?_⟩
          · show ((moved c s).inputSlice call d >>= fun x => x.1.inputs (calls.take 0) x.2) = _
            have hover : ¬(moved c s).count+call.length ≤ maxCount := by
              show ¬c+s.count+call.length ≤ maxCount
              omega
            rw [inputSlice_eq, if_neg hnil, if_neg hover]
            rfl
          · refine ⟨(⟨s.nextIsFirstBlock && ps.isEmpty, buffer', s.count+call.length⟩,
              (blocksCmds s.nextIsFirstBlock ps).foldl Engine.execute d), ?_⟩
            show (s.inputSlice call d >>= fun x => x.1.inputs (calls.take 0) x.2) = _
            rw [hslice]
            rfl
      · rw [if_neg hfit] at h
        exact absurd (Or.inl rfl) h

theorem inputs_ok {s' : Sha256} {d d' : Engine} (calls : List Bytes)
    (hshort : s.buffer.bytes.length < blockSize) (h : s.inputs calls d = .ok (s', d')) :
    s'.count = s.count+calls.flatten.length ∧ s'.buffer.refused = s.buffer.refused := by
  induction calls generalizing s d with
  | nil =>
    cases h
    exact ⟨rfl, rfl⟩
  | cons call calls ih =>
    change (s.inputSlice call d >>= fun x => x.1.inputs calls x.2) = _ at h
    rw [inputSlice_eq] at h
    by_cases hnil : call = []
    · rw [if_pos hnil] at h
      rw [hnil]
      exact ih hshort h
    · rw [if_neg hnil] at h
      by_cases hfit : s.count+call.length ≤ maxCount
      · obtain ⟨ps, buffer', htaken, hrefused, hrun⟩ :=
          takeIn_takesIn s.nextIsFirstBlock call hshort
        rw [if_pos hfit, hrun d] at h
        cases hall : issueAll (blocksCmds s.nextIsFirstBlock ps) d with
        | error stop =>
          rw [hall] at h
          cases h
        | ok d₁ =>
          rw [hall] at h
          obtain ⟨hcount, hkept⟩ := ih (s := ⟨s.nextIsFirstBlock && ps.isEmpty, buffer',
            s.count+call.length⟩) htaken.short h
          refine ⟨?_, hkept.trans hrefused⟩
          rw [hcount, List.flatten_cons, List.length_append]
          exact Nat.add_assoc _ _ _
      · rw [if_neg hfit] at h
        cases h

theorem reset_eq (h : s.buffer.refused = 0) : s.reset = counting s.count := by
  have hclear : s.buffer.clear = Vec.new blockSize := by
    unfold Vec.clear Vec.new
    rw [h]
  unfold Sha256.reset
  rw [hclear]
  rfl

theorem cycles_counting {c : ℕ} {d d' : Engine} (history : List (List Bytes))
    (h : cycles (counting c) history d = .ok (s, d')) : s = counting (c+total history) := by
  induction history generalizing c d with
  | nil =>
    cases h
    rfl
  | cons calls history ih =>
    cases hin : (counting c).inputs calls d with
    | error stop =>
      have hstop : cycles (counting c) (calls::history) d = .error stop := by
        simp [cycles, hin, bind, Except.bind]
      rw [hstop] at h
      cases h
    | ok x =>
      have hnext : cycles (counting c) (calls::history) d = cycles x.1.reset history x.2 := by
        simp [cycles, hin, bind, Except.bind]
      obtain ⟨hcount, hrefused⟩ := inputs_ok (s := counting c) calls (Nat.zero_lt_succ 63) hin
      rw [hnext, reset_eq hrefused] at h
      rw [ih h, hcount]
      have htotal : total (calls::history) = calls.flatten.length+total history := by
        simp [total]
      rw [htotal, ← Nat.add_assoc]
      rfl

/-- After any number of cycles the hasher is like a new one if and only if the
bytes of all cycles and those of the new calls are within the capacity, or the
new calls are out of capacity at once. -/
theorem reset_alike_iff (core : Bytes → Vector UInt8 32) (history : List (List Bytes))
    (calls : List Bytes) (d d' : Engine) (s : Sha256)
    (h : cycles .new history d = .ok (s, d')) :
    Alike core s .new calls ↔
      counted 0 calls = 0 ∨ total history+counted 0 calls ≤ maxCount := by
  have hs : s = moved (total history) .new := by
    have hcount := cycles_counting (c := 0) history h
    rw [Nat.zero_add] at hcount
    exact hcount
  rw [hs]
  constructor
  · intro halike
    by_contra hnot
    obtain ⟨n, d', hout, x, hx⟩ := runs_out (c := total history) calls .new idleEngine
      (fun _ => rfl) (by decide) hnot
    have hsame := (halike idleEngine).1 n
    rw [hout, hx] at hsame
    cases hsame
  · intro hkeeps
    exact alike_of_keeps fun n => keeps_take hkeeps n

/-- The digests of a byte `b` and of a zero byte, last byte first. -/
def byteCore (message : Bytes) : Vector UInt8 32 :=
  if message = [98] then
    #v[0x9d, 0x00, 0x9c, 0xd5, 0xae, 0xee, 0x73, 0xcb, 0x4a, 0x2c, 0xd4, 0x88, 0x00, 0x7a, 0xbd,
      0x8b, 0x34, 0xb1, 0xe1, 0x64, 0x65, 0x4f, 0x89, 0x33, 0x4a, 0x59, 0x39, 0x00, 0x16, 0xe8,
      0x23, 0x3e]
  else
    #v[0x1d, 0xa0, 0xaf, 0x17, 0x06, 0xa3, 0x11, 0x85, 0x76, 0x38, 0x37, 0xb3, 0x3f, 0x1d, 0x90,
      0x78, 0x2c, 0x0a, 0x78, 0xbb, 0xe6, 0x44, 0xa5, 0x9c, 0x98, 0x7a, 0xb3, 0xff, 0x9c, 0x0b,
      0x34, 0x6e]

theorem reset_alike_iff_short : Alike byteCore (counting 1) .new [[98]] :=
  (reset_alike_iff byteCore [[[97]]] [[98]] idleEngine idleEngine (counting 1) rfl).mpr
    (Or.inr (by decide))

/-- A hasher that has taken all the bytes it can in a hash that was aborted has
no capacity left for the next one. -/
theorem full_not_alike :
    ∃ s d', cycles .new [[List.replicate maxCount 0]] idleEngine = .ok (s, d') ∧
    ¬Alike byteCore s .new [[0]] := by
  have hlen : ([List.replicate maxCount 0] : List Bytes).flatten.length = maxCount := by
    rw [List.flatten_singleton, List.length_replicate]
  obtain ⟨pieces, s, -, hrun⟩ := inputs_spec (s := .new) [List.replicate maxCount 0] (by decide) (by
    rw [hlen]
    exact Nat.le_refl _)
  have hcycle : cycles .new [[List.replicate maxCount 0]] idleEngine =
      .ok (s.reset, (blocksCmds true pieces).foldl Engine.execute idleEngine) := by
    have hin := hrun idleEngine
    rw [issueAll_done _ idleEngine fun _ => rfl] at hin
    simp only [cycles, hin]
    rfl
  refine ⟨_, _, hcycle, fun halike => ?_⟩
  have htotal : total [[List.replicate maxCount 0]] = maxCount := by
    unfold total
    rw [List.flatten_singleton, hlen]
  obtain ⟨n, d', hout, x, hx⟩ := runs_out (c := maxCount) [[0]] .new idleEngine (fun _ => rfl)
    (by decide) (by unfold Keeps; decide)
  have hsame := (halike idleEngine).1 n
  have hs := cycles_counting (c := 0) [[List.replicate maxCount 0]] hcycle
  rw [htotal, Nat.zero_add] at hs
  have hmoved : s.reset = moved maxCount .new := hs
  rw [hmoved, hout, hx] at hsame
  cases hsame

end UsbArmory.Dcp.Reset
