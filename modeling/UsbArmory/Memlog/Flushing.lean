import UsbArmory.Memlog.CursorRuns

/-!
# The last flush

Both buffers share one closure, which each round gives to the first of them
that has something to show. Each needs two rounds at most.
-/

set_option autoImplicit false

namespace UsbArmory.Memlog.Flushing
open UsbArmory.Library.Binary UsbArmory.Library.Word UsbArmory.Library.Ring UsbArmory.Library.Run
open UsbArmory.Memlog.CircularBuffer UsbArmory.Memlog.Cursors UsbArmory.Memlog.CursorRuns

/-- What a closure reports, and what is on the serial port then. -/
abbrev Closure := List UInt8 → List UInt8 → UInt32 × List UInt8

/-- The buffers `L0` and `L1`, and what has been written to the serial port. -/
structure Logs where
  l0 : Cursors.Buffer
  l1 : Cursors.Buffer
  serial : List UInt8

section Code
variable (o : Overflow)

def Buffer.peek (b : Cursors.Buffer) (f : Option Closure) (serial : List UInt8) :
    Except (Stop Empty) (Cursors.Buffer × Option Closure × List UInt8) := do
  let shown ← b.shown o b.read b.write
  if shown = [] then return (b, f, serial)
  else match f with
    | none => return (b, none, serial)
    | some f =>
      let b ← b.advance o b.read shown (f shown serial).1
      return (b, none, (f shown serial).2)

def peek (all inMain : Bool) (f : Closure) (s : Logs) : Except (Stop Empty) Logs :=
  if all || inMain then do
    let (l1, f, serial) ← Buffer.peek o s.l1 (some f) s.serial
    let (l0, _, serial) ← Buffer.peek o s.l0 f serial
    return ⟨l0, l1, serial⟩
  else return s

/-- `serial.write_all(s); s.len()` -/
def transmit : Closure := fun s serial => (UInt32.ofNat s.length, serial ++ s)

def rounds (inMain : Bool) : ℕ → Logs → Except (Stop Empty) Logs
  | 0, s => return s
  | n+1, s => do
    let s ← peek o true inMain transmit s
    rounds inMain n s

/-- The loop of `memlog_flush_and_reset`. -/
def memlogFlush (inMain : Bool) (s : Logs) : Except (Stop Empty) Logs := rounds o inMain 4 s

end Code

def length (b : Cursors.Buffer) : ℕ := (b.write-b.read).toNat

/-- The bytes logged and not read, in the order of the buffer. -/
def pending (b : Cursors.Buffer) : List UInt8 :=
  window b.mem b.cap.toNat b.read.toNat (length b)

def piece (b : Cursors.Buffer) : ℕ := min (length b) (b.cap.toNat-b.read.toNat%b.cap.toNat)

def rest (b : Cursors.Buffer) : Cursors.Buffer :=
  { b with read := b.read+UInt32.ofNat (piece b) }

def needs (b : Cursors.Buffer) : ℕ :=
  if length b = 0 then 0
  else if length b ≤ b.cap.toNat-b.read.toNat%b.cap.toNat then 1 else 2

/-- The states of a buffer. With overflow checks they are those of the runs of the logger. -/
def Possible (b : Cursors.Buffer) : Overflow → Prop
  | .wraps => length b ≤ b.cap.toNat
  | .panics => ∃ mem es s, exec next es (start mem b.cap b.cap_dvd) = some s ∧ s.buf = b

/-- An overflow wraps, or the read cursor has not passed its last value before the write cursor. -/
def Safe (o : Overflow) (b : Cursors.Buffer) : Prop := o = .wraps ∨ b.read ≤ b.write

variable {o : Overflow} {b : Cursors.Buffer} {s t : Logs} {inMain : Bool} {serial : List UInt8}

theorem piece_lt (h : length b ≤ b.cap.toNat) : piece b < 2^32 := by
  have hcap := cap_le b
  have hle : piece b ≤ length b := min_le_left _ _
  omega

theorem toNat_piece (h : length b ≤ b.cap.toNat) : (UInt32.ofNat (piece b)).toNat = piece b := by
  have hlt := piece_lt h
  rw [UInt32.toNat_ofNat']
  omega

theorem piece_pos (h : length b ≠ 0) : 0 < piece b := by
  have hlt := Nat.mod_lt b.read.toNat (cap_pos b)
  unfold piece
  omega

theorem shown_window (o : Overflow) (b : Cursors.Buffer) : b.shown o b.read b.write =
    .ok (window b.mem b.cap.toNat b.read.toNat (piece b)) := by
  have hlt := Nat.mod_lt b.read.toNat (cap_pos b)
  rw [shown_exact, window_slice]
  · rfl
  · have hle : piece b ≤ b.cap.toNat-b.read.toNat%b.cap.toNat := min_le_right _ _
    omega

theorem length_rest (h : length b ≤ b.cap.toNat) : length (rest b) = length b-piece b := by
  have hle : piece b ≤ length b := min_le_left _ _
  have hpiece := toNat_piece h
  have hr := b.read.toNat_lt
  have hw := b.write.toNat_lt
  unfold length rest at *
  dsimp only
  rw [UInt32.toNat_sub] at hle ⊢
  rw [UInt32.toNat_sub, UInt32.toNat_add, hpiece]
  omega

theorem read_rest (h : length b ≤ b.cap.toNat) :
    (rest b).read.toNat%b.cap.toNat = (b.read.toNat+piece b)%b.cap.toNat := by
  show (b.read+UInt32.ofNat (piece b)).toNat%b.cap.toNat = _
  rw [UInt32.toNat_add, toNat_piece h, Nat.mod_mod_of_dvd _ b.cap_dvd]

theorem window_congr (mem : ℕ → UInt8) {cap r r' : ℕ} (n : ℕ) (h : r%cap = r'%cap) :
    window mem cap r n = window mem cap r' n := by
  apply List.map_congr_left
  intro i _
  rw [Nat.add_mod, h, ← Nat.add_mod]

theorem pending_rest (h : length b ≤ b.cap.toNat) :
    pending b = window b.mem b.cap.toNat b.read.toNat (piece b) ++ pending (rest b) := by
  have hle : piece b ≤ length b := min_le_left _ _
  have hsum : length b = piece b+(length b-piece b) := by omega
  rw [pending, hsum, window_add, ← length_rest h]
  congr 1
  exact (window_congr b.mem _ (read_rest h)).symm

theorem needs_le (b : Cursors.Buffer) : needs b ≤ 2 := by
  unfold needs
  split_ifs <;> omega

theorem needs_rest (h : length b ≤ b.cap.toNat) (hne : length b ≠ 0) :
    needs (rest b) < needs b := by
  have hlt := Nat.mod_lt b.read.toNat (cap_pos b)
  have hrest := length_rest h
  have hread := read_rest h
  have hcap : (rest b).cap = b.cap := rfl
  unfold needs
  rw [hrest, hcap, hread, if_neg hne]
  by_cases hone : length b ≤ b.cap.toNat-b.read.toNat%b.cap.toNat
  · have hpiece : piece b = length b := min_eq_left hone
    rw [hpiece, Nat.sub_self, if_pos rfl, if_pos hone]
    decide
  · -- the second piece begins at the start of the buffer
    have hpiece : piece b = b.cap.toNat-b.read.toNat%b.cap.toNat := min_eq_right (by omega)
    have hzero : (b.read.toNat+piece b)%b.cap.toNat = 0 := by
      rw [← Nat.mod_add_mod, hpiece, Nat.add_sub_cancel' (Nat.le_of_lt hlt), Nat.mod_self]
    rw [hzero, if_neg hone, Nat.sub_zero]
    split_ifs <;> omega

theorem window_ne_nil (h : length b ≠ 0) :
    window b.mem b.cap.toNat b.read.toNat (piece b) ≠ [] := by
  have hpos := piece_pos h
  intro hnil
  have hlen := window_length b.mem b.cap.toNat b.read.toNat (piece b)
  rw [hnil] at hlen
  exact absurd hlen (Nat.ne_of_lt hpos)

theorem peek_empty (h : length b = 0) (f : Option Closure) (serial : List UInt8) :
    Buffer.peek o b f serial = .ok (b, f, serial) := by
  have hpiece : piece b = 0 := by
    rw [piece, h, Nat.zero_min]
  rw [Buffer.peek, shown_window, hpiece]
  rfl

theorem peek_taken (h : length b ≠ 0) (serial : List UInt8) :
    Buffer.peek o b none serial = .ok (b, none, serial) := by
  rw [Buffer.peek, shown_window]
  exact if_neg (window_ne_nil h)

theorem peek_shows (h : length b ≠ 0) (serial : List UInt8) :
    Buffer.peek o b (some transmit) serial =
      (add o b.read (UInt32.ofNat (piece b))).map fun read => ({ b with read := read }, none,
        serial ++ window b.mem b.cap.toNat b.read.toNat (piece b)) := by
  have hmin : min (UInt32.ofNat (piece b)) (UInt32.ofNat (piece b)) = UInt32.ofNat (piece b) := by
    apply UInt32.toNat.inj
    rw [toNat_min, Nat.min_self]
  rw [Buffer.peek, shown_window]
  refine (if_neg (window_ne_nil h)).trans ?_
  rw [transmit, Buffer.advance, window_length, hmin]
  rcases add o b.read (UInt32.ofNat (piece b)) with stop | read
  · rfl
  · rfl

theorem safe_piece (hb : length b ≤ b.cap.toNat) (hs : Safe o b) :
    add o b.read (UInt32.ofNat (piece b)) = .ok (rest b).read ∧ Safe o (rest b) := by
  rcases hs with rfl | hle
  · exact ⟨rfl, .inl rfl⟩
  · have hlen : length b = b.write.toNat-b.read.toNat := UInt32.toNat_sub_of_le _ _ hle
    have hle' := UInt32.le_iff_toNat_le.mp hle
    have hpiece : piece b ≤ length b := min_le_left _ _
    have hw := b.write.toNat_lt
    have hnat := toNat_piece hb
    obtain ⟨read, hadd, hsum⟩ := add_exact (o := o) b.read (UInt32.ofNat (piece b)) (by omega)
    have hread : read = (rest b).read := by
      apply UInt32.toNat.inj
      show _ = (b.read+UInt32.ofNat (piece b)).toNat
      rw [UInt32.toNat_add, hsum]
      omega
    refine ⟨hread ▸ hadd, .inr ?_⟩
    rw [← hread, UInt32.le_iff_toNat_le, hsum, hnat]
    show _ ≤ b.write.toNat
    omega

/-- Everything has been transmitted, and both buffers are empty. -/
structure Drained (s t : Logs) : Prop where
  serial : t.serial = s.serial ++ pending s.l1 ++ pending s.l0
  l0 : t.l0 = { s.l0 with read := s.l0.write }
  l1 : t.l1 = { s.l1 with read := s.l1.write }

theorem empty_iff (b : Cursors.Buffer) : length b = 0 ↔ b.read = b.write := by
  constructor
  · intro h
    have hzero : b.write-b.read = 0 := UInt32.toNat.inj h
    rw [← UInt32.sub_add_cancel b.write b.read, hzero, UInt32.zero_add]
  · intro h
    rw [length, h, UInt32.sub_self]
    rfl

theorem pending_empty (h : length b = 0) : pending b = [] := by
  rw [pending, h]
  rfl

/-- The logs after a round that shows a piece of `L1`. -/
def shownL1 (s : Logs) : Logs := { s with
  l1 := rest s.l1
  serial := s.serial ++ window s.l1.mem s.l1.cap.toNat s.l1.read.toNat (piece s.l1) }

def shownL0 (s : Logs) : Logs := { s with
  l0 := rest s.l0
  serial := s.serial ++ window s.l0.mem s.l0.cap.toNat s.l0.read.toNat (piece s.l0) }

theorem peek_l1 (h : length s.l1 ≠ 0) (hb : length s.l1 ≤ s.l1.cap.toNat) (hs : Safe o s.l1) :
    peek o true inMain transmit s = .ok (shownL1 s) := by
  have hl0 : ∀ serial, Buffer.peek o s.l0 none serial = .ok (s.l0, none, serial) := by
    intro serial
    by_cases hzero : length s.l0 = 0
    · exact peek_empty hzero none serial
    · exact peek_taken hzero serial
  rw [peek, Bool.true_or, if_pos rfl, peek_shows h, (safe_piece hb hs).1]
  show (Buffer.peek o s.l0 none _ >>= _) = _
  rw [hl0]
  rfl

theorem peek_l0 (h1 : length s.l1 = 0) (h : length s.l0 ≠ 0) (hb : length s.l0 ≤ s.l0.cap.toNat)
    (hs : Safe o s.l0) : peek o true inMain transmit s = .ok (shownL0 s) := by
  rw [peek, Bool.true_or, if_pos rfl, peek_empty h1]
  show (Buffer.peek o s.l0 (some transmit) s.serial >>= _) = _
  rw [peek_shows h, (safe_piece hb hs).1]
  rfl

theorem peek_none (h1 : length s.l1 = 0) (h0 : length s.l0 = 0) :
    peek o true inMain transmit s = .ok s := by
  rw [peek, Bool.true_or, if_pos rfl, peek_empty h1]
  show (Buffer.peek o s.l0 (some transmit) s.serial >>= _) = _
  rw [peek_empty h0]
  rfl

theorem rounds_step (h : peek o true inMain transmit s = .ok t) (n : ℕ) :
    rounds o inMain (n+1) s = rounds o inMain n t := by
  rw [rounds, h]
  rfl

theorem drained_l1 (hb : length s.l1 ≤ s.l1.cap.toNat) (h : Drained (shownL1 s) t) :
    Drained s t := by
  refine ⟨?_, h.l0, h.l1⟩
  rw [h.serial, pending_rest hb]
  simp [shownL1]

theorem drained_l0 (h1 : length s.l1 = 0) (hb : length s.l0 ≤ s.l0.cap.toNat)
    (h : Drained (shownL0 s) t) : Drained s t := by
  refine ⟨?_, h.l0, h.l1⟩
  have hpending : pending (shownL0 s).l1 = [] := pending_empty h1
  rw [h.serial, hpending, pending_empty h1, pending_rest hb]
  simp [shownL0]

theorem needs_zero (h : needs b = 0) : length b = 0 := by
  unfold needs at h
  split_ifs at h with hlen
  exact hlen

theorem read_empty (h : length b = 0) : b = { b with read := b.write } :=
  congrArg (fun read => ({ b with read := read } : Cursors.Buffer)) ((empty_iff b).mp h)

theorem drained_self (h1 : length s.l1 = 0) (h0 : length s.l0 = 0) : Drained s s := by
  refine ⟨?_, read_empty h0, read_empty h1⟩
  rw [pending_empty h1, pending_empty h0, List.append_nil, List.append_nil]

theorem rounds_drain (n : ℕ) (s : Logs) (hb0 : length s.l0 ≤ s.l0.cap.toNat)
    (hb1 : length s.l1 ≤ s.l1.cap.toNat) (hs0 : Safe o s.l0) (hs1 : Safe o s.l1)
    (hn : needs s.l1+needs s.l0 ≤ n) : ∃ t, rounds o inMain n s = .ok t ∧ Drained s t := by
  induction n generalizing s with
  | zero => exact ⟨s, rfl, drained_self (needs_zero (by omega)) (needs_zero (by omega))⟩
  | succ n ih =>
    by_cases h1 : length s.l1 = 0
    · by_cases h0 : length s.l0 = 0
      · have hneeds : needs s.l1+needs s.l0 ≤ n := by
          rw [needs, needs, if_pos h1, if_pos h0]
          exact Nat.zero_le n
        rw [rounds_step (peek_none h1 h0)]
        exact ih s hb0 hb1 hs0 hs1 hneeds
      · have hneeds := needs_rest hb0 h0
        have hlen := length_rest hb0
        have hbound : length (rest s.l0) ≤ s.l0.cap.toNat := by omega
        have hrounds : needs s.l1+needs (rest s.l0) ≤ n := by omega
        obtain ⟨t, ht, hd⟩ := ih (shownL0 s) hbound hb1 (safe_piece hb0 hs0).2 hs1 hrounds
        rw [rounds_step (peek_l0 h1 h0 hb0 hs0)]
        exact ⟨t, ht, drained_l0 h1 hb0 hd⟩
    · have hneeds := needs_rest hb1 h1
      have hlen := length_rest hb1
      have hbound : length (rest s.l1) ≤ s.l1.cap.toNat := by omega
      have hrounds : needs (rest s.l1)+needs s.l0 ≤ n := by omega
      obtain ⟨t, ht, hd⟩ := ih (shownL1 s) hb0 hbound hs0 (safe_piece hb1 hs1).2 hrounds
      rw [rounds_step (peek_l1 h1 hb1 hs1)]
      exact ⟨t, ht, drained_l1 hb1 hd⟩

theorem possible_bounded (h : Possible b o) : length b ≤ b.cap.toNat := by
  cases o with
  | wraps => exact h
  | panics =>
    obtain ⟨mem, es, s, hrun, rfl⟩ := h
    exact (exec_invariant (fun _ _ _ hi hn => inv_next hi hn) es (inv_start _ _ _) hrun).bounded

theorem possible_safe (h : Possible b o) : Safe o b := by
  cases o with
  | wraps => exact .inl rfl
  | panics =>
    obtain ⟨mem, es, s, hrun, rfl⟩ := h
    have hinv := exec_invariant (fun _ _ _ hi hn => inv_next hi hn) es (inv_start _ _ _) hrun
    exact .inr (UInt32.le_iff_toNat_le.mpr hinv.order)

/-- The four rounds transmit what is pending, `L1` first, whatever the state of the buffers. -/
theorem drains (o : Overflow) (inMain : Bool) (s : Logs) (h0 : Possible s.l0 o)
    (h1 : Possible s.l1 o) : ∃ t, memlogFlush o inMain s = .ok t ∧ Drained s t := by
  have hneeds1 := needs_le s.l1
  have hneeds0 := needs_le s.l0
  apply rounds_drain 4 s (possible_bounded h0) (possible_bounded h1) (possible_safe h0)
    (possible_safe h1)
  omega

def twice : List CursorRuns.Event :=
  [.push ⟨[1, 2, 3, 4, 5, 6], by decide⟩, .loadRead true, .loadWrite, .enter, .finish 6, .store,
    .push ⟨[11, 12, 13, 14, 15, 16, 17, 18], by decide⟩]

/-- The last two bytes of a buffer of eight, and its first six. -/
def split : Cursors.Buffer :=
  ((exec next twice (start (fun _ => 0) 8 ⟨2^29, by decide⟩)).get (by decide)).buf

theorem drains_split : split.read = 6 ∧ split.write = 14 ∧
    ∃ t, memlogFlush .panics true ⟨split, split, []⟩ = .ok t ∧ Drained ⟨split, split, []⟩ t := by
  have hsplit : Possible split .panics := ⟨fun _ => 0, twice, _, (Option.some_get _).symm, rfl⟩
  exact ⟨by decide, by decide, drains .panics true ⟨split, split, []⟩ hsplit hsplit⟩

end UsbArmory.Memlog.Flushing
