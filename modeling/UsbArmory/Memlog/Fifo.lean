import UsbArmory.Memlog.CircularBuffer

/-!
# The logger is a FIFO

Pushes may strike anywhere in a peek. What has been consumed and what is
pending always make up the initial bytes and the pushed messages, as long as
every message that wraps splits where the pivot says. A wrapping message with
another split leaves stale bytes in the stream or writes past the buffer.
-/

set_option autoImplicit false

namespace UsbArmory.Memlog.Fifo
open UsbArmory.Library.Ring UsbArmory.Library.Run UsbArmory.Memlog.CircularBuffer

/-- What an unfinished peek holds against a buffer that only pushes change. -/
def PeekOk (b : Buffer) : Peek → Prop
  | .idle => True
  | .loadWrite _ read => read = b.read
  | .loaded _ read write => read = b.read ∧ read ≤ write ∧ write ≤ b.write
  | .closure read shown looks => read = b.read ∧ shown.length ≤ b.write - read ∧
      read % b.cap + shown.length ≤ b.cap ∧ shown = window b.mem b.cap read shown.length ∧
      ∀ look ∈ looks, shown[look.1]? = some look.2
  | .store read _ shown => read = b.read ∧ shown.length ≤ b.write - read ∧
      shown = window b.mem b.cap read shown.length

/-- The stream so far is `before`, then the pushed messages. -/
structure Invariant (before : List UInt8) (s : State) : Prop where
  wellFormed : WellFormed s.buf
  stream : s.consumed ++ pending s.buf = before ++ s.pushed
  inside : ∀ copy ∈ s.copies, copy.dst + copy.bytes.length ≤ s.buf.cap
  peek : PeekOk s.buf s.peek

def Splits (s : State) : Event → Prop
  | .push bytes => SplitOk s.buf bytes
  | _ => True

theorem fifo_start (b : Buffer) (hb : WellFormed b) : Invariant (pending b) (start b) := by
  refine ⟨hb, ?_, ?_, trivial⟩
  · simp [start]
  · simp [start]

theorem window_prefix {mem mem' : ℕ → UInt8} {cap r w : ℕ} {xs : List UInt8}
    (h : Writes cap w mem mem' xs) (hc : w + xs.length ≤ r + cap) {n : ℕ} (hn : n ≤ w-r) :
    window mem' cap r n = window mem cap r n := by
  rw [← window_take mem' cap r hn, ← window_take mem cap r hn, h.old hc]

theorem peekOk_push (b b' : Buffer) (bytes : List UInt8) (hb : WellFormed b)
    (hs : SplitOk b bytes) (h : push b bytes = some b') (p : Peek) (hp : PeekOk b p) :
    PeekOk b' p := by
  obtain ⟨-, hcap, hread, hle, hwrites, hroom, -⟩ := push_pending b b' bytes hb hs h
  cases p with
  | idle => trivial
  | loadWrite f read => exact hp.trans hread.symm
  | loaded f read write =>
    obtain ⟨hr, hrw, hw⟩ := hp
    exact ⟨hr.trans hread.symm, hrw, Nat.le_trans hw hle⟩
  | closure read shown looks =>
    obtain ⟨hr, hlen, hin, hshown, hlooks⟩ := hp
    subst hr
    refine ⟨hread.symm, ?_, ?_, ?_, hlooks⟩
    · omega
    · rwa [hcap]
    · rw [hcap, window_prefix hwrites hroom hlen]
      exact hshown
  | store read bytesRead shown =>
    obtain ⟨hr, hlen, hshown⟩ := hp
    subst hr
    refine ⟨hread.symm, ?_, ?_⟩
    · omega
    · rw [hcap, window_prefix hwrites hroom hlen]
      exact hshown

theorem fifo_push (before : List UInt8) (s t : State) (bytes : List UInt8) (hs : Invariant before s)
    (hok : SplitOk s.buf bytes) (h : step s (.push bytes) = some t) : Invariant before t := by
  obtain ⟨b, hb, rfl⟩ := Option.map_eq_some_iff.mp h
  have hpush := push_pending s.buf b bytes hs.wellFormed hok hb
  refine ⟨hpush.1, ?_, ?_, peekOk_push s.buf b bytes hs.wellFormed hok hb s.peek hs.peek⟩
  · show s.consumed ++ pending b = before ++ (s.pushed ++ bytes)
    rw [hpush.2.2.2.2.2.2, ← List.append_assoc, hs.stream, List.append_assoc]
  · intro copy hc
    show copy.dst + copy.bytes.length ≤ b.cap
    rw [hpush.2.1]
    rcases List.mem_append.mp hc with hc | hc
    · exact hs.inside copy hc
    · exact copies_inside s.buf bytes hs.wellFormed hok copy hc

theorem slice_window (b : Buffer) (hb : WellFormed b) (write : ℕ) :
    slice b.mem (b.read % b.cap) (shownLength b.cap b.read write) =
      window b.mem b.cap b.read (shownLength b.cap b.read write) := by
  have hlt := Nat.mod_lt b.read hb.cap_pos
  rw [window_slice]
  · rfl
  · unfold shownLength
    omega

theorem fifo_enter (before : List UInt8) (s t : State) (hs : Invariant before s)
    (h : step s .enter = some t) : Invariant before t := by
  simp only [step] at h
  split at h
  next f read write hpeek =>
    have hp := hs.peek
    rw [hpeek] at hp
    obtain ⟨hr, hle, hw⟩ := hp
    subst hr
    split at h
    next hn =>
      cases h
      have hlt := Nat.mod_lt s.buf.read hs.wellFormed.cap_pos
      have hslice := slice_window s.buf hs.wellFormed write
      have hlen : shownLength s.buf.cap s.buf.read write ≤ s.buf.write - s.buf.read ∧
          s.buf.read % s.buf.cap + shownLength s.buf.cap s.buf.read write ≤ s.buf.cap := by
        unfold shownLength
        omega
      refine ⟨hs.wellFormed, hs.stream, hs.inside, rfl, ?_, ?_, ?_, ?_⟩
      · rw [hslice, window_length]
        exact hlen.1
      · rw [hslice, window_length]
        exact hlen.2
      · rw [hslice, window_length]
      · intro look hl
        cases hl
    next hn =>
      cases h
      exact ⟨hs.wellFormed, hs.stream, hs.inside, trivial⟩
  next => cases h

theorem fifo_look (before : List UInt8) (s t : State) (j : ℕ) (hs : Invariant before s)
    (h : step s (.look j) = some t) : Invariant before t := by
  simp only [step] at h
  split at h
  next read shown looks hpeek =>
    have hp := hs.peek
    rw [hpeek] at hp
    obtain ⟨hr, hlen, hin, hshown, hlooks⟩ := hp
    split at h
    next hj =>
      cases h
      refine ⟨hs.wellFormed, hs.stream, hs.inside, hr, hlen, hin, hshown, ?_⟩
      intro look hl
      rcases List.mem_append.mp hl with hl | hl
      · exact hlooks look hl
      · rw [List.mem_singleton.mp hl]
        show shown[j]? = some (s.buf.mem (read % s.buf.cap + j))
        rw [hshown, window_slice s.buf.mem hin]
        simp [hj]
    next => cases h
  next => cases h

theorem fifo_store (before : List UInt8) (s t : State) (hs : Invariant before s)
    (h : step s .store = some t) : Invariant before t := by
  simp only [step] at h
  split at h
  next read bytesRead shown hpeek =>
    have hp := hs.peek
    rw [hpeek] at hp
    obtain ⟨hr, hlen, hshown⟩ := hp
    subst hr
    cases h
    have hle := hs.wellFormed.read_le
    have hw := hs.wellFormed.write_le
    have hmin := Nat.min_le_right bytesRead shown.length
    generalize min bytesRead shown.length = k at hmin ⊢
    have htake : shown.take k = window s.buf.mem s.buf.cap s.buf.read k := by
      rw [hshown, window_take _ _ _ hmin]
    have hpend : pending s.buf = shown.take k ++
        window s.buf.mem s.buf.cap (s.buf.read + k) (s.buf.write - (s.buf.read + k)) := by
      rw [htake, ← window_add, pending]
      congr 1
      omega
    refine ⟨⟨hs.wellFormed.cap_pos, ?_, ?_⟩, ?_, hs.inside, trivial⟩
    · show s.buf.read + k ≤ s.buf.write
      omega
    · show s.buf.write ≤ s.buf.read + k + s.buf.cap
      omega
    · show (s.consumed ++ shown.take k) ++
        window s.buf.mem s.buf.cap (s.buf.read + k) (s.buf.write - (s.buf.read + k)) = _
      rw [List.append_assoc, ← hpend, hs.stream]
  next => cases h

theorem fifo_step (before : List UInt8) (s : State) (e : Event) (t : State)
    (hs : Invariant before s)
    (hok : Splits s e) (h : step s e = some t) : Invariant before t := by
  cases e with
  | push bytes => exact fifo_push before s t bytes hs hok h
  | loadRead f =>
    simp only [step] at h
    split at h
    next =>
      cases h
      exact ⟨hs.wellFormed, hs.stream, hs.inside, rfl⟩
    next => cases h
  | loadWrite =>
    simp only [step] at h
    split at h
    next f read hpeek =>
      have hp := hs.peek
      rw [hpeek] at hp
      cases h
      have hle : read ≤ s.buf.write := by
        rw [hp]
        exact hs.wellFormed.read_le
      exact ⟨hs.wellFormed, hs.stream, hs.inside, hp, hle, Nat.le_refl _⟩
    next => cases h
  | enter => exact fifo_enter before s t hs h
  | look j => exact fifo_look before s t j hs h
  | finish bytesRead =>
    simp only [step] at h
    split at h
    next read shown looks hpeek =>
      have hp := hs.peek
      rw [hpeek] at hp
      cases h
      exact ⟨hs.wellFormed, hs.stream, hs.inside, hp.1, hp.2.1, hp.2.2.2.1⟩
    next => cases h
  | store => exact fifo_store before s t hs h

/-- What the logger promises of a state that started with `before` pending. -/
structure Delivers (before : List UInt8) (s : State) : Prop where
  consumed_prefix : s.consumed <+: before ++ s.pushed
  pending_rest : s.consumed ++ pending s.buf = before ++ s.pushed
  copies_inside : ∀ copy ∈ s.copies, copy.dst + copy.bytes.length ≤ s.buf.cap
  shown_inside : ∀ read shown looks, s.peek = .closure read shown looks →
    read % s.buf.cap + shown.length ≤ s.buf.cap
  looks_shown : ∀ read shown looks, s.peek = .closure read shown looks →
    ∀ look ∈ looks, shown[look.1]? = some look.2
  shown_next : ∀ read shown looks, s.peek = .closure read shown looks →
    s.consumed ++ shown <+: before ++ s.pushed

theorem Invariant.delivers {before : List UInt8} {s : State} (h : Invariant before s) :
    Delivers before s := by
  constructor
  · rw [← h.stream]
    exact List.prefix_append _ _
  · exact h.stream
  · exact h.inside
  · intro read shown looks hp
    have hpeek := h.peek
    rw [hp] at hpeek
    exact hpeek.2.2.1
  · intro read shown looks hp
    have hpeek := h.peek
    rw [hp] at hpeek
    exact hpeek.2.2.2.2
  · intro read shown looks hp
    have hpeek := h.peek
    rw [hp] at hpeek
    obtain ⟨rfl, hlen, -, hshown, -⟩ := hpeek
    rw [← h.stream, pending, ← Nat.add_sub_cancel' hlen, window_add, ← hshown]
    exact List.prefix_append_right_inj _ |>.mpr (List.prefix_append _ _)

/-- In every run whose pushes all split well, the logger loses, duplicates,
reorders and replaces nothing. -/
theorem delivers_of_splits (b : Buffer) (hb : WellFormed b) (es : List Event) (s : State)
    (hok : Along step Splits es (start b)) (h : exec step es (start b) = some s) :
    Delivers (pending b) s :=
  (exec_invariant_along (fifo_step (pending b)) es (fifo_start b hb) hok h).delivers

/-- Two bytes before the end of a buffer of eight, nothing pending. -/
def nearEnd : Buffer := { mem := fun _ => 0, cap := 8, read := 6, write := 6 }

def pushPeek (bytes : List UInt8) : List Event :=
  [.push bytes, .loadRead true, .loadWrite, .enter, .look 1, .finish 2, .store]

theorem nearEnd_wellFormed : WellFormed nearEnd := ⟨by decide, by decide, by decide⟩

theorem nearEnd_delivers : ∃ s, exec step (pushPeek [1, 2, 3, 4]) (start nearEnd) = some s ∧
    Delivers (pending nearEnd) s := by
  refine ⟨_, rfl, delivers_of_splits nearEnd nearEnd_wellFormed (pushPeek [1, 2, 3, 4]) _ ?_ rfl⟩
  exact ⟨Or.inr rfl, fun _ _ => ⟨trivial, fun _ _ => ⟨trivial, fun _ _ => ⟨trivial, fun _ _ =>
    ⟨trivial, fun _ _ => ⟨trivial, fun _ _ => ⟨trivial, fun _ _ => trivial⟩⟩⟩⟩⟩⟩⟩

/-- Three bytes split after the first: the second byte shown is stale. -/
theorem nearEnd_stale : ¬∀ (b : Buffer), WellFormed b → ∀ (es : List Event) (s : State),
    exec step es (start b) = some s → Delivers (pending b) s := by
  intro h
  have hd := h nearEnd nearEnd_wellFormed (pushPeek [1, 2, 3]) _ rfl
  exact absurd hd.consumed_prefix (by decide)

end UsbArmory.Memlog.Fifo
