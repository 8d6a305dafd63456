import UsbArmory.Memlog.Cursors

/-!
# Runs of the logger with 32-bit cursors

The cursors never wrap: the push that would take the write cursor past its last
value panics, whatever room there is. A peek never panics, since what it has
read has been written.
-/

set_option autoImplicit false

namespace UsbArmory.Memlog.CursorRuns
open UsbArmory.Library.Binary UsbArmory.Library.Word UsbArmory.Library.Run
open UsbArmory.Memlog.CircularBuffer UsbArmory.Memlog.Cursors

inductive Peek where
  | idle
  | loadWrite (f : Bool) (read : UInt32)
  | loaded (f : Bool) (read write : UInt32)
  | closure (read : UInt32) (shown : List UInt8)
  | store (read : UInt32) (shown : List UInt8) (bytesRead : UInt32)

/-- `logged` counts the bytes of all pushes. -/
structure State where
  buf : Cursors.Buffer
  peek : Peek
  logged : ℕ

inductive Event where
  | push (message : Slice)
  | loadRead (f : Bool)
  | loadWrite
  | enter
  | finish (bytesRead : UInt32)
  | store

/-- `Buffer::new` -/
def start (mem : ℕ → UInt8) (cap : UInt32) (h : cap.toNat ∣ 2^32) : State :=
  { buf := ⟨mem, cap, 0, 0, h⟩, peek := .idle, logged := 0 }

/-- `none` where the event is not enabled, and an error where the step panics. -/
def step (s : State) : Event → Option (Except (Stop Empty) State)
  | .push message => some ((s.buf.push .panics message).map fun b =>
      { s with buf := b, logged := s.logged+message.bytes.length })
  | .loadRead f =>
    match s.peek with
    | .idle => some (.ok { s with peek := .loadWrite f s.buf.read })
    | _ => none
  | .loadWrite =>
    match s.peek with
    | .loadWrite f read => some (.ok { s with peek := .loaded f read s.buf.write })
    | _ => none
  | .enter =>
    match s.peek with
    | .loaded f read write => some ((s.buf.shown .panics read write).map fun shown =>
        { s with peek := if shown ≠ [] ∧ f then .closure read shown else .idle })
    | _ => none
  | .finish bytesRead =>
    match s.peek with
    | .closure read shown => some (.ok { s with peek := .store read shown bytesRead })
    | _ => none
  | .store =>
    match s.peek with
    | .store read shown bytesRead =>
      some ((s.buf.advance .panics read shown bytesRead).map fun b =>
        { s with buf := b, peek := .idle })
    | _ => none

/-- A panic ends the run. -/
def next (s : State) (e : Event) : Option State :=
  match step s e with
  | some (.ok t) => some t
  | _ => none

/-- The bytes logged and not read, as the code counts them. -/
def pendingLength (s : State) : ℕ := (s.buf.write-s.buf.read).toNat

def Fits (s : State) (message : Slice) : Prop :=
  message.bytes.length ≤ s.buf.cap.toNat-pendingLength s

def Bounded (s : State) : Prop := pendingLength s ≤ s.buf.cap.toNat

/-- The cursors are in bounds, and the step panics only on a push that does not fit. -/
structure Calm (s : State) (e : Event) : Prop where
  bounded : Bounded s
  push : ∀ message stop, e = .push message → step s e = some (.error stop) → ¬Fits s message
  peek : ∀ stop, (∀ message, e ≠ .push message) → step s e ≠ some (.error stop)

/-- A message that fits is within the first 4 GiB that are logged. -/
def Early (s : State) (e : Event) : Prop :=
  ∀ message, e = .push message → Fits s message → s.logged+message.bytes.length < 2^32

def PeekOk (b : Cursors.Buffer) : Peek → Prop
  | .idle => True
  | .loadWrite _ read => read = b.read
  | .loaded _ read write => read = b.read ∧ read.toNat ≤ write.toNat ∧
      write.toNat ≤ b.write.toNat
  | .closure read shown => read = b.read ∧ shown.length ≤ b.write.toNat-read.toNat
  | .store read shown _ => read = b.read ∧ shown.length ≤ b.write.toNat-read.toNat

/-- The cursors are those of the logger with unbounded ones. -/
structure Inv (s : State) : Prop where
  order : s.buf.read.toNat ≤ s.buf.write.toNat
  room : s.buf.write.toNat ≤ s.buf.read.toNat+s.buf.cap.toNat
  logged : s.logged = s.buf.write.toNat
  peek : PeekOk s.buf s.peek

variable {s t : State} {e : Event}

theorem Inv.pending (h : Inv s) : pendingLength s = s.buf.write.toNat-s.buf.read.toNat :=
  UInt32.toNat_sub_of_le _ _ (UInt32.le_iff_toNat_le.mpr h.order)

theorem Inv.bounded (h : Inv s) : Bounded s := by
  have hroom := h.room
  rw [Bounded, h.pending]
  omega

theorem fits_iff (h : Bounded s) (message : Slice) : s.buf.fits message ↔ Fits s message := by
  rw [Buffer.fits, UInt32.le_iff_toNat_le, toNat_free h, len_toNat, Fits, pendingLength]

theorem inv_start (mem : ℕ → UInt8) (cap : UInt32) (h : cap.toNat ∣ 2^32) :
    Inv (start mem cap h) := by
  refine ⟨Nat.le_refl _, ?_, rfl, trivial⟩
  exact Nat.zero_le _

theorem peekOk_write {b b' : Cursors.Buffer} {p : Peek} (h : PeekOk b p)
    (hread : b'.read = b.read) (hwrite : b.write.toNat ≤ b'.write.toNat) : PeekOk b' p := by
  cases p with
  | idle => trivial
  | loadWrite f read => exact h.trans hread.symm
  | loaded f read write => exact ⟨h.1.trans hread.symm, h.2.1, Nat.le_trans h.2.2 hwrite⟩
  | closure read shown =>
    exact ⟨h.1.trans hread.symm, Nat.le_trans h.2 (Nat.sub_le_sub_right hwrite _)⟩
  | store read shown bytesRead =>
    exact ⟨h.1.trans hread.symm, Nat.le_trans h.2 (Nat.sub_le_sub_right hwrite _)⟩

theorem shown_exact {b : Cursors.Buffer} {o : Overflow} (read write : UInt32) :
    b.shown o read write = .ok (slice b.mem (read.toNat%b.cap.toNat)
      (min (write-read).toNat (b.cap.toNat-read.toNat%b.cap.toNat))) := by
  have hlt := Nat.mod_lt read.toNat (cap_pos b)
  have hcursor := toNat_cursor b read
  obtain ⟨hrest, hdiff⟩ := sub_exact (o := o) (a := b.cap) (c := read%b.cap) (by omega)
  rw [Buffer.shown, hrest]
  show Except.ok _ = _
  rw [toNat_min, hdiff, hcursor]

theorem advance_exact {b : Cursors.Buffer} {o : Overflow} (read : UInt32) (shown : List UInt8)
    (bytesRead : UInt32) (hlen : shown.length < 2^32) (h : read.toNat+shown.length < 2^32) :
    ∃ r, b.advance o read shown bytesRead = .ok { b with read := r } ∧
      r.toNat = read.toNat+min bytesRead.toNat shown.length := by
  have hshown : (UInt32.ofNat shown.length).toNat = shown.length := by
    rw [UInt32.toNat_ofNat']
    omega
  have hmin := toNat_min bytesRead (UInt32.ofNat shown.length)
  rw [hshown] at hmin
  obtain ⟨r, hr, hsum⟩ := add_exact (o := o) read (min bytesRead (UInt32.ofNat shown.length))
    (by omega)
  refine ⟨r, ?_, by rw [hsum, hmin]⟩
  rw [Buffer.advance, hr]
  rfl

theorem push_taken (h : Bounded s) {message : Slice} (hfits : Fits s message)
    (hlow : s.buf.write.toNat+message.bytes.length < 2^32) :
    ∃ b, step s (.push message) =
        some (.ok { s with buf := b, logged := s.logged+message.bytes.length }) ∧
      b.cap = s.buf.cap ∧ b.read = s.buf.read ∧
      b.write.toNat = s.buf.write.toNat+message.bytes.length := by
  have hlen := len_toNat message
  obtain ⟨write, hadd, hsum⟩ := add_exact (o := .panics) s.buf.write message.len (by omega)
  rcases push_cases (o := .panics) h message with ⟨hnot, -⟩ | ⟨-, hpush⟩
  · exact absurd ((fits_iff h message).mpr hfits) hnot
  · rw [hlen] at hsum
    rw [step, hpush, hadd]
    exact ⟨_, rfl, rfl, rfl, hsum⟩

/-- A push: the message does not fit, or it ends behind the last value of the cursor, or it is
taken. -/
theorem push_step (h : Inv s) (message : Slice) :
    (¬Fits s message ∧ ∃ stop, step s (.push message) = some (.error stop)) ∨
    (Fits s message ∧ 2^32 ≤ s.logged+message.bytes.length ∧
      ∃ stop, step s (.push message) = some (.error stop)) ∨
    (Fits s message ∧ s.logged+message.bytes.length < 2^32 ∧
      ∃ t, step s (.push message) = some (.ok t) ∧ Inv t) := by
  have hlen := len_toNat message
  rcases push_cases (o := .panics) h.bounded message with ⟨hnot, text, hpush⟩ | ⟨hfits, hpush⟩
  · rw [step, hpush]
    exact .inl ⟨fun hfits => hnot ((fits_iff h.bounded message).mpr hfits), _, rfl⟩
  · have hfits' := (fits_iff h.bounded message).mp hfits
    refine .inr ?_
    rw [h.logged]
    by_cases hlow : s.buf.write.toNat+message.bytes.length < 2^32
    · obtain ⟨b, hstep, hcap, hread, hwrite⟩ := push_taken h.bounded hfits' hlow
      have horder := h.order
      have hroom := h.room
      rw [Fits, h.pending] at hfits'
      refine .inr ⟨(fits_iff h.bounded message).mp hfits, hlow, _, hstep, ?_⟩
      have hmore : s.buf.write.toNat ≤ b.write.toNat := by omega
      refine ⟨?_, ?_, ?_, peekOk_write h.peek hread hmore⟩
      · show b.read.toNat ≤ b.write.toNat
        rw [hread]
        omega
      · show b.write.toNat ≤ b.read.toNat+b.cap.toNat
        rw [hread, hcap]
        omega
      · show s.logged+message.bytes.length = b.write.toNat
        rw [h.logged, hwrite]
    · have hover : 2^32 ≤ s.buf.write.toNat+message.len.toNat := by omega
      rw [step, hpush, add_overflow hover]
      exact .inl ⟨hfits', by omega, _, rfl⟩

theorem slice_length (mem : ℕ → UInt8) (cursor n : ℕ) : (slice mem cursor n).length = n := by
  simp [slice]

theorem peek_step (h : Inv s) (he : ∀ message, e ≠ .push message) :
    step s e = none ∨ ∃ t, step s e = some (.ok t) ∧ Inv t := by
  have hpeek := h.peek
  cases e with
  | push message => exact absurd rfl (he message)
  | loadRead f =>
    simp only [step]
    split
    next => exact .inr ⟨_, rfl, h.order, h.room, h.logged, rfl⟩
    next => exact .inl rfl
  | loadWrite =>
    simp only [step]
    split
    next f read heq =>
      rw [heq] at hpeek
      refine .inr ⟨_, rfl, h.order, h.room, h.logged, hpeek, ?_, Nat.le_refl _⟩
      rw [hpeek]
      exact h.order
    next => exact .inl rfl
  | enter =>
    simp only [step]
    split
    next f read write heq =>
      rw [heq] at hpeek
      obtain ⟨hread, hle, hwrite⟩ := hpeek
      have hpending : (write-read).toNat = write.toNat-read.toNat :=
        UInt32.toNat_sub_of_le _ _ (UInt32.le_iff_toNat_le.mpr hle)
      rw [shown_exact]
      refine .inr ⟨_, rfl, h.order, h.room, h.logged, ?_⟩
      dsimp only
      split
      · refine ⟨hread, ?_⟩
        rw [slice_length]
        omega
      · trivial
    next => exact .inl rfl
  | finish bytesRead =>
    simp only [step]
    split
    next read shown heq =>
      rw [heq] at hpeek
      exact .inr ⟨_, rfl, h.order, h.room, h.logged, hpeek⟩
    next => exact .inl rfl
  | store =>
    simp only [step]
    split
    next read shown bytesRead heq =>
      rw [heq] at hpeek
      obtain ⟨hread, hlen⟩ := hpeek
      have horder := h.order
      have hroom := h.room
      have hlt := s.buf.write.toNat_lt
      subst hread
      obtain ⟨r, hrun, hsum⟩ := advance_exact (b := s.buf) (o := .panics) s.buf.read shown
        bytesRead (by omega) (by omega)
      rw [hrun]
      refine .inr ⟨_, rfl, ?_, ?_, h.logged, trivial⟩
      · show r.toNat ≤ s.buf.write.toNat
        omega
      · show s.buf.write.toNat ≤ r.toNat+s.buf.cap.toNat
        omega
    next => exact .inl rfl

theorem inv_next (h : Inv s) (hn : next s e = some t) : Inv t := by
  unfold next at hn
  have hok : ∀ t', step s e = some (.ok t') → t' = t := by
    intro t' ht'
    rw [ht'] at hn
    exact Option.some.inj hn
  have hstop : ∀ stop, step s e ≠ some (.error stop) := by
    intro stop hs
    rw [hs] at hn
    cases hn
  by_cases he : ∃ message, e = .push message
  · obtain ⟨message, rfl⟩ := he
    rcases push_step h message with ⟨-, stop, hs⟩ | ⟨-, -, stop, hs⟩ | ⟨-, -, t', ht', hinv⟩
    · exact absurd hs (hstop stop)
    · exact absurd hs (hstop stop)
    · exact hok t' ht' ▸ hinv
  · rcases peek_step h fun message heq => he ⟨message, heq⟩ with hnone | ⟨t', ht', hinv⟩
    · rw [hnone] at hn
      cases hn
    · exact hok t' ht' ▸ hinv

theorem calm_iff (h : Inv s) (e : Event) : Calm s e ↔ Early s e := by
  constructor
  · rintro hc message rfl hfits
    rcases push_step h message with ⟨hnot, -⟩ | ⟨-, -, stop, hs⟩ | ⟨-, hlow, -⟩
    · exact absurd hfits hnot
    · exact absurd hfits (hc.push message stop rfl hs)
    · exact hlow
  · intro hearly
    refine ⟨h.bounded, ?_, fun stop he hs => ?_⟩
    · rintro message stop rfl hs hfits
      have hlow := hearly message rfl hfits
      rcases push_step h message with ⟨hnot, -⟩ | ⟨-, hhigh, -⟩ | ⟨-, -, t', ht', -⟩
      · exact hnot hfits
      · omega
      · rw [hs] at ht'
        cases ht'
    · rcases peek_step h he with hnone | ⟨t', ht', -⟩
      · rw [hs] at hnone
        cases hnone
      · rw [hs] at ht'
        cases ht'

/-- Whatever is pushed and peeked, the cursors stay in bounds and only a push that does not fit
panics, exactly as long as no message that fits ends behind the first 4 GiB. -/
theorem cursors_survive_iff (mem : ℕ → UInt8) (cap : UInt32) (h : cap.toNat ∣ 2^32)
    (es : List Event) :
    (Along next Calm es (start mem cap h) ∧
      ∀ s, exec next es (start mem cap h) = some s → Bounded s) ↔
    Along next Early es (start mem cap h) := by
  have h0 := inv_start mem cap h
  constructor
  · rintro ⟨hcalm, -⟩
    exact along_of_invariant (fun _ _ _ hs _ hn => inv_next hs hn)
      (fun _ e hs hc => (calm_iff hs e).mp hc) es h0 hcalm
  · intro hearly
    refine ⟨along_of_invariant (fun _ _ _ hs _ hn => inv_next hs hn)
      (fun _ e hs hc => (calm_iff hs e).mpr hc) es h0 hearly, fun s hs => ?_⟩
    exact (exec_invariant (fun _ _ _ hi hn => inv_next hi hn) es h0 hs).bounded

def page : Slice := ⟨List.replicate 8192 0, by rw [List.length_replicate]; decide⟩

theorem page_length : page.bytes.length = 8192 := List.length_replicate

theorem page_dvd : (8192 : UInt32).toNat ∣ 2^32 := ⟨2^19, by decide⟩

theorem survives_page :
    Along next Calm [.push page] (start (fun _ => 0) 8192 page_dvd) ∧
      ∀ s, exec next [.push page] (start (fun _ => 0) 8192 page_dvd) = some s → Bounded s := by
  refine (cursors_survive_iff (fun _ => 0) 8192 page_dvd [.push page]).mpr ⟨?_, fun _ _ => trivial⟩
  intro message heq _
  rw [← Event.push.inj heq, page_length]
  exact (by decide : 0+8192 < 2^32)

theorem next_ok (h : step s e = some (.ok t)) : next s e = some t := by
  rw [next, h]

def pageRound : List Event :=
  [.push page, .loadRead true, .loadWrite, .enter, .finish 8192, .store]

def pageRounds (k : ℕ) : List Event := (List.replicate k pageRound).flatten

structure AfterPages (k : ℕ) (s : State) : Prop where
  cap : s.buf.cap = 8192
  empty : s.buf.read = s.buf.write
  write : s.buf.write.toNat = 8192*k
  logged : s.logged = 8192*k
  idle : s.peek = .idle

theorem AfterPages.inv {k : ℕ} (h : AfterPages k s) : Inv s := by
  refine ⟨?_, ?_, h.logged.trans h.write.symm, by rw [h.idle]; trivial⟩
  · rw [h.empty]
  · rw [h.empty]
    exact Nat.le_add_right _ _

theorem AfterPages.fits {k : ℕ} (h : AfterPages k s) : Fits s page := by
  have hcap : s.buf.cap.toNat = 8192 := congrArg UInt32.toNat h.cap
  rw [Fits, h.inv.pending, h.empty, page_length, hcap, Nat.sub_self]

theorem peek_page (hcap : s.buf.cap = 8192) (hstart : s.buf.read.toNat%8192 = 0)
    (hpage : s.buf.write.toNat = s.buf.read.toNat+8192) (hidle : s.peek = .idle) :
    exec next [.loadRead true, .loadWrite, .enter, .finish 8192, .store] s =
      some { s with buf := { s.buf with read := s.buf.write }, peek := .idle } := by
  have hcap' : s.buf.cap.toNat = 8192 := congrArg UInt32.toNat hcap
  have hlt := s.buf.write.toNat_lt
  have hpending : (s.buf.write-s.buf.read).toNat = 8192 := by
    rw [UInt32.toNat_sub_of_le _ _ (UInt32.le_iff_toNat_le.mpr (by omega))]
    omega
  have hshown := shown_exact (b := s.buf) (o := .panics) s.buf.read s.buf.write
  rw [hpending, hcap', hstart, Nat.sub_zero, Nat.min_self] at hshown
  have hlen := slice_length s.buf.mem 0 8192
  generalize slice s.buf.mem 0 8192 = shown at hshown hlen
  have hne : shown ≠ [] := by
    rintro rfl
    cases hlen
  obtain ⟨r, hadvance, hr⟩ := advance_exact (b := s.buf) (o := .panics) s.buf.read shown 8192
    (by omega) (by omega)
  have hmin : min (8192 : UInt32).toNat 8192 = 8192 := rfl
  rw [hlen, hmin, ← hpage] at hr
  rw [UInt32.toNat.inj hr] at hadvance
  have hload : step s (.loadRead true) =
      some (.ok { s with peek := .loadWrite true s.buf.read }) := by
    rw [step, hidle]
  have henter : step { s with peek := .loaded true s.buf.read s.buf.write } .enter =
      some (.ok { s with peek := .closure s.buf.read shown }) := by
    show some ((s.buf.shown .panics s.buf.read s.buf.write).map _) = _
    rw [hshown, Except.map, if_pos ⟨hne, rfl⟩]
  have hstore : step { s with peek := .store s.buf.read shown 8192 } .store =
      some (.ok { s with buf := { s.buf with read := s.buf.write }, peek := .idle }) := by
    show some ((s.buf.advance .panics s.buf.read shown 8192).map _) = _
    rw [hadvance, Except.map]
  have hwrite : step { s with peek := .loadWrite true s.buf.read } .loadWrite =
      some (.ok { s with peek := .loaded true s.buf.read s.buf.write }) := rfl
  have hfinish : step { s with peek := .closure s.buf.read shown } (.finish 8192) =
      some (.ok { s with peek := .store s.buf.read shown 8192 }) := rfl
  rw [exec_step (next_ok hload), exec_step (next_ok hwrite), exec_step (next_ok henter),
    exec_step (next_ok hfinish), exec_step (next_ok hstore), exec]

theorem page_round {k : ℕ} (h : AfterPages k s) (hk : k+1 < 2^19) :
    ∃ t, exec next pageRound s = some t ∧ AfterPages (k+1) t := by
  have hlow : s.buf.write.toNat+page.bytes.length < 2^32 := by
    rw [h.write, page_length]
    omega
  obtain ⟨b, hpush, hcap, hread, hwrite⟩ := push_taken h.inv.bounded h.fits hlow
  rw [page_length] at hwrite
  have hstart : b.read.toNat%8192 = 0 := by
    rw [hread, h.empty, h.write]
    exact Nat.mul_mod_right _ _
  have hpage : b.write.toNat = b.read.toNat+8192 := by rw [hread, h.empty, hwrite]
  refine ⟨⟨{ b with read := b.write }, .idle, s.logged+page.bytes.length⟩, ?_,
    hcap.trans h.cap, rfl, ?_, ?_, rfl⟩
  · rw [pageRound, exec_step (next_ok hpush)]
    exact peek_page (hcap.trans h.cap) hstart hpage h.idle
  · show b.write.toNat = 8192*(k+1)
    rw [hwrite, h.write, Nat.mul_succ]
  · show s.logged+page.bytes.length = 8192*(k+1)
    rw [h.logged, page_length, Nat.mul_succ]

theorem pageRounds_run (k : ℕ) (hk : k < 2^19) (h : AfterPages 0 s) :
    ∃ t, exec next (pageRounds k) s = some t ∧ AfterPages k t := by
  induction k with
  | zero => exact ⟨s, rfl, h⟩
  | succ k ih =>
    obtain ⟨t, ht, hpages⟩ := ih (by omega)
    obtain ⟨u, hu, hnext⟩ := page_round hpages hk
    refine ⟨u, ?_, hnext⟩
    rw [pageRounds, List.replicate_succ', List.flatten_append, exec_append]
    show (exec next (pageRounds k) s).bind _ = _
    rw [ht]
    simpa using hu

/-- After `2^19-1` pages the buffer is empty, and the next page panics. -/
theorem survives_not : ∃ s, exec next (pageRounds (2^19-1))
      (start (fun _ => 0) 8192 page_dvd) = some s ∧ pendingLength s = 0 ∧ Fits s page ∧
    (∃ stop, step s (.push page) = some (.error stop)) ∧
    ¬Along next Calm (pageRounds (2^19-1) ++ [.push page])
      (start (fun _ => 0) 8192 page_dvd) := by
  have h0 : AfterPages 0 (start (fun _ => 0) 8192 page_dvd) := ⟨rfl, rfl, rfl, rfl, rfl⟩
  obtain ⟨s, hs, hpages⟩ := pageRounds_run (2^19-1) (by decide) h0
  have hlate : 2^32 ≤ s.logged+page.bytes.length := by
    rw [hpages.logged, page_length]
    decide
  refine ⟨s, hs, ?_, hpages.fits, ?_, fun hcalm => ?_⟩
  · rw [hpages.inv.pending, hpages.empty, Nat.sub_self]
  · rcases push_step hpages.inv page with ⟨hnot, -⟩ | ⟨-, -, hstop⟩ | ⟨-, hlow, -⟩
    · exact absurd hpages.fits hnot
    · exact hstop
    · omega
  · have hlast := (calm_iff hpages.inv _).mp (along_last _ hcalm hs)
    have hlow := hlast page rfl hpages.fits
    omega

end UsbArmory.Memlog.CursorRuns
