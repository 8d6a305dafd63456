import UsbArmory.Library.Ring
import UsbArmory.Library.Run

/-!
# The in-memory logger

`Buffer::push` and `Buffer::peek` with unbounded cursors. A push comes from an
interrupt and runs to its end wherever it strikes; a peek is one step for each
load, for the closure's start, for every byte the closure looks at, for its
return and for the store. Bytes beyond `cap` belong to other data. The
histories `consumed`, `pushed` and `copies` are not part of the program.
-/

set_option autoImplicit false

namespace UsbArmory.Memlog.CircularBuffer
open UsbArmory.Library.Ring UsbArmory.Library.Run

structure Buffer where
  mem : ℕ → UInt8
  cap : ℕ
  read : ℕ
  write : ℕ

/-- `ptr::copy_nonoverlapping` of `bytes` to `bufferp.add(dst)`. -/
structure Copy where
  dst : ℕ
  bytes : List UInt8

def Copy.apply (mem : ℕ → UInt8) (copy : Copy) : ℕ → UInt8 := blit mem copy.dst copy.bytes

/-- The copies of `push`: a split memcpy on wrap-around, else a single one. -/
def copies (cap write : ℕ) (bytes : List UInt8) : List Copy :=
  let cursor := write % cap
  let n := bytes.length
  if cursor + n > cap then
    let pivot := cursor + n - cap
    [⟨cursor, bytes.take pivot⟩, ⟨0, bytes.drop pivot⟩]
  else [⟨cursor, bytes⟩]

/-- `none` where the assertion that the message fits fails. -/
def push (b : Buffer) (bytes : List UInt8) : Option Buffer :=
  if bytes.length ≤ b.read + b.cap - b.write then
    some { b with
      mem := (copies b.cap b.write bytes).foldl Copy.apply b.mem
      write := b.write + bytes.length }
  else none

/-- Where `peek` is: `f` says whether the closure has not been taken yet. In
the closure, `looks` are the indices and bytes it has read so far. -/
inductive Peek where
  | idle
  | loadWrite (f : Bool) (read : ℕ)
  | loaded (f : Bool) (read write : ℕ)
  | closure (read : ℕ) (shown : List UInt8) (looks : List (ℕ × UInt8))
  | store (read bytesRead : ℕ) (shown : List UInt8)

structure State where
  buf : Buffer
  peek : Peek
  consumed : List UInt8
  pushed : List UInt8
  copies : List Copy

inductive Event where
  | push (bytes : List UInt8)
  | loadRead (f : Bool)
  | loadWrite
  | enter
  | look (j : ℕ)
  | finish (bytesRead : ℕ)
  | store

/-- The part of the pending bytes that `peek` shows. -/
def shownLength (cap read write : ℕ) : ℕ := min (write-read) (cap - read % cap)

def slice (mem : ℕ → UInt8) (cursor n : ℕ) : List UInt8 :=
  (List.range n).map fun i => mem (cursor+i)

def start (b : Buffer) : State :=
  { buf := b, peek := .idle, consumed := [], pushed := [], copies := [] }

def step (s : State) : Event → Option State
  | .push bytes => (push s.buf bytes).map fun b =>
      { s with
        buf := b
        pushed := s.pushed ++ bytes
        copies := s.copies ++ copies s.buf.cap s.buf.write bytes }
  | .loadRead f =>
    match s.peek with
    | .idle => some { s with peek := .loadWrite f s.buf.read }
    | _ => none
  | .loadWrite =>
    match s.peek with
    | .loadWrite f read => some { s with peek := .loaded f read s.buf.write }
    | _ => none
  | .enter =>
    match s.peek with
    | .loaded f read write =>
      let n := shownLength s.buf.cap read write
      if n ≠ 0 ∧ f then
        some { s with peek := .closure read (slice s.buf.mem (read % s.buf.cap) n) [] }
      else some { s with peek := .idle }
    | _ => none
  | .look j =>
    match s.peek with
    | .closure read shown looks =>
      if j < shown.length then
        some { s with
          peek := .closure read shown (looks ++ [(j, s.buf.mem (read % s.buf.cap + j))]) }
      else none
    | _ => none
  | .finish bytesRead =>
    match s.peek with
    | .closure read shown _ => some { s with peek := .store read bytesRead shown }
    | _ => none
  | .store =>
    match s.peek with
    | .store read bytesRead shown =>
      some { s with
        buf := { s.buf with read := read + min bytesRead shown.length }
        peek := .idle
        consumed := s.consumed ++ shown.take (min bytesRead shown.length) }
    | _ => none

def pending (b : Buffer) : List UInt8 := window b.mem b.cap b.read (b.write - b.read)

/-- A buffer with at most `cap` bytes pending. -/
structure WellFormed (b : Buffer) : Prop where
  cap_pos : 0 < b.cap
  read_le : b.read ≤ b.write
  write_le : b.write ≤ b.read + b.cap

/-- The copy of this message does not wrap, or wraps where the pivot
`cursor + n - cap` is the distance to the end of the buffer. -/
def SplitOk (b : Buffer) (bytes : List UInt8) : Prop :=
  let cursor := b.write % b.cap
  let n := bytes.length
  cursor + n ≤ b.cap ∨ cursor + n - b.cap = b.cap - cursor

theorem copies_inside (b : Buffer) (bytes : List UInt8) (hb : WellFormed b)
    (hs : SplitOk b bytes) :
    ∀ copy ∈ copies b.cap b.write bytes, copy.dst + copy.bytes.length ≤ b.cap := by
  have hle := hb.read_le
  unfold SplitOk at hs
  intro copy hc
  simp only [copies] at hc
  split at hc
  next hgt =>
    simp only [List.mem_cons, List.not_mem_nil, or_false] at hc
    rcases hc with rfl | rfl
    · have hlen := List.length_take_le (b.write % b.cap + bytes.length - b.cap) bytes
      show b.write % b.cap + (bytes.take _).length ≤ b.cap
      omega
    · show 0 + (bytes.drop _).length ≤ b.cap
      rw [List.length_drop]
      omega
  next hgt =>
    rw [List.mem_singleton.mp hc]
    show b.write % b.cap + bytes.length ≤ b.cap
    omega

theorem copies_writes (b : Buffer) (bytes : List UInt8) (hb : WellFormed b)
    (hf : bytes.length ≤ b.read + b.cap - b.write) (hs : SplitOk b bytes) :
    Writes b.cap b.write b.mem ((copies b.cap b.write bytes).foldl Copy.apply b.mem) bytes := by
  have hle := hb.read_le
  have hw := Nat.mod_lt b.write hb.cap_pos
  unfold SplitOk at hs
  simp only [copies]
  split
  next hgt =>
    have hp : b.write % b.cap + bytes.length - b.cap = b.cap - b.write % b.cap := by omega
    rw [hp]
    exact writes_split b.mem b.write bytes hw (by omega)
  next hgt => exact writes_straight b.mem b.write bytes (by omega)

theorem push_pending (b b' : Buffer) (bytes : List UInt8) (hb : WellFormed b)
    (hs : SplitOk b bytes) (h : push b bytes = some b') :
    WellFormed b' ∧ b'.cap = b.cap ∧ b'.read = b.read ∧ b.write ≤ b'.write ∧
      Writes b.cap b.write b.mem b'.mem bytes ∧ b.write + bytes.length ≤ b.read + b.cap ∧
      pending b' = pending b ++ bytes := by
  unfold push at h
  split at h
  next hf =>
    cases h
    have hr := hb.read_le
    have hwr := hb.write_le
    have hwrites := copies_writes b bytes hb hf hs
    have hroom : b.write + bytes.length ≤ b.read + b.cap := by omega
    refine ⟨⟨hb.cap_pos, ?_, hroom⟩, rfl, rfl, ?_, hwrites, hroom, hwrites.append hr hroom⟩
    · simp only
      omega
    · simp only
      omega
  next => cases h

end UsbArmory.Memlog.CircularBuffer
