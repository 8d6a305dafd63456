import Mathlib.Order.CompletePartialOrder
import Mathlib.Order.Interval.Set.Disjoint
import UsbArmory.Library.Word

/-!
# Building an MBR partition table

`PartitionEntry` and `PartitionTable` as `storage.rs` has them. Sector
arithmetic on `u32` goes through the build's overflow mode; the extents of
the specification are natural numbers, so they never wrap.
-/

set_option autoImplicit false

namespace UsbArmory.Storage.MbrTable
open UsbArmory.Library.Word

structure PartitionEntry where
  status : UInt8
  startChs : Vector UInt8 3
  partType : UInt8
  endChs : Vector UInt8 3
  startLba : UInt32
  numSectors : UInt32
  deriving DecidableEq, Repr

def PartitionEntry.new (startLba numSectors : UInt32) : PartitionEntry :=
  { status := 0, startChs := #v[0, 0, 0], endChs := #v[0, 0, 0], partType := 0x83,
    startLba := startLba, numSectors := numSectors }

def PartitionEntry.zeroed : PartitionEntry :=
  { status := 0, startChs := #v[0, 0, 0], partType := 0, endChs := #v[0, 0, 0],
    startLba := 0, numSectors := 0 }

structure PartExtent where
  start : UInt32
  sectors : UInt32

def PartitionEntry.extent (e : PartitionEntry) : PartExtent := ⟨e.startLba, e.numSectors⟩

inductive PartError where
  | partitionCollision
  | tooManyPartitions
  deriving DecidableEq, Repr

structure PartitionTable where
  entries : Vector PartitionEntry 4
  index : ℕ
  index_le : index ≤ 4

def PartitionTable.new : PartitionTable :=
  { entries := Vector.replicate 4 .zeroed, index := 0, index_le := by decide }

def PartitionTable.asSlice (t : PartitionTable) : List PartitionEntry :=
  t.entries.toList.take t.index

/-- `none` is the overflow panic of `start_lba + num_sectors`. A successful
call writes `entries[index]` and leaves `index` alone, as the source does. -/
def PartitionTable.add (o : Overflow) (t : PartitionTable) (entry : PartitionEntry) :
    Option (Except PartError Unit × PartitionTable) := do
  let stop ← match t.asSlice.getLast? with
    | some last => o.add32 last.startLba last.numSectors
    | none => some 0
  if entry.startLba < stop then
    some (.error .partitionCollision, t)
  else if h : t.index < 4 then
    some (.ok (), { t with entries := t.entries.set t.index entry h })
  else
    some (.error .tooManyPartitions, t)

/-- A sequence of `add` calls, with the result of each. -/
def addAll (o : Overflow) : PartitionTable → List PartitionEntry →
    Option (List (Except PartError Unit) × PartitionTable)
  | t, [] => some ([], t)
  | t, e::es => do
    let (r, t) ← t.add o e
    let (rs, t) ← addAll o t es
    some (r::rs, t)

theorem asSlice_nil (t : PartitionTable) (h : t.index = 0) : t.asSlice = [] := by
  simp [PartitionTable.asSlice, h]

theorem add_at_zero (o : Overflow) (t : PartitionTable) (h : t.index = 0) (e : PartitionEntry) :
    t.add o e = some (.ok (), { t with entries := t.entries.set 0 e }) := by
  simp [PartitionTable.add, asSlice_nil t h, h]

/-- The table after the calls `es`: their last entry, or nothing. -/
def kept (es : List PartitionEntry) : PartitionTable :=
  { PartitionTable.new with
    entries := PartitionTable.new.entries.set 0 (es.getLast?.getD .zeroed) }

theorem kept_nil : kept [] = .new := rfl

theorem kept_set (es : List PartitionEntry) (e : PartitionEntry) :
    { kept es with entries := (kept es).entries.set 0 e } = kept (es++[e]) := by
  simp [kept]

theorem kept_entries (es : List PartitionEntry) :
    (kept es).entries.toList = es.getLast?.getD .zeroed::List.replicate 3 .zeroed := by
  simp [kept, PartitionTable.new, Vector.toList_set, List.replicate]

theorem addAll_kept (o : Overflow) (es fs : List PartitionEntry) :
    addAll o (kept es) fs = some (fs.map fun _ => .ok (), kept (es++fs)) := by
  induction fs generalizing es with
  | nil => simp [addAll]
  | cons f fs ih =>
    rw [addAll, add_at_zero o _ rfl, kept_set]
    simp [ih]

theorem addAll_new (o : Overflow) (es : List PartitionEntry) :
    addAll o .new es = some (es.map fun _ => .ok (), kept es) :=
  addAll_kept o [] es

/-! What the calls are for: `accepted` collects the entries that `add` took,
and each call is judged against the ones taken before it. -/

def sectorsOf (e : PartitionEntry) : Set ℕ :=
  Set.Ico e.startLba.toNat (e.startLba.toNat+e.numSectors.toNat)

def OverlapsOrPrecedes (e a : PartitionEntry) : Prop :=
  e.startLba < a.startLba ∨ ¬Disjoint (sectorsOf e) (sectorsOf a)

def Collides (accepted : List PartitionEntry) (e : PartitionEntry) : Prop :=
  ∃ a ∈ accepted, OverlapsOrPrecedes e a

structure Laid (accepted : List PartitionEntry) (t : PartitionTable) : Prop where
  present : accepted.Sublist t.entries.toList
  ordered : accepted.Pairwise fun a b => a.startLba ≤ b.startLba
  disjoint : accepted.Pairwise fun a b => Disjoint (sectorsOf a) (sectorsOf b)

/-- The result `add` owes for `e` once `accepted` has been taken. -/
def Owed (accepted : List PartitionEntry) (e : PartitionEntry) : Except PartError Unit → Prop
  | .error .partitionCollision => Collides accepted e
  | .ok () => ¬Collides accepted e ∧ accepted.length < 4
  | .error .tooManyPartitions => ¬Collides accepted e ∧ 4 ≤ accepted.length

/-- Every call of the sequence gives the owed result, leaves the table
unchanged on an error, and keeps the accepted entries laid out. -/
def Faithful (o : Overflow) : List PartitionEntry → PartitionTable → List PartitionEntry → Prop
  | accepted, t, [] => Laid accepted t
  | accepted, t, e::es => Laid accepted t ∧
    match t.add o e with
    | none => False
    | some (.ok (), t') => Owed accepted e (.ok ()) ∧ Faithful o (accepted++[e]) t' es
    | some (.error err, t') => Owed accepted e (.error err) ∧ t' = t ∧ Faithful o accepted t' es

theorem sectorsOf_zeroed : sectorsOf .zeroed = ∅ := by
  simp [sectorsOf, PartitionEntry.zeroed]

theorem collides_zeroed (accepted : List PartitionEntry) (h : ∀ a ∈ accepted, a = .zeroed) :
    ¬Collides accepted .zeroed := by
  rintro ⟨a, ha, hlt | hov⟩
  · rw [h a ha] at hlt
    exact absurd hlt (by decide)
  · rw [sectorsOf_zeroed] at hov
    exact hov (Set.empty_disjoint _)

theorem faithful_kept_cons (o : Overflow) (accepted : List PartitionEntry) (e : PartitionEntry)
    (es : List PartitionEntry) :
    Faithful o accepted (kept accepted) (e::es) ↔ Laid accepted (kept accepted) ∧
      Owed accepted e (.ok ()) ∧ Faithful o (accepted++[e]) (kept (accepted++[e])) es := by
  rw [Faithful, add_at_zero o _ rfl, kept_set]

theorem faithful_laid (o : Overflow) (accepted es : List PartitionEntry)
    (h : Faithful o accepted (kept accepted) es) :
    Laid (accepted++es) (kept (accepted++es)) := by
  induction es generalizing accepted with
  | nil => simpa [Faithful] using h
  | cons e es ih => simpa using ih _ ((faithful_kept_cons o accepted e es).mp h).2.2

theorem laid_zeroed (es : List PartitionEntry) (hn : es.length ≤ 4)
    (hz : ∀ e ∈ es, e = .zeroed) : Laid es (kept es) := by
  obtain ⟨n, rfl⟩ : ∃ n, es = List.replicate n .zeroed :=
    ⟨es.length, List.eq_replicate_of_mem hz⟩
  have hlast : (List.replicate n PartitionEntry.zeroed).getLast?.getD .zeroed = .zeroed := by
    cases n <;> simp [List.getLast?_replicate]
  refine ⟨?_, ?_, ?_⟩
  · rw [kept_entries, hlast]
    exact (List.replicate_sublist_replicate _).mpr (by simpa using hn : n ≤ 4)
  · exact List.pairwise_replicate.mpr (Or.inr UInt32.le_rfl)
  · exact List.pairwise_replicate.mpr (Or.inr (by simp [sectorsOf_zeroed]))

theorem faithful_zeroed (o : Overflow) (accepted es : List PartitionEntry)
    (hn : (accepted++es).length ≤ 4) (hz : ∀ e ∈ accepted++es, e = .zeroed) :
    Faithful o accepted (kept accepted) es := by
  have hacc : ∀ a ∈ accepted, a = .zeroed := fun a ha => hz a (by simp [ha])
  induction es generalizing accepted with
  | nil => exact laid_zeroed accepted (by simpa using hn) hacc
  | cons e es ih =>
    rw [faithful_kept_cons]
    refine ⟨laid_zeroed accepted (by simp at hn; omega) hacc, ⟨?_, ?_⟩, ?_⟩
    · rw [hz e (by simp)]
      exact collides_zeroed accepted hacc
    · simp at hn
      omega
    · exact ih (accepted++[e]) (by simpa using hn) (by simpa using hz) (by
        intro a ha
        exact hz a (by simp at ha ⊢; tauto))

theorem faithful_single (o : Overflow) (e : PartitionEntry) : Faithful o [] .new [e] := by
  rw [← kept_nil, faithful_kept_cons]
  refine ⟨⟨List.nil_sublist _, List.Pairwise.nil, List.Pairwise.nil⟩, ⟨?_, by simp⟩, ?_⟩
  · rintro ⟨a, ha, _⟩
    exact List.not_mem_nil ha
  · refine ⟨?_, List.pairwise_singleton _ _, List.pairwise_singleton _ _⟩
    simp [kept_entries]

theorem sublist_kept (es : List PartitionEntry) (h : es.Sublist (kept es).entries.toList) :
    es.length ≤ 1 ∨ es.length ≤ 4 ∧ ∀ e ∈ es, e = .zeroed := by
  rcases List.eq_nil_or_concat es with rfl | ⟨init, last, rfl⟩
  · simp
  simp only [kept_entries, List.concat_eq_append, List.getLast?_append, List.getLast?_singleton,
    Option.some_or, Option.getD_some] at h ⊢
  by_cases hz : last = .zeroed
  · right
    subst hz
    refine ⟨h.length_le, fun e he => ?_⟩
    simpa using h.subset he
  · left
    cases init with
    | nil => simp
    | cons a init =>
      have hl : last ∈ List.replicate 3 PartitionEntry.zeroed := by
        rcases List.sublist_cons_iff.mp h with hs | ⟨r, hr, hs⟩
        · exact hs.subset (by simp)
        · obtain ⟨-, rfl⟩ := List.cons.inj hr
          exact hs.subset (by simp)
      exact absurd (List.eq_of_mem_replicate hl) hz

theorem faithful_bound (o : Overflow) (es : List PartitionEntry) (h : Faithful o [] .new es) :
    es.length ≤ 1 ∨ es.length ≤ 4 ∧ ∀ e ∈ es, e = .zeroed :=
  sublist_kept es (by simpa using (faithful_laid o [] es h).present)

/-- The calls behave as owed exactly for a single entry, or for at most four
entries that are all the all-zero one. -/
theorem adds_faithful_iff (o : Overflow) (es : List PartitionEntry) :
    Faithful o [] .new es ↔
      es.length ≤ 1 ∨ es.length ≤ 4 ∧ ∀ e ∈ es, e = .zeroed := by
  constructor
  · exact faithful_bound o es
  · rintro (h | ⟨hn, hz⟩)
    · match es, h with
      | [], _ => exact ⟨List.nil_sublist _, List.Pairwise.nil, List.Pairwise.nil⟩
      | [e], _ => exact faithful_single o e
    · exact faithful_zeroed o [] es (by simpa using hn) (by simpa using hz)

/-- Two disjoint partitions added in order: the first one is gone. -/
theorem adds_forget_first : ¬Faithful .panics [] .new [.new 8 8, .new 16 8] := by
  intro h
  have hb := faithful_bound .panics _ h
  revert hb
  decide

end UsbArmory.Storage.MbrTable
