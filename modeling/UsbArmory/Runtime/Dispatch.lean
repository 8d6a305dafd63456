import UsbArmory.Library.Trace
import UsbArmory.Runtime.Interrupts

/-!
# Interrupt dispatch

`IRQ` looks for the handler of a software generated interrupt in one table and
for that of a shared peripheral interrupt in another one. What lies between the
two is taken for the second kind.
-/

set_option autoImplicit false

namespace UsbArmory.Runtime.Dispatch
open UsbArmory.Library.Binary UsbArmory.Library.Word UsbArmory.Library.Strings
open UsbArmory.Library.Numerals UsbArmory.Library.Whitespace UsbArmory.Library.Trace
open UsbArmory.Runtime.Interrupts

inductive Act where
  | acknowledge
  | enableIrq
  | disableIrq
  | call (f : Text)
  | leds (blue white : Bool)
  | endOfInterrupt (iid : UInt32)
  deriving DecidableEq

structure OutOfBounds where
  index : ℕ

/-- `[unsafe extern "C" fn(); 128]` -/
structure Spis where
  elmts : List Text
  length : elmts.length = nirqs

def sgis : List Text := (List.range 16).map fun i => "SGI".toList ++ decimal i

section Code
variable (o : Overflow) (spis : Spis) (returns : List Act → Text → Bool)

abbrev Handling (α : Type) := Traced Act OutOfBounds α

def act (a : Act) : Handling Unit := operation fun _ => (a, .ok ())

/-- A handler may run forever. -/
def call (f : Text) : Handling Unit :=
  operation fun before => (.call f, if returns before f then .ok () else .error .endless)

def fatal {α : Type} : Handling α := do
  act (.leds true true)
  throw .endless

def getUnchecked (i : ℕ) : Handling Text :=
  spis.elmts[i]?.elim (throw (.error ⟨i⟩)) pure

def iidOf (iar : UInt32) : UInt16 := (iar &&& (((1 : UInt32) <<< 10)-1)).toUInt16

def handlerOf (iid : UInt16) : Handling Text :=
  if iid < 16 then expect "index out of bounds" sgis[iid.toNat]?
  else if iid < 32+128 then do
    let i ← expect "attempt to subtract with overflow" (o.sub16 iid 32)
    getUnchecked spis i.toNat
  else do
    call returns defaultHandler
    fatal

/-- What `IRQ` does with the handler. -/
def serve (iid : UInt16) (f : Text) : Handling Unit := do
  act .enableIrq
  call returns f
  act .disableIrq
  act (.endOfInterrupt iid.toUInt32)

def irq (iar : UInt32) : Handling Unit := do
  let iar ← operation fun _ => (.acknowledge, .ok iar)
  let iid := iidOf iar
  if iid = 1023 then return
  else
    let f ← handlerOf o spis returns iid
    serve returns iid f

end Code

inductive Served (returns : List Act → Text → Bool) (f : Text) (iid : UInt16) :
    Except (Stop OutOfBounds) Unit × List Act → Prop where
  | ended (h : returns [.acknowledge, .enableIrq] f = true) : Served returns f iid
      (.ok (), [.acknowledge, .enableIrq, .call f, .disableIrq, .endOfInterrupt iid.toUInt32])
  | running (h : returns [.acknowledge, .enableIrq] f = false) : Served returns f iid
      (.error .endless, [.acknowledge, .enableIrq, .call f])

/-- The default handler is called, and the program halts if it returns. -/
inductive Halted (returns : List Act → Text → Bool) :
    Except (Stop OutOfBounds) Unit × List Act → Prop where
  | ended (h : returns [.acknowledge] defaultHandler = true) : Halted returns
      (.error .endless, [.acknowledge, .call defaultHandler, .leds true true])
  | running (h : returns [.acknowledge] defaultHandler = false) : Halted returns
      (.error .endless, [.acknowledge, .call defaultHandler])

structure Dispatched (o : Overflow) (spis : Spis) (returns : List Act → Text → Bool)
    (iar : UInt32) : Prop where
  spurious : iidOf iar = 1023 → perform (irq o spis returns iar) [] = (.ok (), [.acknowledge])
  sgi : ∀ f, sgis[(iidOf iar).toNat]? = some f →
    Served returns f (iidOf iar) (perform (irq o spis returns iar) [])
  spi : ∀ i f, (iidOf iar).toNat = 32+i → spis.elmts[i]? = some f →
    Served returns f (iidOf iar) (perform (irq o spis returns iar) [])
  other : iidOf iar ≠ 1023 → 16 ≤ iidOf iar → iidOf iar < 32 ∨ 160 ≤ iidOf iar →
    Halted returns (perform (irq o spis returns iar) [])
  inBounds : ∀ e, (perform (irq o spis returns iar) []).1 ≠ .error (.error e)

theorem Served.inBounds {returns : List Act → Text → Bool} {f : Text} {iid : UInt16}
    {run : Except (Stop OutOfBounds) Unit × List Act} (h : Served returns f iid run)
    (e : OutOfBounds) : run.1 ≠ .error (.error e) := by
  intro hout
  cases h with
  | ended => cases hout
  | running => cases hout

theorem Halted.inBounds {returns : List Act → Text → Bool}
    {run : Except (Stop OutOfBounds) Unit × List Act} (h : Halted returns run)
    (e : OutOfBounds) : run.1 ≠ .error (.error e) := by
  intro hout
  cases h with
  | ended => cases hout
  | running => cases hout

section Classes
variable {o : Overflow} {spis : Spis} {returns : List Act → Text → Bool} {iar : UInt32}

theorem irq_spurious (h : iidOf iar = 1023) :
    perform (irq o spis returns iar) [] = (.ok (), [.acknowledge]) := by
  rw [irq, perform_bind]
  show perform (if iidOf iar = 1023 then _ else _) [Act.acknowledge] = _
  rw [if_pos h]
  rfl

theorem irq_looks (h : iidOf iar ≠ 1023) : perform (irq o spis returns iar) [] =
    perform (handlerOf o spis returns (iidOf iar) >>= serve returns (iidOf iar))
      [.acknowledge] := by
  rw [irq, perform_bind]
  show perform (if iidOf iar = 1023 then _ else _) [Act.acknowledge] = _
  rw [if_neg h]

theorem call_run (returns : List Act → Text → Bool) (f : Text) (before : List Act) :
    perform (call returns f) before =
      (if returns before f then .ok () else .error .endless, before ++ [.call f]) := rfl

theorem served (iid : UInt16) (f : Text) :
    Served returns f iid (perform (serve returns iid f) [.acknowledge]) := by
  have hcall := call_run returns f [.acknowledge, .enableIrq]
  rw [serve, perform_bind]
  show Served returns f iid (perform (call returns f >>= _) [.acknowledge, .enableIrq])
  cases hreturns : returns [.acknowledge, .enableIrq] f with
  | true =>
    rw [hreturns, if_pos rfl] at hcall
    rw [perform_bind_ok hcall]
    exact .ended hreturns
  | false =>
    rw [hreturns, if_neg (by decide)] at hcall
    rw [perform_bind_error hcall]
    exact .running hreturns

theorem irq_serves (h : iidOf iar ≠ 1023) {f : Text}
    (hf : perform (handlerOf o spis returns (iidOf iar)) [.acknowledge] =
      (.ok f, [.acknowledge])) :
    Served returns f (iidOf iar) (perform (irq o spis returns iar) []) := by
  rw [irq_looks h, perform_bind_ok hf]
  exact served _ f

theorem irq_stops (h : iidOf iar ≠ 1023) {stop : Stop OutOfBounds} {acts : List Act}
    (hf : perform (handlerOf o spis returns (iidOf iar)) [.acknowledge] = (.error stop, acts)) :
    perform (irq o spis returns iar) [] = (.error stop, acts) := by
  rw [irq_looks h, perform_bind_error hf]

theorem below_iff (iid : UInt16) : (iid < 16 ↔ iid.toNat < 16) ∧
    (iid < 32+128 ↔ iid.toNat < 160) :=
  ⟨UInt16.lt_iff_toNat_lt, UInt16.lt_iff_toNat_lt⟩

theorem not_spurious {iid : UInt16} (h : iid.toNat < 1023) : iid ≠ 1023 := by
  rintro rfl
  exact Nat.lt_irrefl _ h

theorem handlerOf_spi (o : Overflow) (spis : Spis) (returns : List Act → Text → Bool)
    {iid : UInt16} (h : 16 ≤ iid.toNat) (hlt : iid.toNat < 160) : handlerOf o spis returns iid = (do
      let i ← expect "attempt to subtract with overflow" (o.sub16 iid 32)
      getUnchecked spis i.toNat) := by
  obtain ⟨hsgi, hspi⟩ := below_iff iid
  rw [handlerOf, if_neg (hsgi.not.mpr (Nat.not_lt.mpr h)), if_pos (hspi.mpr hlt)]

theorem irq_sgi (h : (iidOf iar).toNat < 16) {f : Text}
    (hf : sgis[(iidOf iar).toNat]? = some f) :
    Served returns f (iidOf iar) (perform (irq o spis returns iar) []) := by
  apply irq_serves (not_spurious (by omega))
  rw [handlerOf, if_pos ((below_iff _).1.mpr h), hf]
  rfl

theorem irq_spi {i : ℕ} (h : (iidOf iar).toNat = 32+i) {f : Text}
    (hf : spis.elmts[i]? = some f) :
    Served returns f (iidOf iar) (perform (irq o spis returns iar) []) := by
  obtain ⟨hi, -⟩ := List.getElem?_eq_some_iff.mp hf
  have hlen : spis.elmts.length = 128 := spis.length
  have hle : (32 : UInt16) ≤ iidOf iar := UInt16.le_iff_toNat_le.mpr (by
    show 32 ≤ (iidOf iar).toNat
    omega)
  have hindex : (iidOf iar-32).toNat = i := by
    rw [UInt16.toNat_sub_of_le _ _ hle, h]
    exact Nat.add_sub_cancel_left 32 i
  have hsub : o.sub16 (iidOf iar) 32 = some (iidOf iar-32) := by
    cases o with
    | panics => exact if_pos hle
    | wraps => rfl
  apply irq_serves (not_spurious (by omega))
  rw [handlerOf_spi o spis returns (by omega) (by omega), hsub]
  show perform (getUnchecked spis (iidOf iar-32).toNat) [.acknowledge] = _
  rw [hindex, getUnchecked, hf]
  rfl

theorem irq_halts (h : 160 ≤ (iidOf iar).toNat) (hne : iidOf iar ≠ 1023) :
    Halted returns (perform (irq o spis returns iar) []) := by
  obtain ⟨hsgi, hspi⟩ := below_iff (iidOf iar)
  have hcall := call_run returns defaultHandler [.acknowledge]
  have hhandler : handlerOf o spis returns (iidOf iar) =
      (do call returns defaultHandler; fatal) := by
    rw [handlerOf, if_neg (hsgi.not.mpr (by omega)), if_neg (hspi.not.mpr (by omega))]
  cases hreturns : returns [.acknowledge] defaultHandler with
  | true =>
    rw [hreturns, if_pos rfl] at hcall
    have hrun : perform (handlerOf o spis returns (iidOf iar)) [.acknowledge] =
        (.error .endless, [.acknowledge, .call defaultHandler, .leds true true]) := by
      rw [hhandler, perform_bind_ok hcall]
      rfl
    rw [irq_stops hne hrun]
    exact .ended hreturns
  | false =>
    rw [hreturns, if_neg (by decide)] at hcall
    have hrun : perform (handlerOf o spis returns (iidOf iar)) [.acknowledge] =
        (.error .endless, [.acknowledge, .call defaultHandler]) := by
      rw [hhandler, perform_bind_error hcall]
      rfl
    rw [irq_stops hne hrun]
    exact .running hreturns

/-- An ID between the two tables panics, or is looked for beyond the end of the second one. -/
theorem irq_private (o : Overflow) (spis : Spis) (returns : List Act → Text → Bool)
    (h : 16 ≤ (iidOf iar).toNat) (hlt : (iidOf iar).toNat < 32) :
    (o = .panics ∧ perform (irq o spis returns iar) [] =
      (.error (.panic "attempt to subtract with overflow"), [.acknowledge])) ∨
    (o = .wraps ∧ perform (irq o spis returns iar) [] =
      (.error (.error ⟨(iidOf iar).toNat+65504⟩), [.acknowledge])) := by
  have hne : iidOf iar ≠ 1023 := not_spurious (by omega)
  have hhandler := handlerOf_spi o spis returns h (by omega)
  cases o with
  | panics =>
    refine .inl ⟨rfl, irq_stops hne ?_⟩
    have hgt : ¬(32 : UInt16) ≤ iidOf iar := fun hle => by
      have hle' : 32 ≤ (iidOf iar).toNat := UInt16.le_iff_toNat_le.mp hle
      omega
    rw [hhandler, Overflow.sub16, if_neg hgt]
    rfl
  | wraps =>
    refine .inr ⟨rfl, irq_stops hne ?_⟩
    have hindex : (iidOf iar-32).toNat = (iidOf iar).toNat+65504 := by
      have htwo : (32 : UInt16).toNat = 32 := rfl
      rw [UInt16.toNat_sub, htwo]
      omega
    have hout : spis.elmts[(iidOf iar).toNat+65504]? = none := by
      have hlen : spis.elmts.length = 128 := spis.length
      exact List.getElem?_eq_none (by omega)
    rw [hhandler]
    show perform (getUnchecked spis (iidOf iar-32).toNat) [.acknowledge] = _
    rw [hindex, getUnchecked, hout]
    rfl

theorem iid_small (iar : UInt32) : (iidOf iar).toNat < 1024 := by
  have hand : (iar &&& (((1 : UInt32) <<< 10)-1)).toNat ≤ 1023 := by
    rw [UInt32.toNat_and]
    exact Nat.and_le_right
  rw [iidOf, UInt32.toNat_toUInt16]
  omega

theorem dispatched_iff : Dispatched o spis returns iar ↔
    ¬(16 ≤ (iidOf iar).toNat ∧ (iidOf iar).toNat < 32) := by
  have hsmall := iid_small iar
  have hle : ∀ n : UInt16, n ≤ iidOf iar ↔ n.toNat ≤ (iidOf iar).toNat :=
    fun n => UInt16.le_iff_toNat_le
  constructor
  · rintro h ⟨hlow, hhigh⟩
    rcases irq_private o spis returns hlow hhigh with ⟨-, hrun⟩ | ⟨-, hrun⟩
    · have hother := h.other (not_spurious (by omega)) ((hle 16).mpr hlow)
        (.inl (UInt16.lt_iff_toNat_lt.mpr hhigh))
      rw [hrun] at hother
      cases hother
    · exact h.inBounds _ (congrArg Prod.fst hrun)
  · intro h
    have hsgi : ∀ f, sgis[(iidOf iar).toNat]? = some f →
        Served returns f (iidOf iar) (perform (irq o spis returns iar) []) := by
      intro f hf
      obtain ⟨hi, -⟩ := List.getElem?_eq_some_iff.mp hf
      exact irq_sgi hi hf
    refine ⟨irq_spurious, hsgi, fun i f hi hf => irq_spi hi hf, ?_, ?_⟩
    · rintro hne hlow (hmid | hhigh)
      · exact absurd ⟨(hle 16).mp hlow, UInt16.lt_iff_toNat_lt.mp hmid⟩ h
      · exact irq_halts ((hle 160).mp hhigh) hne
    · intro e
      by_cases hne : iidOf iar = 1023
      · rw [irq_spurious hne]
        exact nofun
      · rcases (by omega : (iidOf iar).toNat < 16 ∨ 160 ≤ (iidOf iar).toNat ∨
            (32 ≤ (iidOf iar).toNat ∧ (iidOf iar).toNat < 160)) with hlow | hhigh | ⟨hfrom, hto⟩
        · have hlen : sgis.length = 16 := rfl
          obtain ⟨f, hf⟩ : ∃ f, sgis[(iidOf iar).toNat]? = some f :=
            ⟨_, List.getElem?_eq_getElem (by omega)⟩
          exact (irq_sgi hlow hf).inBounds e
        · exact (irq_halts hhigh hne).inBounds e
        · have hlen : spis.elmts.length = 128 := spis.length
          obtain ⟨f, hf⟩ : ∃ f, spis.elmts[(iidOf iar).toNat-32]? = some f :=
            ⟨_, List.getElem?_eq_getElem (by omega)⟩
          exact (irq_spi (by omega) hf).inBounds e

end Classes

section Agreement
variable (ids : Idents) (o : Overflow) (returns : List Act → Text → Bool)

/-- The code of a list compiles, its table is right, and with it the interrupt of a value of
`IAR` is dispatched rightly. -/
def Agrees (txt : Text) (entries : List Interrupt) (iar : UInt32) : Prop :=
  ∃ code, txt2rust ids txt = .ok code ∧ Table entries code.spis ∧
    ∃ h : Compiles ids code, Dispatched o ⟨code.spis, h.table⟩ returns iar

variable {txt : Text} {entries : List Interrupt}

/-- The table and the dispatcher agree exactly if the last entry is an interrupt, the names are
legal and differ, and the ID is in no gap between the tables. -/
theorem agrees_iff (h : entriesOf (lines (trim txt)) = .ok entries) (hnum : Numbered 32 entries)
    (hlen : entries.length = nirqs) (iar : UInt32) : Agrees ids o returns txt entries iar ↔
      LastServed entries ∧ Named ids entries ∧
        ¬(16 ≤ (iidOf iar).toNat ∧ (iidOf iar).toNat < 32) := by
  have hcompiles := compiles_iff ids h hnum hlen
  constructor
  · rintro ⟨code, hcode, ht, hc, hdispatched⟩
    obtain ⟨hnamed, hlast⟩ := hcompiles.mp ⟨code, hcode, hc, ht⟩
    exact ⟨hlast, hnamed, dispatched_iff.mp hdispatched⟩
  · rintro ⟨hlast, hnamed, hid⟩
    obtain ⟨code, hcode, hc, ht⟩ := hcompiles.mpr ⟨hnamed, hlast⟩
    exact ⟨code, hcode, ht, hc, dispatched_iff.mpr hid⟩

end Agreement

def keywords : List String :=
  ["abstract", "as", "async", "await", "become", "box", "break", "const", "continue", "crate",
    "do", "dyn", "else", "enum", "extern", "false", "final", "fn", "for", "if", "impl", "in",
    "let", "loop", "macro", "match", "mod", "move", "mut", "override", "priv", "pub", "ref",
    "return", "Self", "self", "static", "struct", "super", "trait", "true", "try", "type",
    "typeof", "unsafe", "unsized", "use", "virtual", "where", "while", "yield"]

def isWord (name : Text) : Bool :=
  name.all (fun c => c.isAlphanum || c == '_') && !name.head?.any Char.isDigit && !name.isEmpty

def ascii : Idents where
  accepts := isWord
  message name := "\"" ++ String.ofList name ++ "\" is not a valid Ident"
  legal name := isWord name && name != ['_'] && !keywords.contains (String.ofList name)

/-- The entry of an interrupt; the last one has this name. -/
def listed (last : Text) (n : ℕ) : Interrupt :=
  ⟨if n = 159 then last else 'I'::decimal n, UInt16.ofNat n, ['x']⟩

def list (last : Text) : List Interrupt := (List.range' 32 128).map (listed last)

theorem numbered_listed (last : Text) (n len : ℕ) (h : n+len ≤ 65536) :
    Numbered n ((List.range' n len).map (listed last)) := by
  induction len generalizing n with
  | zero => trivial
  | succ len ih =>
    refine ⟨?_, ih (n+1) (by omega)⟩
    show (UInt16.ofNat n).toNat = n
    rw [UInt16.toNat_ofNat']
    exact Nat.mod_eq_of_lt (by omega)

theorem writable_listed {last : Text} (hne : last ≠ [])
    (hlast : ∀ c ∈ last, isWhitespace c = false) : ∀ e ∈ list last, Writable e := by
  intro e he
  obtain ⟨n, hn, rfl⟩ := List.mem_map.mp he
  rw [List.mem_range'_1] at hn
  have hirq : (UInt16.ofNat n).toNat = n := by
    rw [UInt16.toNat_ofNat']
    exact Nat.mod_eq_of_lt (by omega)
  refine ⟨?_, ?_, ?_, ⟨'x', [], rfl, rfl⟩, ⟨[], 'x', rfl, rfl⟩,
    (by decide : '\n' ∉ ['x'])⟩
  · show (UInt16.ofNat n).toNat < 256
    omega
  · show (if n = 159 then last else 'I'::decimal n) ≠ []
    split
    · exact hne
    · exact List.cons_ne_nil _ _
  · show ∀ c ∈ (if n = 159 then last else 'I'::decimal n), isWhitespace c = false
    split
    · exact hlast
    · rintro c (_ | ⟨_, hc⟩)
      · rfl
      · exact decimal_solid (by omega) c hc

def listFile (last : Text) : Text := fileOf true (fun _ => (8, 15)) (list last)

theorem entries_listFile {last : Text} (hne : last ≠ [])
    (hlast : ∀ c ∈ last, isWhitespace c = false) :
    entriesOf (lines (trim (listFile last))) = .ok (list last) :=
  entries_file true _ (List.map_eq_nil_iff.not.mpr (by decide)) (writable_listed hne hlast)

theorem last_listed (last : Text) : (list last).getLast? = some (listed last 159) := by
  rw [list, List.getLast?_map]
  rfl

def pmu : Text := "PMU".toList

def reserved : Text := "Reserved".toList

theorem entries_pmu : entriesOf (lines (trim (listFile pmu))) = .ok (list pmu) :=
  entries_listFile (by decide) (solid_iff.mp (by decide))

theorem named_pmu : Named ascii (list pmu) := by
  constructor
  · unfold Accepted
    decide +kernel
  · decide +kernel
  · decide +kernel

theorem agrees_pmu :
    Agrees ascii .panics (fun _ _ => true) (listFile pmu) (list pmu) 40 := by
  refine (agrees_iff ascii .panics (fun _ _ => true) entries_pmu
    (numbered_listed pmu 32 128 (by decide)) rfl 40).mpr ⟨?_, named_pmu, by decide⟩
  intro entry hentry
  cases (last_listed pmu).symm.trans hentry
  decide

theorem accepted_listed {last : Text} (h : isWord last = true) : Accepted ascii (list last) := by
  intro e he _
  obtain ⟨n, hn, rfl⟩ := List.mem_map.mp he
  by_cases hlast : n = 159
  · rw [listed, if_pos hlast]
    exact h
  · rw [listed, if_neg hlast]
    rw [List.mem_range'_1] at hn
    exact forall_below (n := 256) (P := fun n => isWord ('I'::decimal n) = true) (by decide +kernel)
      n (by omega)

/-- A list that ends with a reserved entry has an element less than it needs, and a private
interrupt is dispatched beyond a table that is right. -/
theorem agrees_not :
    (entriesOf (lines (trim (listFile reserved))) = .ok (list reserved) ∧
      (∃ code, txt2rust ascii (listFile reserved) = .ok code ∧ code.spis.length = 127) ∧
      ¬Agrees ascii .panics (fun _ _ => true) (listFile reserved) (list reserved) 40) ∧
    (entriesOf (lines (trim (listFile pmu))) = .ok (list pmu) ∧
      ∀ o, ¬Agrees ascii o (fun _ _ => true) (listFile pmu) (list pmu) 20) := by
  have hentries : entriesOf (lines (trim (listFile reserved))) = .ok (list reserved) :=
    entries_listFile (by decide) (solid_iff.mp (by decide))
  have hnum := numbered_listed reserved 32 128 (by decide)
  have hnamed : Accepted ascii (list reserved) := accepted_listed (by decide)
  obtain ⟨code, hcode, hspis, -⟩ := txt2rust_spis hentries hnum rfl hnamed
  refine ⟨⟨hentries, ⟨code, hcode, ?_⟩, ?_⟩, entries_pmu, ?_⟩
  · rw [hspis, List.length_map]
    decide +kernel
  · rintro ⟨code', hcode', htable, -⟩
    have hserved := (table_iff ascii hentries hnum rfl).mp ⟨code', hcode', htable⟩
    exact absurd (hserved.2 _ (last_listed reserved)) (by decide)
  · rintro o ⟨code', -, -, _, hdispatched⟩
    exact dispatched_iff.mp hdispatched ⟨by decide, by decide⟩

end UsbArmory.Runtime.Dispatch
