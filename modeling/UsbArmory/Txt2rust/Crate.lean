import UsbArmory.Library.Confinement
import UsbArmory.Txt2rust.Calls
import UsbArmory.Txt2rust.Compression

/-!
# What the generated crate accesses

Runs of calls of the generated methods access what the descriptions of the
registers permit, and nothing else.
-/

set_option autoImplicit false

namespace UsbArmory.Txt2rust.Crate
open UsbArmory.Library UsbArmory.Library.Word UsbArmory.Library.Binary UsbArmory.Library.Strings
open UsbArmory.Library.Trace UsbArmory.Library.Grouping UsbArmory.Library.Confinement
open UsbArmory.Library.Registers (Device load store)
open UsbArmory.Txt2rust.Compress UsbArmory.Txt2rust.Codegen UsbArmory.Txt2rust.Calls
open UsbArmory.Txt2rust.InstanceRuns UsbArmory.Txt2rust.Expansion UsbArmory.Txt2rust.Compression

variable {o : Overflow} {d : Device Cell ℕ} {pl : Text × UInt32} {reg : Register} {a : Accessor}
variable {idx : ℕ} {n : Naming} {ps : List Peripheral} {modules : List Module}

/-- The call is made: its index is in bounds, and its address does not overflow where that is
checked. The bound of 256 instances is cast to a byte. -/
def Goes (o : Overflow) (base : UInt32) (reg : Register) (idx : ℕ) : Prop :=
  (reg.instances = 1 ∨ idx < reg.instances.toNat ∧ reg.instances ≠ 256) ∧
    (o = .wraps ∨ base.toNat+reg.offset.toNat < 2^32)

theorem admitted_iff (reg : Register) (idx : ℕ) : Admitted reg idx ↔
    reg.instances = 1 ∨ idx < reg.instances.toNat ∧ reg.instances ≠ 256 := by
  have hbound : (256 : UInt16).toNat = 256 := rfl
  by_cases hone : reg.instances = 1
  · exact iff_of_true (.inl hone) (.inl hone)
  rw [Admitted, or_iff_right hone, or_iff_right hone, indices, if_neg hone]
  by_cases h256 : reg.instances = 256
  · rw [h256]
    exact iff_of_false (Nat.not_lt_zero idx) fun h => h.2 rfl
  · have hne : reg.instances.toNat ≠ 256 :=
      fun heq => h256 (UInt16.toNat.inj (heq.trans hbound.symm))
    split
    next hle =>
      have hlt : reg.instances.toNat ≤ 256 := UInt16.le_iff_toNat_le.mp hle
      rw [Nat.mod_eq_of_lt (by omega)]
      exact ⟨fun h => ⟨h, h256⟩, And.left⟩
    next => exact ⟨fun h => ⟨h, h256⟩, And.left⟩

theorem goes_cases (o : Overflow) (base : UInt32) (reg : Register) (idx : ℕ) :
    (Goes o base reg idx ∧ Admitted reg idx ∧ ∃ addr, o.add32 base reg.offset = some addr) ∨
      (¬Goes o base reg idx ∧ (¬Admitted reg idx ∨ o.add32 base reg.offset = none)) := by
  rw [Goes, ← admitted_iff]
  by_cases hidx : Admitted reg idx
  · by_cases hfits : base.toNat+reg.offset.toNat < 2^32
    · obtain ⟨addr, hadd, -⟩ := add32_exact o base reg.offset hfits
      exact .inl ⟨⟨hidx, .inr hfits⟩, hidx, addr, hadd⟩
    · cases o with
      | wraps => exact .inl ⟨⟨hidx, .inl rfl⟩, hidx, _, rfl⟩
      | panics =>
        refine .inr ⟨?_, .inr (add32_overflow (Nat.le_of_not_lt hfits))⟩
        rintro ⟨-, hwraps | hlt⟩
        · cases hwraps
        · exact hfits hlt
  · exact .inr ⟨fun h => hidx h.1, .inl hidx⟩

def Either {α : Type} (p : Prop) (x : Io α) (before : List Act) (a : α) (act : Act) : Prop :=
  (p → perform x before = (.ok a, before ++ [act])) ∧
    (¬p → ∃ message, perform x before = (.error (.panic message), before))

/-- Every register behind a handle has an accessor with the methods that its access permits, and
these access the cell of the index, or panic. -/
theorem instances_reached (o : Overflow) (n : Naming) (ps : List Peripheral) (modules : List Module)
    (hkrate : krate n ps = .ok modules) (p : Peripheral) (hp : p ∈ ps) (pl : Text × UInt32)
    (hpl : pl ∈ places p) (reg : Register) (hreg : reg ∈ p.registers) : ∃ a ∈ accessors modules,
      a.handle.name = pl.1 ∧ a.struct.name = reg.name ∧
      (Call.read.Offered a.struct ↔ reg.access ≠ .writeOnly) ∧
      (∀ bits, (Call.write bits).Offered a.struct ↔ reg.access ≠ .readOnly) ∧
      ∀ idx before,
        (∀ d, Either (Goes o pl.2 reg idx) (a.read o d idx) before
          (d before (cellOf pl.2 reg idx)) (.read (cellOf pl.2 reg idx)
            (d before (cellOf pl.2 reg idx)))) ∧
        ∀ bits, Either (Goes o pl.2 reg idx) (a.write o idx bits) before ()
          (.write (cellOf pl.2 reg idx) bits) := by
  obtain ⟨a, ha, h⟩ := accessor_exists hkrate hp hpl hreg
  refine ⟨a, ha, h.handle, h.name, offered_iff h .read, fun bits => offered_iff h (.write bits),
    fun idx before => ?_⟩
  rcases goes_cases o pl.2 reg idx with ⟨hgoes, hidx, addr, hadd⟩ | ⟨hnot, hfails⟩
  · refine ⟨fun d => ⟨fun _ => ?_, absurd hgoes⟩, fun bits => ⟨fun _ => ?_, absurd hgoes⟩⟩
    · rw [read_eq h hadd hidx]
      rfl
    · rw [write_eq h hadd hidx]
      rfl
  · refine ⟨fun d => ⟨(absurd · hnot), fun _ => ?_⟩, fun bits => ⟨(absurd · hnot), fun _ => ?_⟩⟩
    · obtain ⟨message, heq⟩ := read_fails (d := d) h hfails
      exact ⟨message, by rw [heq]; rfl⟩
    · obtain ⟨message, heq⟩ := write_fails h hfails bits
      exact ⟨message, by rw [heq]; rfl⟩

def bank : Peripheral :=
  ⟨['B'], .single 0x1000, [⟨0x400, [], ['R'], 8, .readWrite, none, 128, false⟩]⟩

def anyName : Naming := ⟨fun _ => true, List.map Char.toLower⟩

theorem instances_reached_bank : ∃ modules, krate anyName [bank] = .ok modules ∧
    ∃ a ∈ accessors modules, ∀ before bits,
      perform (a.write .panics 127 bits) before =
        (.ok (), before ++ [.write (0x147f, 8) bits]) := by
  refine ⟨_, rfl, ?_⟩
  obtain ⟨a, ha, -, -, -, -, hcells⟩ := instances_reached .panics anyName [bank] _ rfl bank
    List.mem_cons_self (['B'], 0x1000) List.mem_cons_self
    ⟨0x400, [], ['R'], 8, .readWrite, none, 128, false⟩ List.mem_cons_self
  have hgoes : Goes .panics 0x1000 ⟨0x400, [], ['R'], 8, .readWrite, none, 128, false⟩ 127 :=
    ⟨.inr (by decide), .inr (by decide)⟩
  exact ⟨a, ha, fun before bits => ((hcells 127 before).2 bits).1 hgoes⟩

/-- Names that let the modules be compiled together: no two modules, no two exported handles and
no two registers of a module share one. -/
structure Distinct (modules : List Module) : Prop where
  names : (modules.map Module.name).Nodup
  handles : ((modules.flatMap Module.handles).map Handle.name).Nodup
  structs : ∀ m ∈ modules, (m.structs.map RegisterStruct.name).Nodup

def run (o : Overflow) (d : Device Cell ℕ) (calls : List (Accessor × ℕ × Call)) : Io Unit :=
  calls.forM fun c => c.1.invoke o d c.2.1 c.2.2

/-- The methods are there. -/
def Offered (modules : List Module) (calls : List (Accessor × ℕ × Call)) : Prop :=
  ∀ c ∈ calls, c.1 ∈ accessors modules ∧ c.2.2.Offered c.1.struct

section Table
variable {input : List Parse.Register} {p : Peripheral} {name : Text}

theorem sub_exact {a b : UInt32} (h : b ≤ a) : b.toNat+(a-b).toNat < 2^32 := by
  have hle := UInt32.le_iff_toNat_le.mp h
  have hlt := a.toNat_lt
  rw [UInt32.toNat_sub_of_le _ _ h]
  omega

end Table

end UsbArmory.Txt2rust.Crate
