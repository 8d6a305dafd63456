import UsbArmory.Storage.LfsCalls

/-!
# The driver below littlefs is a flat byte array

Runs of calls on a device that `mount` has accepted, with or without failing
accesses. On a device that works the replies are those of an array of bytes.
-/

set_option autoImplicit false

namespace UsbArmory.Storage.LfsRefinement
open UsbArmory.Storage.MbrDisk UsbArmory.Storage.Accesses UsbArmory.Storage.LfsDriver
open UsbArmory.Storage.LfsCalls ManagedBlockDevice BlockStore

def run {D E : Type} [ManagedBlockDevice D E] :
    LfsStorage D → List Call → Option (List Reply × LfsStorage D)
  | s, [] => some ([], s)
  | s, c::cs => do
    let (r, s) ← step s c
    let (rs, s) ← run s cs
    return (r::rs, s)

def arrayReplies : Array → List Call → List (Except IoError ℕ × List UInt8)
  | _, [] => []
  | A, c::cs => (.ok c.len, c.bytes A)::arrayReplies (c.apply A) cs

def arrayRun : Array → List Call → Array
  | A, [] => A
  | A, c::cs => arrayRun (c.apply A) cs

section Runs
variable {D E : Type} [BlockStore D E] {s t : LfsStorage D}

def ServedAll : LfsStorage D → List Call → List Reply → LfsStorage D → Prop
  | s, [], [], t => t = s
  | s, c::cs, r::rs, t => ∃ u, Served s c r u ∧ ServedAll u cs rs t
  | _, _, _, _ => False

theorem run_served (cs : List Call) (hlegal : ∀ c ∈ cs, Legal c)
    (hsize : blockCount ≤ (totalBlocks s.inner).toNat) :
    ∃ rs t, run s cs = some (rs, t) ∧ ServedAll s cs rs t := by
  induction cs generalizing s with
  | nil => exact ⟨[], s, rfl, rfl⟩
  | cons c cs ih =>
    obtain ⟨r, u, hstep, hserved⟩ := step_served (hlegal c List.mem_cons_self) hsize
    obtain ⟨rs, t, hrun, hall⟩ := ih (fun c' hc' => hlegal c' (List.mem_cons_of_mem c hc'))
      (served_size hserved hsize)
    exact ⟨r::rs, t, by simp [run, hstep, hrun], u, hserved, hall⟩

theorem served_array (cs : List Call) (rs : List Reply) (A : Array)
    (h : ServedAll s cs rs t) (hw : Works s.inner) (hA : Shows s.inner A) :
    rs.map (fun r => (r.result, r.buf)) = arrayReplies A cs ∧ Shows t.inner (arrayRun A cs) := by
  induction cs generalizing s A rs with
  | nil =>
    cases rs with
    | nil =>
      have hts : t = s := h
      rw [hts]
      exact ⟨rfl, hA⟩
    | cons r rs => exact absurd h id
  | cons c cs ih =>
    cases rs with
    | nil => exact absurd h id
    | cons r rs =>
      obtain ⟨u, hserved, hall⟩ := h
      obtain ⟨hres, hdata⟩ := hserved.ok (hserved.works hw)
      obtain ⟨hbuf, hshows⟩ := hdata A hA
      obtain ⟨as, has⟩ := hserved.accesses
      have hwu : Works u.inner := has ▸ works_performAll hw as
      obtain ⟨hreplies, hfinal⟩ := ih rs (c.apply A) hall hwu hshows
      refine ⟨?_, hfinal⟩
      rw [List.map_cons, hreplies, hres, hbuf]
      rfl

/-- Every run of calls on a device that `mount` has accepted. -/
theorem refines_array {F : Type} (mountFs : LfsStorage D → Except IoError F × LfsStorage D)
    (dev : D) (lfs : LittleFs D F) (cs : List Call)
    (hmount : LittleFs.mount mountFs dev = .ok lfs) (hlegal : ∀ c ∈ cs, Legal c) :
    ∃ rs t, run ⟨dev⟩ cs = some (rs, t) ∧ ServedAll ⟨dev⟩ cs rs t ∧
      (Works dev → rs.map (fun r => (r.result, r.buf)) = arrayReplies (byte dev) cs ∧
        Shows t.inner (arrayRun (byte dev) cs)) := by
  obtain ⟨rs, t, hrun, hall⟩ := run_served (s := ⟨dev⟩) cs hlegal (mount_size hmount)
  exact ⟨rs, t, hrun, hall, fun hw => served_array cs rs (byte dev) hall hw fun _ _ => rfl⟩

end Runs

def emptyDisk : RamDisk := ⟨131072, fun _ => emptyBlock, fun _ => false⟩

def fewCalls : List Call :=
  [.write 0 (List.replicate blockSize 7), .erase 0 blockSize, .read 0 (List.replicate blockSize 0)]

theorem first_legal {c : Call} (hoff : c.off = 0) (hlen : c.len = blockSize) : Legal c := by
  refine ⟨hoff ▸ Nat.dvd_zero _, hlen ▸ Nat.dvd_refl _, ?_⟩
  rw [hoff, hlen, Nat.zero_add]
  exact Nat.le_mul_of_pos_left _ (by decide)

theorem fewCalls_legal : ∀ c ∈ fewCalls, Legal c := by
  intro c hc
  simp only [fewCalls, List.mem_cons, List.not_mem_nil, or_false] at hc
  rcases hc with rfl | rfl | rfl
  · exact first_legal rfl List.length_replicate
  · exact first_legal rfl rfl
  · exact first_legal rfl List.length_replicate

theorem refines_array_fewCalls : ∃ rs t, run ⟨emptyDisk⟩ fewCalls = some (rs, t) ∧
    rs.map (fun r => (r.result, r.buf)) = arrayReplies (byte emptyDisk) fewCalls := by
  obtain ⟨rs, t, hrun, -, hworks⟩ :=
    refines_array (fun s => (.ok (), s)) emptyDisk ⟨⟨emptyDisk⟩, ()⟩
    fewCalls rfl fewCalls_legal
  exact ⟨rs, t, hrun, (hworks (ramDisk_works _ fun _ => rfl)).1⟩

end UsbArmory.Storage.LfsRefinement
