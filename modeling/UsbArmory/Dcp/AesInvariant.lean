import UsbArmory.Dcp.Aes

/-!
# What a call of `xcrypt` finds

The frame and the block of a call stay as it has left them while it is
preempted, and until another call comes in between so does the pointer register.
-/

set_option autoImplicit false

namespace UsbArmory.Dcp.AesInvariant
open UsbArmory.Library.Run UsbArmory.Dcp.Command UsbArmory.Dcp.Aes

variable {aes : Cipher} {m m' : Machine} {ch : Channel} {c o : Call} {pc : Pc}

def Ready (aes : Cipher) (ch : Channel) (o : Call) : Pc → Prop
  | .called => ch.blocks o.block = o.data
  | .built => ch.blocks o.block = o.data ∧ ch.frames o.frame = some o.own
  | .pointed false => ch.blocks o.block = o.data ∧ ch.frames o.frame = some o.own ∧
      ch.ch3cmdptr = some o.frame
  | .pointed true => ∃ a f, ch.ch3cmdptr = some a ∧ ch.frames a = some f ∧ f.id ≠ o.id
  | .started => ch.blocks o.block = o.result aes

structure Inv (aes : Cipher) (m : Machine) : Prop where
  sound : Sound aes m
  begun : ∀ c ∈ m.started, c.id ∈ m.begun
  known : ∀ o pc, m.cur = some (o, pc) → o.id ∈ m.begun
  fresh : ∀ o pc, m.cur = some (o, pc) → pc ≠ .started → o.id ∉ m.started.map Call.id
  member : ∀ o, m.cur = some (o, .started) → o ∈ m.started
  ready : ∀ o pc, m.cur = some (o, pc) → Ready aes m.channel o pc

theorem ch3sema_own (aes : Cipher) (hptr : ch.ch3cmdptr = some c.frame)
    (hframe : ch.frames c.frame = some c.own) (hblock : ch.blocks c.block = c.data) :
    (ch.ch3sema aes).executed = ch.executed ++ [c.own] ∧
      (ch.ch3sema aes).blocks = Function.update ch.blocks c.block (c.result aes) ∧
      (ch.ch3sema aes).frames = Function.update ch.frames c.frame (some c.own.finished) ∧
      (ch.ch3sema aes).ch3cmdptr = some c.frame := by
  have hcrypt : crypt aes c.cmd ch.blocks = Function.update ch.blocks c.block (c.result aes) := by
    show Function.update ch.blocks c.block (aes c.cmd.key (encrypts c.cmd) (ch.blocks c.block)) = _
    rw [cmd_key, cmd_encrypts, hblock]
    rfl
  have hsema : ch.ch3sema aes =
      { ch with
        frames := Function.update ch.frames c.frame (some c.own.finished)
        blocks := crypt aes c.cmd ch.blocks
        executed := ch.executed ++ [c.own] } := by
    simp only [Channel.ch3sema, hptr, hframe]
    rfl
  rw [hsema]
  exact ⟨rfl, hcrypt, rfl, hptr⟩

theorem whole_spec (aes : Cipher) (ch : Channel) (c : Call) :
    (whole aes ch c).executed = ch.executed ++ [c.own] ∧
      (whole aes ch c).blocks = Function.update ch.blocks c.block (c.result aes) ∧
      (whole aes ch c).frames = Function.update ch.frames c.frame (some c.own.finished) ∧
      (whole aes ch c).ch3cmdptr = some c.frame := by
  have hpoint : (((ch.load c).build c).point c).ch3cmdptr = some c.frame := rfl
  have hbuilt : (((ch.load c).build c).point c).frames c.frame = some c.own := by
    simp [Channel.point, Channel.build]
  have hloaded : (((ch.load c).build c).point c).blocks c.block = c.data := by
    simp [Channel.point, Channel.build, Channel.load]
  obtain ⟨hexec, hblocks, hframes, hptr⟩ := ch3sema_own aes hpoint hbuilt hloaded
  refine ⟨hexec, ?_, ?_, hptr⟩
  · have hsame : (whole aes ch c).blocks = _ := hblocks
    rw [hsame]
    simp [Channel.point, Channel.build, Channel.load]
  · have hsame : (whole aes ch c).frames = _ := hframes
    rw [hsame]
    simp [Channel.point, Channel.build, Channel.load]

theorem ready_whole (hapart : Apart c o) (hid : c.id ≠ o.id) (h : Ready aes ch o pc) :
    Ready aes (whole aes ch c) o pc.strike := by
  obtain ⟨-, hframe, hblock⟩ := hapart
  obtain ⟨-, hblocks, hframes, hptr⟩ := whole_spec aes ch c
  have hb : (whole aes ch c).blocks o.block = ch.blocks o.block := by
    rw [hblocks]
    exact Function.update_of_ne hblock.symm _ _
  have hf : (whole aes ch c).frames o.frame = ch.frames o.frame := by
    rw [hframes]
    exact Function.update_of_ne hframe.symm _ _
  have hstruck : Ready aes (whole aes ch c) o (.pointed true) := by
    refine ⟨c.frame, c.own.finished, hptr, ?_, hid⟩
    rw [hframes]
    exact Function.update_self _ _ _
  cases pc with
  | called => exact hb.trans h
  | built => exact ⟨hb.trans h.1, hf.trans h.2⟩
  | pointed struck => exact hstruck
  | started => exact hb.trans h

theorem strike_started (h : pc.strike = .started) : pc = .started := by
  cases pc with
  | started => rfl
  | _ => cases h

theorem sound_started (cur : Option (Call × Pc)) (begun : List ℕ) (h : Sound aes m)
    (hnew : c.id ∉ m.started.map Call.id) (hexec : ch.executed = m.channel.executed ++ [c.own]) :
    Sound aes ⟨ch, cur, begun, m.started ++ [c], m.returned⟩ := by
  constructor
  · show ch.executed = (m.started ++ [c]).map Call.own
    rw [hexec, h.executed, List.map_append]
    rfl
  · show ((m.started ++ [c]).map Call.id).Nodup
    rw [List.map_append]
    apply List.nodup_append.mpr
    refine ⟨h.once, by simp, ?_⟩
    intro a ha b hb hab
    rw [List.mem_singleton.mp hb] at hab
    exact hnew (hab ▸ ha)
  · intro r hr
    obtain ⟨hin, hres⟩ := h.returned r hr
    exact ⟨List.mem_append_left _ hin, hres⟩

theorem sound_returned (h : Sound aes m) {cur : Option (Call × Pc)} (hin : c ∈ m.started)
    {bytes : Bytes} (hbytes : bytes = c.result aes) :
    Sound aes { m with cur := cur, returned := m.returned ++ [(c, bytes)] } := by
  refine ⟨h.executed, h.once, fun r hr => ?_⟩
  rcases List.mem_append.mp hr with hr | hr
  · exact h.returned r hr
  · rw [List.mem_singleton.mp hr]
    exact ⟨hin, hbytes⟩

theorem inv_begin (h : Inv aes m) (hs : step aes m (.begin c) = some m') : Inv aes m' := by
  unfold step at hs
  simp only at hs
  split at hs
  next hg =>
    obtain ⟨-, hfresh⟩ := hg
    cases hs
    have hcur : ∀ o pc, some (c, Pc.called) = some (o, pc) → o = c ∧ pc = .called := by
      intro o pc he
      cases he
      exact ⟨rfl, rfl⟩
    constructor
    · exact ⟨h.sound.executed, h.sound.once, h.sound.returned⟩
    · intro x hx
      exact List.mem_append_left _ (h.begun x hx)
    · intro o pc he
      obtain ⟨rfl, -⟩ := hcur o pc he
      exact List.mem_append_right _ List.mem_cons_self
    · intro o pc he _ hin
      obtain ⟨rfl, -⟩ := hcur o pc he
      obtain ⟨x, hx, hid⟩ := List.mem_map.mp hin
      exact hfresh (hid ▸ h.begun x hx)
    · intro o he
      cases he
    · intro o pc he
      obtain ⟨rfl, rfl⟩ := hcur o pc he
      exact Function.update_self _ _ _
  next => cases hs

theorem inv_preempt (h : Inv aes m) (hs : step aes m (.preempt c) = some m') : Inv aes m' := by
  cases hcur : m.cur with
  | none => simp [step, hcur] at hs
  | some x =>
    obtain ⟨o, pc⟩ := x
    simp only [step, hcur] at hs
    split at hs
    next hg =>
      obtain ⟨hfresh, hapart, -⟩ := hg
      obtain ⟨hexec, hblocks, -, -⟩ := whole_spec aes m.channel c
      cases hs
      have hid : c.id ≠ o.id := fun he => hfresh (he ▸ h.known o pc hcur)
      have hnew : c.id ∉ m.started.map Call.id := by
        intro hin
        obtain ⟨x, hx, hxid⟩ := List.mem_map.mp hin
        exact hfresh (hxid ▸ h.begun x hx)
      have hresult : (whole aes m.channel c).blocks c.block = c.result aes := by
        rw [hblocks]
        exact Function.update_self _ _ _
      constructor
      · exact sound_returned (sound_started m.cur _ h.sound hnew hexec)
          (List.mem_append_right _ List.mem_cons_self) hresult
      · intro x hx
        rcases List.mem_append.mp hx with hx | hx
        · exact List.mem_append_left _ (h.begun x hx)
        · rw [List.mem_singleton.mp hx]
          exact List.mem_append_right _ List.mem_cons_self
      · intro o' pc' he
        cases he
        exact List.mem_append_left _ (h.known o pc hcur)
      · intro o' pc' he hne hin
        cases he
        rw [List.map_append, List.mem_append] at hin
        rcases hin with hin | hin
        · refine h.fresh o pc hcur (fun hpc => hne ?_) hin
          rw [hpc]
          rfl
        · exact hid (List.mem_singleton.mp hin).symm
      · intro o' he
        obtain ⟨rfl, hpc⟩ := Prod.mk.inj (Option.some.inj he)
        rw [strike_started hpc] at hcur
        exact List.mem_append_left _ (h.member o hcur)
      · intro o' pc' he
        cases he
        exact ready_whole hapart hid (h.ready o pc hcur)
    next => cases hs

/-- A step of the current call, from anywhere but a pointer write that has been
preempted. -/
theorem inv_resume (h : Inv aes m) (hu : Undisturbed m .resume)
    (hs : step aes m .resume = some m') : Inv aes m' := by
  cases hcur : m.cur with
  | none => simp [step, hcur] at hs
  | some x =>
    obtain ⟨o, pc⟩ := x
    simp only [step, hcur, Option.map_some, Option.some.injEq] at hs
    have hready := h.ready o pc hcur
    have hknown := h.known o pc hcur
    -- the steps up to the pointer write touch no ghost list
    have hmove : ∀ (ch : Channel) (pc' : Pc), pc ≠ .started → pc' ≠ .started →
        ch.executed = m.channel.executed → Ready aes ch o pc' →
        Inv aes { m with channel := ch, cur := some (o, pc') } := by
      intro ch pc' hpc hpc' hexec hr
      constructor
      · exact ⟨hexec.trans h.sound.executed, h.sound.once, h.sound.returned⟩
      · exact h.begun
      · intro o' pc'' he
        cases he
        exact hknown
      · intro o' pc'' he _
        cases he
        exact h.fresh o pc hcur hpc
      · intro o' he
        exact absurd (Prod.mk.inj (Option.some.inj he)).2 hpc'
      · intro o' pc'' he
        cases he
        exact hr
    cases pc with
    | called =>
      cases hs
      exact hmove (m.channel.build o) .built (by simp) (by simp) rfl
        ⟨hready, Function.update_self _ _ _⟩
    | built =>
      cases hs
      exact hmove (m.channel.point o) (.pointed false) (by simp) (by simp) rfl
        ⟨hready.1, hready.2, rfl⟩
    | pointed struck =>
      cases struck with
      | true => exact absurd hcur (hu o)
      | false =>
        cases hs
        obtain ⟨hblock, hframe, hptr⟩ := hready
        obtain ⟨hexec, hblocks, -, -⟩ := ch3sema_own aes hptr hframe hblock
        have hnew := h.fresh o _ hcur (by simp)
        constructor
        · exact sound_started _ _ h.sound hnew hexec
        · intro x hx
          rcases List.mem_append.mp hx with hx | hx
          · exact h.begun x hx
          · rw [List.mem_singleton.mp hx]
            exact hknown
        · intro o' pc' he
          cases he
          exact hknown
        · intro o' pc' he hne
          cases he
          exact absurd rfl hne
        · intro o' he
          cases he
          exact List.mem_append_right _ List.mem_cons_self
        · intro o' pc' he
          cases he
          show (m.channel.ch3sema aes).blocks o.block = _
          rw [hblocks]
          exact Function.update_self _ _ _
    | started =>
      by_cases hdone : m.channel.done o = true
      · rw [resume, if_pos hdone] at hs
        cases hs
        constructor
        · exact sound_returned h.sound (h.member o hcur) hready
        · exact h.begun
        · intro o' pc' he
          cases he
        · intro o' pc' he
          cases he
        · intro o' he
          cases he
        · intro o' pc' he
          cases he
      · rw [resume, if_neg hdone] at hs
        cases hs
        exact h

theorem inv_step {e : Event} (h : Inv aes m) (hu : Undisturbed m e)
    (hs : step aes m e = some m') : Inv aes m' := by
  cases e with
  | begin c => exact inv_begin h hs
  | resume => exact inv_resume h hu hs
  | preempt c => exact inv_preempt h hs

end UsbArmory.Dcp.AesInvariant
