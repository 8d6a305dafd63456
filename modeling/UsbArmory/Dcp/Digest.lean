import UsbArmory.Dcp.Chunking

/-!
# From the calls to the digest

The commands of a list of `input` calls and `fixed_result` cover the message:
whole blocks first, the leftover last, `hash_init` on the first command and
`hash_term` on the last one. So the digest depends on the message alone.
-/

set_option autoImplicit false

namespace UsbArmory.Dcp.Digest
open UsbArmory.Dcp.Command UsbArmory.Dcp.Hash UsbArmory.Dcp.Issue UsbArmory.Dcp.Chunking

variable {s : Sha256} {core : Bytes → Vector UInt8 32}

theorem inputSlice_eq (s : Sha256) (input : Bytes) (d : Engine) :
    s.inputSlice input d = if input = [] then .ok (s, d)
      else if s.count+input.length ≤ maxCount then
        (takeIn s.nextIsFirstBlock s.buffer input d).map fun x =>
          (⟨x.1, x.2.1, s.count+input.length⟩, x.2.2)
      else .error ⟨.capacity, d⟩ := by
  have hmax : maxCount < 2^32 := by decide
  unfold Sha256.inputSlice
  by_cases hnil : input = []
  · simp [hnil]
  · rw [if_neg (by simpa using hnil), if_neg hnil]
    by_cases hfit : s.count+input.length ≤ maxCount
    · have hadd : checkedAdd s.count input.length = some (s.count+input.length) :=
        if_pos (Nat.lt_of_le_of_lt hfit hmax)
      rw [hadd, if_pos hfit, if_neg (by simpa using hfit)]
      cases takeIn s.nextIsFirstBlock s.buffer input d <;> rfl
    · rw [if_neg hfit, if_pos]
      unfold checkedAdd
      split
      · simpa using hfit
      · rfl

/-- The state of the hasher after calls that complete these pieces. -/
structure After (s : Sha256) (calls : List Bytes) (pieces : List Bytes) (s' : Sha256) : Prop where
  taken : Taken s.buffer.bytes calls.flatten pieces s'.buffer.bytes
  refused : s'.buffer.refused = s.buffer.refused
  first : s'.nextIsFirstBlock = (s.nextIsFirstBlock && pieces.isEmpty)
  count : s'.count = s.count+calls.flatten.length

theorem inputs_spec (calls : List Bytes) (hshort : s.buffer.bytes.length < blockSize)
    (hmax : s.count+calls.flatten.length ≤ maxCount) :
    ∃ pieces s', After s calls pieces s' ∧
      ∀ d, s.inputs calls d = (issueAll (blocksCmds s.nextIsFirstBlock pieces) d).map (s', ·) := by
  induction calls generalizing s with
  | nil =>
    refine ⟨[], s, ⟨⟨by simp, ?_, hshort⟩, rfl, by simp, rfl⟩, fun d => rfl⟩
    intro p hp
    exact absurd hp List.not_mem_nil
  | cons call calls ih =>
    rw [List.flatten_cons, List.length_append] at hmax
    by_cases hnil : call = []
    · obtain ⟨pieces, s', hafter, hrun⟩ := ih hshort (by rw [hnil] at hmax; simpa using hmax)
      refine ⟨pieces, s', ?_, fun d => ?_⟩
      · rw [hnil]
        exact ⟨hafter.taken, hafter.refused, hafter.first, hafter.count⟩
      · rw [← hrun d]
        show (s.inputSlice call d >>= fun x => x.1.inputs calls x.2) = _
        rw [inputSlice_eq, if_pos hnil]
        rfl
    · obtain ⟨ps, buffer', htaken, hrefused, hrun⟩ := takeIn_takesIn s.nextIsFirstBlock call hshort
      obtain ⟨qs, s', hafter, hrest⟩ :=
        ih (s := ⟨s.nextIsFirstBlock && ps.isEmpty, buffer', s.count+call.length⟩) htaken.short (by
          show s.count+call.length+calls.flatten.length ≤ maxCount
          omega)
      refine ⟨ps ++ qs, s', ⟨?_, hafter.refused.trans hrefused, ?_, ?_⟩, fun d => ?_⟩
      · rw [List.flatten_cons]
        exact htaken.trans hafter.taken
      · rw [hafter.first]
        cases ps <;> simp
      · rw [hafter.count, List.flatten_cons, List.length_append]
        show s.count+call.length+_ = _
        omega
      · show (s.inputSlice call d >>= fun x => x.1.inputs calls x.2) = _
        rw [inputSlice_eq, if_neg hnil, if_pos (by omega), hrun d, blocksCmds_append,
          issueAll_append]
        cases issueAll (blocksCmds s.nextIsFirstBlock ps) d with
        | error stop => rfl
        | ok d' => exact hrest d'

theorem blocksCmd_control0 (first : Bool) (blocks : Bytes) : (blocksCmd first blocks).control0 =
    ((((Control0.new.decrSemaphore true).enableHash true).hashOutput false).hashInit
      first).hashTerm false := rfl

theorem isInit_blocksCmd (first : Bool) (blocks : Bytes) :
    isInit (blocksCmd first blocks) = first := by
  rw [isInit, blocksCmd_control0]
  cases first <;> decide

theorem isTerm_blocksCmd (first : Bool) (blocks : Bytes) :
    isTerm (blocksCmd first blocks) = false := by
  rw [isTerm, blocksCmd_control0]
  cases first <;> decide

theorem payload_blocksCmd (first : Bool) (blocks : Bytes) :
    payload (blocksCmd first blocks) = blocks :=
  List.take_length

theorem resultCmd_control0 (s : Sha256) (output : Bytes) : (resultCmd s output).control0 =
    ((((Control0.new.decrSemaphore true).enableHash true).hashOutput false).hashInit
      s.nextIsFirstBlock).hashTerm true := by
  unfold resultCmd
  simp only
  split <;> rfl

theorem isInit_resultCmd (s : Sha256) (output : Bytes) :
    isInit (resultCmd s output) = s.nextIsFirstBlock := by
  rw [isInit, resultCmd_control0]
  cases s.nextIsFirstBlock <;> decide

theorem isTerm_resultCmd (s : Sha256) (output : Bytes) : isTerm (resultCmd s output) = true := by
  rw [isTerm, resultCmd_control0]
  cases s.nextIsFirstBlock <;> decide

theorem payload_resultCmd (s : Sha256) (output : Bytes) :
    payload (resultCmd s output) = s.buffer.bytes := by
  unfold resultCmd
  simp only
  split
  next h =>
    have hnil : s.buffer.bytes = [] := by simpa [Vec.isEmpty] using h
    rw [hnil]
    rfl
  next => exact List.take_length

/-- Commands that carry a message as one hash of the engine. -/
structure Covers (cmds : List (Cmd Bytes)) (message : Bytes) : Prop where
  bytes : cmds.flatMap payload = message
  blocks : ∃ blocks last, cmds = blocks ++ [last] ∧
    (∀ c ∈ blocks, Whole (payload c) ∧ isTerm c = false) ∧
      isTerm last = true ∧ (payload last).length < blockSize
  init : ∃ first rest, cmds = first::rest ∧ isInit first = true ∧ ∀ c ∈ rest, isInit c = false

theorem payloads_blocksCmds (first : Bool) (pieces : List Bytes) :
    (blocksCmds first pieces).flatMap payload = pieces.flatten := by
  cases pieces with
  | nil => rfl
  | cons p ps =>
    have hrest : (ps.map (blocksCmd false)).flatMap payload = ps.flatten := by
      induction ps with
      | nil => rfl
      | cons q qs ih => simp [payload_blocksCmd, ih]
    simp [blocksCmds, payload_blocksCmd, hrest]

theorem mem_blocksCmds {first : Bool} {pieces : List Bytes} {c : Cmd Bytes}
    (h : c ∈ blocksCmds first pieces) : ∃ f, ∃ p ∈ pieces, c = blocksCmd f p := by
  cases pieces with
  | nil => exact absurd h List.not_mem_nil
  | cons p ps =>
    rcases List.mem_cons.mp h with rfl | h
    · exact ⟨first, p, List.mem_cons_self, rfl⟩
    · obtain ⟨q, hq, rfl⟩ := List.mem_map.mp h
      exact ⟨false, q, List.mem_cons_of_mem p hq, rfl⟩

theorem covers {calls pieces : List Bytes} {s' : Sha256} (hfirst : s.nextIsFirstBlock = true)
    (hempty : s.buffer.bytes = []) (h : After s calls pieces s') (output : Bytes) :
    Covers (blocksCmds true pieces ++ [resultCmd s' output]) calls.flatten := by
  constructor
  · have hbytes := h.taken.bytes
    rw [hempty, List.nil_append] at hbytes
    rw [List.flatMap_append, payloads_blocksCmds]
    simpa [payload_resultCmd] using hbytes
  · refine ⟨_, _, rfl, fun c hc => ?_, isTerm_resultCmd s' output, ?_⟩
    · obtain ⟨f, p, hp, rfl⟩ := mem_blocksCmds hc
      rw [payload_blocksCmd]
      exact ⟨h.taken.whole p hp, isTerm_blocksCmd f p⟩
    · rw [payload_resultCmd]
      exact h.taken.short
  · have hnext := h.first
    rw [hfirst, Bool.true_and] at hnext
    cases pieces with
    | nil =>
      refine ⟨resultCmd s' output, [], rfl, ?_, fun c hc => absurd hc List.not_mem_nil⟩
      rw [isInit_resultCmd, hnext]
      rfl
    | cons p ps =>
      refine ⟨blocksCmd true p, ps.map (blocksCmd false) ++ [resultCmd s' output], rfl,
        isInit_blocksCmd true p, fun c hc => ?_⟩
      rcases List.mem_append.mp hc with hc | hc
      · obtain ⟨q, -, rfl⟩ := List.mem_map.mp hc
        exact isInit_blocksCmd false q
      · rw [List.mem_singleton.mp hc, isInit_resultCmd, hnext]
        rfl

theorem hash_eq {calls pieces : List Bytes} {s' : Sha256} {d : Engine}
    (hrun : s.inputs calls d = (issueAll (blocksCmds s.nextIsFirstBlock pieces) d).map (s', ·)) :
    s.hash core calls d =
      (issueAll (blocksCmds s.nextIsFirstBlock pieces ++
        [resultCmd s' (List.replicate 32 0)]) d).map
        fun d' => ((core d'.stream).toList.reverse, d') := by
  unfold Sha256.hash
  rw [hrun, issueAll_append]
  cases issueAll (blocksCmds s.nextIsFirstBlock pieces) d with
  | error stop => rfl
  | ok d' =>
    show s'.fixedResult core d' = (issueAll [resultCmd s' (List.replicate 32 0)] d').map _
    unfold Sha256.fixedResult issueAll
    cases issue d' (resultCmd s' (List.replicate 32 0)) <;> rfl

theorem covers_stream {cmds : List (Cmd Bytes)} {message : Bytes} (h : Covers cmds message)
    (d : Engine) : (cmds.foldl Engine.execute d).stream = message := by
  obtain ⟨first, rest, hcmds, hinit, hrest⟩ := h.init
  rw [← h.bytes, hcmds, List.foldl_cons, stream_tail rest _ hrest]
  simp [Engine.execute, hinit]

structure Hashes (core : Bytes → Vector UInt8 32) (calls : List Bytes) (d : Engine)
    (cmds : List (Cmd Bytes)) : Prop where
  ok : ∀ out d', Sha256.new.hash core calls d = .ok (out, d') →
    d'.issued = d.issued ++ cmds ∧ out = (core calls.flatten).toList.reverse
  error : ∀ stop, Sha256.new.hash core calls d = .error stop →
    (stop.cause = .timeout ∨ stop.cause = .error) ∧
      ∃ given, given <+: cmds ∧ stop.engine.issued = d.issued ++ given
  total : (∀ n, d.answer n = .done) → ∃ r, Sha256.new.hash core calls d = .ok r
  buffer : ∀ s d', Sha256.new.inputs calls d = .ok (s, d') →
    s.buffer.refused = 0 ∧ s.buffer.bytes.length < blockSize

theorem hashes (core : Bytes → Vector UInt8 32) (calls : List Bytes) (d : Engine)
    (hmax : calls.flatten.length ≤ maxCount) :
    ∃ cmds, Covers cmds calls.flatten ∧ Hashes core calls d cmds := by
  obtain ⟨pieces, s, hafter, hrun⟩ := inputs_spec (s := .new) calls (by decide) (by
    show 0+_ ≤ _
    omega)
  have hcovers := covers rfl rfl hafter (List.replicate 32 0)
  have hhash : Sha256.new.hash core calls d =
      (issueAll (blocksCmds true pieces ++ [resultCmd s (List.replicate 32 0)]) d).map
        fun d' => ((core d'.stream).toList.reverse, d') := hash_eq (hrun d)
  refine ⟨_, hcovers, ?_, ?_, ?_, ?_⟩
  · intro out d' hok
    rw [hhash] at hok
    cases hall : issueAll (blocksCmds true pieces ++ [resultCmd s (List.replicate 32 0)]) d with
    | error stop =>
      rw [hall] at hok
      cases hok
    | ok d₁ =>
      rw [hall] at hok
      cases hok
      rw [issueAll_ok _ hall, covers_stream hcovers]
      exact ⟨(executeAll_issued _ d).1, rfl⟩
  · intro stop herr
    rw [hhash] at herr
    cases hall : issueAll (blocksCmds true pieces ++ [resultCmd s (List.replicate 32 0)]) d with
    | error stop' =>
      rw [hall] at herr
      cases herr
      obtain ⟨hcause, given, hgiven, hengine⟩ := issueAll_error _ hall
      refine ⟨hcause, given, hgiven, ?_⟩
      rw [hengine]
      exact (executeAll_issued _ d).1
    | ok d₁ =>
      rw [hall] at herr
      cases herr
  · intro hdone
    rw [hhash, issueAll_done _ d hdone]
    exact ⟨_, rfl⟩
  · intro s' d' hok
    rw [hrun d] at hok
    have hs : s' = s := by
      cases hall : issueAll (blocksCmds Sha256.new.nextIsFirstBlock pieces) d with
      | error stop =>
        rw [hall] at hok
        cases hok
      | ok d₁ =>
        rw [hall] at hok
        cases hok
        rfl
    rw [hs]
    exact ⟨hafter.refused, hafter.taken.short⟩

/-- However the message is cut into calls, the commands of the hash cover it,
and two ways of cutting it give the same digest. -/
theorem chunking_irrelevant (core : Bytes → Vector UInt8 32) (calls : List Bytes) (d : Engine)
    (hmax : calls.flatten.length ≤ maxCount) :
    (∃ cmds, Covers cmds calls.flatten ∧ Hashes core calls d cmds) ∧
      ∀ calls' d' out out' d₁ d₁', calls'.flatten = calls.flatten →
        Sha256.new.hash core calls d = .ok (out, d₁) →
        Sha256.new.hash core calls' d' = .ok (out', d₁') → out' = out := by
  refine ⟨hashes core calls d hmax, ?_⟩
  intro calls' d' out out' d₁ d₁' hsame hout hout'
  obtain ⟨_, -, hone⟩ := hashes core calls d hmax
  obtain ⟨_, -, htwo⟩ := hashes core calls' d' (hsame ▸ hmax)
  rw [(hone.ok out d₁ hout).2, (htwo.ok out' d₁' hout').2, hsame]

def idleEngine : Engine := ⟨fun _ => .done, [], []⟩

/-- The message is cut four bytes before the end of its first block. -/
def crossing : List Bytes := [List.replicate 60 97, [], List.replicate 10 98]

def crossingCore (_ : Bytes) : Vector UInt8 32 :=
  #v[0xbe, 0xec, 0x39, 0x84, 0xc3, 0x0f, 0xd8, 0x1d, 0xf8, 0xd0, 0xa9, 0x84, 0x0f, 0xf9, 0x96, 0xf3,
    0x45, 0x32, 0x0b, 0xc1, 0x98, 0xa3, 0xb2, 0x1c, 0xd9, 0xd3, 0xdc, 0x2b, 0x95, 0x8b, 0x05, 0x6c]

theorem chunking_irrelevant_crossing : crossing.flatten.length ≤ maxCount ∧
    (∃ cmds, Covers cmds crossing.flatten ∧ Hashes crossingCore crossing idleEngine cmds) ∧
    ∀ out out' d₁ d₁', Sha256.new.hash crossingCore crossing idleEngine = .ok (out, d₁) →
      Sha256.new.hash crossingCore [crossing.flatten] idleEngine = .ok (out', d₁') →
      out' = out := by
  have hmax : crossing.flatten.length ≤ maxCount := by decide
  obtain ⟨hcommands, hsame⟩ := chunking_irrelevant crossingCore crossing idleEngine hmax
  refine ⟨hmax, hcommands, fun out out' d₁ d₁' => ?_⟩
  exact hsame [crossing.flatten] idleEngine out out' d₁ d₁' rfl

end UsbArmory.Dcp.Digest
