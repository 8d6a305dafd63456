import UsbArmory.Dcp.Hash

/-!
# Issuing a list of commands

The hasher gives its commands to the engine one at a time and waits for each.
-/

set_option autoImplicit false

namespace UsbArmory.Dcp.Issue
open UsbArmory.Dcp.Command UsbArmory.Dcp.Hash

/-- The commands in order, up to the first one that the engine fails. -/
def issueAll : List (Cmd Bytes) → Engine → Except Stop Engine
  | [], d => .ok d
  | c::cs, d => do
    let d ← issue d c
    issueAll cs d

theorem issueAll_append (cs cs' : List (Cmd Bytes)) (d : Engine) :
    issueAll (cs ++ cs') d = issueAll cs d >>= issueAll cs' := by
  induction cs generalizing d with
  | nil => rfl
  | cons c cs ih =>
    show issue d c >>= issueAll (cs ++ cs') = (issue d c >>= issueAll cs) >>= issueAll cs'
    rw [bind_assoc]
    congr 1
    funext d'
    exact ih d'

theorem issue_ok {d d' : Engine} {c : Cmd Bytes} (h : issue d c = .ok d') : d' = d.execute c := by
  unfold issue at h
  split at h
  · exact (Except.ok.inj h).symm
  · cases h
  · cases h

theorem issue_error {d : Engine} {c : Cmd Bytes} {stop : Stop} (h : issue d c = .error stop) :
    (stop.cause = .timeout ∨ stop.cause = .error) ∧ stop.engine = d.execute c := by
  unfold issue at h
  split at h
  · cases h
  · cases h
    exact ⟨Or.inl rfl, rfl⟩
  · cases h
    exact ⟨Or.inr rfl, rfl⟩

theorem issueAll_ok (cs : List (Cmd Bytes)) {d d' : Engine} (h : issueAll cs d = .ok d') :
    d' = cs.foldl Engine.execute d := by
  induction cs generalizing d with
  | nil => exact (Except.ok.inj h).symm
  | cons c cs ih =>
    cases hc : issue d c with
    | error stop =>
      have hbind : issueAll (c::cs) d = .error stop := by simp [issueAll, hc, bind, Except.bind]
      rw [hbind] at h
      cases h
    | ok d₁ =>
      have hbind : issueAll (c::cs) d = issueAll cs d₁ := by simp [issueAll, hc, bind, Except.bind]
      rw [hbind] at h
      rw [List.foldl_cons, ← issue_ok hc]
      exact ih h

theorem issueAll_error (cs : List (Cmd Bytes)) {d : Engine} {stop : Stop}
    (h : issueAll cs d = .error stop) : (stop.cause = .timeout ∨ stop.cause = .error) ∧
      ∃ given, given <+: cs ∧ stop.engine = given.foldl Engine.execute d := by
  induction cs generalizing d with
  | nil => cases h
  | cons c cs ih =>
    cases hc : issue d c with
    | error stop' =>
      have hbind : issueAll (c::cs) d = .error stop' := by simp [issueAll, hc, bind, Except.bind]
      rw [hbind] at h
      cases h
      obtain ⟨hcause, hengine⟩ := issue_error hc
      exact ⟨hcause, [c], ⟨cs, rfl⟩, hengine⟩
    | ok d₁ =>
      have hbind : issueAll (c::cs) d = issueAll cs d₁ := by simp [issueAll, hc, bind, Except.bind]
      rw [hbind] at h
      obtain ⟨hcause, given, hgiven, hengine⟩ := ih h
      refine ⟨hcause, c::given, List.cons_prefix_cons.mpr ⟨rfl, hgiven⟩, ?_⟩
      rw [hengine, issue_ok hc]
      rfl

theorem executeAll_issued (cs : List (Cmd Bytes)) (d : Engine) :
    (cs.foldl Engine.execute d).issued = d.issued ++ cs ∧
      (cs.foldl Engine.execute d).answer = d.answer := by
  induction cs generalizing d with
  | nil => simp
  | cons c cs ih =>
    obtain ⟨hissued, hanswer⟩ := ih (d.execute c)
    rw [List.foldl_cons, hissued, hanswer]
    simp [Engine.execute]

theorem issueAll_done (cs : List (Cmd Bytes)) (d : Engine) (h : ∀ n, d.answer n = .done) :
    issueAll cs d = .ok (cs.foldl Engine.execute d) := by
  induction cs generalizing d with
  | nil => rfl
  | cons c cs ih =>
    have hc : issue d c = .ok (d.execute c) := by simp [issue, h]
    simp only [issueAll, hc, bind, Except.bind, List.foldl_cons]
    exact ih (d.execute c) h

theorem stream_tail (cs : List (Cmd Bytes)) (d : Engine) (h : ∀ c ∈ cs, isInit c = false) :
    (cs.foldl Engine.execute d).stream = d.stream ++ cs.flatMap payload := by
  induction cs generalizing d with
  | nil => simp
  | cons c cs ih =>
    have hc := h c List.mem_cons_self
    rw [List.foldl_cons, ih _ fun c' hc' => h c' (List.mem_cons_of_mem c hc')]
    simp [Engine.execute, hc]

end UsbArmory.Dcp.Issue
