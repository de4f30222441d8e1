import MulanLsm.CommitLog

/-! Replay against the live state.  Edits are committed one after the other, in one process or over
clean openings; what the manifest replays to is what the edits make of an empty version set in one
process. -/

namespace MulanLsm

section Replaying

variable [Crc32c]

/-- A new version set with its manifest in `d`, not yet named by `CURRENT`. -/
def pending (number : Nat) (d : Dir) : Option VersionStore :=
  match (VersionSet.newPending number : St Unit VersionSet) ((), ⟨d, []⟩) with
  | .ok vs (_, w) => some (vs, w.dir)
  | .error _ _ => none

/-- `CURRENT` set to name the manifest of the version set. -/
def named (s : VersionStore) : Option VersionStore :=
  match (writeCurrent s.1.manifestNumber : St Unit Unit) ((), ⟨s.2, []⟩) with
  | .ok _ (_, w) => some (s.1, w.dir)
  | .error _ _ => none

/-- The edits committed in one process. -/
def liveRun (edits : List VersionEdit) (s : VersionStore) : VersionStore :=
  edits.foldl (fun s edit => committed edit [] s) s

/-- A step of a run without failures: a commit or a clean opening. -/
inductive ReplayStep
  | commit (edit : VersionEdit)
  | reopen

def ReplayStep.toCommitStep : ReplayStep → CommitStep
  | commit edit => .commit edit []
  | reopen => .reopen

/-- The edits of a run. -/
def editsOf (steps : List ReplayStep) : List VersionEdit :=
  steps.filterMap fun
    | .commit edit => some edit
    | .reopen => none

omit [Crc32c] in
@[simp] theorem editsOf_commit (edit : VersionEdit) (steps : List ReplayStep) :
    editsOf (.commit edit :: steps) = edit :: editsOf steps := rfl

omit [Crc32c] in
@[simp] theorem editsOf_reopen (steps : List ReplayStep) :
    editsOf (.reopen :: steps) = editsOf steps := rfl

/-- Edits committed to a new manifest, `CURRENT` written, and then commits and clean openings. -/
def replayRun (number : Nat) (d : Dir) (first : List VersionEdit) (steps : List ReplayStep) :
    Option VersionStore := do
  let s ← pending number d
  let s ← named (liveRun first s)
  commitRun (steps.map ReplayStep.toCommitStep) s

/-- The version set is in the state that `edits` give, and its manifest has them. -/
def HasEdits (s : VersionStore) (edits : List VersionEdit) : Prop :=
  ∃ B records,
    LogAt s.1.manifestWriter.wal s.2 (.manifest s.1.manifestNumber) B records ∧
      records.mapM VersionEdit.decode = .ok edits ∧
      VersionState.empty.replay edits = .ok s.1.toVersionState

variable {s : VersionStore} {edits : List VersionEdit} {edit : VersionEdit}

theorem HasEdits.replay (h : HasEdits s edits) :
    VersionState.empty.replay edits = .ok s.1.toVersionState := by
  obtain ⟨_, _, -, -, hReplay⟩ := h
  exact hReplay

theorem HasEdits.commit (h : HasEdits s edits) (hEdit : edit.Storable) (hRange : edit.InRange) :
    HasEdits (committed edit [] s) (edits ++ [edit]) ∧
      (committed edit [] s).1.manifestNumber = s.1.manifestNumber ∧
      s.2.Frame {.manifest s.1.manifestNumber} (committed edit [] s).2 ∧
      ∃ v s', VersionSet.writeNewVersion edit (s.1, ⟨s.2, []⟩) = .ok v s' := by
  obtain ⟨vs, d⟩ := s
  obtain ⟨B, records, hAt, hDecode, hReplay⟩ := h
  obtain ⟨v, hv⟩ := hRange.applyEdit vs.current
  have hSpec := (writeNewVersion_spec (A := Quiet) hAt edit).quiet (by
    rintro f vs' d' (⟨⟨_, _, _, _, n, _, _, hBroken, _⟩, -⟩ |
      ⟨-, ⟨⟨hFails, -⟩, -⟩ | ⟨hNot, -⟩ | ⟨hNot, -⟩⟩)
    · exact ⟨n, hBroken⟩
    · exact hFails
    · exact absurd ⟨v, hv⟩ hNot
    · exact absurd hRange.2.2 hNot)
  obtain ⟨v', vs', w, hRun, ⟨ps, B', -, -, hAt', hFrame⟩, hState, hSame, -⟩ := hSpec.run
  have hNumber : vs'.manifestNumber = vs.manifestNumber := hSame.state.2
  have hCommitted : committed edit [] (vs, d) = (vs', w.dir) := by rw [committed, hRun]
  rw [hCommitted]
  refine ⟨⟨B', _, hNumber ▸ hAt', List.mapM_append_singleton hDecode
    (VersionEdit.decode_encode hEdit), VersionState.replay_append hReplay hState⟩, hNumber, hFrame,
    v', _, hRun⟩

/-- Commits in one process, all of which return. -/
theorem HasEdits.liveRun (h : HasEdits s edits) {more : List VersionEdit}
    (hMore : ∀ e ∈ more, e.Storable ∧ e.InRange) :
    HasEdits (MulanLsm.liveRun more s) (edits ++ more) ∧
      (MulanLsm.liveRun more s).1.manifestNumber = s.1.manifestNumber := by
  induction more generalizing s edits with
  | nil => exact ⟨by rw [List.append_nil]; exact h, rfl⟩
  | cons e more ih =>
    obtain ⟨hEdit, hRange⟩ := hMore e List.mem_cons_self
    obtain ⟨h', hNumber, -⟩ := h.commit hEdit hRange
    obtain ⟨hRun, hNumber'⟩ := ih h' fun e' he' => hMore e' (List.mem_cons_of_mem _ he')
    exact ⟨by rwa [List.append_assoc] at hRun, hNumber'.trans hNumber⟩

/-- After a clean opening the version set is in the state that it was in. -/
theorem HasEdits.reopen (h : HasEdits s edits) (hNames : s.2.Names s.1.manifestNumber) :
    ∃ s', reopened s.2 = some s' ∧ HasEdits s' edits ∧ s'.2.Names s'.1.manifestNumber ∧
      s'.1.toVersionState = s.1.toVersionState := by
  obtain ⟨B, records, hAt, hDecode, hReplay⟩ := h
  obtain ⟨synced, hHas⟩ := hAt.has
  have hSays : Says s.2 s.1.manifestNumber s.1.toVersionState :=
    ⟨hNames, B, synced, edits, hHas, by rw [hAt.isLog.readRecords]; exact hDecode, hReplay⟩
  obtain ⟨vs, hOpen, hState, -, hNumber, hAt'⟩ := hSays.reopened
  rw [← hNumber] at hNames hHas
  refine ⟨_, hOpen, ⟨B, records, ?_, hDecode, by rw [hState]; exact hReplay⟩, hNames, hState⟩
  rw [hNumber] at hHas ⊢
  exact hAt' B synced records hHas hAt.isLog

theorem HasEdits.steps (h : HasEdits s edits) (hNames : s.2.Names s.1.manifestNumber)
    {steps : List ReplayStep} (hSteps : ∀ e ∈ editsOf steps, e.Storable ∧ e.InRange) :
    ∃ s', commitRun (steps.map ReplayStep.toCommitStep) s = some s' ∧
      HasEdits s' (edits ++ editsOf steps) ∧ s'.2.Names s'.1.manifestNumber := by
  induction steps generalizing s edits with
  | nil => exact ⟨s, rfl, by simpa [editsOf] using h, hNames⟩
  | cons step steps ih =>
    cases step with
    | commit edit =>
      obtain ⟨hEdit, hRange⟩ := hSteps edit List.mem_cons_self
      obtain ⟨h', hNumber, hFrame, -⟩ := h.commit hEdit hRange
      have hNames' : (committed edit [] s).2.Names (committed edit [] s).1.manifestNumber := by
        rw [hNumber]
        exact hNames.frame hFrame
      obtain ⟨s', hRun, hEdits, hNames''⟩ := ih h' hNames' fun e he =>
        hSteps e (List.mem_cons_of_mem _ he)
      exact ⟨s', hRun, by simpa using hEdits, hNames''⟩
    | reopen =>
      obtain ⟨s₁, hOpen, h₁, hNames₁, -⟩ := h.reopen hNames
      obtain ⟨s', hRun, hEdits, hNames'⟩ := ih h₁ hNames₁ fun e he =>
        hSteps e he
      refine ⟨s', ?_, hEdits, hNames'⟩
      rw [List.map_cons, commitRun, List.foldlM_cons]
      simp only [ReplayStep.toCommitStep, CommitStep.run, hOpen]
      exact hRun

theorem pending_hasEdits {number : Nat} {d : Dir} (hAbsent : .manifest number ∉ d) :
    ∃ s, pending number d = some s ∧ HasEdits s [] ∧ s.1.manifestNumber = number := by
  have hHas : Dir.Has (d.insert (.manifest number) .empty) (.manifest number) [] 0 :=
    ⟨_, AList.lookup_insert _, rfl, rfl⟩
  have hSpec : Spec Quiet (VersionSet.newPending number : St Unit VersionSet)
      (fun vs _ d' => HasEdits (vs, d') [] ∧ vs.manifestNumber = number) Never () d := by
    refine Spec.bind (Spec.bind (Spec.bind (Spec.call ?_ fun n f h => not_broken_quiet h)))
    rw [if_neg hAbsent]
    refine Spec.bind (Spec.fileLen hHas (Spec.pure (Spec.pure (Spec.pure ?_)))
      fun n f h => not_broken_quiet h)
    exact ⟨⟨[], [], ⟨rfl, ⟨0, hHas⟩, .nil, Nat.zero_le _, rfl⟩, rfl, rfl⟩, rfl⟩
  obtain ⟨vs, _, w, hRun, hEdits, hNumber⟩ := hSpec.run
  exact ⟨(vs, w.dir), by rw [pending, hRun], hEdits, hNumber⟩

theorem HasEdits.named (h : HasEdits s edits) (hNumber : s.1.manifestNumber < 2 ^ 64) :
    ∃ s', MulanLsm.named s = some s' ∧ HasEdits s' edits ∧ s'.2.Names s'.1.manifestNumber := by
  obtain ⟨B, records, hAt, hDecode, hReplay⟩ := h
  obtain ⟨⟨⟩, _, w, hRun, -, hNames, -, hFrame⟩ :=
    ((writeCurrent_spec (x := ()) (d := s.2) hNumber).quiet
    fun _ _ _ hE => hE.2.1).run
  obtain ⟨synced, hHas⟩ := hAt.has
  refine ⟨(s.1, w.dir), by rw [MulanLsm.named, hRun], ⟨B, records, ?_, hDecode, hReplay⟩, hNames⟩
  exact ⟨hAt.writer, ⟨synced, hHas.frame hFrame (by simp)⟩, hAt.isLog, hAt.aligned⟩

end Replaying

/-- What the manifest replays to is the live state, and the one that the edits give in one process,
over any number of clean openings. -/
theorem replay_eq_live [Crc32c] {number : Nat} {d : Dir} {first : List VersionEdit}
    {steps : List ReplayStep} (hNumber : number < 2 ^ 64) (hAbsent : .manifest number ∉ d)
    (hEdits : ∀ e ∈ first ++ editsOf steps, e.Storable ∧ e.InRange) :
    ∃ s s₀, replayRun number d first steps = some s ∧ pending number d = some s₀ ∧
      recovered s.2 = some s.1.toVersionState ∧
      s.1.toVersionState = (liveRun (first ++ editsOf steps) s₀).1.toVersionState := by
  obtain ⟨s₀, hPending, h₀, hNumber₀⟩ := pending_hasEdits hAbsent
  obtain ⟨h₁, hNumber₁⟩ := h₀.liveRun fun e he => hEdits e (List.mem_append_left _ he)
  obtain ⟨s₂, hNamed, h₂, hNames₂⟩ := h₁.named (by rw [hNumber₁, hNumber₀]; exact hNumber)
  obtain ⟨s, hRun, h, hNames⟩ := h₂.steps hNames₂ fun e he => hEdits e (List.mem_append_right _ he)
  obtain ⟨hLive, -⟩ := h₀.liveRun hEdits
  have hRecovered : recovered s.2 = some s.1.toVersionState := by
    obtain ⟨s', hOpen, -, -, hState⟩ := h.reopen hNames
    rw [recovered, hOpen, Option.map_some, hState]
  refine ⟨s, s₀, ?_, hPending, hRecovered, ?_⟩
  · simp only [replayRun, hPending, hNamed, Option.bind_eq_bind, Option.bind_some]
    exact hRun
  · exact Except.ok.inj (h.replay.symm.trans hLive.replay)

/-- Two commits before `CURRENT` is written, and one between two openings. -/
theorem replay_eq_live_once :
    ∃ s s₀, replayRun 1 ∅ [{ logNumber := some 2 }, { logNumber := some 3 }]
        [.reopen, .commit { logNumber := some 4 }, .reopen] = some s ∧ pending 1 ∅ = some s₀ ∧
      recovered s.2 = some s.1.toVersionState ∧
      s.1.toVersionState = (liveRun ([{ logNumber := some 2 }, { logNumber := some 3 }] ++
        editsOf [.reopen, .commit { logNumber := some 4 }, .reopen]) s₀).1.toVersionState := by
  refine replay_eq_live (by decide) (by simp) fun e he => ?_
  simp only [editsOf_commit, editsOf_reopen, List.cons_append, List.nil_append, List.mem_cons] at he
  rcases he with rfl | rfl | rfl | he
  case inr.inr.inr => cases he
  all_goals exact ⟨logNumber_storable (by decide), logNumber_inRange _⟩

end MulanLsm
