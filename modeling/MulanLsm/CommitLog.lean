import MulanLsm.Version

/-! Runs of commits.  A version set logs edits in its manifest, some of which may fail; the machine
may stop while an edit is being logged; and the directory may be opened again at any time.  In runs
whose steps leave only whole pieces in the manifest, the manifest always says what the version set
holds. -/

namespace MulanLsm

section Log

variable [Crc32c]

/-- A step of a version set and its directory. -/
inductive CommitStep
  /-- An edit is committed, with file-system calls that go as `outcomes` says. -/
  | commit (edit : VersionEdit) (outcomes : List Outcome)
  /-- The machine stops while `edit` is appended: `kept` of the bytes appended stay in the manifest,
  and the directory is opened again. -/
  | crash (edit : VersionEdit) (kept : Nat)
  /-- The directory is opened again. -/
  | reopen

/-- A version set and its directory. -/
abbrev VersionStore := VersionSet × Dir

/-- The version set recovered from the directory, with the directory then. -/
def reopened (d : Dir) : Option VersionStore :=
  match VersionSet.recover ((), ⟨d, []⟩) with
  | .ok vs (_, w) => some (vs, w.dir)
  | .error _ _ => none

/-- The state of the version set recovered from the directory. -/
def recovered (d : Dir) : Option VersionState := (reopened d).map (·.1.toVersionState)

/-- What a call of `write_new_version` leaves, however it ends. -/
def committed (edit : VersionEdit) (outcomes : List Outcome) (s : VersionStore) : VersionStore :=
  match VersionSet.writeNewVersion edit (s.1, ⟨s.2, outcomes⟩) with
  | .ok _ (vs, w) => (vs, w.dir)
  | .error _ (vs, w) => (vs, w.dir)

/-- The length of the manifest. -/
def manifestLength (s : VersionStore) : Nat :=
  match s.2.lookup (.manifest s.1.manifestNumber) with
  | some f => f.bytes.length
  | none => 0

/-- The directory after a crash in the append of `edit` that keeps `kept` of the bytes appended. -/
def cutAppend (edit : VersionEdit) (kept : Nat) (s : VersionStore) : Dir :=
  (committed edit [] s).2.change (.manifest s.1.manifestNumber) fun f =>
    { f with bytes := f.bytes.take (manifestLength s + kept) }

def CommitStep.run : CommitStep → VersionStore → Option VersionStore
  | commit edit outcomes, s => some (committed edit outcomes s)
  | crash edit kept, s => reopened (cutAppend edit kept s)
  | reopen, s => reopened s.2

/-- A new version set in `d`, with `CURRENT` naming its manifest. -/
def newManifest (number : Nat) (d : Dir) : Option VersionStore :=
  let create : St Unit VersionSet := do
    let vs ← VersionSet.newPending number
    writeCurrent number
    return vs
  match create ((), ⟨d, []⟩) with
  | .ok vs (_, w) => some (vs, w.dir)
  | .error _ _ => none

/-- The state after some steps. -/
def commitRun (steps : List CommitStep) (s : VersionStore) : Option VersionStore :=
  steps.foldlM (fun s step => step.run s) s

section Records

variable {A : Outcome → Prop} {w : WalWriter} {d : Dir} {name : FileName} {B : Bytes}
  {records : List Bytes}

/-- `name` is a log `B` of `records`, with the writer `w` at its end. -/
structure LogAt (w : WalWriter) (d : Dir) (name : FileName) (B : Bytes) (records : List Bytes) :
    Prop where
  writer : w.name = name
  has : ∃ synced, d.Has name B synced
  isLog : IsLog B records
  aligned : Aligned w B.length

/-- The log after `data` was appended. -/
def Logged (data : Bytes) (d : Dir) (name : FileName) (B : Bytes) (records : List Bytes)
    (w' : WalWriter) (d' : Dir) : Prop :=
  ∃ ps B', Pieces true data ps ∧ Written B ps B' ∧ LogAt w' d' name B' (records ++ [data]) ∧
    d.Frame {name} d'

/-- The log after an append of `data` that failed with `f`. -/
def NotLogged (A : Outcome → Prop) (data : Bytes) (d : Dir) (name : FileName) (B : Bytes)
    (records : List Bytes) (f : Fault) (w' : WalWriter) (d' : Dir) : Prop :=
  ∃ ps1 ps2 B1 chunk n synced, (Pieces true data (ps1 ++ ps2) ∧ ps2 ≠ [] ∧ Written B ps1 B1 ∧
    IsLog B1 records ∧ w'.name = name ∧ Aligned w' B1.length ∧ Chunk B1 ps2 chunk) ∧
    Broken A n f ∧ d'.Has name (B1 ++ chunk.take n) synced ∧ d.SameSynced name d' ∧
    d.Frame {name} d'

theorem LogAt.addRecord_spec (h : LogAt w d name B records) (data : Bytes) :
    Spec A (WalWriter.addRecord data)
      (fun _ w' d' => Logged data d name B records w' d' ∧ d.SameSynced name d')
      (fun f => NotLogged A data d name B records f) w d := by
  obtain ⟨rfl, ⟨synced, hHas⟩, hLog, hAl⟩ := h
  have hSame : ∀ {B' d'}, Dir.Has d' w.name B' synced → d.SameSynced w.name d' := by
    rintro B' d' ⟨f', hf', -, hs'⟩
    obtain ⟨f, hf, -, hs⟩ := hHas
    exact ⟨f, f', hf, hf', hs'.trans hs.symm⟩
  refine (MulanLsm.addRecord_spec hHas hAl).mono ?_ ?_
  · rintro - w' d' ⟨ps, B', hPieces, hEnded, hName, hAl', hHas', hFrame⟩
    have hW := hEnded.written
    exact ⟨⟨ps, B', hPieces, hW, ⟨hName, ⟨synced, hHas'⟩, hLog.append hPieces hW, hAl'⟩, hFrame⟩,
      hSame hHas'⟩
  · rintro f w' d' ⟨ps1, ps2, B1, chunk, n, hPieces, hne, hW, hName, hAl', hBroken, hChunk, hHas',
      hFrame⟩
    exact ⟨ps1, ps2, B1, chunk, n, synced, ⟨hPieces, hne, hW, hLog.append_init hPieces hne hW,
      hName, hAl', hChunk⟩, hBroken, hHas', hSame hHas', hFrame⟩

theorem LogAt.sync_spec (h : LogAt w d name B records) :
    Spec A WalWriter.sync
      (fun _ w' d' => w' = w ∧ LogAt w d' name B records ∧ d'.Has name B B.length ∧
        d.Frame {name} d')
      (fun f w' d' => w' = w ∧ d' = d ∧ Fails A f) w d := by
  obtain ⟨rfl, ⟨synced, hHas⟩, hLog, hAl⟩ := h
  exact Spec.bind (Spec.self (Spec.syncAll hHas
    (fun d' hHas' hFrame => ⟨rfl, ⟨rfl, ⟨_, hHas'⟩, hLog, hAl⟩, hHas', hFrame⟩)
    fun n f hBroken => ⟨rfl, rfl, n, hBroken⟩))

/-- An edit is logged and on the disk once `append` returns.  Where `append` fails, it is logged as
well if only the sync failed. -/
theorem LogAt.append_spec {mw : ManifestWriter} (h : LogAt mw.wal d name B records)
    (edit : VersionEdit) :
    Spec A (ManifestWriter.append edit)
      (fun _ mw' d' => Logged edit.encode d name B records mw'.wal d' ∧ d'.Synced name)
      (fun f mw' d' => NotLogged A edit.encode d name B records f mw'.wal d' ∨
        Logged edit.encode d name B records mw'.wal d' ∧ d.SameSynced name d' ∧ Fails A f)
      mw d := by
  refine Spec.bind (Spec.onField ((h.addRecord_spec edit.encode).mono ?_ ?_))
  · rintro - w' d' ⟨⟨ps, B', hPieces, hW, hAt, hFrame⟩, hSame⟩
    refine Spec.onField (hAt.sync_spec.mono ?_ ?_)
    · rintro - w'' d'' ⟨rfl, hAt', hHas', hFrame'⟩
      exact ⟨⟨ps, B', hPieces, hW, hAt', hFrame.trans hFrame'⟩, B', hHas'⟩
    · rintro f w'' d'' ⟨rfl, rfl, hFails⟩
      exact .inr ⟨⟨ps, B', hPieces, hW, hAt, hFrame⟩, hSame, hFails⟩
  · intro f w' d' hNot
    exact .inl hNot

end Records

/-- The directory's manifest says `state`. -/
def Says (d : Dir) (number : Nat) (state : VersionState) : Prop :=
  d.Names number ∧ ∃ B synced edits, d.Has (.manifest number) B synced ∧
    (readRecords B).mapM VersionEdit.decode = .ok edits ∧
    VersionState.empty.replay edits = .ok state

/-- A version set whose manifest says what it holds, and whose writer is at the manifest's end. -/
def InStep (s : VersionStore) : Prop :=
  s.2.Names s.1.manifestNumber ∧ ∃ B records edits,
    LogAt s.1.manifestWriter.wal s.2 (.manifest s.1.manifestNumber) B records ∧
    records.mapM VersionEdit.decode = .ok edits ∧
    VersionState.empty.replay edits = .ok s.1.toVersionState

theorem InStep.said {s : VersionStore} (h : InStep s) :
    Says s.2 s.1.manifestNumber s.1.toVersionState := by
  obtain ⟨hNames, B, records, edits, hAt, hDecode, hReplay⟩ := h
  obtain ⟨synced, hHas⟩ := hAt.has
  exact ⟨hNames, B, synced, edits, hHas, by rw [hAt.isLog.readRecords]; exact hDecode, hReplay⟩

theorem Says.recover_spec {A : Outcome → Prop} {σ : Type} {x : σ} {d : Dir} {number : Nat}
    {state : VersionState} {B : Bytes} {synced : Nat} (h : Says d number state)
    (hHas : d.Has (.manifest number) B synced) :
    Spec A (VersionSet.recover : St σ VersionSet)
      (fun vs y d' => y = x ∧ d' = d ∧ vs = {
        toVersionState := state
        manifestNumber := number
        manifestWriter := { wal := {
          name := .manifest number
          blockOffset := B.length % blockSize } }
        snapshots := [] })
      (fun f y d' => y = x ∧ d' = d ∧ Fails A f) x d := by
  obtain ⟨⟨f, hf, hName⟩, B', synced', edits, hHas', hDecode, hReplay⟩ := h
  have hB : B' = B := (hHas'.unique hHas).1
  subst hB
  have hFail : ∀ (n : Nat) (f : Fault), Broken A n f → x = x ∧ d = d ∧ Fails A f :=
    fun n _ h => ⟨rfl, rfl, n, h⟩
  refine Spec.bind (Spec.bind (Spec.bind (Spec.readFile ⟨f, hf, rfl, rfl⟩ ?_ hFail)))
  simp only [hName]
  refine Spec.pure (Spec.bind (Spec.readFile hHas ?_ hFail))
  rw [hDecode]
  refine Spec.bind (Spec.pure (Spec.pure ?_))
  simp only [hReplay]
  refine Spec.bind (Spec.pure (Spec.bind (Spec.bind ((createAt_spec hHas).mono ?_
    fun _ _ _ h => h))))
  rintro w y d' ⟨rfl, rfl, rfl⟩
  exact Spec.pure (Spec.pure ⟨rfl, rfl, rfl⟩)

/-- A directory whose manifest says a state is opened with that state. -/
theorem Says.reopened {d : Dir} {number : Nat} {state : VersionState} (h : Says d number state) :
    ∃ vs, reopened d = some (vs, d) ∧ vs.toVersionState = state ∧ Says d number state ∧
      vs.manifestNumber = number ∧ ∀ B synced records, d.Has (.manifest number) B synced →
        IsLog B records → LogAt vs.manifestWriter.wal d (.manifest number) B records := by
  obtain ⟨B, synced, edits, hHas, -, -⟩ := h.2
  obtain ⟨vs, ⟨⟩, w, hRun, -, hDir, hVs⟩ :=
    ((h.recover_spec (x := ()) hHas).quiet fun _ _ _ hE => hE.2.2).run
  refine ⟨vs, by rw [MulanLsm.reopened, hRun]; simp only [hDir], by rw [hVs], h, by rw [hVs], ?_⟩
  intro B' synced' records hHas' hLog
  have hB : B' = B := (hHas'.unique hHas).1
  subst hB
  rw [hVs]
  exact ⟨rfl, ⟨synced, hHas⟩, hLog, aligned_create _ _⟩

theorem Says.recovered {d : Dir} {number : Nat} {state : VersionState} (h : Says d number state) :
    recovered d = some state := by
  obtain ⟨vs, hOpen, hState, -⟩ := h.reopened
  rw [MulanLsm.recovered, hOpen, Option.map_some, hState]

section Commits

variable {A : Outcome → Prop} {vs : VersionSet} {d : Dir} {B : Bytes} {records : List Bytes}
  {edit : VersionEdit}

/-- What a call of `write_new_version` comes to.  It returns once the edit is logged, applies, and
sets pointers at levels that are there; else it leaves the live state as it was, or panics with what
the edit does up to the pointer that it panics at. -/
theorem writeNewVersion_spec
    (h : LogAt vs.manifestWriter.wal d (.manifest vs.manifestNumber) B records)
    (edit : VersionEdit) :
    Spec A (VersionSet.writeNewVersion edit)
      (fun _ vs' d' =>
        Logged edit.encode d (.manifest vs.manifestNumber) B records vs'.manifestWriter.wal d' ∧
        vs.toVersionState.replayEdit edit = .ok vs'.toVersionState ∧
        SameLive { vs with toVersionState := vs'.toVersionState } vs' ∧
        d'.Synced (.manifest vs.manifestNumber))
      (fun f vs' d' =>
        NotLogged A edit.encode d (.manifest vs.manifestNumber) B records f
          vs'.manifestWriter.wal d' ∧ SameLive vs vs' ∨
        Logged edit.encode d (.manifest vs.manifestNumber) B records vs'.manifestWriter.wal d' ∧
          ((Fails A f ∧ d.SameSynced (.manifest vs.manifestNumber) d') ∧ SameLive vs vs' ∨
            (¬∃ v, vs.current.applyEdit edit = .ok v) ∧ SameLive vs vs' ∨
            (¬∀ p ∈ edit.compactPointers, p.1 < numLevels) ∧
              vs.toVersionState.replayEdit edit.upToPanic = .ok vs'.toVersionState ∧
              SameLive { vs with toVersionState := vs'.toVersionState } vs')) vs d := by
  refine Spec.bind (Spec.onField ((h.append_spec edit).mono ?_ ?_))
  · rintro - mw d' ⟨hLogged, hSynced⟩
    refine Spec.bind (Spec.self (Spec.bind (Spec.ofResult ?_ ?_)))
    · intro v hv
      refine Spec.bind (Spec.update
        (Spec.bind ((VersionSet.setPointers_spec edit.compactPointers).mono ?_ ?_)))
      · rintro - vs' d' ⟨rfl, -, rfl⟩
        refine Spec.bind (Spec.self (Spec.pure ⟨hLogged, ?_, rfl, hSynced⟩))
        simp only [VersionState.replayEdit, hv]
        rfl
      · rintro f vs' d' ⟨rfl, rfl, hps, rfl⟩
        refine .inr ⟨hLogged, .inr (.inr ⟨hps, ?_, rfl⟩)⟩
        have hv' : vs.current.applyEdit edit.upToPanic = .ok v := hv
        simp only [VersionState.replayEdit, hv']
        rfl
    · intro e he
      refine .inr ⟨hLogged, .inr (.inl ⟨?_, rfl⟩)⟩
      rintro ⟨v, hv⟩
      rw [hv] at he
      contradiction
  · rintro f mw d' (hNot | ⟨hLogged, hSame, hFails⟩)
    · exact .inl ⟨hNot, rfl⟩
    · exact .inr ⟨hLogged, .inl ⟨⟨hFails, hSame⟩, rfl⟩⟩

/-- The append of the edit's record fails. -/
def appendFails (edit : VersionEdit) (outcomes : List Outcome) (s : VersionStore) : Bool :=
  match WalWriter.addRecord edit.encode (s.1.manifestWriter.wal, ⟨s.2, outcomes⟩) with
  | .ok _ _ => false
  | .error _ _ => true

/-- The edit changes nothing, neither whole nor up to the pointer that it panics at. -/
def Neutral (edit : VersionEdit) (s : VersionState) : Prop :=
  s.replayEdit edit = .ok s ∧ s.replayEdit edit.upToPanic = .ok s

/-- A call succeeds, or fails without a byte written. -/
def Clean (o : Outcome) : Prop := o = .ok ∨ o = .fail 0

/-- No call fails and the edit names only levels that are there; or writing the record fails, and of
the write that failed no byte is left; or the edit changes nothing. -/
def HarmlessCommit (edit : VersionEdit) (outcomes : List Outcome) (s : VersionStore) : Prop :=
  (∀ o ∈ outcomes, o = .ok) ∧ edit.Storable ∧ edit.InRange ∨
    (∀ o ∈ outcomes, Clean o) ∧ appendFails edit outcomes s ∨
    (∀ o ∈ outcomes, Clean o) ∧ edit.Storable ∧ Neutral edit s.1.toVersionState

theorem NotLogged.logAt {f : Fault} {w' : WalWriter} {d' : Dir} {data : Bytes}
    {name : FileName} (h : NotLogged Clean data d name B records f w' d') :
    ∃ B', LogAt w' d' name B' records ∧ d.Frame {name} d' := by
  obtain ⟨ps1, ps2, B1, chunk, n, synced, ⟨-, -, -, hLog, hName, hAl, -⟩, hBroken, hHas, -,
    hFrame⟩ := h
  have hn : n = 0 := by
    unfold Broken Clean at hBroken
    split at hBroken <;> simp_all
  subst hn
  rw [List.take_zero, List.append_nil] at hHas
  exact ⟨B1, ⟨hName, ⟨synced, hHas⟩, hLog, hAl⟩, hFrame⟩

/-- Where a record was not logged and no byte of it is left, the manifest says what it said. -/
theorem NotLogged.inStep {vs' : VersionSet} {d' : Dir} {f : Fault} {edits : List VersionEdit}
    (hNames : d.Names vs.manifestNumber)
    (h : NotLogged Clean edit.encode d (.manifest vs.manifestNumber) B records f
      vs'.manifestWriter.wal d')
    (hDecode : records.mapM VersionEdit.decode = .ok edits)
    (hReplay : VersionState.empty.replay edits = .ok vs.toVersionState) (hSame : SameLive vs vs') :
    InStep (vs', d') := by
  obtain ⟨B', hAt, hFrame⟩ := h.logAt
  obtain ⟨hState, hNumber⟩ := hSame.state
  exact ⟨hNumber ▸ hNames.frame hFrame, B', records, edits, hNumber ▸ hAt, hDecode,
    hState ▸ hReplay⟩

/-- Once an edit is logged, the manifest says what replaying it gives. -/
theorem Logged.inStep {vs' : VersionSet} {d' : Dir} {edits : List VersionEdit}
    (hNames : d.Names vs.manifestNumber)
    (h : Logged edit.encode d (.manifest vs.manifestNumber) B records vs'.manifestWriter.wal d')
    (hDecode : records.mapM VersionEdit.decode = .ok edits)
    (hReplay : VersionState.empty.replay edits = .ok vs.toVersionState) (hEdit : edit.Storable)
    (hState : vs.toVersionState.replayEdit edit = .ok vs'.toVersionState)
    (hNumber : vs'.manifestNumber = vs.manifestNumber) : InStep (vs', d') := by
  obtain ⟨ps, B', -, -, hAt, hFrame⟩ := h
  refine ⟨hNumber ▸ hNames.frame hFrame, B', _, edits ++ [edit], hNumber ▸ hAt, ?_, ?_⟩
  · exact List.mapM_append_singleton hDecode (VersionEdit.decode_encode hEdit)
  · exact VersionState.replay_append hReplay hState

/-- The two ways a commit keeps manifest and version set in step: it returns, or it leaves the
version set as it was. -/
theorem committed_ok {outcomes : List Outcome} {v : Version} {vs' : VersionSet} {w : World}
    (hRun : VersionSet.writeNewVersion edit (vs, ⟨d, outcomes⟩) = .ok v (vs', w))
    (hIn : InStep (vs', w.dir)) :
    InStep (committed edit outcomes (vs, d)) ∧
      ∀ f s', VersionSet.writeNewVersion edit (vs, ⟨d, outcomes⟩) = .error f s' →
        SameLive vs s'.1 := by
  rw [committed, hRun]
  refine ⟨hIn, ?_⟩
  intro f s' h
  contradiction

theorem committed_error {outcomes : List Outcome} {f : Fault} {vs' : VersionSet} {w : World}
    (hRun : VersionSet.writeNewVersion edit (vs, ⟨d, outcomes⟩) = .error f (vs', w))
    (hIn : InStep (vs', w.dir)) (hSame : SameLive vs vs') :
    InStep (committed edit outcomes (vs, d)) ∧
      ∀ f s', VersionSet.writeNewVersion edit (vs, ⟨d, outcomes⟩) = .error f s' →
        SameLive vs s'.1 := by
  rw [committed, hRun]
  refine ⟨hIn, ?_⟩
  intro f' s' h
  cases h
  exact hSame

end Commits

/-- A harmless commit keeps manifest and version set in step, and one that does not return leaves
the version set as it was. -/
theorem HarmlessCommit.spec {s : VersionStore} {edit : VersionEdit} {outcomes : List Outcome}
    (h : HarmlessCommit edit outcomes s) (hs : InStep s) :
    InStep (committed edit outcomes s) ∧
      ∀ f s', VersionSet.writeNewVersion edit (s.1, ⟨s.2, outcomes⟩) = .error f s' →
        SameLive s.1 s'.1 := by
  obtain ⟨vs, d⟩ := s
  obtain ⟨hNames, B, records, edits, hAt, hDecode, hReplay⟩ := hs
  simp only at hNames hAt hReplay
  rcases h with ⟨hQuiet, hEdit, hRange⟩ | ⟨hClean, hFails⟩ | ⟨hClean, hEdit, hNeutral, hUpTo⟩
  · rcases (writeNewVersion_spec hAt edit).result hQuiet with
      ⟨v, vs', w, hRun, hLogged, hState, hSame, -⟩ | ⟨f, vs', w, hRun, hErr⟩
    · exact committed_ok hRun (hLogged.inStep hNames hDecode hReplay hEdit hState hSame.state.2)
    · exfalso
      obtain ⟨v, hv⟩ := hRange.applyEdit vs.current
      rcases hErr with ⟨⟨_, _, _, _, n, _, _, hBroken, _⟩, -⟩ |
        ⟨-, ⟨⟨⟨n, hBroken⟩, -⟩, -⟩ | ⟨hNot, -⟩ | ⟨hNot, -⟩⟩
      · exact not_broken_quiet hBroken
      · exact not_broken_quiet hBroken
      · exact hNot ⟨v, hv⟩
      · exact hNot hRange.2.2
  · obtain ⟨f, wal, w, hAppend⟩ : ∃ f wal w,
        WalWriter.addRecord edit.encode (vs.manifestWriter.wal, ⟨d, outcomes⟩) =
          .error f (wal, w) := by
      unfold appendFails at hFails
      split at hFails
      · contradiction
      · next f s' h => exact ⟨f, s'.1, s'.2, h⟩
    have hNot : NotLogged Clean edit.encode d (.manifest vs.manifestNumber) B records f wal
        w.dir := by
      rcases (hAt.addRecord_spec edit.encode).result hClean with ⟨_, _, _, hRun, -⟩ |
        ⟨f', wal', w', hRun, hNot⟩
      · simp [hRun] at hAppend
      · rw [hRun] at hAppend
        cases hAppend
        exact hNot
    have hRun : VersionSet.writeNewVersion edit (vs, ⟨d, outcomes⟩) =
        .error f ({ vs with manifestWriter := { vs.manifestWriter with wal } }, w) :=
      bind_error (onField_error (bind_error (onField_error hAppend)))
    exact committed_error hRun (hNot.inStep hNames hDecode hReplay rfl) rfl
  · rcases (writeNewVersion_spec hAt edit).result hClean with
      ⟨v, vs', w, hRun, hLogged, hState, hSame, -⟩ | ⟨f, vs', w, hRun, hErr⟩
    · exact committed_ok hRun (hLogged.inStep hNames hDecode hReplay hEdit hState hSame.state.2)
    · rcases hErr with ⟨hNot, hSame⟩ | ⟨hLogged, hErr⟩
      · exact committed_error hRun (hNot.inStep hNames hDecode hReplay hSame) hSame
      · have hSame : SameLive vs vs' := by
          rcases hErr with ⟨-, hSame⟩ | ⟨-, hSame⟩ | ⟨-, hState, hSame⟩
          · exact hSame
          · exact hSame
          · rw [hUpTo] at hState
            exact hSame.of_state (Except.ok.inj hState).symm
        have hState : vs.toVersionState.replayEdit edit = .ok vs'.toVersionState := by
          rw [hSame.state.1]
          exact hNeutral
        exact committed_error hRun
          (hLogged.inStep hNames hDecode hReplay hEdit hState hSame.state.2) hSame

/-- A new manifest says what its version set holds. -/
theorem newManifest_inStep {number : Nat} {d : Dir} (hNumber : number < 2 ^ 64)
    (hAbsent : .manifest number ∉ d) : ∃ s, newManifest number d = some s ∧ InStep s := by
  have hQuiet : ∀ (n : Nat) (f : Fault) (d : Dir), Broken Quiet n f → Never f () d :=
    fun _ _ _ h => not_broken_quiet h
  have hHas : Dir.Has (d.insert (.manifest number) .empty) (.manifest number) [] 0 :=
    ⟨_, AList.lookup_insert _, rfl, rfl⟩
  have hSpec : Spec Quiet
      (do let vs ← VersionSet.newPending number
          writeCurrent number
          return vs : St Unit VersionSet)
      (fun vs _ d' => InStep (vs, d')) Never () d := by
    refine Spec.bind (Spec.bind (Spec.bind (Spec.bind (Spec.call ?_ fun n f h => hQuiet n f d h))))
    rw [if_neg hAbsent]
    refine Spec.bind (Spec.fileLen hHas (Spec.pure (Spec.pure (Spec.pure (Spec.bind
      ((writeCurrent_spec hNumber).mono ?_ fun _ _ _ h => not_fails_quiet h.2.1)))))
      fun n f h => hQuiet n f _ h)
    rintro - - d' ⟨-, hNames, -, hFrame⟩
    exact Spec.pure ⟨hNames, [], [], [], ⟨rfl, ⟨0, hHas.frame hFrame (by simp)⟩, .nil,
      Nat.zero_le _, rfl⟩, rfl, rfl⟩
  obtain ⟨vs, ⟨⟩, w, hRun, hIn⟩ := hSpec.run
  exact ⟨(vs, w.dir), by simp only [newManifest, hRun], hIn⟩

/-- A step that keeps the manifest in step with the version set: a harmless commit, a crash that
leaves whole pieces, or a clean opening. -/
def CommitStep.Sound : CommitStep → VersionStore → Prop
  | commit edit outcomes, s => HarmlessCommit edit outcomes s
  | crash edit kept, s => edit.Storable ∧ edit.InRange ∧
      ∃ f ps, (cutAppend edit kept s).lookup (.manifest s.1.manifestNumber) = some f ∧
        Written [] ps f.bytes
  | reopen, _ => True

/-- Every step is sound in the state that it starts in. -/
def SoundRun : List CommitStep → VersionStore → Prop
  | [], _ => True
  | step :: steps, s => step.Sound s ∧ ∀ s', step.run s = some s' → SoundRun steps s'

/-- The manifest after a crash in the append of an edit: the log, cut past what it held before. -/
theorem InStep.cutAppend {s : VersionStore} {B : Bytes} {records : List Bytes}
    (hAt : LogAt s.1.manifestWriter.wal s.2 (.manifest s.1.manifestNumber) B records)
    (edit : VersionEdit) (kept : Nat) :
    ∃ ps B' synced, Pieces true edit.encode ps ∧ Written B ps B' ∧
      (cutAppend edit kept s).Has (.manifest s.1.manifestNumber)
        (B'.take (B.length + kept)) synced ∧
      s.2.Frame {.manifest s.1.manifestNumber} (MulanLsm.cutAppend edit kept s) := by
  obtain ⟨vs, d⟩ := s
  have hLength : manifestLength (vs, d) = B.length := by
    obtain ⟨synced, f, hf, rfl, -⟩ := hAt.has
    simp only [manifestLength, hf]
  have hLogged : Logged edit.encode d (.manifest vs.manifestNumber) B records
      (committed edit [] (vs, d)).1.manifestWriter.wal (committed edit [] (vs, d)).2 := by
    rcases ((writeNewVersion_spec hAt edit).result
        (by simp : ∀ o ∈ ([] : List Outcome), Quiet o)) with
      ⟨v, vs', w, hRun, hLogged, -⟩ | ⟨f, vs', w, hRun, hErr⟩
    · rw [committed, hRun]
      exact hLogged
    · rw [committed, hRun]
      rcases hErr with ⟨⟨_, _, _, _, n, _, _, hBroken, _⟩, -⟩ | ⟨hLogged, -⟩
      · exact absurd hBroken not_broken_quiet
      · exact hLogged
  obtain ⟨ps, B', hPieces, hW, hAt', hFrame⟩ := hLogged
  obtain ⟨synced, f, hf, rfl, rfl⟩ := hAt'.has
  refine ⟨ps, f.bytes, f.synced, hPieces, hW, ?_, ?_⟩
  · rw [MulanLsm.cutAppend, Dir.change_eq hf, hLength]
    exact ⟨_, AList.lookup_insert _, rfl, rfl⟩
  · rw [MulanLsm.cutAppend, Dir.change_eq hf]
    exact hFrame.trans (Dir.Frame.insert (Set.mem_singleton _) _ _)

/-- A crash in the append of an edit leaves the manifest saying the state before it or after it. -/
theorem InStep.crash_spec {s : VersionStore} (hs : InStep s) {edit : VersionEdit}
    (hEdit : edit.Storable) (hRange : edit.InRange) (kept : Nat) :
    ∃ state, Says (MulanLsm.cutAppend edit kept s) s.1.manifestNumber state ∧
      (state = s.1.toVersionState ∨ s.1.toVersionState.replayEdit edit = .ok state) := by
  obtain ⟨hNames, B, records, edits, hAt, hDecode, hReplay⟩ := hs
  obtain ⟨ps, B', synced, hPieces, hW, hHas, hFrame⟩ := InStep.cutAppend hAt edit kept
  obtain ⟨v, hv⟩ := hRange.applyEdit s.1.current
  obtain ⟨state', hState'⟩ : ∃ state', s.1.toVersionState.replayEdit edit = .ok state' := by
    simp only [VersionState.replayEdit, hv]
    exact ⟨_, rfl⟩
  have hWithout : ∀ T, readRecords T = records → T = B'.take (B.length + kept) →
      Says (MulanLsm.cutAppend edit kept s) s.1.manifestNumber s.1.toVersionState := by
    rintro T hT rfl
    exact ⟨hNames.frame hFrame, _, synced, edits, hHas, by rw [hT]; exact hDecode, hReplay⟩
  rcases hAt.isLog.take hPieces hW (Nat.le_add_right B.length kept) with (hLog | hLog) | hRead
  · exact ⟨_, hWithout _ hLog.readRecords rfl, .inl rfl⟩
  · refine ⟨state', ⟨hNames.frame hFrame, _, synced, edits ++ [edit], hHas, ?_, ?_⟩, .inr hState'⟩
    · rw [hLog.readRecords]
      exact List.mapM_append_singleton hDecode (VersionEdit.decode_encode hEdit)
    · exact VersionState.replay_append hReplay hState'
  · exact ⟨_, hWithout _ hRead rfl, .inl rfl⟩

/-- A directory whose manifest is a log of whole pieces is opened in step with it. -/
theorem Says.reopened_inStep {d : Dir} {number : Nat} {state : VersionState}
    (h : Says d number state) {f : File} {ps : List Piece}
    (hf : d.lookup (.manifest number) = some f) (hW : Written [] ps f.bytes) :
    ∃ s, MulanLsm.reopened d = some s ∧ InStep s := by
  obtain ⟨vs, hOpen, hState, ⟨hNames, B, synced, edits, hHas, hDecode, hReplay⟩, hNumber, hAt⟩ :=
    h.reopened
  have hB : B = f.bytes := (hHas.unique ⟨f, hf, rfl, rfl⟩).1
  subst hB
  have hLog : IsLog f.bytes (readRecords f.bytes) := ⟨ps, hW, hW.readRecords.symm⟩
  subst hState hNumber
  exact ⟨_, hOpen, hNames, _, _, edits, hAt _ _ _ hHas hLog, hDecode, hReplay⟩

/-- A sound step ends in step. -/
theorem CommitStep.Sound.inStep {step : CommitStep} {s : VersionStore} (h : step.Sound s)
    (hs : InStep s) : ∃ s', step.run s = some s' ∧ InStep s' := by
  cases step with
  | commit edit outcomes => exact ⟨_, rfl, (HarmlessCommit.spec h hs).1⟩
  | crash edit kept =>
    obtain ⟨hEdit, hRange, f, ps, hf, hW⟩ := h
    obtain ⟨state, hSays, -⟩ := hs.crash_spec hEdit hRange kept
    exact hSays.reopened_inStep hf hW
  | reopen =>
    obtain ⟨-, B, records, -, hAt, -, -⟩ := id hs
    obtain ⟨-, f, hf, rfl, -⟩ := hAt.has
    obtain ⟨ps, hW, -⟩ := hAt.isLog
    exact hs.said.reopened_inStep hf hW

/-- A run of sound steps ends in step. -/
theorem SoundRun.inStep {steps : List CommitStep} {s : VersionStore} (h : SoundRun steps s)
    (hs : InStep s) : ∃ s', commitRun steps s = some s' ∧ InStep s' := by
  induction steps generalizing s with
  | nil => exact ⟨s, rfl, hs⟩
  | cons step steps ih =>
    obtain ⟨s1, hRun, hs1⟩ := h.1.inStep hs
    obtain ⟨s2, hRun2, hs2⟩ := ih (h.2 s1 hRun) hs1
    exact ⟨s2, by rw [commitRun, List.foldlM_cons, hRun]; exact hRun2, hs2⟩

end Log

/-- Where the manifest is cut only between pieces before more is written to it, it always says the
live state.  A last crash may cut it anywhere: it then says the state before or after the edit that
was being appended. -/
theorem commits_survive_crashes [Crc32c] {number : Nat} {d : Dir} {s0 : VersionStore}
    {steps : List CommitStep} (hNumber : number < 2 ^ 64) (hAbsent : .manifest number ∉ d)
    (hNew : newManifest number d = some s0) (hSteps : SoundRun steps s0) :
    ∃ s, commitRun steps s0 = some s ∧ recovered s.2 = some s.1.toVersionState ∧
      ∀ (edit : VersionEdit) (kept : Nat), edit.Storable → edit.InRange →
        ∃ s', (CommitStep.crash edit kept).run s = some s' ∧
          recovered s'.2 = some s'.1.toVersionState ∧
          (s'.1.toVersionState = s.1.toVersionState ∨
            s.1.toVersionState.replayEdit edit = .ok s'.1.toVersionState) := by
  obtain ⟨s0', hNew', hs0⟩ := newManifest_inStep hNumber hAbsent
  obtain rfl : s0' = s0 := Option.some.inj (hNew'.symm.trans hNew)
  obtain ⟨s, hRun, hs⟩ := hSteps.inStep hs0
  refine ⟨s, hRun, hs.said.recovered, fun edit kept hEdit hRange => ?_⟩
  obtain ⟨state, hSays, hState⟩ := hs.crash_spec hEdit hRange kept
  obtain ⟨vs, hOpen, rfl, -⟩ := hSays.reopened
  exact ⟨_, hOpen, hSays.recovered, hState⟩

/-- A commit, a crash that keeps nothing of the next one, and a commit after it. -/
theorem commits_survive_crashes_thrice :
    ∃ s0, newManifest 1 ∅ = some s0 ∧ ∃ s,
      commitRun [.commit { logNumber := some 5 } [], .crash { logNumber := some 6 } 0,
        .commit { logNumber := some 7 } []] s0 = some s ∧
      recovered s.2 = some s.1.toVersionState := by
  obtain ⟨s0, hNew, hs0⟩ := newManifest_inStep (d := ∅) (show 1 < 2 ^ 64 by decide) (by simp)
  have hCommit : ∀ n < 2 ^ 64, ∀ s, (CommitStep.commit { logNumber := some n } []).Sound s :=
    fun n hn s => .inl ⟨by simp, logNumber_storable hn, logNumber_inRange n⟩
  have hCrash : ∀ s, InStep s → (CommitStep.crash { logNumber := some 6 } 0).Sound s := by
    intro s hs
    obtain ⟨-, B, records, -, hAt, -⟩ := hs
    obtain ⟨ps, B', synced, -, hW, ⟨f, hf, hBytes, -⟩, -⟩ :=
      InStep.cutAppend hAt { logNumber := some 6 } 0
    obtain ⟨ps0, hW0, -⟩ := hAt.isLog
    obtain ⟨rest, rfl⟩ := hW.isPrefix
    refine ⟨logNumber_storable (by decide), logNumber_inRange 6, f, ps0, hf, ?_⟩
    rw [hBytes, Nat.add_zero, List.take_left' rfl]
    exact hW0
  have hSteps : SoundRun [.commit { logNumber := some 5 } [], .crash { logNumber := some 6 } 0,
      .commit { logNumber := some 7 } []] s0 :=
    ⟨hCommit 5 (by decide) s0, fun s1 h1 => by
      obtain ⟨s1', h1', hs1⟩ := (hCommit 5 (by decide) s0).inStep hs0
      obtain rfl : s1' = s1 := Option.some.inj (h1'.symm.trans h1)
      exact ⟨hCrash s1' hs1, fun s2 _ => ⟨hCommit 7 (by decide) s2, fun _ _ => trivial⟩⟩⟩
  obtain ⟨s, hRun, hSays, -⟩ := commits_survive_crashes (by decide) (by simp) hNew hSteps
  exact ⟨s0, hNew, s, hRun, hSays⟩

/-- A commit after a crash that left three bytes of a piece in the manifest is lost. -/
theorem commit_after_torn_append_lost :
    ∃ s0, newManifest 1 ∅ = some s0 ∧ ∃ s,
      commitRun [.crash { logNumber := some 5 } 3, .commit { logNumber := some 6 } []] s0 = some s ∧
      s.1.logNumber = 6 ∧ recovered s.2 ≠ some s.1.toVersionState := by
  have h : ((newManifest 1 ∅).bind
      (commitRun [.crash { logNumber := some 5 } 3, .commit { logNumber := some 6 } []])).any
        (fun s => s.1.logNumber = 6 ∧ recovered s.2 ≠ some s.1.toVersionState) = true := by
    decide +kernel
  obtain ⟨s, hRun, hs⟩ := (Option.any_eq_true _ _).mp h
  obtain ⟨s0, hNew, hRun⟩ := Option.bind_eq_some_iff.mp hRun
  exact ⟨s0, hNew, s, hRun, of_decide_eq_true hs⟩

/-- In a sound run, the manifest says the live state after every step, and a commit that does not
return leaves the live state as it was. -/
theorem failed_commit_changes_nothing [Crc32c] {number : Nat} {d : Dir} {s0 : VersionStore}
    {steps : List CommitStep} (hNumber : number < 2 ^ 64) (hAbsent : .manifest number ∉ d)
    (hNew : newManifest number d = some s0) (hSteps : SoundRun steps s0) :
    ∃ s, commitRun steps s0 = some s ∧ recovered s.2 = some s.1.toVersionState ∧
      ∀ (edit : VersionEdit) (outcomes : List Outcome), HarmlessCommit edit outcomes s →
        ∀ f s', VersionSet.writeNewVersion edit (s.1, ⟨s.2, outcomes⟩) = .error f s' →
          SameLive s.1 s'.1 := by
  obtain ⟨s0', hNew', hs0⟩ := newManifest_inStep hNumber hAbsent
  obtain rfl : s0' = s0 := Option.some.inj (hNew'.symm.trans hNew)
  obtain ⟨s, hRun, hs⟩ := hSteps.inStep hs0
  exact ⟨s, hRun, hs.said.recovered, fun edit outcomes hEdit => (HarmlessCommit.spec hEdit hs).2⟩

/-- A harmless commit, one that fails without a trace, and a clean opening. -/
theorem failed_commit_changes_nothing_once :
    ∃ s0, newManifest 1 ∅ = some s0 ∧ ∃ s,
      commitRun [.commit { logNumber := some 5 } [], .commit { logNumber := some 6 } [.fail 0],
        .reopen] s0 = some s ∧
      recovered s.2 = some s.1.toVersionState := by
  obtain ⟨s0, hNew, -⟩ := newManifest_inStep (d := ∅) (show 1 < 2 ^ 64 by decide) (by simp)
  have hAll : (newManifest 1 ∅).all (fun s0 =>
      appendFails { logNumber := some 6 } [.fail 0] (committed { logNumber := some 5 } [] s0)) =
        true := by
    decide +kernel
  rw [hNew, Option.all_some] at hAll
  have hSteps : SoundRun [.commit { logNumber := some 5 } [],
      .commit { logNumber := some 6 } [.fail 0], .reopen] s0 := by
    refine ⟨.inl ⟨by simp, logNumber_storable (by decide), logNumber_inRange 5⟩, ?_⟩
    intro s1 h1
    obtain rfl : committed { logNumber := some 5 } [] s0 = s1 := Option.some.inj h1
    exact ⟨.inr (.inl ⟨by simp [Clean], hAll⟩), fun _ _ => ⟨trivial, fun _ _ => trivial⟩⟩
  obtain ⟨s, hRun, hSays, -⟩ := failed_commit_changes_nothing (by decide) (by simp) hNew hSteps
  exact ⟨s0, hNew, s, hRun, hSays⟩

/-- Where a failed commit leaves three bytes in the manifest, a later one is lost; where only the
sync of a commit fails, the next opening finds the commit; where an edit is rejected, there is no
next opening; and a commit that panics has changed the live state. -/
theorem failed_commit_leaves_traces :
    ∃ s0, newManifest 1 ∅ = some s0 ∧
      (∃ s, commitRun [.commit { logNumber := some 5 } [.fail 3],
        .commit { logNumber := some 6 } []] s0 = some s ∧ s.1.logNumber = 6 ∧
          recovered s.2 ≠ some s.1.toVersionState) ∧
      (∃ s, commitRun [.commit { logNumber := some 5 } [.ok, .fail 0]] s0 = some s ∧
        SameLive s0.1 s.1 ∧ recovered s.2 ≠ some s.1.toVersionState) ∧
      (∃ s, commitRun [.commit { deletedFiles := [⟨7, 1⟩] } []] s0 = some s ∧
        SameLive s0.1 s.1 ∧ recovered s.2 = none) ∧
      ∃ s, commitRun [.commit { logNumber := some 5, compactPointers := [(7, [1])] } []] s0 =
        some s ∧ ¬SameLive s0.1 s.1 := by
  have h : (newManifest 1 ∅).any (fun s0 =>
      (commitRun [.commit { logNumber := some 5 } [.fail 3],
        .commit { logNumber := some 6 } []] s0).any
          (fun s => s.1.logNumber = 6 ∧ recovered s.2 ≠ some s.1.toVersionState) ∧
      (commitRun [.commit { logNumber := some 5 } [.ok, .fail 0]] s0).any
          (fun s => SameLive s0.1 s.1 ∧ recovered s.2 ≠ some s.1.toVersionState) ∧
      (commitRun [.commit { deletedFiles := [⟨7, 1⟩] } []] s0).any
          (fun s => SameLive s0.1 s.1 ∧ recovered s.2 = none) ∧
      (commitRun [.commit { logNumber := some 5, compactPointers := [(7, [1])] } []] s0).any
          (fun s => ¬SameLive s0.1 s.1)) = true := by
    decide +kernel
  obtain ⟨s0, hNew, h⟩ := (Option.any_eq_true _ _).mp h
  simp only [Option.any_eq_true, decide_eq_true_eq] at h
  exact ⟨s0, hNew, h⟩

end MulanLsm
