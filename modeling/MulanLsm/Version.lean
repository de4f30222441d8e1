import Mathlib.Data.Fintype.Basic
import Mathlib.Logic.Function.Basic
import MulanLsm.Manifest

/-! Versions and the version set.  A version lists the table files of each level.  The version set
holds the current version and the numbers that go with it, and moves on by edits, each logged in the
manifest first; a manifest is replayed by applying its edits in order. -/

namespace MulanLsm

/-- Levels are 0 to 6. -/
def numLevels : Nat := 7

/-- The table files of each level. -/
structure Version where
  files : Fin numLevels → List FileMetaData
  deriving DecidableEq

/-- Some user key may be both in the file and between the bounds. -/
def userKeyOverlap (file : FileMetaData) (rangeSmallest rangeLargest : Bytes) : Bool :=
  if file.largest.userKey < rangeSmallest then false
  else if file.smallest.userKey > rangeLargest then false
  else true

namespace Version

def empty : Version := { files := fun _ => [] }

/-- The files of a level; past the last level there are none. -/
def filesAt (v : Version) (level : Nat) : List FileMetaData :=
  if h : level < numLevels then v.files ⟨level, h⟩ else []

def numFiles (v : Version) (level : Nat) : Nat := (v.filesAt level).length

/-- The sizes of the files of a level, added up in 64 bits. -/
def totalSize (v : Version) (level : Nat) : Nat :=
  ((v.filesAt level).map (·.fileSize)).sum % 2 ^ 64

def getOverlaps (v : Version) (level : Nat) (rangeSmallest rangeLargest : Bytes) :
    List FileMetaData :=
  (v.filesAt level).filter fun f => userKeyOverlap f rangeSmallest rangeLargest

/-- The version with the files of `level` changed. -/
def change (v : Version) (level : Fin numLevels) (f : List FileMetaData → List FileMetaData) :
    Version :=
  { files := Function.update v.files level (f (v.files level)) }

/-- The loop of `apply_edit` over the deleted files. -/
def deleteFiles (v : Version) : List DeletedFile → Result Version
  | [] => .ok v
  | d :: ds =>
    if h : d.level < numLevels then
      deleteFiles (v.change ⟨d.level, h⟩ fun files => files.filter (·.number ≠ d.number)) ds
    else .error (.corrupted s!"deleted file level {d.level} out of range")

/-- The loop of `apply_edit` over the new files. -/
def addFiles (v : Version) : List NewFile → Result Version
  | [] => .ok v
  | f :: fs =>
    if h : f.level < numLevels then
      addFiles (v.change ⟨f.level, h⟩ fun files => files ++ [f.fileMeta]) fs
    else .error (.corrupted s!"new file level {f.level} out of range")

/-- The version after an edit: the deleted files go first, then the new ones come. -/
def applyEdit (base : Version) (edit : VersionEdit) : Result Version := do
  let files ← base.deleteFiles edit.deletedFiles
  files.addFiles edit.newFiles

end Version

/-- What a manifest says: the version, its numbers, and where the next compaction of each level
starts. -/
structure VersionState where
  current : Version
  logNumber : Nat
  prevLogNumber : Nat
  nextFileNumber : Nat
  lastSequence : Nat
  compactPointer : Fin numLevels → Bytes
  deriving DecidableEq

namespace VersionState

def empty : VersionState :=
  { current := .empty, logNumber := 0, prevLogNumber := 0, nextFileNumber := 0, lastSequence := 0
    compactPointer := fun _ => [] }

/-- The state with the version `v` and the numbers that `edit` sets. -/
def setNumbers (s : VersionState) (v : Version) (edit : VersionEdit) : VersionState :=
  { s with
    current := v
    logNumber := edit.logNumber.getD s.logNumber
    prevLogNumber := edit.prevLogNumber.getD s.prevLogNumber
    nextFileNumber := edit.nextFileNumber.getD s.nextFileNumber
    lastSequence := edit.lastSequence.getD s.lastSequence }

/-- The state with a pointer set, unless there is no such level. -/
def setPointer (s : VersionState) (p : Nat × Bytes) : VersionState :=
  if h : p.1 < numLevels then
    { s with compactPointer := Function.update s.compactPointer ⟨p.1, h⟩ p.2 }
  else s

/-- The state after an edit of the manifest. -/
def replayEdit (s : VersionState) (edit : VersionEdit) : Result VersionState := do
  let v ← s.current.applyEdit edit
  return edit.compactPointers.foldl setPointer (s.setNumbers v edit)

/-- The state after the edits of a manifest. -/
def replay (s : VersionState) (edits : List VersionEdit) : Result VersionState :=
  edits.foldlM replayEdit s

end VersionState

/-- The state of the database with its manifest's writer, and the sequence numbers of the live
snapshots. -/
structure VersionSet extends VersionState where
  manifestNumber : Nat
  manifestWriter : ManifestWriter
  snapshots : List Nat
  deriving DecidableEq

/-- Every level that the edit names is there. -/
def VersionEdit.InRange (e : VersionEdit) : Prop :=
  (∀ d ∈ e.deletedFiles, d.level < numLevels) ∧ (∀ f ∈ e.newFiles, f.level < numLevels) ∧
    ∀ p ∈ e.compactPointers, p.1 < numLevels

theorem logNumber_storable {n : Nat} (hn : n < 2 ^ 64) :
    ({ logNumber := some n } : VersionEdit).Storable := by
  intro f hf
  simp only [VersionEdit.fields, Option.map_none, Option.map_some, Option.toList_none,
    Option.toList_some, List.map_nil, List.append_nil, List.nil_append, List.mem_singleton] at hf
  subst hf
  exact hn

theorem logNumber_inRange (n : Nat) : ({ logNumber := some n } : VersionEdit).InRange := by
  simp [VersionEdit.InRange]

/-- The edit up to its first pointer at a level that is not there. -/
def VersionEdit.upToPanic (e : VersionEdit) : VersionEdit :=
  { e with compactPointers := e.compactPointers.takeWhile fun p => p.1 < numLevels }

theorem VersionState.replay_append {s s' s'' : VersionState} {edits : List VersionEdit}
    {edit : VersionEdit}
    (h : s.replay edits = .ok s') (h' : s'.replayEdit edit = .ok s'') :
    s.replay (edits ++ [edit]) = .ok s'' := by
  rw [VersionState.replay] at h ⊢
  rw [List.foldlM_append, h]
  simp [bind, Except.bind, h']
  rfl

theorem Version.deleteFiles_ok {ds : List DeletedFile} (h : ∀ d ∈ ds, d.level < numLevels)
    (v : Version) : ∃ v', v.deleteFiles ds = .ok v' := by
  induction ds generalizing v with
  | nil => exact ⟨v, rfl⟩
  | cons d ds ih =>
    rw [Version.deleteFiles, dif_pos (h d List.mem_cons_self)]
    exact ih (fun e he => h e (List.mem_cons_of_mem _ he)) _

theorem Version.addFiles_ok {fs : List NewFile} (h : ∀ f ∈ fs, f.level < numLevels)
    (v : Version) : ∃ v', v.addFiles fs = .ok v' := by
  induction fs generalizing v with
  | nil => exact ⟨v, rfl⟩
  | cons f fs ih =>
    rw [Version.addFiles, dif_pos (h f List.mem_cons_self)]
    exact ih (fun e he => h e (List.mem_cons_of_mem _ he)) _

/-- An edit that names only levels that are there applies. -/
theorem VersionEdit.InRange.applyEdit {edit : VersionEdit} (h : edit.InRange) (base : Version) :
    ∃ v, base.applyEdit edit = .ok v := by
  obtain ⟨v, hv⟩ := Version.deleteFiles_ok h.1 base
  obtain ⟨v', hv'⟩ := Version.addFiles_ok h.2.1 v
  exact ⟨v', by simp only [Version.applyEdit, hv, bind, Except.bind, hv']⟩

section Editing

variable {v v' : Version} {level : Nat}

theorem Version.filesAt_of_le (h : numLevels ≤ level) (v : Version) : v.filesAt level = [] := by
  rw [Version.filesAt, dif_neg (by omega)]

/-- All files of a version, level by level. -/
def Version.allFiles (v : Version) : List FileMetaData := (List.range numLevels).flatMap v.filesAt

theorem mem_allFiles {v : Version} {f : FileMetaData} :
    f ∈ v.allFiles ↔ ∃ level, f ∈ v.filesAt level := by
  rw [Version.allFiles, List.mem_flatMap]
  constructor
  · rintro ⟨level, -, hf⟩
    exact ⟨level, hf⟩
  · rintro ⟨level, hf⟩
    refine ⟨level, List.mem_range.mpr ?_, hf⟩
    by_contra hLevel
    rw [Version.filesAt, dif_neg hLevel] at hf
    contradiction

theorem Version.filesAt_change (v : Version) (l : Fin numLevels)
    (f : List FileMetaData → List FileMetaData) (level : Nat) :
    (v.change l f).filesAt level = if level = l then f (v.filesAt level) else v.filesAt level := by
  by_cases h : level < numLevels
  · by_cases hl : level = l
    · subst hl
      simp [Version.filesAt, Version.change]
    · have hne : (⟨level, h⟩ : Fin numLevels) ≠ l := fun he => hl (congrArg Fin.val he)
      simp [Version.filesAt, Version.change, h, hl, hne]
  · have hl : level ≠ l := fun he => h (he ▸ l.isLt)
    rw [if_neg hl, Version.filesAt_of_le (by omega), Version.filesAt_of_le (by omega)]

theorem Version.filesAt_deleteFiles {ds : List DeletedFile} (h : v.deleteFiles ds = .ok v') :
    v'.filesAt level = (v.filesAt level).filter fun f =>
      ∀ d ∈ ds, d.level = level → f.number ≠ d.number := by
  induction ds generalizing v with
  | nil =>
    obtain rfl := Except.ok.inj h
    simp
  | cons d ds ih =>
    rw [Version.deleteFiles] at h
    split at h
    · next hd =>
      rw [ih h, Version.filesAt_change]
      split
      · next hl =>
        rw [List.filter_filter]
        refine List.filter_congr fun f _ => ?_
        simp [hl, Bool.and_comm]
      · next hl =>
        refine List.filter_congr fun f _ => ?_
        have : d.level ≠ level := fun he => hl he.symm
        simp [this]
    · contradiction

theorem Version.filesAt_addFiles {fs : List NewFile} (h : v.addFiles fs = .ok v') :
    v'.filesAt level =
      v.filesAt level ++ (fs.filter (·.level = level)).map (·.fileMeta) := by
  induction fs generalizing v with
  | nil =>
    obtain rfl := Except.ok.inj h
    simp
  | cons f fs ih =>
    rw [Version.addFiles] at h
    split at h
    · rw [ih h, Version.filesAt_change]
      by_cases hl : f.level = level
      · rw [if_pos hl.symm, List.filter_cons_of_pos (by simpa using hl), List.map_cons]
        simp
      · rw [if_neg fun he => hl he.symm, List.filter_cons_of_neg (by simpa using hl)]
    · contradiction

/-- An edit takes the deleted files out of a level and puts the new ones at its end. -/
theorem Version.filesAt_applyEdit {edit : VersionEdit} (h : v.applyEdit edit = .ok v')
    (level : Nat) :
    v'.filesAt level =
      ((v.filesAt level).filter fun f =>
        ∀ d ∈ edit.deletedFiles, d.level = level → f.number ≠ d.number) ++
      (edit.newFiles.filter (·.level = level)).map (·.fileMeta) := by
  unfold Version.applyEdit at h
  cases hv : v.deleteFiles edit.deletedFiles with
  | error e => simp [hv, bind, Except.bind] at h
  | ok v₁ =>
    simp only [hv, bind, Except.bind] at h
    rw [Version.filesAt_addFiles h, Version.filesAt_deleteFiles hv]

/-- The pointers `new` are `old`, but for those of the levels in `ps`. -/
def MovesPointers (ps : List (Nat × Bytes)) (old new : Fin numLevels → Bytes) : Prop :=
  ∀ level, (∀ p ∈ ps, p.1 ≠ level.val) → new level = old level

theorem VersionState.foldl_setPointer (ps : List (Nat × Bytes)) (s : VersionState) :
    ∃ pointers, MovesPointers ps s.compactPointer pointers ∧
      ps.foldl setPointer s = { s with compactPointer := pointers } := by
  induction ps generalizing s with
  | nil => exact ⟨_, fun _ _ => rfl, rfl⟩
  | cons p ps ih =>
    obtain ⟨pointers, hMoves, h⟩ := ih (s.setPointer p)
    refine ⟨pointers, fun level hLevel => ?_, ?_⟩
    · rw [hMoves level fun q hq => hLevel q (List.mem_cons_of_mem _ hq), VersionState.setPointer]
      have hp := hLevel p List.mem_cons_self
      split
      · exact Function.update_of_ne (fun he => hp (congrArg Fin.val he.symm)) _ _
      · rfl
    · rw [List.foldl_cons, h, VersionState.setPointer]
      split <;> rfl

/-- What an edit makes of a state, but for the pointers. -/
theorem VersionState.replayEdit_ok {s s' : VersionState} {edit : VersionEdit}
    (h : s.replayEdit edit = .ok s') :
    ∃ v pointers, s.current.applyEdit edit = .ok v ∧
      MovesPointers edit.compactPointers s.compactPointer pointers ∧
      s' = { s.setNumbers v edit with compactPointer := pointers } := by
  unfold VersionState.replayEdit at h
  cases hv : s.current.applyEdit edit with
  | error e => simp [hv, bind, Except.bind] at h
  | ok v =>
    obtain ⟨pointers, hMoves, hp⟩ := foldl_setPointer edit.compactPointers (s.setNumbers v edit)
    simp only [hv, bind, Except.bind, hp] at h
    exact ⟨v, pointers, rfl, hMoves, (Except.ok.inj h).symm⟩

/-- The last sequence number of a state matters to that of the state after an edit only. -/
theorem VersionState.replayEdit_lastSequence {s s' : VersionState} {edit : VersionEdit}
    (h : s.replayEdit edit = .ok s') (p : Nat) :
    { s with lastSequence := p }.replayEdit edit =
      .ok { s' with lastSequence := edit.lastSequence.getD p } := by
  have hFold : ∀ (ps : List (Nat × Bytes)) (s : VersionState) (q : Nat),
      ps.foldl setPointer { s with lastSequence := q } =
        { ps.foldl setPointer s with lastSequence := q } := by
    intro ps
    induction ps with
    | nil => intro s q; rfl
    | cons p ps ih =>
      intro s q
      rw [List.foldl_cons, List.foldl_cons, ← ih]
      unfold VersionState.setPointer
      split <;> rfl
  unfold VersionState.replayEdit at h ⊢
  cases hv : s.current.applyEdit edit with
  | error e => simp [hv, bind, Except.bind] at h
  | ok v =>
    simp only [hv, bind, Except.bind] at h ⊢
    rw [← Except.ok.inj h, ← hFold]
    rfl

end Editing

namespace VersionSet

/-- The loop of `write_new_version` over the pointers, which panics at a level that is not there. -/
def setPointers : List (Nat × Bytes) → St VersionSet Unit
  | [] => pure ()
  | p :: ps =>
    if p.1 < numLevels then do
      update fun s => { s with toVersionState := s.toVersionState.setPointer p }
      setPointers ps
    else throw .panic

/-- `set_pointers` sets all pointers, or panics after those before the first at no level. -/
theorem setPointers_spec {A : Outcome → Prop} {vs : VersionSet} {d : Dir}
    (ps : List (Nat × Bytes)) :
    Spec A (setPointers ps)
      (fun _ vs' d' => d' = d ∧ (∀ p ∈ ps, p.1 < numLevels) ∧ vs' = { vs with
        toVersionState := ps.foldl VersionState.setPointer vs.toVersionState })
      (fun f vs' d' => d' = d ∧ f = .panic ∧ (¬∀ p ∈ ps, p.1 < numLevels) ∧ vs' = { vs with
        toVersionState := (ps.takeWhile fun p => p.1 < numLevels).foldl VersionState.setPointer
          vs.toVersionState }) vs d := by
  induction ps generalizing vs with
  | nil => exact Spec.pure ⟨rfl, by simp, rfl⟩
  | cons p ps ih =>
    rw [setPointers]
    split_ifs with hp
    · refine Spec.bind (Spec.update (ih.mono ?_ ?_))
      · rintro - vs' d' ⟨rfl, hps, rfl⟩
        exact ⟨rfl, by simpa [hp] using hps, rfl⟩
      · rintro f vs' d' ⟨rfl, rfl, hps, rfl⟩
        refine ⟨rfl, rfl, fun h => hps fun q hq => h q (List.mem_cons_of_mem _ hq), ?_⟩
        rw [List.takeWhile_cons_of_pos (by simpa using hp), List.foldl_cons]
    · refine Spec.throw ⟨rfl, rfl, fun h => hp (h p List.mem_cons_self), ?_⟩
      rw [List.takeWhile_cons_of_neg (by simpa using hp)]
      rfl

section Programs

variable [Crc32c] {σ : Type}

def newPending (manifestNumber : Nat) : St σ VersionSet := do
  let writer ← ManifestWriter.create manifestNumber
  return { toVersionState := .empty, manifestNumber, manifestWriter := writer, snapshots := [] }

/-- The state that the manifest in use says, and a writer at that manifest's end. -/
def recover : St σ VersionSet := do
  let (edits, manifestNumber) ← recoverManifest
  let state ← ofResult (VersionState.empty.replay edits)
  let writer ← ManifestWriter.create manifestNumber
  return { toVersionState := state, manifestNumber, manifestWriter := writer, snapshots := [] }

def onManifest {α : Type} (m : St ManifestWriter α) : St VersionSet α :=
  onField (·.manifestWriter) (fun w s => { s with manifestWriter := w }) m

/-- Log an edit and move on by it. -/
def writeNewVersion (edit : VersionEdit) : St VersionSet Version := do
  onManifest (ManifestWriter.append edit)
  let s ← self
  let v ← ofResult (s.current.applyEdit edit)
  update fun s => { s with toVersionState := s.toVersionState.setNumbers v edit }
  setPointers edit.compactPointers
  return (← self).current

end Programs

def acquireSnapshot (s : VersionSet) (seq : Nat) : VersionSet :=
  { s with snapshots := s.snapshots ++ [seq] }

def releaseSnapshot (s : VersionSet) (seq : Nat) : VersionSet :=
  { s with snapshots := s.snapshots.filter (· ≠ seq) }

def oldestSnapshotSeq (s : VersionSet) : Nat := s.snapshots.min?.getD maxSequence

end VersionSet

/-- The version set `vs'` differs from `vs` in its writer at most. -/
def SameLive (vs vs' : VersionSet) : Prop :=
  vs' = { vs with manifestWriter := vs'.manifestWriter }

instance (vs vs' : VersionSet) : Decidable (SameLive vs vs') := by unfold SameLive; infer_instance

theorem SameLive.state {vs vs' : VersionSet} (h : SameLive vs vs') :
    vs'.toVersionState = vs.toVersionState ∧ vs'.manifestNumber = vs.manifestNumber := by
  rw [h]
  exact ⟨rfl, rfl⟩

theorem SameLive.of_state {vs vs' : VersionSet}
    (h : SameLive { vs with toVersionState := vs'.toVersionState } vs')
    (hState : vs'.toVersionState = vs.toVersionState) : SameLive vs vs' := by
  rw [hState] at h
  exact h

end MulanLsm
