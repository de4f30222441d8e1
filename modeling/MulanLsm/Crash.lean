import MulanLsm.LogRuns
import MulanLsm.Views

/-! What a crash leaves.  Of each file the disk keeps some first bytes, among them all that are
known to be on the disk.  What an operation has done when the machine stops is such that, whatever
the disk keeps of it, the manifest says the state before the commit of the operation or the one
after it, and the log of that state has its entries, but for some at the end that need not be on the
disk. -/

namespace MulanLsm

/-- A call succeeds, or it is the one that the machine stops in. -/
def Stops : Outcome → Prop
  | .fail _ => False
  | _ => True

instance : DecidablePred Stops
  | .ok | .crash _ => isTrue trivial
  | .fail _ => isFalse id

theorem halts_stops : Halts Stops := fun _ h => h

/-- The file cut after its first `n` bytes. -/
def File.cut (n : Nat) (f : File) : File :=
  { f with bytes := f.bytes.take n, table := if f.bytes.length ≤ n then f.table else none }

/-- The disk may keep `d'` of the directory `d`: of each file some first bytes, with all that are on
the disk. -/
def Survives (d d' : Dir) : Prop :=
  ∀ name, d.lookup name = none ∧ d'.lookup name = none ∨
    ∃ f n, d.lookup name = some f ∧ f.synced ≤ n ∧ d'.lookup name = some (f.cut n)

/-- `name` is there with all its bytes on the disk. -/
def Dir.OnDisk (d : Dir) (name : FileName) : Prop :=
  ∃ f, d.lookup name = some f ∧ f.bytes.length ≤ f.synced

section Surviving

variable {d d' : Dir} {name : FileName} {B : Bytes} {synced n : Nat} {names : Set FileName}

theorem File.cut_of_le {f : File} (h : f.bytes.length ≤ n) : f.cut n = f := by
  rw [File.cut, List.take_of_length_le h, if_pos h]

theorem Survives.refl (d : Dir) : Survives d d := by
  intro name
  cases hf : d.lookup name with
  | none => exact .inl ⟨rfl, rfl⟩
  | some f =>
    exact .inr ⟨f, max f.synced f.bytes.length, rfl, le_max_left _ _,
      by rw [File.cut_of_le (le_max_right _ _)]⟩

theorem Survives.cut {f : File} (hf : d.lookup name = some f) (hn : f.synced ≤ n) :
    Survives d (d.insert name (f.cut n)) := by
  intro other
  by_cases hName : other = name
  · rw [hName]
    exact .inr ⟨f, n, hf, hn, AList.lookup_insert _⟩
  · rw [AList.lookup_insert_ne hName]
    exact Survives.refl d other

theorem Survives.onDisk (h : Survives d d') (hName : d.OnDisk name) :
    d'.lookup name = d.lookup name := by
  obtain ⟨f, hf, hSynced⟩ := hName
  rcases h name with ⟨hNone, -⟩ | ⟨g, n, hg, hn, hg'⟩
  · rw [hf] at hNone
    contradiction
  · obtain rfl := Option.some.inj (hf.symm.trans hg)
    rw [hg', hf, File.cut_of_le (hSynced.trans hn)]

theorem Survives.mem_iff (h : Survives d d') : name ∈ d' ↔ name ∈ d := by
  rw [← AList.lookup_isSome, ← AList.lookup_isSome]
  rcases h name with ⟨hf, hf'⟩ | ⟨f, n, hf, -, hf'⟩
  · rw [hf, hf']
  · rw [hf, hf']
    rfl

theorem Survives.has (h : Survives d d') (hHas : d.Has name B synced) :
    ∃ n, synced ≤ n ∧ d'.Has name (B.take n) synced := by
  obtain ⟨f, hf, rfl, rfl⟩ := hHas
  rcases h name with ⟨hNone, -⟩ | ⟨g, n, hg, hn, hg'⟩
  · rw [hf] at hNone
    contradiction
  · obtain rfl := Option.some.inj (hf.symm.trans hg)
    exact ⟨n, hn, _, hg', rfl, rfl⟩

theorem Survives.frame (h : Survives d d') (names : Set FileName)
    (hNames : ∀ name ∈ names, d.OnDisk name) :
    d.Frame namesᶜ d' := fun name hName =>
  h.onDisk (hNames name (by simpa using hName))

theorem Dir.Synced.onDisk (h : d.Synced name) : d.OnDisk name := by
  obtain ⟨B, f, hf, rfl, hSynced⟩ := h
  exact ⟨f, hf, hSynced.ge⟩

theorem Dir.OnDisk.frame (h : d.OnDisk name) (hFrame : d.Frame names d') (hName : name ∉ names) :
    d'.OnDisk name := by
  obtain ⟨f, hf, hSynced⟩ := h
  exact ⟨f, (hFrame _ hName).trans hf, hSynced⟩

theorem Dir.OnDisk.of_empty (h : ∃ synced, d.Has name [] synced) : d.OnDisk name := by
  obtain ⟨synced, f, hf, hB, -⟩ := h
  exact ⟨f, hf, by rw [hB]; exact Nat.zero_le _⟩

theorem Dir.OnDisk.le (h : d.OnDisk name) (hHas : d.Has name B synced) : B.length ≤ synced := by
  obtain ⟨f, hf, hle⟩ := h
  obtain ⟨g, hg, rfl, rfl⟩ := hHas
  obtain rfl := Option.some.inj (hf.symm.trans hg)
  exact hle

/-- The table file `n` is finished and on the disk. -/
def Dir.TableOnDisk (d : Dir) (n : Nat) : Prop := ∃ es, d.HasTable n es

theorem Dir.TableOnDisk.onDisk {n : Nat} (h : d.TableOnDisk n) : d.OnDisk (.sst n) := by
  obtain ⟨es, f, hf, -, hSynced⟩ := h
  exact ⟨f, hf, hSynced.ge⟩

theorem Dir.TableOnDisk.of_lookup {n : Nat} (h : d.TableOnDisk n)
    (hSame : d'.lookup (.sst n) = d.lookup (.sst n)) : d'.TableOnDisk n := by
  obtain ⟨es, f, hf, hTable⟩ := h
  exact ⟨es, f, hSame.trans hf, hTable⟩

theorem Dir.TableOnDisk.frame {n : Nat} (h : d.TableOnDisk n) (hFrame : d.Frame names d')
    (hName : .sst n ∉ names) : d'.TableOnDisk n := h.of_lookup (hFrame _ hName)

theorem SpareLogs.survives {next : Nat} (h : SpareLogs d next) (hSurvives : Survives d d') :
    SpareLogs d' next := by
  intro n hn hMem
  obtain ⟨synced, hHas⟩ := h n hn (hSurvives.mem_iff.mp hMem)
  obtain ⟨k, -, hHas'⟩ := hSurvives.has hHas
  exact ⟨synced, by simpa using hHas'⟩

end Surviving

section Logs

variable [Crc32c] {B B' T : Bytes} {records : List Bytes} {data : Bytes} {ps : List Piece}

omit [Crc32c] in
theorem assemble_isPrefix (s : Assembly) (ps : List Piece) : s.2 <+: (assemble s ps).2 := by
  induction ps generalizing s with
  | nil => exact List.prefix_rfl
  | cons p ps ih => exact (assembleStep_isPrefix _ _ _).trans (ih _)

/-- A log that is cut reads as some of its records, from the first on. -/
theorem IsLog.begins (h : IsLog B records) (n : Nat) :
    MulanLsm.readRecords (B.take n) <+: records := by
  obtain ⟨ps, hW, rfl⟩ := h
  obtain ⟨ps1, ps2, rfl, hTake | ⟨hTorn, -⟩⟩ := hW.take (Nat.zero_le n)
  · rw [hTake.readRecords, assemble_append]
    exact assemble_isPrefix _ _
  · rw [hTorn.readRecords, assemble_append]
    exact assemble_isPrefix _ _

/-- `T` is the log `B` of `records`, perhaps with the record `data` or some first bytes of it
behind. -/
def Stub (B : Bytes) (records : List Bytes) (data : Bytes) (T : Bytes) : Prop :=
  B <+: T ∧ ∃ B' records', IsLog B' records' ∧ records' <+: records ++ [data] ∧ T <+: B'

/-- The pieces that `B'` has behind `B` are some of the record's, from the first on. -/
theorem Stub.of_written (ps' : List Piece) (h : IsLog B records)
    (hPieces : Pieces true data (ps ++ ps'))
    (hW : Written B ps B') (hT : T <+: B') (hB : B <+: T) : Stub B records data T := by
  refine ⟨hB, B', ?_⟩
  by_cases hne : ps' = []
  · subst hne
    exact ⟨_, h.append (by simpa using hPieces) hW, List.prefix_rfl, hT⟩
  · exact ⟨_, h.append_init hPieces hne hW, List.prefix_append _ _, hT⟩

/-- A stub that is cut behind the log reads as the log, with or without the record. -/
theorem Stub.take (h : Stub B records data T) (hLog : IsLog B records) (n : Nat) :
    readRecords (T.take n) <+: records ++ [data] ∧
      (B.length ≤ n → records <+: readRecords (T.take n)) := by
  obtain ⟨hB, B', records', hLog', hRecords, R, rfl⟩ := h
  refine ⟨?_, fun hn => ?_⟩
  · rw [show T.take n = (T ++ R).take (min n T.length) by
      rw [List.take_append_of_le_length (Nat.min_le_right _ _), List.take_eq_take_min]]
    exact (hLog'.begins _).trans hRecords
  · obtain ⟨R', rfl⟩ := hB
    rw [List.take_append, List.take_of_length_le hn]
    exact hLog.isPrefix_readRecords _

variable {A : Outcome → Prop} {d d' : Dir} {name : FileName} {f : Fault} {w : WalWriter}

theorem Chunk.written {B1 chunk : Bytes} {ps1 ps2 : List Piece} (h : Chunk B1 ps2 chunk)
    (hW : Written B ps1 B1) :
    ∃ ps ps', ps1 ++ ps2 = ps ++ ps' ∧ Written B ps (B1 ++ chunk) := by
  cases h with
  | pad hIn hk => exact ⟨ps1, ps2, rfl, hW.pads hIn hk⟩
  | @piece p rest hps hFit => exact ⟨ps1 ++ [p], rest, by simp [hps], hW.piece hFit⟩

theorem NotLogged.stub (h : NotLogged A data d name B records f w d') (hLog : IsLog B records) :
    ∃ T synced, d'.Has name T synced ∧ Stub B records data T ∧ d.SameSynced name d' ∧
      d.Frame {name} d' := by
  obtain ⟨ps1, ps2, B1, chunk, n, synced, ⟨hPieces, -, hW, -, -, -, hChunk⟩, -, hHas,
    hSame, hFrame⟩ := h
  obtain ⟨ps, ps', hps, hW'⟩ := hChunk.written hW
  refine ⟨_, synced, hHas, Stub.of_written _ hLog (hps ▸ hPieces) hW' ?_ ?_, hSame, hFrame⟩
  · exact List.prefix_append_right_inj _ |>.mpr (List.take_prefix _ _)
  · exact hW.isPrefix.trans (List.prefix_append _ _)

theorem Logged.stub (h : Logged data d name B records w d') (hLog : IsLog B records) :
    ∃ T synced, d'.Has name T synced ∧ Stub B records data T ∧ d.Frame {name} d' := by
  obtain ⟨ps, B', hPieces, hW, hAt, hFrame⟩ := h
  obtain ⟨synced, hHas⟩ := hAt.has
  exact ⟨B', synced, hHas, Stub.of_written [] hLog (by simpa using hPieces) hW
    List.prefix_rfl hW.isPrefix, hFrame⟩

end Logs

section Manifests

variable [Crc32c] {A : Outcome → Prop} {d d' d₁ : Dir} {number : Nat} {state : VersionState}
  {vs : VersionSet} {edit : VersionEdit} {f : Fault}

/-- Whatever the disk keeps of `d`, its manifest says a state of which `S` holds. -/
def Tells (d : Dir) (number : Nat) (S : VersionState → Prop) : Prop :=
  ∀ d', Survives d d' → ∃ state, S state ∧ Says d' number state

theorem Says.tells (h : Says d number state) (hCurrent : d.OnDisk .current)
    (hManifest : d.OnDisk (.manifest number)) : Tells d number (· = state) := by
  intro d' hSurvives
  refine ⟨_, rfl, h.frame (hSurvives.frame {.current, .manifest number} ?_) (by simp) (by simp)⟩
  rintro name (rfl | rfl)
  · exact hCurrent
  · exact hManifest

theorem InStep.tells (h : InStep (vs, d)) (hCurrent : d.OnDisk .current)
    (hManifest : d.OnDisk (.manifest vs.manifestNumber)) :
    Tells d vs.manifestNumber (· = vs.toVersionState) := h.said.tells hCurrent hManifest

/-- A commit whose append failed leaves the manifest saying the state before it or after it. -/
theorem AppendFailed.tells (vs : VersionSet) (h : AppendFailed A edit d₁ vs.manifestNumber f d')
    (hIn : InStep (vs, d₁)) (hCurrent : d₁.OnDisk .current)
    (hManifest : d₁.OnDisk (.manifest vs.manifestNumber)) (hEdit : edit.Storable)
    (hRange : edit.InRange) :
    Tells d' vs.manifestNumber fun state =>
      state = vs.toVersionState ∨ vs.toVersionState.replayEdit edit = .ok state := by
  obtain ⟨hNames, B, records, edits, hAt, hDecode, hReplay⟩ := hIn
  obtain ⟨v, hv⟩ := hRange.applyEdit vs.current
  obtain ⟨state', hState'⟩ : ∃ state', vs.toVersionState.replayEdit edit = .ok state' := by
    simp only [VersionState.replayEdit, hv]
    exact ⟨_, rfl⟩
  obtain ⟨T, synced, hHas, hStub, hSynced, hFrame⟩ : ∃ T synced,
      d'.Has (.manifest vs.manifestNumber) T synced ∧ Stub B records edit.encode T ∧
        B.length ≤ synced ∧ d₁.Frame {.manifest vs.manifestNumber} d' := by
    obtain ⟨B', records', w', hLog, ⟨s, hHas₁⟩, hCase⟩ := h
    obtain ⟨s', hHas₁'⟩ := hAt.has
    obtain ⟨rfl, rfl⟩ := hHas₁.unique hHas₁'
    obtain rfl : records' = records := hLog.readRecords.symm.trans hAt.isLog.readRecords
    have hLe : ∀ {T synced}, d'.Has (.manifest vs.manifestNumber) T synced →
        d₁.SameSynced (.manifest vs.manifestNumber) d' → B'.length ≤ synced := by
      intro T synced hHas hSame
      rw [hSame.eq hHas₁ hHas]
      exact hManifest.le hHas₁
    rcases hCase with hNot | ⟨hLogged, -, hSame⟩
    · obtain ⟨T, synced, hHas, hStub, hSame, hFrame⟩ := hNot.stub hLog
      exact ⟨T, synced, hHas, hStub, hLe hHas hSame, hFrame⟩
    · obtain ⟨T, synced, hHas, hStub, hFrame⟩ := hLogged.stub hLog
      exact ⟨T, synced, hHas, hStub, hLe hHas hSame, hFrame⟩
  intro d'' hSurvives
  have hNames' : d''.Names vs.manifestNumber := by
    obtain ⟨g, hg, hName⟩ := hNames.frame hFrame
    exact ⟨g, (hSurvives.onDisk (hCurrent.frame hFrame (by simp))).trans hg, hName⟩
  obtain ⟨n, hn, hHas'⟩ := hSurvives.has hHas
  obtain ⟨hUpper, hLower⟩ := hStub.take hAt.isLog n
  replace hLower := hLower (hSynced.trans hn)
  rcases List.prefix_concat_iff.mp hUpper with hWhole | hUpper
  · refine ⟨state', .inr hState', hNames', _, synced, edits ++ [edit], hHas', ?_, ?_⟩
    · rw [hWhole]
      exact List.mapM_append_singleton hDecode (VersionEdit.decode_encode hEdit)
    · exact VersionState.replay_append hReplay hState'
  · refine ⟨_, .inl rfl, hNames', _, synced, edits, hHas', ?_, hReplay⟩
    rw [hUpper.eq_of_length (le_antisymm hUpper.length_le hLower.length_le)]
    exact hDecode

end Manifests

section Carrying

/-- The versions that the entries of a log make. -/
def logVersions (log : List WalEntry) : Set Entry := {e | ∃ w ∈ log, w.entry = e}

theorem logVersions_nil : logVersions [] = ∅ :=
  Set.eq_empty_of_forall_notMem fun _ ⟨_, hw, _⟩ => List.not_mem_nil hw

theorem replayed_versions (seq : Nat) (log : List WalEntry) :
    versions (replayed seq log).skiplist = logVersions log := by
  ext e
  exact (replayed_perm seq log).mem_iff.trans List.mem_map

/-- The table files of a version are in `d'` what they are in `d`. -/
def SameFiles (v : Version) (d d' : Dir) : Prop :=
  ∀ level, ∀ f ∈ v.filesAt level, d'.lookup (.sst f.number) = d.lookup (.sst f.number)

section Files

variable {v v' : Version} {d d' d'' : Dir} {names : Set FileName} {f : FileMetaData} {next : Nat}

theorem SameFiles.refl (v : Version) (d : Dir) : SameFiles v d d := fun _ _ _ => rfl

theorem SameFiles.trans (h : SameFiles v d d') (h' : SameFiles v d' d'') : SameFiles v d d'' :=
  fun level f hf => (h' level f hf).trans (h level f hf)

theorem SameFiles.subset (h : SameFiles v' d d')
    (hv : ∀ level, ∀ f ∈ v.filesAt level, f ∈ v'.filesAt level) : SameFiles v d d' :=
  fun level f hf => h level f (hv level f hf)

theorem SameFiles.of_frame (hFrame : d.Frame names d')
    (hNames : ∀ level, ∀ f ∈ v.filesAt level, .sst f.number ∉ names) : SameFiles v d d' :=
  fun level f hf => hFrame _ (hNames level f hf)

theorem SameFiles.of_manifest {number : Nat} (hFrame : d.Frame {.manifest number} d') :
    SameFiles v d d' := .of_frame hFrame (by simp)

theorem SameFiles.of_filesFrom (hFrame : d.Frame (filesFrom next) d') (hv : Numbered v next) :
    SameFiles v d d' := .of_frame hFrame fun _ _ hf => hv.not_mem_filesFrom hf

theorem SameFiles.tables (h : SameFiles v d d') : SameTables v d d' := by
  intro level f hf
  unfold Dir.entries Dir.table
  rw [h level f hf]

theorem SameFiles.describes (h : SameFiles v d d') {level : Nat} (hf : f ∈ v.filesAt level)
    {es : List Entry} (hDesc : Describes d f es) : Describes d' f es :=
  hDesc.frame (Dir.frame_of_lookup (h level f hf)) (by simp)

theorem AddsFile.mem_self (h : AddsFile v f v') : f ∈ v'.filesAt 0 :=
  h.1 ▸ List.mem_append_right _ (List.mem_singleton_self f)

end Files

variable [Crc32c] {d d' d₁ : Dir} {number : Nat} {state : VersionState} {low log : List WalEntry}
  {v : Version} {flushed : Nat} {W : Dir → Version → Prop}

/-- Besides its manifest, `d` has what it takes to open with `state` and with the entries `log`, of
which `low` are on the disk. -/
structure Carries (d : Dir) (state : VersionState) (low log : List WalEntry) : Prop where
  tables : ∀ level, ∀ f ∈ state.current.filesAt level, d.TableOnDisk f.number
  present : ∀ B synced, d.Has (.log state.logNumber) B synced → ∀ n, synced ≤ n →
    ∃ log₁, low <+: log₁ ∧ log₁ <+: log ∧ readRecords (B.take n) = log₁.map WalEntry.encode
  absent : .log state.logNumber ∉ d → low = []
  fits : ∀ e ∈ log, EntryFits e.entry ∧ e.seq < 2 ^ 64
  below : state.logNumber < state.nextFileNumber
  numbered : Numbered state.current state.nextFileNumber
  spare : SpareLogs d state.nextFileNumber
  room : state.nextFileNumber + 2 < 2 ^ 64
  seq : state.lastSequence < 2 ^ 64

/-- Whatever the disk keeps of `d`, it opens, with table files that are there and a log, whose
versions meet `Q`. -/
def Restores (d : Dir) (Q : Set Entry → Prop) : Prop :=
  ∀ d', Survives d d' → ∃ number state log, Openable d' number state log ∧
    (∀ level, ∀ f ∈ state.current.filesAt level, d'.TableOnDisk f.number) ∧
    Q (stored d' state.current ∪ logVersions log)

/-- Whatever the disk keeps of `d`, it opens, with table files that are there, and with a state and
a log of which `R` holds. -/
def ComesBack (d : Dir) (R : Dir → VersionState → List WalEntry → Prop) : Prop :=
  ∀ d', Survives d d' → ∃ number state log, Openable d' number state log ∧
    (∀ level, ∀ f ∈ state.current.filesAt level, d'.TableOnDisk f.number) ∧ R d' state log

/-- What may come back when the version was `v`, as of the sequence number `flushed`, and the log
`log`, with `low` of it on the disk: the version as it was, the log in one more table file, or a
version that a compaction made, of which `W` holds. -/
inductive Back (v : Version) (flushed : Nat) (low log : List WalEntry) (W : Dir → Version → Prop)
    (d d' : Dir) (state : VersionState) : List WalEntry → Prop
  | rest {log₁ : List WalEntry} : SameFiles v d d' → state.current = v →
      state.lastSequence = flushed → low <+: log₁ → log₁ <+: log →
      Back v flushed low log W d d' state log₁
  | flushed {f : FileMetaData} : SameFiles v d d' → AddsFile v f state.current →
      Describes d' f (replayed flushed log).skiplist →
      state.lastSequence = (replayed flushed log).seq → Back v flushed low log W d d' state []
  | compacted {d₁ : Dir} {log₁ : List WalEntry} : W d₁ state.current →
      SameFiles state.current d₁ d' → state.lastSequence = flushed → low <+: log₁ → log₁ <+: log →
      Back v flushed low log W d d' state log₁

theorem ComesBack.mono {R R' : Dir → VersionState → List WalEntry → Prop} (h : ComesBack d R)
    (hR : ∀ d' state log, R d' state log → R' d' state log) : ComesBack d R' := by
  intro d' hSurvives
  obtain ⟨number, state, log, hOpen, hTables, hBack⟩ := h d' hSurvives
  exact ⟨number, state, log, hOpen, hTables, hR _ _ _ hBack⟩

omit [Crc32c] in
/-- What comes back of what a call has made of `d₁` comes back of `d`, if the call kept the tables
of the version and more of the log is on the disk. -/
theorem Back.mono {low₁ log₁ : List WalEntry} {W' : Dir → Version → Prop}
    (h : Back v flushed low log W d₁ d' state log₁) (hSame : SameFiles v d d₁) (hLow : low₁ <+: low)
    (hW : ∀ d v, W d v → W' d v) : Back v flushed low₁ log W' d d' state log₁ := by
  cases h with
  | rest hFiles hState hSeq hLow' hHigh =>
    exact .rest (hSame.trans hFiles) hState hSeq (hLow.trans hLow') hHigh
  | flushed hFiles hAdds hDesc hSeq => exact .flushed (hSame.trans hFiles) hAdds hDesc hSeq
  | compacted hW' hFiles hSeq hLow' hHigh =>
    exact .compacted (hW _ _ hW') hFiles hSeq (hLow.trans hLow') hHigh

omit [Crc32c] in
/-- The versions of what comes back. -/
theorem Back.meets {log₁ : List WalEntry} {Q : Set Entry → Prop}
    (h : Back v flushed low log W d d' state log₁) (hLow : low <+: log)
    (hQ : ∀ log₁, low <+: log₁ → log₁ <+: log → Q (stored d v ∪ logVersions log₁))
    (hW : ∀ d₁ v', W d₁ v' → ∀ log₁, low <+: log₁ → log₁ <+: log →
      Q (stored d₁ v' ∪ logVersions log₁)) :
    Q (stored d' state.current ∪ logVersions log₁) := by
  cases h with
  | rest hFiles hState hSeq hLow' hHigh =>
    rw [hState, stored_congr hFiles.tables]
    exact hQ _ hLow' hHigh
  | flushed hFiles hAdds hDesc hSeq =>
    have hGrown : Grown d v (replayed flushed log).skiplist d' state.current :=
      ⟨.inr ⟨_, hAdds, hDesc.entries⟩, hFiles.tables⟩
    rw [hGrown.stored, replayed_versions, logVersions_nil, Set.union_empty, Set.union_comm]
    exact hQ _ hLow List.prefix_rfl
  | compacted hW' hFiles hSeq hLow' hHigh =>
    rw [stored_congr hFiles.tables]
    exact hW _ _ hW' _ hLow' hHigh

omit [Crc32c] in
theorem exists_map_between {α β : Type} {f : α → β} {low log : List α} {X : List β}
    (hle : low <+: log) (hLow : low.map f <+: X) (hHigh : X <+: log.map f) :
    ∃ log₁, low <+: log₁ ∧ log₁ <+: log ∧ X = log₁.map f := by
  refine ⟨log.take X.length, ?_, List.take_prefix _ _, ?_⟩
  · rw [List.prefix_iff_eq_take.mp hle]
    have hLength := hLow.length_le
    rw [List.length_map] at hLength
    exact List.take_prefix_take_left hLength
  · rw [List.map_take]
    exact List.prefix_iff_eq_take.mp hHigh

theorem Carries.openable (h : Carries d state low log) (hSurvives : Survives d d')
    (hSays : Says d' number state) :
    ∃ log₁, low <+: log₁ ∧ log₁ <+: log ∧ Openable d' number state log₁ ∧
      SameFiles state.current d d' := by
  obtain ⟨log₁, hLow, hHigh, hPresent, hAbsent⟩ : ∃ log₁, low <+: log₁ ∧ log₁ <+: log ∧
      (.log state.logNumber ∈ d' → ∃ B synced, d'.Has (.log state.logNumber) B synced ∧
        readRecords B = log₁.map WalEntry.encode) ∧ (.log state.logNumber ∉ d' → log₁ = []) := by
    by_cases hMem : .log state.logNumber ∈ d
    · obtain ⟨f, hf⟩ := Option.isSome_iff_exists.mp (AList.lookup_isSome.mpr hMem)
      obtain ⟨n, hn, hHas⟩ := hSurvives.has ⟨f, hf, rfl, rfl⟩
      obtain ⟨log₁, hLow, hHigh, hRead⟩ := h.present _ _ ⟨f, hf, rfl, rfl⟩ n hn
      exact ⟨log₁, hLow, hHigh, fun _ => ⟨_, _, hHas, hRead⟩, fun hNot =>
        absurd (hSurvives.mem_iff.mpr hMem) hNot⟩
    · obtain rfl := h.absent hMem
      exact ⟨[], List.prefix_rfl, List.nil_prefix, fun hMem' =>
        absurd (hSurvives.mem_iff.mp hMem') hMem, fun _ => rfl⟩
  exact ⟨log₁, hLow, hHigh, ⟨hSays, hPresent, hAbsent, fun e he => h.fits e (hHigh.subset he),
    h.below, h.numbered, h.spare.survives hSurvives, h.room, h.seq⟩,
    fun level f hf => hSurvives.onDisk (h.tables level f hf).onDisk⟩

theorem ComesBack.of_tells {S : VersionState → Prop}
    {R : Dir → VersionState → List WalEntry → Prop} (hTells : Tells d number S)
    (h : ∀ state, S state → ∃ low log, Carries d state low log ∧ ∀ d' log₁,
      SameFiles state.current d d' → low <+: log₁ → log₁ <+: log → R d' state log₁) :
    ComesBack d R := by
  intro d' hSurvives
  obtain ⟨state, hS, hSays⟩ := hTells d' hSurvives
  obtain ⟨low, log, hCarries, hR⟩ := h state hS
  obtain ⟨log₁, hLow, hHigh, hOpen, hSame⟩ := hCarries.openable hSurvives hSays
  refine ⟨number, state, log₁, hOpen, fun level f hf => ?_, hR d' log₁ hSame hLow hHigh⟩
  exact (hCarries.tables level f hf).of_lookup (hSame level f hf)

/-- A new log has nothing that could be lost. -/
theorem Carries.fresh
    (hTables : ∀ level, ∀ f ∈ state.current.filesAt level, d.TableOnDisk f.number)
    (hLog : .log state.logNumber ∈ d → ∃ synced, d.Has (.log state.logNumber) [] synced)
    (hBelow : state.logNumber < state.nextFileNumber)
    (hNumbered : Numbered state.current state.nextFileNumber)
    (hSpare : SpareLogs d state.nextFileNumber) (hRoom : state.nextFileNumber + 2 < 2 ^ 64)
    (hSeq : state.lastSequence < 2 ^ 64) : Carries d state [] [] where
  tables := hTables
  present := fun B synced hHas n _ => by
    obtain ⟨synced', hEmpty⟩ := hLog hHas.mem
    obtain ⟨rfl, -⟩ := hHas.unique hEmpty
    exact ⟨[], List.prefix_rfl, List.prefix_rfl, by rw [List.take_nil, IsLog.nil.readRecords]; rfl⟩
  absent := fun _ => rfl
  fits := by simp
  below := hBelow
  numbered := hNumbered
  spare := hSpare
  room := hRoom
  seq := hSeq

theorem Carries.frame (h : Carries d state low log) {number : Nat}
    (hFrame : d.Frame {.manifest number} d') : Carries d' state low log := by
  refine { h with
    tables := fun level f hf => (h.tables level f hf).frame hFrame (by simp)
    present := fun B synced ⟨f, hf, hB⟩ => h.present B synced
      ⟨f, (hFrame _ (by simp)).symm.trans hf, hB⟩
    absent := fun hNot => h.absent fun hMem => hNot ?_
    spare := h.spare.frame hFrame (by simp) }
  rw [← AList.lookup_isSome, hFrame _ (by simp), AList.lookup_isSome]
  exact hMem

/-- A directory that opens carries its log, if that is on the disk. -/
theorem Openable.carries (h : Openable d number state log)
    (hTables : ∀ level, ∀ f ∈ state.current.filesAt level, d.TableOnDisk f.number)
    (hLog : .log state.logNumber ∈ d → d.OnDisk (.log state.logNumber)) :
    Carries d state log log := by
  refine ⟨hTables, fun B synced hHas n hn => ?_, h.absent, h.fits, h.below, h.numbered, h.spare,
    h.room, h.seq⟩
  obtain ⟨B', synced', hHas', hRead⟩ := h.present hHas.mem
  obtain ⟨rfl, rfl⟩ := hHas.unique hHas'
  refine ⟨log, List.prefix_rfl, List.prefix_rfl, ?_⟩
  rw [List.take_of_length_le (((hLog hHas.mem).le hHas).trans hn), hRead]

end Carrying

section Resting

variable [Crc32c] {A : Outcome → Prop} {d d' : Dir} {db : Db} {flushed : Nat}
  {low log : List WalEntry} {W : Dir → Version → Prop}

/-- What a database has on the disk between calls, besides its table files. -/
structure Durable (d : Dir) (db : Db) : Prop where
  current : d.OnDisk .current
  manifest : d.OnDisk (.manifest db.versionSet.manifestNumber)
  log : db.options.syncWrites → d.OnDisk (.log db.walNumber)

/-- The entries of the log that are certainly on the disk. -/
def Db.syncedLog (db : Db) (log : List WalEntry) : List WalEntry :=
  if db.options.syncWrites then log else []

omit [Crc32c] in
theorem Db.syncedLog_prefix (db : Db) (log : List WalEntry) : db.syncedLog log <+: log := by
  unfold Db.syncedLog
  split
  · exact List.prefix_rfl
  · exact List.nil_prefix

/-- The entries `low` of the log are on the disk. -/
def Certain (d : Dir) (db : Db) (log low : List WalEntry) : Prop :=
  low = [] ∨ low = log ∧ d.OnDisk (.log db.walNumber)

omit [Crc32c] in
theorem Durable.certain (h : Durable d db) (log : List WalEntry) :
    Certain d db log (db.syncedLog log) := by
  unfold Db.syncedLog Certain
  split
  · next hSync => exact .inr ⟨rfl, h.log hSync⟩
  · exact .inl rfl

/-- The counters have room for an opening. -/
def Db.Reopenable (db : Db) : Prop :=
  db.versionSet.lastSequence + 1 < 2 ^ 64 ∧ db.versionSet.nextFileNumber + 2 < 2 ^ 64

theorem Inv.tables_onDisk (h : Inv d db flushed log) {level : Nat} {f : FileMetaData}
    (hf : f ∈ db.versionSet.current.filesAt level) : d.TableOnDisk f.number :=
  ⟨_, (h.tables level f hf).describes.table⟩

theorem Inv.carries (h : Inv d db flushed log) (hLow : Certain d db log low)
    (hRoom : db.Reopenable) : Carries d (db.saved flushed) low log := by
  have hOpen := h.openable hRoom.1 hRoom.2
  obtain ⟨B, hAt⟩ := h.wal
  have hLog : (db.saved flushed).logNumber = db.walNumber := h.walNumber.symm
  obtain ⟨synced, hHas⟩ := hAt.has
  refine ⟨fun level f hf => h.tables_onDisk hf, fun B' synced' hHas' n hn => ?_, fun hNot => ?_,
    hOpen.fits, hOpen.below, h.numbered, h.spare, hRoom.2, hOpen.seq⟩
  · rw [hLog] at hHas'
    obtain ⟨rfl, rfl⟩ := hHas.unique hHas'
    rcases hLow with rfl | ⟨rfl, hDisk⟩
    · exact exists_map_between List.nil_prefix List.nil_prefix (hAt.isLog.begins n)
    · refine ⟨low, List.prefix_rfl, List.prefix_rfl, ?_⟩
      rw [List.take_of_length_le ((hDisk.le hHas).trans hn), hAt.isLog.readRecords]
  · rw [hLog] at hNot
    exact absurd hHas.mem hNot

theorem Inv.tells (h : Inv d db flushed log) (hDurable : Durable d db) :
    Tells d db.versionSet.manifestNumber (· = db.saved flushed) :=
  InStep.tells h.manifest hDurable.current
    hDurable.manifest

/-- A database at rest comes back with its table files and its log, but for what of the log need not
be on the disk. -/
theorem Inv.comesBack (h : Inv d db flushed log) (hDurable : Durable d db)
    (hLow : Certain d db log low) (hRoom : db.Reopenable) :
    ComesBack d (Back db.versionSet.current flushed low log W d) := by
  apply ComesBack.of_tells (h.tells hDurable)
  rintro _ rfl
  exact ⟨_, _, h.carries hLow hRoom, fun _ _ hSame hLow hHigh => .rest hSame rfl rfl hLow hHigh⟩

omit [Crc32c] in
theorem Durable.frame (h : Durable d db) {next : Nat} {names : Set FileName}
    (hWal : db.walNumber < next) (hFrame : d.Frame names d') (hNames : names ⊆ filesFrom next) :
    Durable d' db := by
  have hNot : ∀ name : FileName, (∀ n, name ≠ .sst n ∧ name ≠ .log n) → name ∉ names := by
    intro name hName hMem
    obtain ⟨n, -, h | h⟩ := hNames hMem
    · exact (hName n).1 h
    · exact (hName n).2 h
  refine ⟨h.current.frame hFrame (hNot _ (by simp)), h.manifest.frame hFrame (hNot _ (by simp)),
    fun hSync => (h.log hSync).frame hFrame fun hMem => ?_⟩
  obtain ⟨n, hn, hName | hName⟩ := hNames hMem
  · cases hName
  · cases hName
    omega

theorem Inv.logWrite_comesBack (h : Inv d db flushed log) (hDurable : Durable d db)
    (hRoom : db.Reopenable) {vtype : ValueType} {key value : Bytes}
    (hFits : EntryFits (nextEntry db vtype key value).entry) :
    Spec A (Db.logWrite vtype key value) (fun _ db' d' => Durable d' db')
      (fun _ _ d' => ComesBack d' (Back db.versionSet.current flushed (db.syncedLog log)
        (log ++ [nextEntry db vtype key value]) W d)) db d := by
  set e := nextEntry db vtype key value with he
  obtain ⟨B, hAt⟩ := h.wal
  obtain ⟨synced, hHas⟩ := hAt.has
  have hSeq : e.seq < 2 ^ 64 := by
    have := h.seq
    have := hRoom.1
    simp only [he, nextEntry]
    omega
  refine (logWrite_spec h hFits hAt).mono ?_ ?_
  · rintro - db' d' ⟨w', rfl, -, ⟨-, -, -, -, -, hFrame⟩, hSynced⟩
    refine ⟨hDurable.current.frame hFrame (by simp), hDurable.manifest.frame hFrame (by simp),
      fun hSync => ?_⟩
    rw [if_pos hSync] at hSynced
    exact hSynced.onDisk
  · rintro f db' d' ⟨w', -, hE⟩
    obtain ⟨T, synced', hHas', hStub, hSame, hFrame⟩ :
        ∃ T synced', d'.Has (.log db.walNumber) T synced' ∧
        Stub B (log.map WalEntry.encode) e.encode T ∧ d.SameSynced (.log db.walNumber) d' ∧
        d.Frame {.log db.walNumber} d' := by
      rcases hE with hNot | ⟨hLogged, -, -, hSame⟩
      · exact hNot.stub hAt.isLog
      · obtain ⟨T, synced', hHas', hStub, hFrame⟩ := hLogged.stub hAt.isLog
        exact ⟨T, synced', hHas', hStub, hSame, hFrame⟩
    obtain rfl : synced' = synced := hSame.eq hHas hHas'
    have hCarries := h.carries (hDurable.certain log) hRoom
    have hTells : Tells d' db.versionSet.manifestNumber (· = db.saved flushed) :=
      InStep.tells
        (h.manifest.frame hFrame (by simp) (by simp)) (hDurable.current.frame hFrame (by simp))
        (hDurable.manifest.frame hFrame (by simp))
    have hLog : (db.saved flushed).logNumber = db.walNumber := h.walNumber.symm
    have hSame : SameFiles db.versionSet.current d d' := .of_frame hFrame (by simp)
    apply ComesBack.of_tells hTells
    rintro _ rfl
    refine ⟨db.syncedLog log, log ++ [e], ?_, fun _ _ hSame' hLow hHigh =>
      .rest (hSame.trans hSame') rfl rfl hLow hHigh⟩
    refine { hCarries with
      tables := fun level f hf => (hCarries.tables level f hf).frame hFrame (by simp)
      present := fun B' synced' hHas'' n hn => ?_
      absent := fun hNot => absurd hHas'.mem (hLog ▸ hNot)
      fits := fun e' he' => ?_
      spare := h.spare.frame hFrame fun n hn hName _ => ?_ }
    · rw [hLog] at hHas''
      obtain ⟨rfl, rfl⟩ := hHas'.unique hHas''
      obtain ⟨hUpper, hLower⟩ := hStub.take hAt.isLog n
      refine exists_map_between ((db.syncedLog_prefix log).trans (List.prefix_append _ _)) ?_
        (by simpa using hUpper)
      unfold Db.syncedLog
      split
      · next hSync => exact hLower (((hDurable.log hSync).le hHas).trans hn)
      · exact List.nil_prefix
    · rcases List.mem_append.mp he' with he' | he'
      · exact hCarries.fits e' he'
      · rw [List.mem_singleton.mp he']
        exact ⟨hFits, hSeq⟩
    · obtain rfl : n = db.walNumber := by simpa using hName
      exact absurd h.walBelow (not_lt.mpr hn)

omit [Crc32c] in
/-- A table file is on the disk once it is finished. -/
theorem Describes.onDisk {f : FileMetaData} {es : List Entry} (h : Describes d f es) :
    d.TableOnDisk f.number := ⟨_, h.table⟩

/-- A state that a flush moved on to, with a new log. -/
theorem Carries.of_flush {state : VersionState} {v : Version} {f : FileMetaData}
    {newLog next seq n : Nat} (hv : v.applyEdit (flushEdit f newLog next seq) = .ok state.current)
    (hNumbers : state.logNumber = newLog ∧ state.nextFileNumber = next ∧ state.lastSequence = seq)
    (hNumbered : Numbered v n) (hf : n ≤ f.number ∧ f.number < newLog ∧ newLog < next)
    (hTables : ∀ level, ∀ f ∈ v.filesAt level, d.TableOnDisk f.number)
    (hTable : d.TableOnDisk f.number)
    (hLog : .log newLog ∈ d → ∃ synced, d.Has (.log newLog) [] synced)
    (hSpare : SpareLogs d n) (hRoom : next + 2 < 2 ^ 64) (hSeq : seq < 2 ^ 64) :
    Carries d state [] [] := by
  obtain ⟨rfl, rfl, rfl⟩ := hNumbers
  refine Carries.fresh (fun level g hg => ?_) hLog hf.2.2 ?_ (hSpare.mono (by omega)) hRoom hSeq
  · rcases (mem_filesAt_applyEdit hv).mp hg with ⟨hg, -⟩ | hg
    · exact hTables level g hg
    · obtain ⟨-, rfl⟩ : level = 0 ∧ g = f := by simpa [flushEdit] using hg
      exact hTable
  · refine hNumbered.applyEdit hv (fun g hg => ?_) (by simp [flushEdit]) (by omega)
    obtain rfl : g = { level := 0, fileMeta := f } := by simpa [flushEdit] using hg
    simp only
    omega

/-- A flush that is cut in its commit comes back as the log or as the new table file. -/
theorem FlushCut.comesBack {f : Fault} (hCut : FlushCut A d db flushed log f d')
    (h : Inv d db flushed log) (hDurable : Durable d db)
    (hReplayed : db.memtable = replayed flushed log) (hNext : db.idGen.next + 4 < 2 ^ 64)
    (hSeq : db.versionSet.lastSequence + 1 < 2 ^ 64) (hLow : Certain d db log low) :
    ComesBack d' (Back db.versionSet.current flushed low log W d) := by
  obtain ⟨f, d₁, hNumber, hDesc, hSynced, hNew, hInv, hFrame, hFailed⟩ := hCut
  have hMemSeq : db.memtable.seq < 2 ^ 64 := by
    have := h.seq
    omega
  have hRoom : db.Reopenable := ⟨hSeq, by have := h.next; omega⟩
  have hOther : ∀ name : FileName, (∀ n, name ≠ .sst n ∧ name ≠ .log n) →
      name ∉ filesFrom db.idGen.next ∪ {.log db.walNumber} := by
    rintro name hName (⟨n, -, h | h⟩ | h)
    · exact (hName n).1 h
    · exact (hName n).2 h
    · exact (hName _).2 h
  have hFrame' := hFailed.fails.2
  have hEs : ∀ e ∈ db.memtable.skiplist, EntryFits e ∧ e.1.seq < 2 ^ 64 := fun e he =>
    ⟨h.mem.fits e he, (h.mem.seqs e he).2.trans_lt hMemSeq⟩
  have hSame : SameFiles db.versionSet.current d d' := by
    refine SameFiles.trans (.of_frame hFrame fun level g hg => ?_) (.of_manifest hFrame')
    rintro (hMem | hMem)
    · exact (h.numbered.mono h.next).not_mem_filesFrom hg hMem
    · cases hMem
  refine ComesBack.of_tells (hFailed.tells
    { db.versionSet with lastSequence := flushed } hInv.manifest
    (hDurable.current.frame hFrame (hOther _ (by simp)))
    (hDurable.manifest.frame hFrame (hOther _ (by simp)))
    (flushEdit_storable hDesc hEs (by omega) (by omega) (by omega) hMemSeq)
    (flushEdit_inRange f _ _ _)) ?_
  rintro state (rfl | hState)
  · refine ⟨low, log, (hInv.carries
      (hLow.imp id fun h => ⟨h.1, hSynced.onDisk⟩) hRoom).frame hFrame', ?_⟩
    exact fun _ _ hSame' hLow hHigh => .rest (hSame.trans hSame') rfl rfl hLow hHigh
  · obtain ⟨v, pointers, hv, -, hs⟩ := VersionState.replayEdit_ok hState
    obtain rfl : v = state.current := (congrArg VersionState.current hs).symm
    obtain ⟨synced, hHas⟩ := hNew
    have hDesc' := hDesc.frame hFrame' (by simp)
    have hAdds := applyEdit_flushEdit hv
    have hLast : state.lastSequence = db.memtable.seq := by rw [hs]; rfl
    refine ⟨[], [], Carries.of_flush (n := db.idGen.next) hv (by rw [hs]; exact ⟨rfl, rfl, rfl⟩)
      (h.numbered.mono h.next) (by omega) (fun level g hg => (hInv.tables_onDisk hg).frame hFrame'
        (by simp)) hDesc'.onDisk (fun _ => ⟨synced, hHas.frame hFrame' (by simp)⟩)
      ((hInv.spare.mono h.next).frame hFrame' (by simp)) (by omega) hMemSeq, ?_⟩
    intro d'' log₁ hSame' _ hHigh
    obtain rfl := List.prefix_nil.mp hHigh
    rw [hReplayed] at hDesc' hLast
    exact .flushed (hSame.trans (hSame'.subset fun _ _ hg => hAdds.mem hg)) hAdds
      (hSame'.describes hAdds.mem_self hDesc') hLast

/-- What a flush that is cut leaves comes back as before the flush or as after it. -/
theorem Inv.flush_comesBack (h : Inv d db flushed log) (hDurable : Durable d db)
    (hMem : db.memtable.skiplist ≠ []) (hReplayed : db.memtable = replayed flushed log)
    (hNext : db.idGen.next + 4 < 2 ^ 64) (hSeq : db.versionSet.lastSequence + 1 < 2 ^ 64)
    (hLow : Certain d db log low) :
    Spec A Db.flushMemtable (fun _ _ _ => True)
      (fun _ _ d' => ComesBack d' (Back db.versionSet.current flushed low log W d)) db d := by
  have hRoom : db.Reopenable := ⟨hSeq, by have := h.next; omega⟩
  have hMemSeq : db.memtable.seq < 2 ^ 64 := by
    have := h.seq
    omega
  have hWal : db.walNumber < db.idGen.next := h.walBelow.trans_le h.next
  refine (flushMemtable_spec h hMem (by omega) hMemSeq).mono (fun _ _ _ _ => trivial) ?_
  rintro f db' d' (⟨-, ⟨next, hNext', rfl⟩, hInv, hFrame⟩ | hCut)
  · have hSame : SameFiles db.versionSet.current d d' :=
      .of_filesFrom hFrame (h.numbered.mono h.next)
    obtain ⟨hCurrent, hManifest, hLog⟩ := hDurable.frame hWal hFrame subset_rfl
    have hBack := hInv.comesBack (W := W) ⟨hCurrent, hManifest, hLog⟩
      (hLow.imp id fun h => ⟨h.1, ?_⟩) hRoom
    · exact hBack.mono fun _ _ _ h =>
      h.mono hSame List.prefix_rfl fun _ _ h => h
    · apply h.2.frame hFrame
      rintro ⟨n, hn, hName | hName⟩
      · cases hName
      · cases hName
        omega
  · exact hCut.comesBack h hDurable hReplayed hNext hSeq hLow

/-- What the compaction `c` makes of a database: its new files are written, and the tables of its
new version are in order. -/
structure Rewrites (d : Dir) (db : Db) (flushed : Nat) (c : Compaction) (d' : Dir) (v' : Version) :
    Prop where
  picked : Picked db.versionSet c
  rewrote : Rewrote d db c d' v'
  tables : TablesOk d' flushed v'
  distinct : DistinctTables d' v'

/-- A compaction that is cut in its commit comes back with its input files or with its new ones. -/
theorem CompactionCut.comesBack {c : Compaction} {f : Fault}
    (hCut : CompactionCut A d db flushed log c f d') (h : Inv d db flushed log)
    (hDurable : Durable d db) (hc : Picked db.versionSet c) (hRoom : db.Reopenable)
    (hNext : db.idGen.next + (compactedFiles d db c).length + 2 < 2 ^ 64)
    (hLow : Certain d db log low) :
    ComesBack d' (Back db.versionSet.current flushed low log (Rewrites d db flushed c) d) := by
  obtain ⟨output, d₁, hDeleted, hw, hInv, hFrame, hFailed⟩ := hCut
  have hLength : output.newFiles.length = (compactedFiles d db c).length := by
    rw [← hw.chunks, List.length_map]
  have hWal : db.walNumber < db.idGen.next := h.walBelow.trans_le h.next
  have hFrame' := hFailed.fails.2
  have hSub : sstsFrom db.idGen.next ⊆ filesFrom db.idGen.next := sstsFrom_subset le_rfl
  have hDurable₁ := hDurable.frame hWal hFrame hSub
  have hSame : SameFiles db.versionSet.current d d₁ := .of_frame hFrame fun level g hg hMem =>
    (h.numbered.mono h.next).not_mem_filesFrom hg (hSub hMem)
  have hCarries := (hInv.carries (hLow.imp id fun h => ⟨h.1, h.2.frame hFrame (by
    rintro ⟨n, -, hName⟩
    cases hName)⟩) hRoom).frame hFrame'
  refine ComesBack.of_tells (hFailed.tells
    { db.versionSet with lastSequence := flushed } hInv.manifest hDurable₁.current
    hDurable₁.manifest (hw.edit_storable h hc hDeleted (by omega) (by have := hRoom.1; omega))
    (compactionEdit_inRange hc hDeleted _)) ?_
  rintro state (rfl | hState)
  · exact ⟨low, log, hCarries, fun _ _ hSame' hLow hHigh =>
      .rest ((hSame.trans (.of_manifest hFrame')).trans hSame') rfl rfl hLow hHigh⟩
  · obtain ⟨v, pointers, hv, -, rfl⟩ := VersionState.replayEdit_ok hState
    replace hv : db.versionSet.current.applyEdit _ = .ok v := hv
    obtain ⟨hNumbered, hTables, hDistinct⟩ := hw.version_ok h hInv hFrame hc rfl hDeleted hv
    have hLe : db.versionSet.nextFileNumber ≤ db.idGen.next + output.newFiles.length :=
      h.next.trans (Nat.le_add_right _ _)
    have hRewrites : Rewrites d db flushed c d₁ v := by
      refine ⟨hc, ⟨⟨output.newFiles, hw.chunks, applyEdit_compactionEdit hc h.numbered hDeleted hv⟩,
        fun n hn => Dir.entries_frame hFrame ?_⟩, hTables, hDistinct⟩
      rintro ⟨m, hm, hName⟩
      cases hName
      omega
    refine ⟨low, log, ?_, fun _ _ hSame' hLow hHigh =>
      .compacted hRewrites (.trans (.of_manifest hFrame') hSame') rfl hLow hHigh⟩
    refine { hCarries with
      tables := fun level f hf => ?_
      below := hCarries.below.trans_le hLe
      numbered := hNumbered
      spare := hCarries.spare.mono hLe
      room := by
        change db.idGen.next + output.newFiles.length + 2 < 2 ^ 64
        omega }
    exact Dir.TableOnDisk.frame ⟨_, (hTables level f hf).describes.table⟩ hFrame' (by simp)

/-- What a compaction that is cut leaves comes back as before the compaction or as after it. -/
theorem Inv.compaction_comesBack (h : Inv d db flushed log) (hDurable : Durable d db)
    (hRoom : db.Reopenable) (hNext : ∀ c, pickCompaction db.versionSet = some c →
      db.idGen.next + (compactedFiles d db c).length + 2 < 2 ^ 64)
    (hLow : Certain d db log low) :
    Spec A Db.runOneCompaction (fun _ _ _ => True)
      (fun _ _ d' => ComesBack d' (Back db.versionSet.current flushed low log
        (fun d' v' => ∃ c, Rewrites d db flushed c d' v') d)) db d := by
  refine (runOneCompaction_spec h (fun c hc => by have := hNext c hc; omega)
    (by have := hRoom.1; omega)).mono (fun _ _ _ _ => trivial) ?_
  rintro f db' d' ⟨c, hPick, ⟨-, -, hInv, hFrame⟩ | hCut⟩
  · have hWal : db.walNumber < db.idGen.next := h.walBelow.trans_le h.next
    have hSub : sstsFrom db.idGen.next ⊆ filesFrom db.idGen.next := sstsFrom_subset le_rfl
    have hSame : SameFiles db.versionSet.current d d' := .of_frame hFrame fun level g hg hMem =>
      (h.numbered.mono h.next).not_mem_filesFrom hg (hSub hMem)
    refine (hInv.comesBack (hDurable.frame hWal hFrame hSub) (hLow.imp id fun h => ⟨h.1,
      h.2.frame hFrame ?_⟩) hRoom).mono fun _ _ _ h =>
      h.mono hSame List.prefix_rfl fun _ _ h => h
    rintro ⟨n, -, hName⟩
    cases hName
  · have hc := pickCompaction_picked hPick
    refine (hCut.comesBack h hDurable hc hRoom (hNext c hPick) hLow).mono fun _ _ _ hBack => ?_
    exact hBack.mono (.refl _ _) List.prefix_rfl fun _ _ h => ⟨c, h⟩

end Resting

section Opening

variable [Crc32c] {A : Outcome → Prop} {d d' d₁ : Dir} {db : Db} {flushed number : Nat}
  {state : VersionState} {log : List WalEntry} {Q : Set Entry → Prop} {W : Dir → Version → Prop}
  {options : Options}

theorem Openable.readied (h : Openable d number state log)
    (hReadied : Readied d state.nextFileNumber d₁) : Openable d₁ number state log := by
  obtain ⟨hFrame, hSpare⟩ := hReadied
  have hNot : ∀ name : FileName, (∀ n, name ≠ .sst n ∧ name ≠ .log n) →
      name ∉ filesFrom state.nextFileNumber := by
    rintro name hName ⟨n, -, h | h⟩
    · exact (hName n).1 h
    · exact (hName n).2 h
  have hLog : .log state.logNumber ∉ filesFrom state.nextFileNumber := by
    rintro ⟨n, hn, hName | hName⟩
    · cases hName
    · cases hName
      exact absurd h.below (not_lt.mpr hn)
  have hMem : .log state.logNumber ∈ d₁ ↔ .log state.logNumber ∈ d := by
    rw [← AList.lookup_isSome, ← AList.lookup_isSome, hFrame _ hLog]
  refine { h with
    manifest := h.manifest.frame hFrame (hNot _ (by simp)) (hNot _ (by simp))
    present := fun hIn => ?_
    absent := fun hNotIn => h.absent fun hIn => hNotIn (hMem.mpr hIn)
    spare := hSpare }
  obtain ⟨B, synced, hHas, hRead⟩ := h.present (hMem.mp hIn)
  exact ⟨B, synced, hHas.frame hFrame hLog, hRead⟩

/-- The state that an opening moves on to, with a new log. -/
theorem Carries.of_opening {edit : VersionEdit} {state' : VersionState}
    (h : Openable d number state log)
    (hTables : ∀ level, ∀ f ∈ state.current.filesAt level, d.TableOnDisk f.number)
    (hReadied : Readied d state.nextFileNumber d₁)
    (hEdit : OpeningEdit d₁ state (replayed state.lastSequence log) edit)
    (hv : state.current.applyEdit edit = .ok state'.current)
    (hNumbers : state'.logNumber = edit.logNumber.getD state.logNumber ∧
      state'.nextFileNumber = edit.nextFileNumber.getD state.nextFileNumber ∧
      state'.lastSequence = edit.lastSequence.getD state.lastSequence)
    (hLive : SameFiles state'.current d₁ d') (hSpare : SpareLogs d' state.nextFileNumber)
    (hRoom : state.nextFileNumber + 4 < 2 ^ 64) :
    Carries d' state' [] [] ∧ ∀ d'', SameFiles state'.current d' d'' →
      Back state.current state.lastSequence log log W d d'' state' [] := by
  have hOld : ∀ {d''}, SameFiles state'.current d₁ d'' → SameFiles state.current d d'' :=
    fun hSame => SameFiles.trans (.of_filesFrom hReadied.1 h.numbered)
      (hSame.subset fun _ _ hf => hEdit.keeps hv hf)
  have hDisk : ∀ level, ∀ f ∈ state.current.filesAt level, d'.TableOnDisk f.number :=
    fun level f hf => (hTables level f hf).of_lookup (hOld hLive level f hf)
  have hMemSeq := h.mem_fits.2
  cases hEdit with
  | @flush f hMem hNumber hDesc =>
    have hAdds := applyEdit_flushEdit hv
    refine ⟨Carries.of_flush (n := state.nextFileNumber) hv hNumbers h.numbered (by omega) hDisk
      (hLive.describes hAdds.mem_self hDesc).onDisk (hSpare _ (Nat.le_succ _)) hSpare hRoom hMemSeq,
      fun d'' hSame => ?_⟩
    exact .flushed (hOld (hLive.trans hSame)) hAdds
      ((hLive.trans hSame).describes hAdds.mem_self hDesc) hNumbers.2.2
  | empty hNil =>
    obtain ⟨hLog, hNext, hLast⟩ := hNumbers
    replace hLog : state'.logNumber = state.nextFileNumber := hLog
    replace hNext : state'.nextFileNumber = state.nextFileNumber + 1 := hNext
    replace hLast : state'.lastSequence = state.lastSequence := hLast
    have hSame : state'.current = state.current := Version.ext_filesAt fun level => by
      rw [Version.filesAt_applyEdit hv]
      simp [logEdit]
    obtain rfl := eq_nil_of_replayed hNil
    refine ⟨Carries.fresh (by rwa [hSame]) (fun _ => hLog ▸ hSpare _ le_rfl (hLog ▸ ‹_›))
      (by omega) ?_ ?_
      (by omega) (hLast ▸ h.seq), fun d'' hFiles => ?_⟩
    · rw [hSame, hNext]
      exact h.numbered.mono (Nat.le_succ _)
    · rw [hNext]
      exact hSpare.mono (Nat.le_succ _)
    · exact .rest (hOld (hLive.trans hFiles)) hSame hLast List.prefix_rfl List.prefix_rfl

/-- What an opening that is cut leaves comes back as it was found, or with the log in a table
file. -/
theorem Openable.open_comesBack {σ : Type} {x : σ} (h : Openable d number state log)
    (hWhole : d.Whole number)
    (hTables : ∀ level, ∀ f ∈ state.current.filesAt level, d.TableOnDisk f.number)
    (hCurrent : d.OnDisk .current) (hManifest : d.OnDisk (.manifest number))
    (hLog : .log state.logNumber ∈ d → d.OnDisk (.log state.logNumber))
    (hRoom : state.nextFileNumber + 4 < 2 ^ 64) (hA : Halts A) :
    Spec A (Db.open options) (fun _ _ _ => True)
      (fun _ _ d' => ComesBack d' (Back state.current state.lastSequence log log W d)) x d := by
  have hNot : ∀ name : FileName, (∀ n, name ≠ .sst n ∧ name ≠ .log n) →
      name ∉ filesFrom state.nextFileNumber := by
    rintro name hName ⟨n, -, h | h⟩
    · exact (hName n).1 h
    · exact (hName n).2 h
  have hReady : ∀ {d₁}, Readied d state.nextFileNumber d₁ →
      SameFiles state.current d d₁ ∧ Carries d₁ state log log ∧ d₁.OnDisk .current ∧
        d₁.OnDisk (.manifest number) := by
    intro d₁ hReadied
    have hFrame := hReadied.1
    have hSame : SameFiles state.current d d₁ := .of_filesFrom hFrame h.numbered
    refine ⟨hSame, (h.readied hReadied).carries (fun level f hf =>
      (hTables level f hf).of_lookup (hSame level f hf)) (fun hMem => ?_),
      hCurrent.frame hFrame (hNot _ (by simp)), hManifest.frame hFrame (hNot _ (by simp))⟩
    have hLogFrame : .log state.logNumber ∉ filesFrom state.nextFileNumber := by
      rintro ⟨n, hn, hName | hName⟩
      · cases hName
      · cases hName
        exact absurd h.below (not_lt.mpr hn)
    rw [← AList.lookup_isSome, hFrame _ hLogFrame, AList.lookup_isSome] at hMem
    exact (hLog hMem).frame hFrame hLogFrame
  obtain ⟨offset, hSpec⟩ := h.opened_spec hWhole options (x := x) hA
  refine hSpec.mono (fun _ _ _ _ => trivial) ?_
  rintro f y d' ⟨-, ⟨-, hReadied⟩ | ⟨edit, d₁, hReadied, hEdit, hTorn⟩ |
    ⟨-, edit, d₁, vs', d₂, hReadied, hEdit, hCommitted, ⟨hIn, hSynced⟩, hFrame₂, hSwept⟩⟩
  · obtain ⟨hSame, hCarries, hCurrent₁, hManifest₁⟩ := hReady hReadied
    apply ComesBack.of_tells ((h.readied hReadied).manifest.tells hCurrent₁ hManifest₁)
    rintro _ rfl
    exact ⟨_, _, hCarries, fun _ _ hSame' hLow hHigh =>
      .rest (hSame.trans hSame') rfl rfl hLow hHigh⟩
  · obtain ⟨hSame, hCarries, hCurrent₁, hManifest₁⟩ := hReady hReadied
    have hFrame' := hTorn.fails.2
    have hWhole₁ : d₁.Whole number := hWhole.frame hReadied.1 (hNot _ (by simp))
    obtain ⟨B, synced, hHas, hIn⟩ := (h.readied hReadied).inStep hWhole₁ 0
    refine ComesBack.of_tells (AppendFailed.tells
      { openedSet state number (B.length % blockSize) 0 with
        lastSequence := state.lastSequence } hTorn
      hIn hCurrent₁ hManifest₁ (OpeningEdit.storable h hEdit) hEdit.inRange) ?_
    rintro state' (hState | hState)
    · obtain rfl : state' = state := hState
      exact ⟨_, _, hCarries.frame hFrame', fun _ _ hSame' hLow hHigh =>
        .rest ((hSame.trans (.of_manifest hFrame')).trans hSame') rfl rfl hLow hHigh⟩
    · obtain ⟨v, pointers, hv, -, hs⟩ := VersionState.replayEdit_ok hState
      obtain rfl : v = state'.current := (congrArg VersionState.current hs).symm
      obtain ⟨hCarries', hBack⟩ := Carries.of_opening (W := W) h hTables hReadied hEdit hv
        (by rw [hs]; exact ⟨rfl, rfl, rfl⟩) (.of_manifest hFrame')
        (hReadied.2.frame hFrame' (by simp)) hRoom
      refine ⟨[], [], hCarries', fun d'' log₁ hSame' _ hHigh => ?_⟩
      obtain rfl := List.prefix_nil.mp hHigh
      exact hBack d'' hSame'
  · obtain ⟨-, -, hCurrent₁, -⟩ := hReady hReadied
    obtain ⟨v, pointers, writer, hv, -, rfl⟩ := hCommitted
    have hFrame' := hSwept.frame
    have hManifest₂ : d₂.OnDisk (.manifest number) := hSynced.onDisk
    have hCurrent₂ : d₂.OnDisk .current := hCurrent₁.frame hFrame₂ (by simp)
    refine ComesBack.of_tells (InStep.tells (hIn.frame hFrame' (by simp) (by simp))
      (hCurrent₂.frame hFrame' (by simp)) (hManifest₂.frame hFrame' (by simp [openedSet]))) ?_
    intro state' hs
    obtain rfl : v = state'.current := (congrArg VersionState.current hs).symm
    obtain ⟨hCarries', hBack⟩ := Carries.of_opening (W := W) h hTables hReadied hEdit hv
      (by rw [hs]; exact ⟨rfl, rfl, rfl⟩)
      (fun level g hg => (hSwept.live hg).trans (hFrame₂ _ (by simp)))
      (hSwept.spare (hReadied.2.frame hFrame₂ (by simp))) hRoom
    refine ⟨[], [], hCarries', fun d'' log₁ hSame' _ hHigh => ?_⟩
    obtain rfl := List.prefix_nil.mp hHigh
    exact hBack d'' hSame'

/-- What an opening that is cut leaves comes back as it was found, or with the log in a table
file. -/
theorem Inv.open_restores {σ : Type} {x : σ} (h : Inv d db flushed log) (hDurable : Durable d db)
    (hLog : d.OnDisk (.log db.walNumber)) (hSeq : db.versionSet.lastSequence + 1 < 2 ^ 64)
    (hRoom : db.versionSet.nextFileNumber + 4 < 2 ^ 64) (hA : Halts A)
    (hQ : Q (stored d db.versionSet.current ∪ logVersions log)) :
    Spec A (Db.open options) (fun _ _ _ => True) (fun _ _ d' => Restores d' Q) x d := by
  have hNumber : (db.saved flushed).logNumber = db.walNumber := h.walNumber.symm
  refine ((h.openable hSeq (by omega)).open_comesBack (W := fun _ _ => False) h.manifest.whole
    (fun _ _ => h.tables_onDisk) hDurable.current hDurable.manifest (fun _ => hNumber ▸ hLog) hRoom
    hA).mono (fun _ _ _ h => h) fun f y d' hBack d'' hSurvives => ?_
  obtain ⟨number, state, log₁, hOpen, hTables, hCase⟩ := hBack d'' hSurvives
  refine ⟨number, state, log₁, hOpen, hTables, hCase.meets List.prefix_rfl
    (fun log₂ hLow hHigh => ?_)
    fun _ _ h => h.elim⟩
  obtain rfl := hHigh.eq_of_length (le_antisymm hHigh.length_le hLow.length_le)
  exact hQ

end Opening

end MulanLsm
