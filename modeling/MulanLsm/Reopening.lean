import MulanLsm.Opening

/-! What an opening finds and leaves.  A database in step with its directory is found as it was
left, with its log replayed; the commit of the opening goes behind a manifest of whole pieces, or
behind one that a crash has cut, where no later opening finds it. -/

namespace MulanLsm

section Found

variable [Crc32c] {A : Outcome → Prop} {d d' : Dir} {db db' : Db} {flushed number offset : Nat}
  {log : List WalEntry} {state : VersionState} {m : MemTable} {options : Options}

/-- The state that the manifest of a database in step says. -/
def Db.saved (db : Db) (flushed : Nat) : VersionState :=
  { db.versionSet.toVersionState with lastSequence := flushed }

/-- A database in step leaves a directory that opens. -/
theorem Inv.openable (h : Inv d db flushed log) (hSeq : db.versionSet.lastSequence + 1 < 2 ^ 64)
    (hRoom : db.versionSet.nextFileNumber + 2 < 2 ^ 64) :
    Openable d db.versionSet.manifestNumber (db.saved flushed) log := by
  obtain ⟨B, hAt⟩ := h.wal
  have hLog : (db.saved flushed).logNumber = db.walNumber := h.walNumber.symm
  obtain ⟨synced, hHas⟩ := hAt.has
  refine ⟨h.manifest.said, fun _ => ?_, fun hNot => ?_, fun e he => ?_, ?_, h.numbered, h.spare,
    hRoom, ?_⟩
  · rw [hLog]
    exact ⟨B, synced, hHas, hAt.isLog.readRecords⟩
  · rw [hLog] at hNot
    exact absurd hHas.mem hNot
  · obtain ⟨hFits, -, hLe⟩ := h.logged e he
    exact ⟨hFits, hLe.trans_lt hSeq⟩
  · rw [hLog]
    exact h.walBelow
  · have := h.flushedLe
    change flushed < 2 ^ 64
    omega

omit [Crc32c] in
theorem OpeningEdit.inRange {edit : VersionEdit} (h : OpeningEdit d state m edit) :
    edit.InRange := by
  cases h with
  | flush => exact flushEdit_inRange _ _ _ _
  | empty => simp [logEdit, VersionEdit.InRange]

omit [Crc32c] in
theorem logEdit_storable {newLog next : Nat} (h : newLog < next) (hNext : next < 2 ^ 64) :
    (logEdit newLog next).Storable := by
  intro field hField
  simp only [logEdit, VersionEdit.fields, Option.map_none, Option.map_some, Option.toList_none,
    Option.toList_some, List.map_nil, List.nil_append, List.append_nil, List.cons_append,
    List.mem_cons, List.not_mem_nil, or_false] at hField
  rcases hField with rfl | rfl
  · exact h.trans hNext
  · exact hNext

theorem Openable.mem_fits (h : Openable d number state log) :
    (∀ e ∈ (replayed state.lastSequence log).skiplist, EntryFits e ∧ e.1.seq < 2 ^ 64) ∧
      (replayed state.lastSequence log).seq < 2 ^ 64 := by
  constructor
  · intro e he
    obtain ⟨w, hw, rfl⟩ := List.mem_map.mp ((replayed_perm _ _).mem_iff.mp he)
    exact h.fits w hw
  · have hBound : (replayed state.lastSequence log).seq ≤ 2 ^ 64 - 1 :=
      replayed_seq_le (by have := h.seq; omega) fun e he => by have := (h.fits e he).2; omega
    omega

theorem OpeningEdit.storable (h : Openable d number state log) {d₁ : Dir} {edit : VersionEdit}
    (hEdit : OpeningEdit d₁ state (replayed state.lastSequence log) edit) : edit.Storable := by
  obtain ⟨hFits, hSeq⟩ := h.mem_fits
  have hRoom := h.room
  cases hEdit with
  | flush _ hNumber hDesc =>
    exact flushEdit_storable hDesc hFits (by omega) (by omega) hRoom hSeq
  | empty => exact logEdit_storable (by omega) (by omega)

/-- The manifest says what the version set of an opening holds after its commit. -/
def CommitLogged (number : Nat) (state : VersionState) (edit : VersionEdit) (vs' : VersionSet)
    (d' : Dir) : Prop :=
  InStep ({ vs' with lastSequence := edit.lastSequence.getD state.lastSequence }, d') ∧
    d'.Synced (.manifest number)

/-- The append of the edit of an opening failed. -/
def CommitTorn (A : Outcome → Prop) (number : Nat) (edit : VersionEdit) (d₁ : Dir) (f : Fault)
    (d' : Dir) : Prop := AppendFailed A edit d₁ number f d'

/-- Behind a manifest of whole pieces the commit of an opening is logged, or its append fails. -/
theorem Openable.commits (h : Openable d number state log)
    (hIn : InStep ({ openedSet state number offset (replayed state.lastSequence log).seq with
      lastSequence := state.lastSequence }, d)) :
    Commits A d state (replayed state.lastSequence log)
      (openedSet state number offset (replayed state.lastSequence log).seq)
      (CommitLogged number state) (CommitTorn A number) := by
  intro edit d₁ hReadied hEdit
  have hNot : ∀ name : FileName, (∀ n, name ≠ .sst n ∧ name ≠ .log n) →
      name ∉ filesFrom state.nextFileNumber := by
    rintro name hName ⟨n, -, h | h⟩
    · exact (hName n).1 h
    · exact (hName n).2 h
  have hIn₁ := hIn.frame hReadied.1 (hNot _ (by simp)) (hNot _ (by simp))
  refine (commit_spec hIn₁ (OpeningEdit.storable h hEdit) hEdit.inRange).mono ?_ ?_
  · rintro - vs' d' ⟨hCommitted, hIn', hSynced, hFrame⟩
    exact ⟨hCommitted, ⟨hIn', hSynced⟩, hFrame⟩
  · rintro f vs' d' ⟨-, hFailed⟩
    exact hFailed

/-- The manifest `number` is a log of whole pieces. -/
def Dir.Whole (d : Dir) (number : Nat) : Prop :=
  ∃ B synced records, d.Has (.manifest number) B synced ∧ IsLog B records

theorem Dir.Whole.frame {names : Set FileName} (h : d.Whole number) (hFrame : d.Frame names d')
    (hManifest : .manifest number ∉ names) : d'.Whole number := by
  obtain ⟨B, synced, records, hHas, hLog⟩ := h
  exact ⟨B, synced, records, hHas.frame hFrame hManifest, hLog⟩

theorem InStep.whole {vs : VersionSet} (h : InStep (vs, d)) : d.Whole vs.manifestNumber := by
  obtain ⟨-, B, records, -, hAt, -⟩ := h
  obtain ⟨synced, hHas⟩ := hAt.has
  exact ⟨B, synced, records, hHas, hAt.isLog⟩

/-- Without failing calls a commit returns, whatever the manifest holds. -/
theorem writeNewVersion_quiet {vs : VersionSet} {edit : VersionEdit} {B : Bytes} {synced : Nat}
    (hName : vs.manifestWriter.wal.name = .manifest vs.manifestNumber)
    (hHas : d.Has (.manifest vs.manifestNumber) B synced)
    (hAl : Aligned vs.manifestWriter.wal B.length) (hRange : edit.InRange) :
    Spec Quiet (VersionSet.writeNewVersion edit)
      (fun _ vs' d' => Committed vs edit vs' ∧ .manifest vs.manifestNumber ∈ d' ∧
        d.Frame {.manifest vs.manifestNumber} d') Never vs d := by
  obtain ⟨v, hv⟩ := hRange.applyEdit vs.current
  rw [← hName] at hHas
  refine Spec.bind (Spec.onField (Spec.bind (Spec.onField
    ((addRecord_spec hHas hAl).mono ?_ ?_))))
  · rintro - w d₁ ⟨ps, B₁, -, -, hName₁, -, hHas₁, hFrame₁⟩
    refine Spec.onField (Spec.bind (Spec.self (Spec.syncAll (hName₁ ▸ hHas₁) ?_
      fun n f hB => not_broken_quiet hB)))
    rintro d₂ hHas₂ hFrame₂
    refine Spec.bind (Spec.self (Spec.bind (Spec.ofResult ?_ ?_)))
    · intro v' hv'
      refine Spec.bind (Spec.update (Spec.bind ((VersionSet.setPointers_spec
        edit.compactPointers).mono ?_ ?_)))
      · rintro - vs' d' ⟨rfl, -, rfl⟩
        refine Spec.bind (Spec.self (Spec.pure ⟨?_, ?_, ?_⟩))
        · obtain ⟨pointers, hMoves, hp⟩ := VersionState.foldl_setPointer edit.compactPointers
            (vs.toVersionState.setNumbers v' edit)
          exact ⟨v', pointers, { wal := w }, hv', hMoves, by rw [← hp]⟩
        · exact hName ▸ hName₁ ▸ hHas₂.mem
        · rw [← hName]
          exact hFrame₁.trans (hName₁ ▸ hFrame₂)
      · rintro f vs' d' ⟨-, -, hps, -⟩
        exact hps hRange.2.2
    · intro e he
      have hv' : vs.current.applyEdit edit = .error e := he
      rw [hv] at hv'
      contradiction
  · rintro f w d₁ ⟨_, _, _, _, n, _, _, _, _, _, hBroken, _⟩
    exact not_broken_quiet hBroken

/-- Without failing calls the commit of an opening returns, also behind a cut manifest. -/
theorem Openable.commits_cut {B : Bytes} {synced : Nat} (hHas : d.Has (.manifest number) B synced) :
    Commits Quiet d state m (openedSet state number (B.length % blockSize) m.seq)
      (fun _ _ d' => .manifest number ∈ d') (fun _ _ _ _ => False) := by
  intro edit d₁ hReadied hEdit
  have hHas₁ : d₁.Has (.manifest number) B synced := hHas.frame hReadied.1 (by
    rintro ⟨n, -, h | h⟩ <;> cases h)
  refine (writeNewVersion_quiet rfl hHas₁ (aligned_create _ _) hEdit.inRange).mono ?_
    fun _ _ _ h => h
  rintro - vs' d' ⟨hCommitted, hMem, hFrame⟩
  exact ⟨hCommitted, hMem, hFrame⟩

/-- The database that an opening gives: the files are those that the manifest said, with one more at
level 0 if the log had entries, and the memory table is empty. -/
structure Reopened (d : Dir) (state : VersionState) (m : MemTable) (d' : Dir) (db' : Db) :
    Prop where
  files : if m.skiplist = [] then db'.versionSet.current = state.current
    else ∃ f, f.number = state.nextFileNumber ∧
      AddsFile state.current f db'.versionSet.current ∧ Describes d' f m.skiplist
  tables : ∀ level, ∀ f ∈ state.current.filesAt level, d'.lookup (.sst f.number) =
    d.lookup (.sst f.number)
  mem : db'.memtable = .withInitialSequence m.seq
  lastSequence : db'.versionSet.lastSequence = m.seq
  snapshots : db'.versionSet.snapshots = []
  next : db'.idGen.next = db'.versionSet.nextFileNumber
  numbers : state.nextFileNumber < db'.versionSet.nextFileNumber ∧
    db'.versionSet.nextFileNumber ≤ state.nextFileNumber + 2
  cache : db'.tableCache = .withCapacity db'.options.tableCacheSize

omit [Crc32c] in
/-- A file of the database that was opened is one that the manifest named, or the new one. -/
theorem Reopened.file {d d' : Dir} {state : VersionState} {m : MemTable} {db : Db}
    (h : Reopened d state m d' db) {level : Nat} {f : FileMetaData}
    (hf : f ∈ db.versionSet.current.filesAt level) :
    f ∈ state.current.filesAt level ∨
      f.number = state.nextFileNumber ∧ Describes d' f m.skiplist := by
  have hFiles := h.files
  split at hFiles
  · exact .inl (hFiles ▸ hf)
  · obtain ⟨g, hNumber, ⟨hZero, hDeeper⟩, hDesc⟩ := hFiles
    by_cases hLevel : level = 0
    · subst hLevel
      rw [hZero] at hf
      rcases List.mem_append.mp hf with hf | hf
      · exact .inl hf
      · obtain rfl := List.mem_singleton.mp hf
        exact .inr ⟨hNumber, hDesc⟩
    · exact .inl (hDeeper level hLevel ▸ hf)

omit [Crc32c] in
/-- The files that the manifest named are still there. -/
theorem Reopened.keeps {d d' : Dir} {state : VersionState} {m : MemTable} {db : Db}
    (h : Reopened d state m d' db) {level : Nat} {f : FileMetaData}
    (hf : f ∈ state.current.filesAt level) : f ∈ db.versionSet.current.filesAt level := by
  have hFiles := h.files
  split at hFiles
  · exact hFiles ▸ hf
  · obtain ⟨g, -, hAdds, -⟩ := hFiles
    exact hAdds.mem hf

omit [Crc32c] in
theorem Swept.live {vs : VersionSet} (h : Swept vs d d') {level : Nat} {f : FileMetaData}
    (hf : f ∈ vs.current.filesAt level) : d'.lookup (.sst f.number) = d.lookup (.sst f.number) := by
  rcases h (.sst f.number) with h | ⟨hName, -⟩ | ⟨hDead, -⟩
  · exact h
  · cases hName
  · have hLevel : level < numLevels := by
      by_contra hNot
      rw [Version.filesAt_of_le (by omega)] at hf
      contradiction
    simp only [isObsolete, List.all_eq_true, List.mem_range, decide_eq_true_eq] at hDead
    exact absurd rfl (hDead level hLevel f hf)

omit [Crc32c] in
/-- An edit of an opening deletes no file. -/
theorem OpeningEdit.keeps {v v' : Version} {edit : VersionEdit} (h : OpeningEdit d state m edit)
    (hv : v.applyEdit edit = .ok v') {level : Nat} {f : FileMetaData} (hf : f ∈ v.filesAt level) :
    f ∈ v'.filesAt level := by
  refine (mem_filesAt_applyEdit hv).mpr (.inl ⟨hf, ?_⟩)
  cases h <;> simp [flushEdit, logEdit]

omit [Crc32c] in
/-- An edit of an opening adds at most the table of the memtable, under the first new number. -/
theorem OpeningEdit.newFile {edit : VersionEdit} {g : NewFile} (h : OpeningEdit d state m edit)
    (hg : g ∈ edit.newFiles) :
    g.fileMeta.number = state.nextFileNumber ∧ Describes d g.fileMeta m.skiplist := by
  cases h with
  | flush _ hNumber hDesc =>
    obtain rfl := List.mem_singleton.mp hg
    exact ⟨hNumber, hDesc⟩
  | empty => simp [logEdit] at hg

omit [Crc32c] in
theorem OpeningEdit.pairwise {edit : VersionEdit} (h : OpeningEdit d state m edit)
    (R : NewFile → NewFile → Prop) : edit.newFiles.Pairwise R := by
  cases h with
  | flush => exact List.pairwise_singleton _ _
  | empty => exact List.Pairwise.nil

omit [Crc32c] in
theorem OpeningEdit.unique {edit : VersionEdit} {f g : NewFile} (h : OpeningEdit d state m edit)
    (hf : f ∈ edit.newFiles) (hg : g ∈ edit.newFiles) : f = g := by
  cases h with
  | flush => rw [List.mem_singleton.mp hf, List.mem_singleton.mp hg]
  | empty => simp [logEdit] at hf

omit [Crc32c] in
/-- An edit of an opening records the last sequence number of the log. -/
theorem OpeningEdit.lastSequence {edit : VersionEdit}
    (h : OpeningEdit d state (replayed state.lastSequence log) edit) :
    edit.lastSequence.getD state.lastSequence = (replayed state.lastSequence log).seq := by
  cases h with
  | flush => rfl
  | empty hNil =>
    rw [eq_nil_of_replayed hNil]
    rfl

omit [Crc32c] in
theorem Version.ext_filesAt {v v' : Version} (h : ∀ level, v'.filesAt level = v.filesAt level) :
    v' = v := by
  obtain ⟨files⟩ := v
  obtain ⟨files'⟩ := v'
  congr 1
  funext level
  have := h level
  simpa [Version.filesAt] using this

theorem Opened.reopened {Good : VersionEdit → VersionSet → Dir → Prop}
    (hNumbered : Numbered state.current state.nextFileNumber)
    (h : Opened d state m (openedSet state number offset m.seq) Good options d' db) :
    Reopened d state m d' db ∧ db.options = options := by
  obtain ⟨edit, d₁, d₂, hReadied, hEdit, hCommitted, -, hFrame, hSwept, -, -, hDb⟩ := h
  obtain ⟨hLow, hBelow, hHigh⟩ := hEdit.numbers hCommitted
  obtain ⟨v, pointers, writer, hv, -, hvs⟩ := hCommitted
  replace hv : state.current.applyEdit edit = .ok v := hv
  have hCurrent : db.versionSet.current = v := by
    rw [hvs]
    rfl
  have hSnapshots : db.versionSet.snapshots = [] := by
    rw [hvs]
    rfl
  have hLive : ∀ level, ∀ f ∈ v.filesAt level, d'.lookup (.sst f.number) =
      d₁.lookup (.sst f.number) := fun level f hf =>
    (hSwept.live (hCurrent ▸ hf)).trans (hFrame _ (by simp))
  refine ⟨⟨?_, fun level f hf => ?_, by rw [hDb], ?_, hSnapshots, by rw [hDb],
    ⟨hLow.trans_lt hBelow, hHigh⟩, by rw [hDb]⟩, by rw [hDb]⟩
  · cases hEdit with
    | @flush f hMem hNumber hDesc =>
      rw [if_neg hMem, hCurrent]
      have hAdds := applyEdit_flushEdit hv
      have hf : f ∈ v.filesAt 0 := by
        rw [hAdds.1]
        exact List.mem_append_right _ (List.mem_singleton_self f)
      exact ⟨f, hNumber, hAdds, hDesc.frame (Dir.frame_of_lookup (hLive 0 f hf)) (by simp)⟩
    | empty hMem =>
      rw [if_pos hMem, hCurrent]
      refine Version.ext_filesAt fun level => ?_
      rw [Version.filesAt_applyEdit hv]
      simp [logEdit]
  · exact (hLive level f (hEdit.keeps hv hf)).trans
      (hReadied.1 _ (hNumbered.not_mem_filesFrom hf))
  · rw [hvs]
    cases hEdit <;> rfl

omit [Crc32c] in
theorem Swept.frame {vs : VersionSet} (h : Swept vs d d') :
    d.Frame {.current, .manifest vs.manifestNumber}ᶜ d' := by
  intro name hName
  rw [Set.notMem_compl_iff, Set.mem_insert_iff, Set.mem_singleton_iff] at hName
  rcases h name with hSame | ⟨rfl, -⟩ | ⟨hDead, -⟩
  · exact hSame
  · rcases hName with hName | hName <;> cases hName
  · rcases hName with rfl | rfl <;> simp [isObsolete] at hDead

omit [Crc32c] in
theorem Swept.spare {vs : VersionSet} {next : Nat} (h : Swept vs d d') (hSpare : SpareLogs d next) :
    SpareLogs d' next := by
  intro n hn hMem
  rcases h (.log n) with hSame | ⟨-, hNew⟩ | ⟨-, hGone⟩
  · rw [← AList.lookup_isSome, hSame, AList.lookup_isSome] at hMem
    obtain ⟨synced, f, hf, hB⟩ := hSpare n hn hMem
    exact ⟨synced, f, hSame.trans hf, hB⟩
  · exact hNew
  · rw [← AList.lookup_isSome, hGone] at hMem
    contradiction

/-- An opening behind a manifest of whole pieces gives a database in step with its directory. -/
theorem Opened.inv (h : Openable d number state log)
    (hTables : TablesOk d state.lastSequence state.current)
    (hDistinct : DistinctTables d state.current)
    (hMem : MemOk (replayed state.lastSequence log) state.lastSequence)
    (hOpened : Opened d state (replayed state.lastSequence log)
      (openedSet state number offset (replayed state.lastSequence log).seq)
      (CommitLogged number state) options d' db) :
    Inv d' db (replayed state.lastSequence log).seq [] := by
  set m := replayed state.lastSequence log
  obtain ⟨hRe, -⟩ := hOpened.reopened h.numbered
  obtain ⟨edit, d₁, d₂, hReadied, hEdit, hCommitted, ⟨hIn, -⟩, hFrame, hSwept, -, hWal, hDb⟩ :=
    hOpened
  obtain ⟨hLow, hBelow, -⟩ := hEdit.numbers hCommitted
  have hNext : state.nextFileNumber ≤ db.versionSet.nextFileNumber := (hLow.trans hBelow.le)
  obtain ⟨v, pointers, writer, hv, -, hvs⟩ := hCommitted
  replace hv : state.current.applyEdit edit = .ok v := hv
  have hCurrent : db.versionSet.current = v := by
    rw [hvs]
    rfl
  have hLe : state.lastSequence ≤ m.seq := (replayed_seq_ge _ _).1
  have hOld : ∀ level, ∀ f ∈ state.current.filesAt level,
      d.Frame {.sst f.number}ᶜ d' ∧ .sst f.number ∉ ({.sst f.number}ᶜ : Set FileName) :=
    fun level f hf => ⟨Dir.frame_of_lookup (hRe.tables level f hf), by simp⟩
  have hNew : ∀ f ∈ edit.newFiles, Describes d' f.fileMeta m.skiplist := by
    intro f hf
    have hLive : f.fileMeta ∈ db.versionSet.current.filesAt f.level := by
      rw [hCurrent]
      exact (mem_filesAt_applyEdit hv).mpr (.inr hf)
    have hSame : d'.lookup (.sst f.fileMeta.number) = d₁.lookup (.sst f.fileMeta.number) :=
      (hSwept.live hLive).trans (hFrame _ (by simp))
    exact (hEdit.newFile hf).2.frame (Dir.frame_of_lookup hSame) (by simp)
  constructor
  · rw [hEdit.lastSequence] at hIn
    exact hIn.frame hSwept.frame (by simp) (by simp)
  · exact ⟨[], by rw [hDb]; exact hWal⟩
  · rw [hDb]
  · rw [hDb]
    exact hBelow
  · rw [hRe.next]
  · rw [hCurrent]
    refine h.numbered.applyEdit hv (fun f hf => ?_) ?_ hNext
    · rw [(hEdit.newFile hf).1]
      exact ⟨le_rfl, hRe.numbers.1⟩
    · exact hEdit.pairwise _
  · rw [hCurrent]
    refine TablesOk.applyEdit (fun level f hf => ?_) hv fun f hf => hMem.tableOk (hNew f hf)
    exact ((hTables level f hf).frame (hOld level f hf).1 (hOld level f hf).2).mono hLe
  · rw [hCurrent]
    refine DistinctTables.applyEdit (fun level level' f hf g hg => ?_) hv
      (fun f hf g hg hne => ?_) fun f hf level g hg _ x hx y hy _ => ?_
    · rw [Dir.entries_frame (hOld level f hf).1 (hOld level f hf).2,
        Dir.entries_frame (hOld level' g hg).1 (hOld level' g hg).2]
      exact hDistinct level level' f hf g hg
    · exact absurd (congrArg (·.fileMeta.number) (hEdit.unique hf hg)) hne
    · rw [(hNew f hf).entries] at hx
      rw [Dir.entries_frame (hOld level g hg).1 (hOld level g hg).2] at hy
      exact hMem.seq_ne (hTables level g hg) hx hy
  · exact hSwept.spare ((hReadied.2.mono hNext).frame hFrame (by simp))
  · rw [hRe.mem]
    exact MemOk.empty
  · rw [hRe.mem, hRe.lastSequence]
    rfl
  · rw [hRe.lastSequence]
  · simp
  · rw [hRe.cache]
    exact TableCache.Agrees.empty _ _ _

theorem OpeningCut.fails {state : VersionState} {m : MemTable} {vs : VersionSet} {number : Nat}
    {Good : VersionEdit → VersionSet → Dir → Prop} {f : Fault} {d' : Dir}
    (h : OpeningCut A d state m vs Good (CommitTorn A number) f d') : Fails A f := by
  rcases h with ⟨hFails, -⟩ | ⟨_, _, -, -, hTorn⟩ | ⟨hFails, -⟩
  · exact hFails
  · exact hTorn.fails.1
  · exact hFails

/-- An opening behind a manifest of whole pieces goes on in step with it. -/
theorem Openable.inStep (h : Openable d number state log) (hWhole : d.Whole number) (seq : Nat) :
    ∃ B synced, d.Has (.manifest number) B synced ∧
      InStep ({ openedSet state number (B.length % blockSize) seq with
        lastSequence := state.lastSequence }, d) := by
  obtain ⟨hNames, B, synced, edits, hHas, hDecode, hReplay⟩ := h.manifest
  obtain ⟨B', synced', records, hHas', hLog⟩ := hWhole
  obtain ⟨rfl, rfl⟩ := hHas.unique hHas'
  rw [hLog.readRecords] at hDecode
  exact ⟨B, synced, hHas, hNames, B, records, edits,
    ⟨rfl, ⟨synced, hHas⟩, hLog, aligned_create _ _⟩, hDecode, hReplay⟩

/-- What an opening behind a manifest of whole pieces comes to. -/
theorem Openable.opened_spec {σ : Type} {x : σ} (h : Openable d number state log)
    (hWhole : d.Whole number) (options : Options) (hA : Halts A) :
    ∃ offset, Spec A (Db.open options)
      (fun db' y d' => y = x ∧ Opened d state (replayed state.lastSequence log)
        (openedSet state number offset (replayed state.lastSequence log).seq)
        (CommitLogged number state) options d' db')
      (fun f y d' => y = x ∧ OpeningCut A d state (replayed state.lastSequence log)
        (openedSet state number offset (replayed state.lastSequence log).seq)
        (CommitLogged number state) (CommitTorn A number) f d') x d := by
  obtain ⟨B, synced, hHas, hIn⟩ := h.inStep hWhole (replayed state.lastSequence log).seq
  obtain ⟨⟨g, hg, -⟩, -⟩ := h.manifest
  refine ⟨B.length % blockSize, Spec.bind (Spec.pathExists hA ?_ fun f hF =>
    ⟨rfl, .inl ⟨hF, Readied.refl h.spare⟩⟩)⟩
  rw [if_pos (decide_eq_true (Dir.mem_of_lookup hg))]
  exact recoverOpen_spec h hA hHas (h.commits hIn)

/-- What an opening of a database that was in step with its directory comes to. -/
theorem Inv.opened_spec {σ : Type} {x : σ} (h : Inv d db flushed log) (options : Options)
    (hSeq : db.versionSet.lastSequence + 1 < 2 ^ 64)
    (hRoom : db.versionSet.nextFileNumber + 2 < 2 ^ 64) (hA : Halts A) :
    ∃ offset, Spec A (Db.open options)
      (fun db' y d' => y = x ∧ Opened d (db.saved flushed) (replayed flushed log)
        (openedSet (db.saved flushed) db.versionSet.manifestNumber offset
          (replayed flushed log).seq)
        (CommitLogged db.versionSet.manifestNumber (db.saved flushed)) options d' db')
      (fun f y d' => y = x ∧ OpeningCut A d (db.saved flushed) (replayed flushed log)
        (openedSet (db.saved flushed) db.versionSet.manifestNumber offset
          (replayed flushed log).seq)
        (CommitLogged db.versionSet.manifestNumber (db.saved flushed))
        (CommitTorn A db.versionSet.manifestNumber) f d') x d :=
  (h.openable hSeq hRoom).opened_spec h.manifest.whole options hA

/-- An opening of a database that was in step with its directory gives one that is, or is cut. -/
theorem Inv.open_spec {σ : Type} {x : σ} (h : Inv d db flushed log)
    (hSeq : db.versionSet.lastSequence + 1 < 2 ^ 64)
    (hRoom : db.versionSet.nextFileNumber + 2 < 2 ^ 64) (hA : Halts A)
    (hMem : MemOk (replayed flushed log) flushed) :
    Spec A (Db.open options)
      (fun db' y d' => y = x ∧ Inv d' db' (replayed flushed log).seq [] ∧
        Reopened d (db.saved flushed) (replayed flushed log) d' db' ∧ db'.options = options)
      (fun f y d' => y = x ∧ ∃ offset, OpeningCut A d (db.saved flushed) (replayed flushed log)
        (openedSet (db.saved flushed) db.versionSet.manifestNumber offset
          (replayed flushed log).seq)
        (CommitLogged db.versionSet.manifestNumber (db.saved flushed))
        (CommitTorn A db.versionSet.manifestNumber) f d') x d := by
  have hOpen := h.openable hSeq hRoom
  obtain ⟨offset, hSpec⟩ := h.opened_spec options (x := x) hSeq hRoom hA
  refine hSpec.mono ?_ ?_
  · rintro db' y d' ⟨rfl, hOpened⟩
    obtain ⟨hRe, hOptions⟩ := hOpened.reopened hOpen.numbered
    exact ⟨rfl, hOpened.inv hOpen h.tables h.distinct hMem, hRe, hOptions⟩
  · rintro f y d' ⟨rfl, hCut⟩
    exact ⟨rfl, offset, hCut⟩

/-- A close brings the log to the disk, if that does not fail. -/
theorem Inv.close_spec {σ : Type} {x : σ} (h : Inv d db flushed log) :
    Spec A (Db.close db)
      (fun _ y d' => y = x ∧ Inv d' db flushed log ∧ d.Frame {.log db.walNumber} d' ∧
        (d'.Synced (.log db.walNumber) ∨ ∃ e, Fails A (.error e)))
      (fun f y d' => y = x ∧ Fails A f ∧ d' = d) x d := by
  obtain ⟨B, hAt⟩ := h.wal
  have hSync : Spec A (runOn db (Db.onWal WalWriter.sync) : St σ (Unit × Db))
      (fun _ y d' => y = x ∧ Inv d' db flushed log ∧ d.Frame {.log db.walNumber} d' ∧
        (d'.Synced (.log db.walNumber) ∨ ∃ e, Fails A (.error e)))
      (fun f y d' => y = x ∧ Fails A f ∧ d' = d) x d := by
    refine Spec.runOn (Spec.onField (hAt.sync_spec.mono ?_ ?_))
    · rintro - w d' ⟨rfl, hAt', hHas, hFrame⟩
      exact ⟨rfl, h.relog hFrame hAt' h.logged, hFrame, .inl ⟨B, hHas⟩⟩
    · rintro f w d' ⟨rfl, rfl, hFails⟩
      exact ⟨rfl, hFails, rfl⟩
  intro os hos
  have hRun := hSync os hos
  unfold Effects.wp at hRun ⊢
  unfold Db.close
  cases hm : (runOn db (Db.onWal WalWriter.sync) : St σ (Unit × Db)) (x, ⟨d, os⟩) with
  | ok a s => rw [hm] at hRun; exact hRun
  | error f s =>
    rw [hm] at hRun
    obtain ⟨⟨hx, hFails, hd⟩, hRest⟩ := hRun
    cases f with
    | error e => exact ⟨⟨hx, hd ▸ h, hd ▸ Dir.Frame.refl _ _, .inr ⟨e, hFails⟩⟩, hRest⟩
    | crash => exact ⟨⟨hx, hFails, hd⟩, hRest⟩
    | panic => exact ⟨⟨hx, hFails, hd⟩, hRest⟩

end Found

section Created

variable [Crc32c] {A : Outcome → Prop} {σ : Type} {x : σ} {d : Dir} {options : Options}

/-- The first edit of a new database. -/
def initialEdit : VersionEdit :=
  { comparator := some "mulan.BytewiseComparator", logNumber := some 2, nextFileNumber := some 3
    lastSequence := some 0 }

/-- The state of a new database. -/
def initialState : VersionState := { VersionState.empty with logNumber := 2, nextFileNumber := 3 }

omit [Crc32c] in
theorem initialEdit_replay : VersionState.empty.replayEdit initialEdit = .ok initialState := by
  rfl

omit [Crc32c] in
theorem initialEdit_storable : initialEdit.Storable := by
  intro field hField
  simp only [initialEdit, VersionEdit.fields, Option.map_none, Option.map_some, Option.toList_none,
    Option.toList_some, List.map_nil, List.nil_append, List.append_nil, List.cons_append,
    List.mem_cons, List.not_mem_nil, or_false] at hField
  rcases hField with rfl | rfl | rfl | rfl
  · exact (by decide : (utf8 "mulan.BytewiseComparator").length < 2 ^ 32)
  · exact (by decide : 2 < 2 ^ 64)
  · exact (by decide : 3 < 2 ^ 64)
  · exact (by decide : 0 < 2 ^ 64)

/-- `CURRENT` and the manifest are on the disk, and the log is empty. -/
structure Settled (d : Dir) (db : Db) : Prop where
  current : d.Synced .current
  manifest : d.Synced (.manifest db.versionSet.manifestNumber)
  log : ∃ synced, d.Has (.log db.walNumber) [] synced

/-- The database right after it was created. -/
structure Created (options : Options) (db : Db) : Prop where
  state : db.versionSet.toVersionState = initialState
  snapshots : db.versionSet.snapshots = []
  mem : db.memtable = .new
  next : db.idGen.next = 3
  options : db.options = options

/-- A directory in which a creation got past the rename of `CURRENT`. -/
structure Begun (d : Dir) : Prop where
  said : Says d 1 initialState
  current : d.Synced .current
  manifest : d.Synced (.manifest 1)
  logs : ∀ n, .log n ∈ d → n = 2 ∧ ∃ synced, d.Has (.log 2) [] synced

omit [Crc32c] in
theorem initialState_filesAt (level : Nat) : initialState.current.filesAt level = [] := by
  unfold initialState VersionState.empty Version.empty Version.filesAt
  split <;> rfl

omit [Crc32c] in
theorem initialState_numbered : Numbered initialState.current initialState.nextFileNumber := by
  refine ⟨fun level f hf => ?_, fun level => ?_, fun level level' _ f hf => ?_⟩
  · rw [initialState_filesAt] at hf
    contradiction
  · rw [initialState_filesAt]
    exact List.Pairwise.nil
  · rw [initialState_filesAt] at hf
    contradiction

theorem Says.frame {d d' : Dir} {number : Nat} {state : VersionState} {names : Set FileName}
    (h : Says d number state) (hFrame : d.Frame names d') (hCurrent : .current ∉ names)
    (hManifest : .manifest number ∉ names) : Says d' number state := by
  obtain ⟨⟨f, hf, hName⟩, B, synced, edits, hHas, hSays⟩ := h
  exact ⟨⟨f, (hFrame _ hCurrent).trans hf, hName⟩, B, synced, edits,
    hHas.frame hFrame hManifest, hSays⟩

theorem created_openable {number : Nat} (hSays : Says d number initialState)
    (hLog : ∀ n, .log n ∈ d → n = 2 ∧ ∃ synced, d.Has (.log 2) [] synced) :
    Openable d number initialState [] where
  manifest := hSays
  present := fun hMem => by
    obtain ⟨-, synced, hHas⟩ := hLog _ hMem
    exact ⟨[], synced, hHas, IsLog.nil.readRecords⟩
  absent := fun _ => rfl
  fits := by simp
  below := by decide
  numbered := initialState_numbered
  spare := fun n hn hMem => by
    have hLow : 3 ≤ n := hn
    obtain ⟨rfl, -⟩ := hLog n hMem
    omega
  room := by decide
  seq := by decide

/-- A new database whose manifest says its state and whose log is empty is in step. -/
theorem Created.inv {db : Db} {d : Dir} {capacity : Nat} (h : Created options db)
    (hIn : InStep (db.versionSet, d)) (hWal : LogAt db.wal d (.log db.walNumber) [] [])
    (hNumber : db.walNumber = 2) (hSpare : SpareLogs d 3)
    (hCache : db.tableCache = .withCapacity capacity) : Inv d db 0 [] := by
  obtain ⟨⟨state, number, writer, snapshots⟩, mem, wal, ⟨next⟩, walNumber, options, cache⟩ := db
  obtain ⟨hState, rfl, rfl, rfl, rfl⟩ := h
  obtain rfl : state = initialState := hState
  obtain rfl : walNumber = 2 := hNumber
  obtain rfl : cache = .withCapacity capacity := hCache
  have hFile : ∀ {level f}, f ∉ initialState.current.filesAt level := by
    intro level f hf
    rw [initialState_filesAt] at hf
    contradiction
  exact {
    manifest := hIn
    wal := ⟨[], hWal⟩
    walNumber := rfl
    walBelow := Nat.lt_succ_self 2
    next := le_rfl
    numbered := initialState_numbered
    tables := fun level f hf => absurd hf hFile
    distinct := fun level level' f hf => absurd hf hFile
    spare := hSpare
    mem := MemOk.empty
    seq := rfl
    flushedLe := le_rfl
    logged := by simp
    cache := TableCache.Agrees.empty _ _ _ }

/-- A new database is in step with its directory. -/
theorem createNew_spec (hEmpty : ∀ name, name ∉ d) :
    Spec A (Db.createNew options)
      (fun db y d' => y = x ∧ Inv d' db 0 [] ∧ Created options db ∧ Settled d' db)
      (fun f y d' => y = x ∧ Fails A f ∧ (.current ∉ d' ∨ Begun d')) x d := by
  have hAbsent : ∀ {d' : Dir} {names : Set FileName}, d.Frame names d' → ∀ name ∉ names,
      name ∉ d' := by
    intro d' names hFrame name hName hMem
    rw [← AList.lookup_isSome, hFrame name hName, AList.lookup_isSome] at hMem
    exact hEmpty name hMem
  have hCurrent : ∀ {d' : Dir} {names : Set FileName} {f : Fault}, Fails A f → d.Frame names d' →
      .current ∉ names → x = x ∧ Fails A f ∧ (.current ∉ d' ∨ Begun d') :=
    fun hFails hFrame hName => ⟨rfl, hFails, .inl (hAbsent hFrame _ hName)⟩
  refine Spec.bind (Spec.bind (Spec.bind ((create_spec
    fun h => absurd h (hEmpty _)).mono ?_ fun f y d' hE => ?_)))
  swap
  · obtain ⟨rfl, hFails, hFrame, -⟩ := hE
    exact hCurrent hFails hFrame (by simp)
  rintro w y d₁ ⟨rfl, hAt, hFrame₁⟩
  refine Spec.pure (Spec.pure (Spec.bind (Spec.runOn ((writeNewVersion_spec
    hAt initialEdit).mono ?_ ?_))))
  · rintro - vs' d₂ ⟨hLogged, hState, hSame, hSynced⟩
    replace hState : initialState = vs'.toVersionState :=
      Except.ok.inj (initialEdit_replay.symm.trans hState)
    obtain ⟨ps, B₂, -, -, hAt₂, hFrame₂⟩ := id hLogged
    replace hFrame₂ : d.Frame {.manifest 1} d₂ := hFrame₁.trans hFrame₂
    have hNumber : vs'.manifestNumber = 1 := hSame.state.2
    refine Spec.bind ((writeCurrent_spec (by decide)).mono ?_ ?_)
    · rintro - y d₃ ⟨rfl, hNames, hDisk, hFrame₃⟩
      have hIn : InStep (vs', d₃) := by
        refine ⟨hNumber ▸ hNames, _, [initialEdit.encode], [initialEdit],
          hNumber ▸ hAt₂.frame hFrame₃ (by simp), ?_, ?_⟩
        · exact List.mapM_append_singleton (rfl : [].mapM VersionEdit.decode = .ok [])
            (VersionEdit.decode_encode initialEdit_storable)
        · rw [← hState]
          exact VersionState.replay_append (rfl : VersionState.empty.replay [] = .ok _)
            initialEdit_replay
      have hSays : Says d₃ 1 initialState := by
        rw [hState, ← hNumber]
        exact hIn.said
      have hFrame : d.Frame {.manifest 1, .current, .currentTmp} d₃ :=
        (hFrame₂.mono (by simp)).trans (hFrame₃.mono (by simp))
      have hNoLog : ∀ n, .log n ∉ d₃ := fun n => hAbsent hFrame _ (by simp)
      refine Spec.bind ((create_spec fun h => absurd h (hNoLog 2)).mono ?_ ?_)
      · rintro wal y d₄ ⟨rfl, hWal, hFrame₄⟩
        have hSpare : SpareLogs d₃ 3 := fun n _ hMem => absurd hMem (hNoLog n)
        refine Spec.pure ⟨rfl, ?_, ⟨hState.symm, by rw [hSame], rfl, rfl, rfl⟩,
          hDisk.frame hFrame₄ (by simp), ?_, hWal.has⟩
        · refine Created.inv ⟨hState.symm, by rw [hSame], rfl, rfl, rfl⟩
            (hIn.frame hFrame₄ (by simp) (by simp)) hWal rfl ?_ rfl
          exact hSpare.frame hFrame₄ fun n hn hName _ => by
            obtain rfl : n = 2 := by simpa using hName
            exact absurd hn (by decide)
        · exact (hNumber ▸ hSynced.frame hFrame₃ (by simp)).frame hFrame₄ (by simp)
      · rintro f y d₄ ⟨rfl, hFails, hFrame₄, hNew⟩
        refine ⟨rfl, hFails, .inr ⟨hSays.frame hFrame₄ (by simp) (by simp),
          hDisk.frame hFrame₄ (by simp),
          (hSynced.frame hFrame₃ (by simp)).frame hFrame₄ (by simp), ?_⟩⟩
        rcases hNew with rfl | hNew
        · exact fun n hMem => absurd hMem (hNoLog n)
        · intro n hMem
          by_cases hn : n = 2
          · exact ⟨hn, hNew⟩
          · exact absurd hMem (hAbsent ((hFrame.mono Set.subset_union_left).trans
              (hFrame₄.mono Set.subset_union_right)) _ (by simpa using hn))
    · rintro f y d₃ ⟨rfl, hFails, hFrame₃⟩
      exact hCurrent hFails ((hFrame₂.mono Set.subset_union_left).trans
        (hFrame₃.mono Set.subset_union_right)) (by simp)
  · rintro f vs' d₂ (⟨⟨_, _, _, _, n, _, _, hBroken, _, _, hFrame₂⟩, -⟩ |
      ⟨⟨-, -, -, -, -, hFrame₂⟩, ⟨⟨hFails, -⟩, -⟩ | ⟨hNot, -⟩ | ⟨hNot, -⟩⟩)
    · exact hCurrent ⟨n, hBroken⟩ (hFrame₁.trans hFrame₂) (by simp)
    · exact hCurrent hFails (hFrame₁.trans hFrame₂) (by simp)
    · exact absurd ⟨_, rfl⟩ hNot
    · exact absurd (by simp [initialEdit]) hNot

/-- A database that is opened in an empty directory is new. -/
theorem open_new_spec (options : Options) (hA : Halts A) (hEmpty : ∀ name, name ∉ d) :
    Spec A (Db.open options)
      (fun db y d' => y = x ∧ Inv d' db 0 [] ∧ Created options db ∧ Settled d' db)
      (fun f y d' => y = x ∧ Fails A f ∧ (.current ∉ d' ∨ Begun d')) x d := by
  have hKeys : d.keys = [] := List.eq_nil_iff_forall_not_mem.mpr hEmpty
  have hCurrent : ∀ f, Fails A f → x = x ∧ Fails A f ∧
      (.current ∉ d ∨ Begun d) := fun f hF => ⟨rfl, hF, .inl (hEmpty _)⟩
  refine Spec.bind (Spec.pathExists hA ?_ hCurrent)
  rw [if_neg (by simpa using hEmpty .current)]
  refine Spec.bind (Spec.look (fun names hNames => ?_) (fun h => by simp at h)
    fun n f hB => hCurrent f ⟨n, hB⟩)
  obtain rfl : d.keys = names := Option.some.inj hNames
  rw [if_neg (by simpa using hKeys)]
  exact createNew_spec hEmpty

end Created

end MulanLsm
