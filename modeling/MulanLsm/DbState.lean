import MulanLsm.CommitLog
import MulanLsm.Db

/-! The states of a database.  `Inv` relates a database to its directory: the manifest says what the
version set holds, but for the last sequence number, which is as of the last flush; the log holds
the writes since then; and the table files hold ascending entries under the bounds that the version
knows.  Here are what it means for parts of the state, how the parts stay when files change that
they do not depend on, and what the commits and flushes of a database do to it. -/

namespace MulanLsm

/-- The entry's record in the log. -/
def WalEntry.encode (e : WalEntry) : Bytes := encodeEntry e.vtype e.seq e.key e.value

/-- The version that the entry makes of its key. -/
def WalEntry.entry (e : WalEntry) : Entry :=
  ({ userKey := e.key, seq := e.seq, vtype := e.vtype }, e.value)

/-- The key and the value of an entry fit their length fields. -/
def EntryFits (e : Entry) : Prop :=
  e.1.userKey.length + keyFooterLen < 2 ^ 32 ∧ e.2.length < 2 ^ 32

/-- The files numbered from `next` on, but for manifests. -/
def filesFrom (next : Nat) : Set FileName :=
  {name | ∃ n, next ≤ n ∧ (name = .sst n ∨ name = .log n)}

theorem sstsFrom_subset {n m : Nat} (h : m ≤ n) : sstsFrom n ⊆ filesFrom m := by
  rintro name ⟨k, hk, rfl⟩
  exact ⟨k, h.trans hk, .inl rfl⟩

theorem filesFrom_mono {n m : Nat} (h : m ≤ n) : filesFrom n ⊆ filesFrom m := by
  rintro name ⟨k, hk, hName⟩
  exact ⟨k, h.trans hk, hName⟩

/-- The files of a version have distinct numbers below `next`. -/
structure Numbered (v : Version) (next : Nat) : Prop where
  below : ∀ level, ∀ f ∈ v.filesAt level, f.number < next
  distinct : ∀ level, (v.filesAt level).Pairwise fun f g => f.number ≠ g.number
  apart : ∀ level level', level ≠ level' → ∀ f ∈ v.filesAt level, ∀ g ∈ v.filesAt level',
    f.number ≠ g.number

/-- The table of a file is in ascending order under the bounds that its metadata gives, with
sequence numbers up to `last`. -/
structure TableOk (d : Dir) (last : Nat) (f : FileMetaData) : Prop where
  describes : Describes d f (d.entries f.number)
  ascending : Ascending (d.entries f.number)
  fits : ∀ e ∈ d.entries f.number, EntryFits e
  seqs : ∀ e ∈ d.entries f.number, e.1.seq ≤ last

def TablesOk (d : Dir) (last : Nat) (v : Version) : Prop :=
  ∀ level, ∀ f ∈ v.filesAt level, TableOk d last f

/-- Versions of one key in different files have different sequence numbers. -/
def DistinctTables (d : Dir) (v : Version) : Prop :=
  ∀ level level', ∀ f ∈ v.filesAt level, ∀ g ∈ v.filesAt level', f.number ≠ g.number →
    ∀ x ∈ d.entries f.number, ∀ y ∈ d.entries g.number,
      x.1.userKey = y.1.userKey → x.1.seq ≠ y.1.seq

/-- Logs from the number `next` on are empty. -/
def SpareLogs (d : Dir) (next : Nat) : Prop :=
  ∀ n, next ≤ n → .log n ∈ d → ∃ synced, d.Has (.log n) [] synced

/-- A memory table with the entries after the sequence number `flushed`. -/
structure MemOk (m : MemTable) (flushed : Nat) : Prop where
  ascending : Ascending m.skiplist
  count : m.entries = m.skiplist.length
  fits : ∀ e ∈ m.skiplist, EntryFits e
  seqs : ∀ e ∈ m.skiplist, flushed < e.1.seq ∧ e.1.seq ≤ m.seq

/-- A database in step with its directory: the manifest says its state, with the sequence number
`flushed` of the last flush, and its log has the entries `log`. -/
structure Inv [Crc32c] (d : Dir) (db : Db) (flushed : Nat) (log : List WalEntry) : Prop where
  manifest : InStep ({ db.versionSet with lastSequence := flushed }, d)
  wal : ∃ B, LogAt db.wal d (.log db.walNumber) B (log.map WalEntry.encode)
  walNumber : db.walNumber = db.versionSet.logNumber
  walBelow : db.walNumber < db.versionSet.nextFileNumber
  next : db.versionSet.nextFileNumber ≤ db.idGen.next
  numbered : Numbered db.versionSet.current db.versionSet.nextFileNumber
  tables : TablesOk d flushed db.versionSet.current
  distinct : DistinctTables d db.versionSet.current
  spare : SpareLogs d db.versionSet.nextFileNumber
  mem : MemOk db.memtable flushed
  seq : db.memtable.seq = db.versionSet.lastSequence
  flushedLe : flushed ≤ db.versionSet.lastSequence
  logged : ∀ e ∈ log, EntryFits e.entry ∧ flushed < e.seq ∧ e.seq ≤ db.versionSet.lastSequence + 1
  cache : db.tableCache.Agrees d db.versionSet.nextFileNumber

section Frames

variable {d d' : Dir} {names : Set FileName} {next last : Nat}

theorem Dir.table_frame {n : Nat} (hFrame : d.Frame names d') (hn : .sst n ∉ names) :
    d'.table n = d.table n := by
  unfold Dir.table
  rw [hFrame _ hn]

theorem Dir.reader_frame {n : Nat} (hFrame : d.Frame names d') (hn : .sst n ∉ names) :
    d'.reader n = d.reader n := by
  unfold Dir.reader
  rw [hFrame _ hn]

theorem Dir.entries_frame {n : Nat} (hFrame : d.Frame names d') (hn : .sst n ∉ names) :
    d'.entries n = d.entries n := by
  unfold Dir.entries
  rw [Dir.table_frame hFrame hn]

theorem TableOk.frame {f : FileMetaData} (h : TableOk d last f) (hFrame : d.Frame names d')
    (hn : .sst f.number ∉ names) : TableOk d' last f := by
  have hEntries := Dir.entries_frame hFrame hn
  refine ⟨?_, ?_, ?_, ?_⟩ <;> rw [hEntries]
  · exact h.describes.frame hFrame hn
  · exact h.ascending
  · exact h.fits
  · exact h.seqs

/-- The table of a memtable is in order. -/
theorem MemOk.tableOk {m : MemTable} {f : FileMetaData} (h : MemOk m last)
    (hDesc : Describes d f m.skiplist) : TableOk d m.seq f := by
  refine ⟨?_, ?_, ?_, ?_⟩ <;> rw [hDesc.entries]
  · exact hDesc
  · exact h.ascending
  · exact h.fits
  · exact fun e he => (h.seqs e he).2

/-- The versions of a memtable are later than those of the tables. -/
theorem MemOk.seq_ne {m : MemTable} {f : FileMetaData} {x y : Entry} (h : MemOk m last)
    (hTable : TableOk d last f) (hx : x ∈ m.skiplist) (hy : y ∈ d.entries f.number) :
    x.1.seq ≠ y.1.seq :=
  ((hTable.seqs y hy).trans_lt (h.seqs x hx).1).ne'

theorem TableOk.mono {f : FileMetaData} {last' : Nat} (h : TableOk d last f) (hl : last ≤ last') :
    TableOk d last' f :=
  { h with seqs := fun e he => (h.seqs e he).trans hl }

theorem LogAt.frame [Crc32c] {w : WalWriter} {name : FileName} {B : Bytes} {records : List Bytes}
    (h : LogAt w d name B records) (hFrame : d.Frame names d') (hn : name ∉ names) :
    LogAt w d' name B records := by
  obtain ⟨hName, ⟨synced, hHas⟩, hLog, hAl⟩ := h
  exact ⟨hName, ⟨synced, hHas.frame hFrame hn⟩, hLog, hAl⟩

theorem InStep.frame [Crc32c] {vs : VersionSet} (h : InStep (vs, d)) (hFrame : d.Frame names d')
    (hCurrent : .current ∉ names) (hManifest : .manifest vs.manifestNumber ∉ names) :
    InStep (vs, d') := by
  obtain ⟨⟨f, hf, hName⟩, B, records, edits, hAt, hSays⟩ := h
  exact ⟨⟨f, (hFrame _ hCurrent).trans hf, hName⟩, B, records, edits,
    hAt.frame hFrame hManifest, hSays⟩

theorem Numbered.mono {v : Version} {next' : Nat} (h : Numbered v next) (hn : next ≤ next') :
    Numbered v next' :=
  { h with below := fun level f hf => (h.below level f hf).trans_le hn }

theorem TablesOk.frame {v : Version} (h : TablesOk d last v) (hFrame : d.Frame names d')
    (hn : ∀ level, ∀ f ∈ v.filesAt level, .sst f.number ∉ names) : TablesOk d' last v :=
  fun level f hf => (h level f hf).frame hFrame (hn level f hf)

theorem DistinctTables.frame {v : Version} (h : DistinctTables d v) (hFrame : d.Frame names d')
    (hn : ∀ level, ∀ f ∈ v.filesAt level, .sst f.number ∉ names) : DistinctTables d' v := by
  intro level level' f hf g hg
  rw [Dir.entries_frame hFrame (hn level f hf), Dir.entries_frame hFrame (hn level' g hg)]
  exact h level level' f hf g hg

theorem Numbered.not_mem_filesFrom {v : Version} (h : Numbered v next) {level : Nat}
    {f : FileMetaData} (hf : f ∈ v.filesAt level) : .sst f.number ∉ filesFrom next := by
  rintro ⟨n, hn, hName | hName⟩
  · cases hName
    exact absurd (h.below level f hf) (by omega)
  · cases hName

/-- A database stays in step while new files are written. -/
theorem Inv.frame [Crc32c] {db : Db} {flushed : Nat} {log : List WalEntry}
    (h : Inv d db flushed log)
    (hFrame : d.Frame (filesFrom db.versionSet.nextFileNumber) d')
    (hSpare : SpareLogs d' db.versionSet.nextFileNumber) : Inv d' db flushed log := by
  have hNot : ∀ name : FileName, (∀ n, name ≠ .sst n ∧ name ≠ .log n) →
      name ∉ filesFrom db.versionSet.nextFileNumber := by
    rintro name hName ⟨n, -, h | h⟩
    · exact (hName n).1 h
    · exact (hName n).2 h
  have hWal : .log db.walNumber ∉ filesFrom db.versionSet.nextFileNumber := by
    rintro ⟨n, hn, hName | hName⟩
    · cases hName
    · cases hName
      exact absurd h.walBelow (by omega)
  obtain ⟨B, hAt⟩ := h.wal
  refine { h with
    manifest := h.manifest.frame hFrame (hNot _ (by simp)) (hNot _ (by simp))
    wal := ⟨B, hAt.frame hFrame hWal⟩
    tables := h.tables.frame hFrame fun level f hf => h.numbered.not_mem_filesFrom hf
    distinct := h.distinct.frame hFrame fun level f hf => h.numbered.not_mem_filesFrom hf
    spare := hSpare
    cache := h.cache.mono le_rfl fun n hn => Dir.reader_frame hFrame ?_ }
  rintro ⟨m, hm, hName | hName⟩
  · cases hName
    omega
  · cases hName

end Frames

section Edits

variable {d : Dir} {v v' : Version} {edit : VersionEdit} {next next' last : Nat}

theorem mem_filesAt_applyEdit (hv : v.applyEdit edit = .ok v') {level : Nat} {f : FileMetaData} :
    f ∈ v'.filesAt level ↔
      (f ∈ v.filesAt level ∧ ∀ d ∈ edit.deletedFiles, d.level = level → f.number ≠ d.number) ∨
        { level, fileMeta := f } ∈ edit.newFiles := by
  rw [Version.filesAt_applyEdit hv, List.mem_append, List.mem_filter, decide_eq_true_eq,
    List.mem_map]
  refine or_congr_right ⟨?_, fun h => ⟨_, List.mem_filter.mpr ⟨h, by simp⟩, rfl⟩⟩
  rintro ⟨g, hg, rfl⟩
  obtain ⟨hg, hLevel⟩ := List.mem_filter.mp hg
  rw [← of_decide_eq_true hLevel]
  exact hg

/-- New files with new numbers leave the numbers of a version distinct. -/
theorem Numbered.applyEdit (h : Numbered v next) (hv : v.applyEdit edit = .ok v')
    (hNew : ∀ f ∈ edit.newFiles, next ≤ f.fileMeta.number ∧ f.fileMeta.number < next')
    (hPair : edit.newFiles.Pairwise fun f g => f.fileMeta.number ≠ g.fileMeta.number)
    (hle : next ≤ next') : Numbered v' next' := by
  have hInj : ∀ f ∈ edit.newFiles, ∀ g ∈ edit.newFiles,
      f.fileMeta.number = g.fileMeta.number → f = g := by
    intro f hf g hg hn
    by_contra hne
    have : Std.Symm fun f g : NewFile => f.fileMeta.number ≠ g.fileMeta.number :=
      ⟨fun _ _ h => h.symm⟩
    exact hPair.forall hf hg hne hn
  refine ⟨fun level f hf => ?_, fun level => ?_, fun level level' hne f hf g hg => ?_⟩
  · rcases (mem_filesAt_applyEdit hv).mp hf with ⟨hf, -⟩ | hf
    · exact (h.below level f hf).trans_le hle
    · exact (hNew _ hf).2
  · rw [Version.filesAt_applyEdit hv, List.pairwise_append]
    refine ⟨(h.distinct level).filter _, ?_, ?_⟩
    · exact List.pairwise_map.mpr ((hPair.filter _))
    · intro f hf g hg
      obtain ⟨g', hg', rfl⟩ := List.mem_map.mp hg
      have hlt := h.below level f (List.mem_of_mem_filter hf)
      have hge := (hNew g' (List.mem_of_mem_filter hg')).1
      omega
  · rcases (mem_filesAt_applyEdit hv).mp hf with ⟨hf, -⟩ | hf <;>
      rcases (mem_filesAt_applyEdit hv).mp hg with ⟨hg, -⟩ | hg
    · exact h.apart level level' hne f hf g hg
    · have hlt := h.below level f hf
      have hge := (hNew _ hg).1
      simp only at hge
      omega
    · have hlt := h.below level' g hg
      have hge := (hNew _ hf).1
      simp only at hge
      omega
    · exact fun hn => hne (congrArg NewFile.level (hInj _ hf _ hg hn))

theorem TablesOk.applyEdit (h : TablesOk d last v) (hv : v.applyEdit edit = .ok v')
    (hNew : ∀ f ∈ edit.newFiles, TableOk d last f.fileMeta) : TablesOk d last v' := by
  intro level f hf
  rcases (mem_filesAt_applyEdit hv).mp hf with ⟨hf, -⟩ | hf
  · exact h level f hf
  · exact hNew _ hf

theorem Numbered.eq (h : Numbered v next) {level : Nat} {f g : FileMetaData}
    (hf : f ∈ v.filesAt level) (hg : g ∈ v.filesAt level) (hn : f.number = g.number) : f = g := by
  by_contra hne
  have : Std.Symm fun f g : FileMetaData => f.number ≠ g.number := ⟨fun _ _ h => h.symm⟩
  exact (h.distinct level).forall hf hg hne hn

/-- New files that share no version with each other or with the files that stay. -/
theorem DistinctTables.applyEdit (h : DistinctTables d v) (hv : v.applyEdit edit = .ok v')
    (hNew : ∀ f ∈ edit.newFiles, ∀ g ∈ edit.newFiles, f.fileMeta.number ≠ g.fileMeta.number →
      ∀ x ∈ d.entries f.fileMeta.number, ∀ y ∈ d.entries g.fileMeta.number,
        x.1.userKey = y.1.userKey → x.1.seq ≠ y.1.seq)
    (hOld : ∀ f ∈ edit.newFiles, ∀ level, ∀ g ∈ v.filesAt level,
      (∀ d ∈ edit.deletedFiles, d.level = level → g.number ≠ d.number) →
        ∀ x ∈ d.entries f.fileMeta.number, ∀ y ∈ d.entries g.number,
          x.1.userKey = y.1.userKey → x.1.seq ≠ y.1.seq) : DistinctTables d v' := by
  intro level level' f hf g hg hne x hx y hy hk
  rcases (mem_filesAt_applyEdit hv).mp hf with ⟨hf, hfStays⟩ | hf <;>
    rcases (mem_filesAt_applyEdit hv).mp hg with ⟨hg, hgStays⟩ | hg
  · exact h level level' f hf g hg hne x hx y hy hk
  · exact (hOld _ hg level f hf hfStays y hy x hx hk.symm).symm
  · exact hOld _ hf level' g hg hgStays x hx y hy hk
  · exact hNew _ hf _ hg hne x hx y hy hk

end Edits

section Commit

variable [Crc32c] {A : Outcome → Prop} {d : Dir} {vs : VersionSet} {edit : VersionEdit}
  {flushed : Nat}

/-- `vs'` is `vs` after a commit of `edit`. -/
def Committed (vs : VersionSet) (edit : VersionEdit) (vs' : VersionSet) : Prop :=
  ∃ v pointers writer, vs.current.applyEdit edit = .ok v ∧
    MovesPointers edit.compactPointers vs.compactPointer pointers ∧ vs' = { vs with
    toVersionState := { vs.toVersionState.setNumbers v edit with compactPointer := pointers }
    manifestWriter := writer }

/-- What an append of `edit` that failed with `f` made of the manifest. -/
def AppendFailed (A : Outcome → Prop) (edit : VersionEdit) (d : Dir) (number : Nat) (f : Fault)
    (d' : Dir) : Prop :=
  ∃ B records w', IsLog B records ∧ (∃ synced, d.Has (.manifest number) B synced) ∧
    (NotLogged A edit.encode d (.manifest number) B records f w' d' ∨
      Logged edit.encode d (.manifest number) B records w' d' ∧ Fails A f ∧
        d.SameSynced (.manifest number) d')

theorem AppendFailed.fails {number : Nat} {f : Fault} {d' : Dir}
    (h : AppendFailed A edit d number f d') :
    Fails A f ∧ d.Frame {.manifest number} d' := by
  obtain ⟨B, records, w', -, -, ⟨-, -, -, -, n, -, -, hBroken, -, -, hFrame⟩ |
    ⟨⟨-, -, -, -, -, hFrame⟩, hFails, -⟩⟩ := h
  · exact ⟨⟨n, hBroken⟩, hFrame⟩
  · exact ⟨hFails, hFrame⟩

/-- A commit of an edit that applies returns, unless the append of the edit fails. -/
theorem commit_spec (hIn : InStep ({ vs with lastSequence := flushed }, d))
    (hEdit : edit.Storable) (hRange : edit.InRange) :
    Spec A (VersionSet.writeNewVersion edit)
      (fun _ vs' d' => Committed vs edit vs' ∧
        InStep ({ vs' with lastSequence := edit.lastSequence.getD flushed }, d') ∧
        d'.Synced (.manifest vs.manifestNumber) ∧ d.Frame {.manifest vs.manifestNumber} d')
      (fun f vs' d' => SameLive vs vs' ∧ AppendFailed A edit d vs.manifestNumber f d') vs d := by
  obtain ⟨hNames, B, records, edits, hAt, hDecode, hReplay⟩ := hIn
  replace hAt : LogAt vs.manifestWriter.wal d (.manifest vs.manifestNumber) B records := hAt
  refine (writeNewVersion_spec hAt edit).mono ?_ ?_
  · rintro - vs' d' ⟨hLogged, hState, hSame, hSynced⟩
    have hFrame : d.Frame {.manifest vs.manifestNumber} d' := by
      obtain ⟨-, -, -, -, -, hFrame⟩ := hLogged
      exact hFrame
    refine ⟨?_, ?_, hSynced, hFrame⟩
    · obtain ⟨v, pointers, hv, hMoves, hs⟩ := VersionState.replayEdit_ok hState
      exact ⟨v, pointers, vs'.manifestWriter, hv, hMoves, hSame.trans (by rw [hs])⟩
    · exact hLogged.inStep
        hNames hDecode hReplay
        hEdit (VersionState.replayEdit_lastSequence hState flushed) hSame.state.2
  · obtain ⟨v, hv⟩ := hRange.applyEdit vs.current
    rintro f vs' d' (⟨hNot, hSame⟩ | ⟨hLogged, ⟨⟨hFails, hSynced⟩, hSame⟩ | ⟨hNot, -⟩ | ⟨hNot, -⟩⟩)
    · exact ⟨hSame, B, records, _, hAt.isLog, hAt.has, .inl hNot⟩
    · exact ⟨hSame, B, records, _, hAt.isLog, hAt.has, .inr ⟨hLogged, hFails, hSynced⟩⟩
    · exact absurd ⟨v, hv⟩ hNot
    · exact absurd hRange.2.2 hNot

end Commit

end MulanLsm
