import MulanLsm.Flush

/-! Compactions of a database.  A compaction that returns has replaced its input files by new ones
at the next level, and leaves the database in step with its directory. -/

namespace MulanLsm

section Picking

variable {vs : VersionSet} {c : Compaction}

/-- What a compaction that is picked takes: all files of level 0, or one file of a deeper level,
with the files of the next level in their range. -/
structure Picked (vs : VersionSet) (c : Compaction) : Prop where
  level : c.level + 1 < numLevels
  zero : c.level = 0 → c.inputs.1 = vs.current.filesAt 0
  deeper : c.level ≠ 0 → ∃ f ∈ vs.current.filesAt c.level, c.inputs.1 = [f]
  second : c.inputs.2 = if c.inputs.1 = [] then [] else
    vs.current.getOverlaps (c.level + 1) (keyRange c.inputs.1).1 (keyRange c.inputs.1).2

theorem pickCompaction_picked (h : pickCompaction vs = some c) : Picked vs c := by
  unfold pickCompaction at h
  simp only [Option.bind_eq_bind, Option.bind_eq_some_iff, Prod.exists] at h
  obtain ⟨level, score, -, h⟩ := h
  split at h
  · next hLevel =>
    simp only [Option.bind_eq_some_iff] at h
    obtain ⟨first, hFirst, h⟩ := h
    obtain rfl := Option.some.inj h
    refine ⟨by simp only; unfold numLevels at *; omega, ?_, ?_, rfl⟩
    · rintro rfl
      exact (Option.some.inj hFirst).symm
    · intro hne
      rw [pickInputs, if_neg hne] at hFirst
      obtain ⟨f, hf, rfl⟩ := Option.map_eq_some_iff.mp hFirst
      exact ⟨f, List.mem_of_find?_eq_some hf, rfl⟩
  · contradiction

theorem Picked.mem_first (h : Picked vs c) {f : FileMetaData} (hf : f ∈ c.inputs.1) :
    f ∈ vs.current.filesAt c.level := by
  by_cases h0 : c.level = 0
  · rw [h0, ← h.zero h0]
    exact hf
  · obtain ⟨g, hg, hEq⟩ := h.deeper h0
    rw [hEq] at hf
    rw [List.mem_singleton.mp hf]
    exact hg

theorem Picked.mem_second (h : Picked vs c) {f : FileMetaData} (hf : f ∈ c.inputs.2) :
    f ∈ vs.current.filesAt (c.level + 1) := by
  rw [h.second] at hf
  split at hf
  · contradiction
  · exact List.mem_of_mem_filter hf

theorem Picked.pairwise_numbers (h : Picked vs c) {next : Nat} (hn : Numbered vs.current next) :
    c.inputFiles.Pairwise fun f g => f.number ≠ g.number := by
  rw [Compaction.inputFiles, List.pairwise_append]
  refine ⟨?_, ?_, fun f hf g hg =>
    hn.apart _ _ (Nat.succ_ne_self c.level).symm f (h.mem_first hf) g (h.mem_second hg)⟩
  · by_cases h0 : c.level = 0
    · rw [h.zero h0]
      exact hn.distinct 0
    · obtain ⟨g, -, hEq⟩ := h.deeper h0
      rw [hEq]
      exact List.pairwise_singleton _ _
  · rw [h.second]
    split
    · exact List.Pairwise.nil
    · exact (hn.distinct _).filter _

end Picking

section Compacting

variable [Crc32c] {A : Outcome → Prop} {d : Dir} {db : Db} {flushed : Nat} {log : List WalEntry}
  {c : Compaction}

/-- The entries of the input files, merged. -/
def mergedInputs (d : Dir) (c : Compaction) : List Entry :=
  mergeTables mergerHeap (c.inputFiles.map fun f => d.entries f.number)

theorem Inv.input_table (h : Inv d db flushed log) (hc : Picked db.versionSet c) {f : FileMetaData}
    (hf : f ∈ c.inputFiles) : TableOk d flushed f := by
  rcases List.mem_append.mp hf with hf | hf
  · exact h.tables _ f (hc.mem_first hf)
  · exact h.tables _ f (hc.mem_second hf)

omit [Crc32c] in
/-- The versions in some files of a version are distinct. -/
theorem DistinctTables.distinctVersions {v : Version} {last : Nat} {files : List FileMetaData}
    (h : DistinctTables d v) (hTables : TablesOk d last v)
    (hMem : ∀ f ∈ files, ∃ level, f ∈ v.filesAt level)
    (hNumbers : files.Pairwise fun f g => f.number ≠ g.number) :
    DistinctVersions (entriesIn d files) := by
  rw [DistinctVersions, entriesIn, List.pairwise_flatten]
  constructor
  · intro es hes
    obtain ⟨f, hf, rfl⟩ := List.mem_map.mp hes
    obtain ⟨level, hf⟩ := hMem f hf
    exact (hTables level f hf).ascending.distinctVersions
  · rw [List.pairwise_map]
    refine hNumbers.imp_of_mem fun {f g} hf hg hne x hx y hy => ?_
    obtain ⟨level, hf⟩ := hMem f hf
    obtain ⟨level', hg⟩ := hMem g hg
    exact h level level' f hf g hg hne x hx y hy

theorem Inv.distinctVersions_inputs (h : Inv d db flushed log) (hc : Picked db.versionSet c) :
    DistinctVersions (entriesIn d c.inputFiles) := by
  refine h.distinct.distinctVersions h.tables (fun f hf => ?_) (hc.pairwise_numbers h.numbered)
  rcases List.mem_append.mp hf with hf | hf
  · exact ⟨_, hc.mem_first hf⟩
  · exact ⟨_, hc.mem_second hf⟩

/-- The merged input entries are those of the input files, in ascending order. -/
theorem Inv.merged_spec (h : Inv d db flushed log) (hc : Picked db.versionSet c) :
    (mergedInputs d c).Perm (entriesIn d c.inputFiles) ∧ Ascending (mergedInputs d c) := by
  have hDistinct := h.distinctVersions_inputs hc
  refine mergeTables_spec ?_ hDistinct.nodup hDistinct.distinct
  intro es hes
  obtain ⟨f, hf, rfl⟩ := List.mem_map.mp hes
  exact (h.input_table hc hf).ascending

/-- What the compaction `c` of `db` writes to new files. -/
def compactedFiles (d : Dir) (db : Db) (c : Compaction) : List (List Entry) :=
  outputFiles mergerHeap c db.versionSet.current db.versionSet.oldestSnapshotSeq
    db.options.blockSize
    db.options.bloomBitsPerKey db.idGen.next d.entries

/-- The input entries that the compaction `c` of `db` keeps. -/
def keptEntries (d : Dir) (db : Db) (c : Compaction) : List Entry :=
  keep c db.versionSet.current db.versionSet.oldestSnapshotSeq none 0 (mergedInputs d c)

omit [Crc32c] in
theorem flatten_compactedFiles : (compactedFiles d db c).flatten = keptEntries d db c := by
  rw [compactedFiles, outputFiles, flatten_cutFiles]
  rfl

theorem Inv.chunk (h : Inv d db flushed log) (hc : Picked db.versionSet c) {es : List Entry}
    (hes : es ∈ compactedFiles d db c) :
    Ascending es ∧ ∀ e ∈ es, ∃ f ∈ c.inputFiles, e ∈ d.entries f.number := by
  obtain ⟨hPerm, hAsc⟩ := h.merged_spec hc
  have hSub : es.Sublist (mergedInputs d c) :=
    (List.sublist_flatten_of_mem hes).trans (flatten_compactedFiles ▸ keep_sublist _ _ _)
  exact ⟨hAsc.sublist hSub, fun e he => mem_entriesIn.mp (hPerm.mem_iff.mp (hSub.subset he))⟩

/-- What a compaction makes of the version: its first inputs leave their level, and the new files
take the place of its second inputs, at the end of the next level. -/
def Replaces (v : Version) (c : Compaction) (fs : List FileMetaData) (v' : Version) : Prop :=
  ∀ level, v'.filesAt level =
    if level = c.level then (v.filesAt level).filter fun f => f ∉ c.inputs.1
    else if level = c.level + 1 then ((v.filesAt level).filter fun f => f ∉ c.inputs.2) ++ fs
    else v.filesAt level

/-- The database `db` after the compaction `c`. -/
structure Compacted (d : Dir) (db : Db) (flushed : Nat) (log : List WalEntry) (c : Compaction)
    (d' : Dir) (db' : Db) : Prop where
  inv : Inv d' db' flushed log
  files : ∃ fs : List FileMetaData,
    (fs.map fun f => d'.entries f.number) = compactedFiles d db c ∧
      (∀ f ∈ fs, db.idGen.next ≤ f.number) ∧
      Replaces db.versionSet.current c fs db'.versionSet.current
  tables : ∀ n < db.idGen.next, d'.entries n = d.entries n
  mem : db'.memtable = db.memtable
  lastSequence : db'.versionSet.lastSequence = db.versionSet.lastSequence
  snapshots : db'.versionSet.snapshots = db.versionSet.snapshots
  pointers : ∀ level, level.val ≠ c.level →
    db'.versionSet.compactPointer level = db.versionSet.compactPointer level
  next : db'.idGen.next = db.idGen.next + (compactedFiles d db c).length
  options : db'.options = db.options

/-- The files that a compaction has written, before its commit. -/
structure FilesWritten (d : Dir) (db : Db) (c : Compaction) (fs : List FileMetaData) (d₁ : Dir) :
    Prop where
  chunks : (fs.map fun f => d₁.entries f.number) = compactedFiles d db c
  describes : ∀ f ∈ fs, Describes d₁ f (d₁.entries f.number)
  numbers : fs.map (·.number) = List.range' db.idGen.next fs.length

/-- A compaction whose commit failed with `fault`: everything but the commit is done. -/
def CompactionCut (A : Outcome → Prop) (d : Dir) (db : Db) (flushed : Nat) (log : List WalEntry)
    (c : Compaction) (fault : Fault) (d' : Dir) : Prop :=
  ∃ output d₁, output.deletedFiles = c.inputFileNumbers ∧
    FilesWritten d db c output.newFiles d₁ ∧ Inv d₁ db flushed log ∧
    d.Frame (sstsFrom db.idGen.next) d₁ ∧
    AppendFailed A
      (Db.compactionEdit c.level output (db.idGen.next + output.newFiles.length)) d₁
      db.versionSet.manifestNumber fault d'

end Compacting

section Edits

variable {d : Dir} {db : Db} {c : Compaction} {output : CompactionOutput} {next : Nat}

theorem compactionEdit_inRange (hc : Picked db.versionSet c)
    (hDeleted : output.deletedFiles = c.inputFileNumbers) (next : Nat) :
    (Db.compactionEdit c.level output next).InRange := by
  have hLevel := hc.level
  refine ⟨fun f hf => ?_, fun f hf => ?_, fun p hp => ?_⟩
  · simp only [Db.compactionEdit, hDeleted, Compaction.inputFileNumbers, List.mem_append,
      List.mem_map] at hf
    rcases hf with ⟨g, -, rfl⟩ | ⟨g, -, rfl⟩
    · simp only
      omega
    · exact hLevel
  · simp only [Db.compactionEdit, List.mem_map] at hf
    obtain ⟨g, -, rfl⟩ := hf
    exact hLevel
  · simp only [Db.compactionEdit, Option.mem_toList, Option.map_eq_some_iff] at hp
    obtain ⟨g, -, rfl⟩ := hp
    simp only
    omega

theorem compactionEdit_storable (hc : Picked db.versionSet c)
    (hDeleted : output.deletedFiles = c.inputFileNumbers)
    (hNumbered : Numbered db.versionSet.current next)
    (hFiles : ∀ f ∈ output.newFiles, Describes d f (d.entries f.number) ∧ f.number < next ∧
      ∀ e ∈ d.entries f.number, EntryFits e ∧ e.1.seq < 2 ^ 64)
    (hNext : next < 2 ^ 64) : (Db.compactionEdit c.level output next).Storable := by
  have hLevel := hc.level
  unfold numLevels at hLevel
  intro field hField
  simp only [Db.compactionEdit, VersionEdit.fields, Option.map_none, Option.map_some,
    Option.toList_none, Option.toList_some, List.nil_append, List.append_assoc, List.mem_append,
    List.mem_singleton, List.mem_map, hDeleted, Compaction.inputFileNumbers] at hField
  rcases hField with rfl | ⟨f, hf, rfl⟩ | ⟨f, hf, rfl⟩ | ⟨p, hp, rfl⟩
  · exact hNext
  · rcases hf with ⟨g, hg, rfl⟩ | ⟨g, hg, rfl⟩
    · exact ⟨by simp only; omega, (hNumbered.below _ g (hc.mem_first hg)).trans hNext⟩
    · exact ⟨by simp only; omega, (hNumbered.below _ g (hc.mem_second hg)).trans hNext⟩
  · obtain ⟨g, hg, rfl⟩ := hf
    obtain ⟨hDesc, hNumber, hEs⟩ := hFiles g hg
    exact hDesc.newFile_storable hEs (by omega) (hNumber.trans hNext)
  · simp only [Option.mem_toList, Option.map_eq_some_iff] at hp
    obtain ⟨g, hg, rfl⟩ := hp
    obtain ⟨hDesc, -, hEs⟩ := hFiles g (List.mem_of_getLast? hg)
    have := (hDesc.storable hEs).2.1
    exact ⟨by simp only; omega, by simp only; omega⟩

end Edits

section Running

variable [Crc32c] {A : Outcome → Prop} {d d₁ d₂ : Dir} {db : Db} {flushed : Nat}
  {log : List WalEntry} {c : Compaction} {fs : List FileMetaData} {next : Nat}

omit [Crc32c] in
theorem FilesWritten.number (hw : FilesWritten d db c fs d₁) {f : FileMetaData} (hf : f ∈ fs) :
    db.idGen.next ≤ f.number ∧ f.number < db.idGen.next + fs.length := by
  have hMem : f.number ∈ List.range' db.idGen.next fs.length := by
    rw [← hw.numbers]
    exact List.mem_map_of_mem hf
  simpa using hMem

omit [Crc32c] in
theorem FilesWritten.mem_chunks (hw : FilesWritten d db c fs d₁) {f : FileMetaData} (hf : f ∈ fs) :
    d₁.entries f.number ∈ compactedFiles d db c := by
  rw [← hw.chunks]
  exact List.mem_map_of_mem hf

theorem FilesWritten.tableOk (hw : FilesWritten d db c fs d₁) (h : Inv d db flushed log)
    (hc : Picked db.versionSet c) {f : FileMetaData} (hf : f ∈ fs) : TableOk d₁ flushed f := by
  obtain ⟨hAsc, hSub⟩ := h.chunk hc (hw.mem_chunks hf)
  refine ⟨hw.describes f hf, hAsc, fun e he => ?_, fun e he => ?_⟩
  · obtain ⟨g, hg, he⟩ := hSub e he
    exact (h.input_table hc hg).fits e he
  · obtain ⟨g, hg, he⟩ := hSub e he
    exact (h.input_table hc hg).seqs e he

/-- Versions of one key in two new files have different sequence numbers. -/
theorem FilesWritten.distinct (hw : FilesWritten d db c fs d₁) (h : Inv d db flushed log)
    (hc : Picked db.versionSet c) :
    fs.Pairwise fun f g => ∀ x ∈ d₁.entries f.number, ∀ y ∈ d₁.entries g.number,
      x.1.userKey = y.1.userKey → x.1.seq ≠ y.1.seq := by
  have hAsc : Ascending (fs.map fun f => d₁.entries f.number).flatten := by
    rw [hw.chunks, flatten_compactedFiles]
    exact (h.merged_spec hc).2.sublist (keep_sublist _ _ _)
  rw [Ascending, List.pairwise_flatten, List.pairwise_map] at hAsc
  refine hAsc.2.imp fun {f g} hfg x hx y hy hk => ?_
  exact ((hfg x hx y hy).resolve_left fun hlt => absurd hk hlt.ne).2.ne'

omit [Crc32c] in
theorem mem_inputFileNumbers {level : Nat} {g : FileMetaData} (hc : Picked db.versionSet c)
    (hn : Numbered db.versionSet.current next)
    (hg : g ∈ db.versionSet.current.filesAt level) :
    (∀ d ∈ c.inputFileNumbers, d.level = level → g.number ≠ d.number) ↔
      (level = c.level → g ∉ c.inputs.1) ∧ (level = c.level + 1 → g ∉ c.inputs.2) := by
  simp only [Compaction.inputFileNumbers, List.mem_append, List.mem_map]
  constructor
  · intro hAll
    exact ⟨fun hl hMem => hAll _ (.inl ⟨g, hMem, rfl⟩) hl.symm rfl,
      fun hl hMem => hAll _ (.inr ⟨g, hMem, rfl⟩) hl.symm rfl⟩
  · rintro ⟨h1, h2⟩ d (⟨f, hf, rfl⟩ | ⟨f, hf, rfl⟩) rfl hne
    · exact h1 rfl (hn.eq hg (hc.mem_first hf) hne ▸ hf)
    · exact h2 rfl (hn.eq hg (hc.mem_second hf) hne ▸ hf)

omit [Crc32c] in
theorem filesWritten_of_describes
    (hDesc : List.Forall₂ (Describes d₁) fs (compactedFiles d db c))
    (hNumbers : fs.map (·.number) = List.range' db.idGen.next (compactedFiles d db c).length) :
    FilesWritten d db c fs d₁ :=
  ⟨(describes_tables hDesc).symm, fun f hf => describes_of_mem hDesc hf,
    by rw [hNumbers, hDesc.length_eq]⟩

omit [Crc32c] in
theorem applyEdit_compactionEdit {v' : Version} {output : CompactionOutput}
    (hc : Picked db.versionSet c) (hn : Numbered db.versionSet.current next)
    (hDeleted : output.deletedFiles = c.inputFileNumbers) {next' : Nat}
    (h : db.versionSet.current.applyEdit (Db.compactionEdit c.level output next') = .ok v') :
    Replaces db.versionSet.current c output.newFiles v' := by
  intro level
  rw [Version.filesAt_applyEdit h]
  have hOld : ((db.versionSet.current.filesAt level).filter fun f =>
      ∀ d ∈ (Db.compactionEdit c.level output next').deletedFiles, d.level = level →
        f.number ≠ d.number) =
      (db.versionSet.current.filesAt level).filter fun f =>
        (level = c.level → f ∉ c.inputs.1) ∧ (level = c.level + 1 → f ∉ c.inputs.2) := by
    refine List.filter_congr fun f hf => ?_
    simp only [Db.compactionEdit, hDeleted, decide_eq_decide]
    exact mem_inputFileNumbers hc hn hf
  have hNew : ((Db.compactionEdit c.level output next').newFiles.filter (·.level = level)).map
      (·.fileMeta) = if level = c.level + 1 then output.newFiles else [] := by
    simp only [Db.compactionEdit, List.filter_map, List.map_map]
    split
    · next hl =>
      subst hl
      simp [Function.comp_def]
    · next hl =>
      have : ¬c.level + 1 = level := fun he => hl he.symm
      simp [Function.comp_def, this]
  rw [hOld, hNew]
  by_cases h0 : level = c.level
  · subst h0
    simp
  · by_cases h1 : level = c.level + 1
    · subst h1
      simp
    · simp [h0, h1]

/-- The version with the new files is numbered, and its tables are in order. -/
theorem FilesWritten.version_ok (hw : FilesWritten d db c fs d₁) (h : Inv d db flushed log)
    (hInv : Inv d₁ db flushed log) (hFrame : d.Frame (sstsFrom db.idGen.next) d₁)
    (hc : Picked db.versionSet c) {output : CompactionOutput} (hfs : output.newFiles = fs)
    (hDeleted : output.deletedFiles = c.inputFileNumbers) {next : Nat} {v : Version}
    (hv : db.versionSet.current.applyEdit (Db.compactionEdit c.level output next) = .ok v) :
    Numbered v (db.idGen.next + fs.length) ∧ TablesOk d₁ flushed v ∧ DistinctTables d₁ v := by
  subst hfs
  have hNew : ∀ f ∈ (Db.compactionEdit c.level output next).newFiles,
      f.fileMeta ∈ output.newFiles := by
    intro f hf
    obtain ⟨g, hg, rfl⟩ := List.mem_map.mp hf
    exact hg
  have hPair : output.newFiles.Pairwise fun f g => f.number ≠ g.number := by
    have hNodup : (output.newFiles.map (·.number)).Nodup := by
      rw [hw.numbers]
      exact List.nodup_range'
    exact List.pairwise_map.mp hNodup
  refine ⟨?_, ?_, ?_⟩
  · refine h.numbered.applyEdit hv (fun f hf => ?_) ?_ (h.next.trans (Nat.le_add_right _ _))
    · have := hw.number (hNew f hf)
      exact ⟨h.next.trans this.1, this.2⟩
    · exact List.pairwise_map.mpr hPair
  · exact hInv.tables.applyEdit hv fun f hf => hw.tableOk h hc (hNew f hf)
  · refine hInv.distinct.applyEdit hv (fun f hf g hg hne => ?_)
      fun f hf level g hg hStays x hx y hy hk => ?_
    · have hSym : Std.Symm fun f g : FileMetaData => ∀ x ∈ d₁.entries f.number,
          ∀ y ∈ d₁.entries g.number, x.1.userKey = y.1.userKey → x.1.seq ≠ y.1.seq :=
        ⟨fun f g hfg x hx y hy hk => (hfg y hy x hx hk.symm).symm⟩
      exact (hw.distinct h hc).forall (hNew f hf) (hNew g hg) fun he => hne (congrArg _ he)
    · obtain ⟨f', hf', hx'⟩ := (h.chunk hc (hw.mem_chunks (hNew f hf))).2 x hx
      have hLt := h.numbered.below level g hg
      have hNext := h.next
      rw [Dir.entries_frame hFrame (by
        rintro ⟨n, hn, hName⟩
        cases hName
        omega)] at hy
      obtain ⟨level', hf'', hNot⟩ : ∃ level', f' ∈ db.versionSet.current.filesAt level' ∧
          f'.number ≠ g.number := by
        simp only [Db.compactionEdit, hDeleted] at hStays
        obtain ⟨h1, h2⟩ := (mem_inputFileNumbers hc h.numbered hg).mp hStays
        rcases List.mem_append.mp hf' with hf' | hf'
        · refine ⟨_, hc.mem_first hf', fun he => ?_⟩
          by_cases hl : level = c.level
          · subst hl
            exact h1 rfl (h.numbered.eq (hc.mem_first hf') hg he ▸ hf')
          · exact h.numbered.apart _ _ (Ne.symm hl) f' (hc.mem_first hf') g hg he
        · refine ⟨_, hc.mem_second hf', fun he => ?_⟩
          by_cases hl : level = c.level + 1
          · subst hl
            exact h2 rfl (h.numbered.eq (hc.mem_second hf') hg he ▸ hf')
          · exact h.numbered.apart _ _ (Ne.symm hl) f' (hc.mem_second hf') g hg he
      exact h.distinct level' level f' hf'' g hg hNot x hx' y hy hk

/-- The edit of a compaction fits the manifest. -/
theorem FilesWritten.edit_storable {output : CompactionOutput}
    (hw : FilesWritten d db c output.newFiles d₁) (h : Inv d db flushed log)
    (hc : Picked db.versionSet c) (hDeleted : output.deletedFiles = c.inputFileNumbers)
    (hNext : db.idGen.next + output.newFiles.length < 2 ^ 64)
    (hSeq : db.versionSet.lastSequence < 2 ^ 64) :
    (Db.compactionEdit c.level output (db.idGen.next + output.newFiles.length)).Storable := by
  refine compactionEdit_storable (d := d₁) hc hDeleted
    (h.numbered.mono (h.next.trans (Nat.le_add_right _ _))) (fun f hf => ?_) hNext
  have hOk := hw.tableOk h hc hf
  refine ⟨hOk.describes, (hw.number hf).2, fun e he => ⟨hOk.fits e he, ?_⟩⟩
  exact ((hOk.seqs e he).trans h.flushedLe).trans_lt hSeq

omit [Crc32c] in
theorem bumpTo_next {g : IdGenerator} {n : Nat} (h : g.next ≤ n) : (g.bumpTo n).next = n := by
  unfold IdGenerator.bumpTo
  split
  · rfl
  · omega

omit [Crc32c] in
theorem agrees_evictAll {cache : TableCache} (h : cache.Agrees d next) (files : List DeletedFile) :
    (files.foldl (fun cache f => cache.evict f.number) cache).Agrees d next := by
  induction files generalizing cache with
  | nil => exact h
  | cons f files ih => exact ih (h.evict f.number)

/-- A compaction returns with its input files replaced, or fails with a call: before the commit,
with the database as it was, or in the commit. -/
theorem runOneCompaction_spec (h : Inv d db flushed log)
    (hRoom : ∀ c, pickCompaction db.versionSet = some c →
      db.idGen.next + (compactedFiles d db c).length < 2 ^ 64)
    (hSeq : db.versionSet.lastSequence < 2 ^ 64) :
    Spec A Db.runOneCompaction
      (fun r db' d' => match pickCompaction db.versionSet with
        | none => r = false ∧ db' = db ∧ d' = d
        | some c => r = true ∧ Compacted d db flushed log c d' db')
      (fun f db' d' => ∃ c, pickCompaction db.versionSet = some c ∧
        ((Fails A f ∧ db' = db ∧ Inv d' db flushed log ∧ d.Frame (sstsFrom db.idGen.next) d') ∨
          CompactionCut A d db flushed log c f d')) db d := by
  refine Spec.bind (Spec.self ?_)
  cases hPick : pickCompaction db.versionSet with
  | none => exact Spec.pure ⟨rfl, rfl, rfl⟩
  | some c =>
  have hc := pickCompaction_picked hPick
  have hRoom := hRoom c hPick
  have hInv : ∀ {d'}, d.Frame (sstsFrom db.idGen.next) d' → Inv d' db flushed log := fun hFrame =>
    h.frame (hFrame.mono (sstsFrom_subset h.next)) (h.spare.frame hFrame (by
      rintro n - ⟨m, -, hName⟩
      cases hName))
  have hTables : ∀ f ∈ c.inputFiles, d.table f.number = some (d.entries f.number) :=
    fun f hf => (h.input_table hc hf).describes.table.table
  refine Spec.bind ((doCompaction_spec hTables).mono ?_ ?_)
  · rintro ⟨output, idGen⟩ db₁ d₁ ⟨rfl, hFrame₁, hDeleted, hDesc, hNumbers, hNext⟩
    replace hFrame₁ : d.Frame (sstsFrom db₁.idGen.next) d₁ := hFrame₁
    have hw : FilesWritten d db₁ c output.newFiles d₁ := filesWritten_of_describes hDesc hNumbers
    have hLen : output.newFiles.length = (compactedFiles d db₁ c).length := hDesc.length_eq
    obtain ⟨next⟩ := idGen
    obtain rfl : next = db₁.idGen.next + output.newFiles.length := by
      rw [hLen]
      exact hNext
    have hInv₁ := hInv hFrame₁
    have hStorable := hw.edit_storable h hc hDeleted (by omega) hSeq
    refine Spec.bind (Spec.onField ((commit_spec hInv₁.manifest hStorable
      (compactionEdit_inRange hc hDeleted _)).mono ?_ ?_))
    · rintro - vs' d₂ ⟨⟨v, pointers, writer, hv, hMoves, rfl⟩, hIn, -, hFrame₂⟩
      replace hFrame₂ : d₁.Frame {.manifest db₁.versionSet.manifestNumber} d₂ := hFrame₂
      obtain ⟨hNumbered, hOk, hDistinct⟩ := hw.version_ok h hInv₁ hFrame₁ hc rfl hDeleted hv
      have hNextEq : (db₁.idGen.bumpTo (db₁.idGen.next + output.newFiles.length)).next =
          db₁.idGen.next + output.newFiles.length := bumpTo_next (Nat.le_add_right _ _)
      obtain ⟨B, hWal⟩ := hInv₁.wal
      have hLe : db₁.versionSet.nextFileNumber ≤ db₁.idGen.next + output.newFiles.length :=
        h.next.trans (Nat.le_add_right _ _)
      refine Spec.bind (Spec.update
        (Spec.pure ⟨rfl, ?_, ⟨output.newFiles, ?_, ?_, ?_⟩, ?_, rfl, rfl,
        rfl, ?_, ?_, rfl⟩))
      · exact { hInv₁ with
          manifest := hIn
          wal := ⟨B, hWal.frame hFrame₂ (by simp)⟩
          walNumber := h.walNumber
          walBelow := h.walBelow.trans_le hLe
          next := hNextEq.ge
          numbered := hNumbered
          tables := hOk.frame hFrame₂ (by simp)
          distinct := hDistinct.frame hFrame₂ (by simp)
          spare := (hInv₁.spare.mono hLe).frame hFrame₂ (by simp)
          cache := agrees_evictAll (hInv₁.cache.mono hLe fun n _ =>
            Dir.reader_frame hFrame₂ (by simp)) _ }
      · rw [← hw.chunks]
        exact List.map_congr_left fun f _ => Dir.entries_frame hFrame₂ (by simp)
      · exact fun f hf => (hw.number hf).1
      · exact applyEdit_compactionEdit hc h.numbered hDeleted hv
      · intro n hn
        rw [Dir.entries_frame hFrame₂ (by simp), Dir.entries_frame hFrame₁]
        rintro ⟨m, hm, hName⟩
        cases hName
        omega
      · intro level hLevel
        refine hMoves level fun p hp => ?_
        simp only [Db.compactionEdit, Option.mem_toList, Option.map_eq_some_iff] at hp
        obtain ⟨g, -, rfl⟩ := hp
        exact fun he => hLevel he.symm
      · rw [hNextEq, hLen]
    · rintro f vs' d₂ ⟨-, hFailed⟩
      exact ⟨c, rfl, .inr ⟨output, d₁, hDeleted, hw, hInv₁, hFrame₁, hFailed⟩⟩
  · rintro f db₁ d₁ ⟨rfl, hFails, hFrame₁⟩
    exact ⟨c, rfl, .inl ⟨hFails, rfl, hInv hFrame₁, hFrame₁⟩⟩

end Running

end MulanLsm
