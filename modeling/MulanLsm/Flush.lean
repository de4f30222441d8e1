import MulanLsm.DbState

/-! Writes and flushes.  A write that is logged and applied, and a flush, which moves the memory
table to a table file of level 0 and starts a new log, leave the database in step with its
directory.  A flush that fails before its commit leaves the version as it was, and the memory table
empty. -/

namespace MulanLsm

section Storable

variable {d : Dir} {f : FileMetaData} {es : List Entry}

theorem Describes.storable (h : Describes d f es)
    (hEs : ∀ e ∈ es, EntryFits e ∧ e.1.seq < 2 ^ 64) :
    f.smallest.Storable ∧ f.largest.Storable := by
  constructor
  · obtain ⟨e, he, hk⟩ := Option.map_eq_some_iff.mp h.smallest
    have := hEs e (List.mem_of_head? he)
    rw [← hk]
    exact ⟨this.1.1, this.2⟩
  · obtain ⟨e, he, hk⟩ := Option.map_eq_some_iff.mp h.largest
    have := hEs e (List.mem_of_getLast? he)
    rw [← hk]
    exact ⟨this.1.1, this.2⟩

theorem Describes.newFile_storable (h : Describes d f es) {level : Nat}
    (hEs : ∀ e ∈ es, EntryFits e ∧ e.1.seq < 2 ^ 64) (hLevel : level < 2 ^ 32)
    (hNumber : f.number < 2 ^ 64) : (EditField.newFile { level, fileMeta := f }).Storable :=
  ⟨hLevel, hNumber, h.size_lt, (h.storable hEs).1, (h.storable hEs).2, h.seeks⟩

/-- The edit that a flush commits. -/
def flushEdit (fileMeta : FileMetaData) (newLog next seq : Nat) : VersionEdit :=
  { newFiles := [{ level := 0, fileMeta }], logNumber := some newLog, nextFileNumber := some next
    lastSequence := some seq }

theorem flushEdit_storable (h : Describes d f es) (hEs : ∀ e ∈ es, EntryFits e ∧ e.1.seq < 2 ^ 64)
    {newLog next seq : Nat} (hNumber : f.number < next) (hLog : newLog < next)
    (hNext : next < 2 ^ 64) (hSeq : seq < 2 ^ 64) : (flushEdit f newLog next seq).Storable := by
  intro field hField
  simp only [flushEdit, VersionEdit.fields, Option.map_none, Option.map_some, Option.toList_none,
    Option.toList_some, List.map_nil, List.map_cons, List.nil_append, List.append_nil,
    List.cons_append, List.mem_cons, List.not_mem_nil, or_false] at hField
  rcases hField with rfl | rfl | rfl | rfl
  · exact hLog.trans hNext
  · exact hNext
  · exact hSeq
  · exact h.newFile_storable hEs (by decide) (hNumber.trans hNext)

theorem flushEdit_inRange (f : FileMetaData) (newLog next seq : Nat) :
    (flushEdit f newLog next seq).InRange := by
  simp [flushEdit, VersionEdit.InRange, numLevels]

end Storable

section Logs

variable [Crc32c] {A : Outcome → Prop} {σ : Type} {x : σ} {d : Dir}

/-- A log that is not there or empty is opened empty. -/
theorem create_spec {name : FileName} (h : name ∈ d → ∃ synced, d.Has name [] synced) :
    Spec A (WalWriter.create name)
      (fun w y d' => y = x ∧ LogAt w d' name [] [] ∧ d.Frame {name} d')
      (fun f y d' => y = x ∧ Fails A f ∧ d.Frame {name} d' ∧
        (d' = d ∨ ∃ synced, d'.Has name [] synced)) x d := by
  have hNew : Dir.Has (d.insert name .empty) name [] 0 := ⟨_, AList.lookup_insert _, rfl, rfl⟩
  have hHas : ∃ d₁ : Dir, (d₁ = if name ∈ d then d else d.insert name .empty) ∧
      (∃ synced, d₁.Has name [] synced) ∧ d.Frame {name} d₁ := by
    refine ⟨_, rfl, ?_⟩
    split
    · next hMem => exact ⟨h hMem, Dir.Frame.refl _ _⟩
    · exact ⟨⟨0, hNew⟩, Dir.Frame.insert (Set.mem_singleton _) _ _⟩
  obtain ⟨d₁, hd₁, ⟨synced, hHas⟩, hFrame⟩ := hHas
  refine Spec.bind (Spec.call ?_ fun n f hB => ⟨rfl, ⟨n, hB⟩, Dir.Frame.refl _ _, .inl rfl⟩)
  rw [← hd₁]
  refine Spec.bind (Spec.fileLen hHas ?_ fun n f hB => ⟨rfl, ⟨n, hB⟩, hFrame, .inr ⟨_, hHas⟩⟩)
  exact Spec.pure ⟨rfl, ⟨rfl, ⟨_, hHas⟩, IsLog.nil, Nat.zero_le _, rfl⟩, hFrame⟩

end Logs

section Flushing

variable [Crc32c] {A : Outcome → Prop} {d : Dir} {db : Db} {flushed : Nat} {log : List WalEntry}

omit [Crc32c] in
theorem newFileNumber_spec {Q : Nat → Db → Dir → Prop} {E : Fault → Db → Dir → Prop}
    (h : Q db.idGen.next { db with idGen := { next := db.idGen.next + 1 } } d) :
    Spec A Db.newFileNumber Q E db d :=
  Spec.bind (Spec.self (Spec.bind (Spec.update (Spec.pure h))))

omit [Crc32c] in
theorem SpareLogs.frame {d d' : Dir} {next : Nat} {names : Set FileName} (h : SpareLogs d next)
    (hFrame : d.Frame names d')
    (hNames : ∀ n, next ≤ n → .log n ∈ names → .log n ∈ d' → ∃ synced, d'.Has (.log n) [] synced) :
    SpareLogs d' next := by
  intro n hn hMem
  by_cases hName : .log n ∈ names
  · exact hNames n hn hName hMem
  · have hMem' : .log n ∈ d := by
      rw [← AList.lookup_isSome, ← hFrame _ hName, AList.lookup_isSome]
      exact hMem
    obtain ⟨synced, hHas⟩ := h n hn hMem'
    exact ⟨synced, hHas.frame hFrame hName⟩

/-- The database once its memory table was taken out for a flush. -/
def emptied (db : Db) (next : Nat) : Db :=
  { db with memtable := .withInitialSequence db.memtable.seq, idGen := { next } }

omit [Crc32c] in
theorem MemOk.empty {seq flushed : Nat} : MemOk (.withInitialSequence seq) flushed :=
  ⟨List.Pairwise.nil, rfl, by simp [MemTable.withInitialSequence],
    by simp [MemTable.withInitialSequence]⟩

theorem Inv.emptied (h : Inv d db flushed log) {next : Nat} (hNext : db.idGen.next ≤ next) :
    Inv d (emptied db next) flushed log :=
  { h with next := h.next.trans hNext, mem := MemOk.empty, seq := h.seq }

/-- A database stays in step with another content of its log. -/
theorem Inv.relog {d' : Dir} {w' : WalWriter} {B : Bytes} {log' : List WalEntry}
    (h : Inv d db flushed log) (hFrame : d.Frame {.log db.walNumber} d')
    (hAt : LogAt w' d' (.log db.walNumber) B (log'.map WalEntry.encode))
    (hLogged : ∀ e ∈ log', EntryFits e.entry ∧ flushed < e.seq ∧
      e.seq ≤ db.versionSet.lastSequence + 1) : Inv d' { db with wal := w' } flushed log' :=
  { h with
    manifest := h.manifest.frame hFrame (by simp) (by simp)
    wal := ⟨B, hAt⟩
    tables := h.tables.frame hFrame (by simp)
    distinct := h.distinct.frame hFrame (by simp)
    spare := h.spare.frame hFrame fun n hn hName _ => by
      obtain rfl : n = db.walNumber := by simpa using hName
      exact absurd h.walBelow (by omega)
    logged := hLogged
    cache := h.cache.mono le_rfl fun n _ => Dir.reader_frame hFrame (by simp) }

/-- The part of a flush before its commit writes the table file and the new log, and brings the old
log to the disk; it changes only new files before that. -/
theorem prepareFlush_spec (h : Inv d db flushed log) (hMem : db.memtable.skiplist ≠ []) :
    Spec A (Db.prepareFlush db.memtable)
      (fun r db' d' => ∃ newWal f, r = (f, db.idGen.next + 1, newWal) ∧
        db' = emptied db (db.idGen.next + 2) ∧ f.number = db.idGen.next ∧
        Describes d' f db.memtable.skiplist ∧
        LogAt newWal d' (.log (db.idGen.next + 1)) [] [] ∧ d'.Synced (.log db.walNumber) ∧
        Inv d' db' flushed log ∧
        d.Frame (filesFrom db.idGen.next ∪ {.log db.walNumber}) d')
      (fun f db' d' => Fails A f ∧ (∃ next, db.idGen.next ≤ next ∧ db' = emptied db next) ∧
        Inv d' db' flushed log ∧ d.Frame (filesFrom db.idGen.next) d') db d := by
  set n := db.idGen.next with hn
  obtain ⟨e, es, hEs⟩ := List.exists_cons_of_ne_nil hMem
  have hSst : {FileName.sst n} ⊆ filesFrom n := by
    rintro name rfl
    exact ⟨n, le_rfl, .inl rfl⟩
  have hLog : {FileName.log (n + 1)} ⊆ filesFrom n := by
    rintro name rfl
    exact ⟨n + 1, by omega, .inr rfl⟩
  have hSub : filesFrom n ⊆ filesFrom db.versionSet.nextFileNumber := filesFrom_mono h.next
  have hWal : .log db.walNumber ∉ filesFrom n := by
    rintro ⟨m, hm, hName | hName⟩
    · cases hName
    · cases hName
      have := h.walBelow
      have := h.next
      omega
  refine Spec.bind (Spec.update (Spec.bind (newFileNumber_spec (Spec.bind (Spec.self ?_)))))
  refine Spec.bind ((MemTable.flushToSstable_spec _ _ _ _).mono ?_ ?_)
  · rintro r db₁ d₁ ⟨rfl, rfl, hTable, hFrame₁⟩
    replace hFrame₁ : d.Frame {.sst n} d₁ := hFrame₁
    replace hTable : d₁.HasTable n db.memtable.skiplist := hTable
    have hSpare₁ : SpareLogs d₁ db.versionSet.nextFileNumber := h.spare.frame hFrame₁ (by simp)
    have hInv₁ : Inv d₁ db flushed log :=
      h.frame (hFrame₁.mono (hSst.trans hSub)) hSpare₁
    obtain ⟨f, hf, hEntries, hSynced⟩ := id hTable
    refine Spec.bind (Spec.fileLen ⟨f, hf, rfl, rfl⟩ ?_ fun m _ hB => ⟨⟨m, hB⟩,
      ⟨n + 1, Nat.le_succ n, rfl⟩, hInv₁.emptied (Nat.le_succ n), hFrame₁.mono hSst⟩)
    rw [hEs, bounds_cons]
    refine Spec.bind (newFileNumber_spec ?_)
    have hCreate : .log (n + 1) ∈ d₁ → ∃ synced, d₁.Has (.log (n + 1)) [] synced :=
      hSpare₁ (n + 1) (by have := h.next; omega)
    refine Spec.bind ((create_spec hCreate).mono ?_ ?_)
    · rintro newWal db₂ d₂ ⟨rfl, hNew, hFrame₂⟩
      have hFrame₂' : d.Frame (filesFrom n) d₂ := (hFrame₁.mono hSst).trans (hFrame₂.mono hLog)
      have hSpare₂ : SpareLogs d₂ db.versionSet.nextFileNumber := hSpare₁.frame hFrame₂
        fun m _ hm _ => by
          obtain rfl : m = n + 1 := by simpa using hm
          exact hNew.has
      have hInv₂ : Inv d₂ db flushed log := h.frame (hFrame₂'.mono hSub) hSpare₂
      obtain ⟨B, hAt⟩ := hInv₂.wal
      refine Spec.bind (Spec.onField (hAt.sync_spec.mono ?_ ?_))
      · rintro - w₃ d₃ ⟨rfl, hAt₃, hHas₃, hFrame₃⟩
        have hInv₃ : Inv d₃ db flushed log := hInv₂.relog hFrame₃ hAt₃ hInv₂.logged
        refine Spec.pure ⟨newWal, _, rfl, rfl, rfl, ?_, hNew.frame hFrame₃ ?_, ⟨B, hHas₃⟩,
          hInv₃.emptied (Nat.le_add_right n 2), (hFrame₂'.mono Set.subset_union_left).trans
            (hFrame₃.mono Set.subset_union_right)⟩
        · have hTable₃ := (hTable.frame hFrame₂ (by simp)).frame hFrame₃ (by simp)
          rw [hEs] at hTable₃
          refine ⟨rfl, ?_, hTable₃, ?_, rfl⟩
          · rw [List.getLast?_eq_some_getLast (by simp)]
            rfl
          · exact congrArg (Option.map (·.bytes.length % 2 ^ 64))
              ((hFrame₃ _ (by simp)).trans ((hFrame₂ _ (by simp)).trans hf))
        · have := h.walBelow
          have := h.next
          simp only [Set.mem_singleton_iff, FileName.log.injEq]
          omega
      · rintro f w₃ d₃ ⟨rfl, rfl, hFails⟩
        exact ⟨hFails, ⟨n + 2, Nat.le_add_right n 2, rfl⟩, hInv₂.emptied (Nat.le_add_right n 2),
          hFrame₂'⟩
    · rintro f db₂ d₂ ⟨rfl, hFails, hFrame₂, hEmpty⟩
      have hFrame₂' : d.Frame (filesFrom n) d₂ := (hFrame₁.mono hSst).trans (hFrame₂.mono hLog)
      have hSpare₂ : SpareLogs d₂ db.versionSet.nextFileNumber := hSpare₁.frame hFrame₂
        fun m _ hm hMem => by
          obtain rfl : m = n + 1 := by simpa using hm
          rcases hEmpty with rfl | hEmpty
          · exact hCreate hMem
          · exact hEmpty
      exact ⟨hFails, ⟨n + 2, Nat.le_add_right n 2, rfl⟩,
        (h.frame (hFrame₂'.mono hSub) hSpare₂).emptied (Nat.le_add_right n 2), hFrame₂'⟩
  · rintro f db₁ d₁ ⟨rfl, hFails, hFrame₁⟩
    have hSpare₁ : SpareLogs d₁ db.versionSet.nextFileNumber := h.spare.frame hFrame₁ (by simp)
    exact ⟨hFails, ⟨n + 1, Nat.le_succ n, rfl⟩,
      (h.frame (hFrame₁.mono (hSst.trans hSub)) hSpare₁).emptied (Nat.le_succ n), hFrame₁.mono hSst⟩

omit [Crc32c] in
theorem SpareLogs.mono {next next' : Nat} (h : SpareLogs d next) (hn : next ≤ next') :
    SpareLogs d next' :=
  fun n hle => h n (hn.trans hle)

/-- The version `v'` is `v` with `f` as the last file of level 0. -/
def AddsFile (v : Version) (f : FileMetaData) (v' : Version) : Prop :=
  v'.filesAt 0 = v.filesAt 0 ++ [f] ∧ ∀ level, level ≠ 0 → v'.filesAt level = v.filesAt level

omit [Crc32c] in
theorem AddsFile.mem {v v' : Version} {f g : FileMetaData} (h : AddsFile v f v') {level : Nat}
    (hg : g ∈ v.filesAt level) : g ∈ v'.filesAt level := by
  by_cases hLevel : level = 0
  · subst hLevel
    exact h.1 ▸ List.mem_append_left _ hg
  · exact h.2 level hLevel ▸ hg

omit [Crc32c] in
theorem applyEdit_flushEdit {v v' : Version} {f : FileMetaData} {newLog next seq : Nat}
    (h : v.applyEdit (flushEdit f newLog next seq) = .ok v') : AddsFile v f v' := by
  constructor
  · rw [Version.filesAt_applyEdit h]
    simp [flushEdit]
  · intro level hLevel
    rw [Version.filesAt_applyEdit h]
    simp [flushEdit, hLevel.symm]

/-- The database `db` after a flush, in the directory `d'`. -/
structure Flushed (d : Dir) (db : Db) (d' : Dir) (db' : Db) : Prop where
  inv : Inv d' db' db.memtable.seq []
  files : ∃ f, f.number = db.idGen.next ∧ AddsFile db.versionSet.current f db'.versionSet.current ∧
    d'.entries f.number = db.memtable.skiplist
  tables : ∀ n < db.idGen.next, d'.entries n = d.entries n
  mem : db'.memtable = .withInitialSequence db.memtable.seq
  lastSequence : db'.versionSet.lastSequence = db.versionSet.lastSequence
  snapshots : db'.versionSet.snapshots = db.versionSet.snapshots
  pointers : db'.versionSet.compactPointer = db.versionSet.compactPointer
  next : db'.idGen.next = db.idGen.next + 2
  options : db'.options = db.options

/-- A flush whose commit failed with `fault`: everything but the commit is done. -/
def FlushCut (A : Outcome → Prop) (d : Dir) (db : Db) (flushed : Nat) (log : List WalEntry)
    (fault : Fault) (d' : Dir) : Prop :=
  ∃ f d₁, f.number = db.idGen.next ∧ Describes d₁ f db.memtable.skiplist ∧
    d₁.Synced (.log db.walNumber) ∧ (∃ synced, d₁.Has (.log (db.idGen.next + 1)) [] synced) ∧
    Inv d₁ (emptied db (db.idGen.next + 2)) flushed log ∧
    d.Frame (filesFrom db.idGen.next ∪ {.log db.walNumber}) d₁ ∧
    AppendFailed A (flushEdit f (db.idGen.next + 1) (db.idGen.next + 2) db.memtable.seq) d₁
      db.versionSet.manifestNumber fault d'

/-- A flush returns with the memory table in a new file at level 0, or fails with a call: before the
commit, with the version as it was and the memory table empty, or in the commit. -/
theorem flushMemtable_spec (h : Inv d db flushed log) (hMem : db.memtable.skiplist ≠ [])
    (hNext : db.idGen.next + 2 < 2 ^ 64) (hSeq : db.memtable.seq < 2 ^ 64) :
    Spec A Db.flushMemtable (fun _ db' d' => Flushed d db d' db')
      (fun f db' d' =>
        (Fails A f ∧ (∃ next, db.idGen.next ≤ next ∧ db' = emptied db next) ∧
          Inv d' db' flushed log ∧ d.Frame (filesFrom db.idGen.next) d') ∨
        FlushCut A d db flushed log f d') db d := by
  set n := db.idGen.next with hn
  have hEntries : ¬db.memtable.entries = 0 := by
    rw [h.mem.count, List.length_eq_zero_iff]
    exact hMem
  refine Spec.bind (Spec.self ?_)
  rw [if_neg hEntries]
  refine Spec.bind ((prepareFlush_spec h hMem).mono ?_ fun f db₁ d₁ hE => .inl hE)
  rintro r db₁ d₁ ⟨newWal, f, rfl, rfl, hNumber, hDesc, hNew, hSynced, hInv, hFrame⟩
  have hEs : ∀ e ∈ db.memtable.skiplist, EntryFits e ∧ e.1.seq < 2 ^ 64 := fun e he =>
    ⟨h.mem.fits e he, (h.mem.seqs e he).2.trans_lt hSeq⟩
  refine Spec.bind (Spec.self (Spec.bind (Spec.onField ((commit_spec
    hInv.manifest
    (flushEdit_storable hDesc hEs (by omega) (by omega) hNext hSeq)
    (flushEdit_inRange f _ _ _)).mono ?_ ?_))))
  · rintro - vs' d₂ ⟨⟨v, pointers, writer, hv, hMoves, hvs⟩, hIn, -, hFrame₂⟩
    replace hv : db.versionSet.current.applyEdit (flushEdit f (n + 1) (n + 2) db.memtable.seq) =
      .ok v := hv
    replace hFrame₂ : d₁.Frame {.manifest db.versionSet.manifestNumber} d₂ := hFrame₂
    have hLt : ∀ m < n, d₂.entries m = d.entries m := by
      intro m hm
      rw [Dir.entries_frame hFrame₂ (by simp), Dir.entries_frame hFrame]
      rintro (⟨k, hk, hName | hName⟩ | hName) <;> cases hName
      omega
    have hFile : d₂.entries f.number = db.memtable.skiplist := by
      rw [Dir.entries_frame hFrame₂ (by simp), hDesc.entries]
    have hLe : flushed ≤ db.memtable.seq := h.seq ▸ h.flushedLe
    have hTables : TablesOk d₂ db.memtable.seq v := by
      refine TablesOk.applyEdit (fun level g hg => ?_) hv fun g hg => ?_
      · exact ((hInv.tables level g hg).frame hFrame₂ (by simp)).mono hLe
      · obtain rfl : g = { level := 0, fileMeta := f } := by simpa [flushEdit] using hg
        exact h.mem.tableOk (hDesc.frame hFrame₂ (by simp))
    have hNumbered : Numbered v (n + 2) := by
      refine (h.numbered.mono h.next).applyEdit hv (fun g hg => ?_) (by simp [flushEdit])
        (by omega)
      obtain rfl : g = { level := 0, fileMeta := f } := by simpa [flushEdit] using hg
      simp only [hNumber]
      omega
    have hDistinct : DistinctTables d₂ v := by
      refine (hInv.distinct.frame hFrame₂ (by simp)).applyEdit hv (fun g hg g' hg' hne => ?_)
        fun g hg level g' hg' _ x hx y hy _ => ?_
      · obtain rfl : g = { level := 0, fileMeta := f } := by simpa [flushEdit] using hg
        obtain rfl : g' = { level := 0, fileMeta := f } := by simpa [flushEdit] using hg'
        exact absurd rfl hne
      · obtain rfl : g = { level := 0, fileMeta := f } := by simpa [flushEdit] using hg
        rw [hFile] at hx
        rw [Dir.entries_frame hFrame₂ (by simp)] at hy
        exact h.mem.seq_ne (hInv.tables level g' hg') hx hy
    subst hvs
    refine Spec.update ⟨?_, ⟨f, hNumber, applyEdit_flushEdit hv, hFile⟩, hLt, rfl, h.seq, rfl,
      funext fun level => hMoves level (by simp [flushEdit]), rfl, rfl⟩
    exact {
      manifest := hIn
      wal := ⟨[], hNew.frame hFrame₂ (by simp)⟩
      walNumber := rfl
      walBelow := Nat.lt_succ_self (n + 1)
      next := le_rfl
      numbered := hNumbered
      tables := hTables
      distinct := hDistinct
      spare := (hInv.spare.mono (h.next.trans (Nat.le_add_right n 2))).frame hFrame₂ (by simp)
      mem := MemOk.empty
      seq := rfl
      flushedLe := le_rfl
      logged := by simp
      cache := hInv.cache.mono (h.next.trans (Nat.le_add_right n 2)) fun m _ =>
        Dir.reader_frame hFrame₂ (by simp) }
  · rintro fault vs' d₂ ⟨-, hFailed⟩
    exact .inr ⟨f, d₁, hNumber, hDesc, hSynced, hNew.has, hInv, hFrame, hFailed⟩

theorem flushMemtable_quiet (h : Inv d db flushed log) (hMem : db.memtable.skiplist ≠ [])
    (hNext : db.idGen.next + 2 < 2 ^ 64) (hSeq : db.memtable.seq < 2 ^ 64) :
    Spec Quiet Db.flushMemtable (fun _ db' d' => Flushed d db d' db') Never db d := by
  refine (flushMemtable_spec h hMem hNext hSeq).quiet ?_
  rintro f y d' (⟨hFails, -⟩ | ⟨_, _, _, _, _, _, _, _, hFailed⟩)
  · exact hFails
  · exact hFailed.fails.1

omit [Crc32c] in
/-- A memory table takes a write that is newer than all it has. -/
theorem MemOk.apply {m : MemTable} {vtype : ValueType} {key value : Bytes} {seq : Nat}
    (h : MemOk m flushed) (hFlushed : flushed ≤ m.seq) (hSeq : m.seq < seq)
    (hFits : EntryFits ({ userKey := key, seq, vtype }, value)) :
    MemOk (m.apply vtype seq key value) flushed := by
  have hPerm := SkipList.insert_perm { userKey := key, seq, vtype } value m.skiplist
  have hOld : ∀ e ∈ m.skiplist, e.1.seq < seq := fun e he => (h.seqs e he).2.trans_lt hSeq
  have hNew : ({ userKey := key, seq, vtype }, value) ∉ m.skiplist := fun hMem =>
    lt_irrefl _ (hOld _ hMem)
  refine ⟨?_, ?_, ?_, ?_⟩
  · have hNodup : m.skiplist.Nodup := h.ascending.nodup
    refine (SkipList.insert_sorted h.ascending.sorted).ascending
      (hPerm.nodup_iff.mpr (List.nodup_cons.mpr ⟨hNew, hNodup⟩)) ?_
    intro x hx y hy hk hs
    rcases SkipList.mem_insert.mp hx with rfl | hx <;>
      rcases SkipList.mem_insert.mp hy with rfl | hy
    · rfl
    · exact absurd hs (hOld y hy).ne'
    · exact absurd hs (hOld x hx).ne
    · exact h.ascending.distinct x hx y hy hk hs
  · simp only [MemTable.apply, hPerm.length_eq, h.count, List.length_cons]
  · intro e he
    rcases SkipList.mem_insert.mp he with rfl | he
    · exact hFits
    · exact h.fits e he
  · intro e he
    simp only [MemTable.apply, if_pos hSeq]
    rcases SkipList.mem_insert.mp he with rfl | he
    · exact ⟨by simp only; omega, le_rfl⟩
    · exact ⟨(h.seqs e he).1, (hOld e he).le⟩

/-- The entry that the next write of the database logs. -/
def nextEntry (db : Db) (vtype : ValueType) (key value : Bytes) : WalEntry :=
  { vtype, seq := db.memtable.seq + 1, key, value }

/-- A write is logged, or it fails with a call: before it is logged, or in the sync after that. -/
theorem logWrite_spec (h : Inv d db flushed log) {vtype : ValueType} {key value : Bytes}
    (hFits : EntryFits (nextEntry db vtype key value).entry) {B : Bytes}
    (hAt : LogAt db.wal d (.log db.walNumber) B (log.map WalEntry.encode)) :
    Spec A (Db.logWrite vtype key value)
      (fun _ db' d' => ∃ w',
        db' = { db with wal := w' } ∧
        Inv d' db' flushed (log ++ [nextEntry db vtype key value]) ∧
        Logged (nextEntry db vtype key value).encode d (.log db.walNumber) B
          (log.map WalEntry.encode) w' d' ∧
        if db.options.syncWrites then d'.Synced (.log db.walNumber)
        else d.SameSynced (.log db.walNumber) d')
      (fun f db' d' => ∃ w', db' = { db with wal := w' } ∧
        (NotLogged A (nextEntry db vtype key value).encode d (.log db.walNumber) B
            (log.map WalEntry.encode) f w' d' ∨
          Logged (nextEntry db vtype key value).encode d (.log db.walNumber) B
            (log.map WalEntry.encode) w' d' ∧
          Inv d' db' flushed (log ++ [nextEntry db vtype key value]) ∧ Fails A f ∧
          d.SameSynced (.log db.walNumber) d')) db d := by
  set e := nextEntry db vtype key value with he
  have hLogged : ∀ e' ∈ log ++ [e], EntryFits e'.entry ∧ flushed < e'.seq ∧
      e'.seq ≤ db.versionSet.lastSequence + 1 := by
    intro e' he'
    rcases List.mem_append.mp he' with he' | he'
    · exact h.logged e' he'
    · obtain rfl := List.mem_singleton.mp he'
      have := h.flushedLe
      have := h.seq
      exact ⟨hFits, by simp only [he, nextEntry]; omega, by simp only [he, nextEntry]; omega⟩
  have hMap : log.map WalEntry.encode ++ [e.encode] = (log ++ [e]).map WalEntry.encode := by simp
  refine Spec.bind (Spec.self (Spec.bind (Spec.onField ((hAt.addRecord_spec e.encode).mono ?_ ?_))))
  · rintro - w₁ d₁ ⟨hWritten, hSame⟩
    obtain ⟨ps, B₁, hPieces, hW, hAt₁, hFrame₁⟩ := id hWritten
    rw [hMap] at hAt₁
    have hInv₁ := h.relog hFrame₁ hAt₁ hLogged
    split
    · next hSync =>
      refine Spec.onField (hAt₁.sync_spec.mono ?_ ?_)
      · rintro - w₂ d₂ ⟨rfl, hAt₂, hHas₂, hFrame₂⟩
        refine ⟨w₂, rfl, h.relog (hFrame₁.trans hFrame₂) hAt₂ hLogged,
          ⟨ps, B₁, hPieces, hW, hMap ▸ hAt₂, hFrame₁.trans hFrame₂⟩, B₁, hHas₂⟩
      · rintro f w₂ d₂ ⟨rfl, rfl, hFails⟩
        exact ⟨w₂, rfl, .inr ⟨hWritten, hInv₁, hFails, hSame⟩⟩
    · next hSync =>
      exact Spec.pure ⟨w₁, rfl, hInv₁, hWritten, hSame⟩
  · intro f w₁ d₁ hNot
    exact ⟨w₁, rfl, .inl hNot⟩

/-- A database stays in step when a write is applied. -/
theorem Inv.applyWrite (h : Inv d db flushed log) {vtype : ValueType} {key value : Bytes}
    (hFits : EntryFits (nextEntry db vtype key value).entry) :
    Inv d (db.applyWrite vtype key value) flushed log :=
  have hLe : flushed ≤ db.memtable.seq := h.seq ▸ h.flushedLe
  { h with
    mem := h.mem.apply hLe (Nat.lt_succ_self _) hFits
    seq := by simp [Db.applyWrite, MemTable.apply]
    flushedLe := hLe.trans (Nat.le_succ _)
    logged := fun e he => by
      obtain ⟨hFits, hLow, hHigh⟩ := h.logged e he
      have := h.seq
      exact ⟨hFits, hLow, by simp only [Db.applyWrite]; omega⟩ }

/-- The database `db` after `e` was logged and applied. -/
structure Applied (d : Dir) (db : Db) (flushed : Nat) (log : List WalEntry) (e : WalEntry)
    (d' : Dir) (db' : Db) : Prop where
  inv : Inv d' db' flushed (log ++ [e])
  mem : db'.memtable = db.memtable.apply e.vtype e.seq e.key e.value
  version : db'.versionSet = { db.versionSet with lastSequence := e.seq }
  options : db'.options = db.options
  idGen : db'.idGen = db.idGen
  tables : ∀ n, d'.entries n = d.entries n

theorem applied_of_logged {d' : Dir} {w' : WalWriter} {vtype : ValueType} {key value : Bytes}
    (hFits : EntryFits (nextEntry db vtype key value).entry)
    (hInv : Inv d' { db with wal := w' } flushed (log ++ [nextEntry db vtype key value]))
    (hFrame : d.Frame {.log db.walNumber} d') :
    Applied d db flushed log (nextEntry db vtype key value) d'
      (Db.applyWrite vtype key value { db with wal := w' }) where
  inv := hInv.applyWrite hFits
  mem := rfl
  version := rfl
  options := rfl
  idGen := rfl
  tables := fun _ => Dir.entries_frame hFrame (by simp)

theorem Applied.mem_ne {e : WalEntry} {d' : Dir} {db' : Db}
    (h : Applied d db flushed log e d' db') :
    db'.memtable.skiplist ≠ [] := by
  rw [h.mem]
  intro hNil
  have hPerm := SkipList.insert_perm
    { userKey := e.key, seq := e.seq, vtype := e.vtype } e.value db.memtable.skiplist
  rw [show SkipList.insert _ _ _ = [] from hNil] at hPerm
  exact List.cons_ne_nil _ _ (List.nil_perm.mp hPerm)

/-- A write that fits is logged and applied. -/
theorem logAndApply_spec (h : Inv d db flushed log) {vtype : ValueType} {key value : Bytes}
    (hFits : EntryFits (nextEntry db vtype key value).entry) :
    Spec Quiet (Db.logAndApply vtype key value)
      (fun _ db' d' => Applied d db flushed log (nextEntry db vtype key value) d' db')
      Never db d := by
  obtain ⟨B, hAt⟩ := h.wal
  refine Spec.bind ((logWrite_spec h hFits hAt).mono ?_ ?_)
  · rintro - db₁ d₁ ⟨w', rfl, hInv, ⟨-, -, -, -, -, hFrame⟩, -⟩
    exact Spec.update (applied_of_logged hFits hInv hFrame)
  · rintro f db₁ d₁ ⟨w', -, ⟨_, _, _, _, n, _, _, hBroken, _⟩ | ⟨-, -, hFails, -⟩⟩
    · exact not_broken_quiet hBroken
    · exact not_fails_quiet hFails

/-- A write is applied, and then the memory table is flushed if it is full. -/
theorem write_spec (h : Inv d db flushed log) {vtype : ValueType} {key value : Bytes}
    (hFits : EntryFits (nextEntry db vtype key value).entry) (hNext : db.idGen.next + 2 < 2 ^ 64)
    (hSeq : db.memtable.seq + 1 < 2 ^ 64) :
    Spec Quiet (Db.write key value vtype)
      (fun _ db' d' => ∃ d₁ db₁,
        Applied d db flushed log (nextEntry db vtype key value) d₁ db₁ ∧
          if db₁.full then Flushed d₁ db₁ d' db' else d' = d₁ ∧ db' = db₁) Never db d := by
  rw [Db.write_eq]
  refine Spec.bind ((logAndApply_spec h hFits).mono ?_ fun _ _ _ h => h)
  intro _ db₁ d₁ hApplied
  refine Spec.bind (Spec.self ?_)
  split
  · next hFull =>
    have hNext' : db₁.idGen.next + 2 < 2 ^ 64 := hApplied.idGen ▸ hNext
    have hSeq' : db₁.memtable.seq < 2 ^ 64 := by
      rw [hApplied.inv.seq, hApplied.version]
      exact hSeq
    refine (flushMemtable_quiet hApplied.inv hApplied.mem_ne hNext' hSeq').mono ?_ fun _ _ _ h => h
    intro _ db' d' hFlushed
    refine ⟨d₁, db₁, hApplied, ?_⟩
    rw [if_pos hFull]
    exact hFlushed
  · next hFull =>
    refine Spec.pure ⟨d₁, db₁, hApplied, ?_⟩
    rw [if_neg hFull]
    exact ⟨rfl, rfl⟩

end Flushing

end MulanLsm
