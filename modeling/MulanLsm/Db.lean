import MulanLsm.Library.Search
import MulanLsm.TableCache

/-! The database.  A write goes to the log and then to the memory table, which is flushed to a table
file when it is full.  A reader looks in the memory table, then in the files of level 0, newest
first, then in the one file of each deeper level that may have the key. -/

namespace MulanLsm

structure Options where
  memtableFlushEntries : Nat := 1000
  memtableMaxBytes : Nat := 4 * 1024 * 1024
  blockSize : Nat := 4 * 1024
  bloomBitsPerKey : Nat := 10
  tableCacheSize : Nat := 100
  syncWrites : Bool := true
  disableAutoCompaction : Bool := false

structure Db where
  versionSet : VersionSet
  memtable : MemTable
  wal : WalWriter
  idGen : IdGenerator
  walNumber : Nat
  options : Options
  tableCache : TableCache

/-- The file of a level, in ascending order, that may have the key. -/
def findFileForKey (files : List FileMetaData) (key : Bytes) : Option FileMetaData :=
  let idx := Search.partitionPoint (fun f : FileMetaData => f.smallest.userKey ≤ key) files
  if idx = 0 then none
  else
    match files[idx - 1]? with
    | some f => if key ≤ f.largest.userKey then some f else none
    | none => none

/-- The files that a reader of `key` looks in, in order. -/
def filesForKey (version : Version) (key : Bytes) : List FileMetaData :=
  (version.filesAt 0).reverse ++
    (List.range' 1 (numLevels - 1)).filterMap fun level =>
      findFileForKey (version.filesAt level) key

/-- A file that is not live, as `remove_obsolete_files` decides. -/
def isObsolete (vs : VersionSet) : FileName → Bool
  | .sst n => (List.range numLevels).all fun level =>
      (vs.current.filesAt level).all fun f => f.number ≠ n
  | .log n => n ≠ vs.logNumber
  | .manifest n => n ≠ vs.manifestNumber
  | .current => false
  | .currentTmp => true

/-- Remove a file, whether or not that succeeds. -/
def tryRemoveFile {σ : Type} (name : FileName) : St σ Unit := fun s =>
  match removeFile name s with
  | .error (.error _) s => .ok () s
  | r => r

def removeFiles {σ : Type} : List FileName → St σ Unit
  | [] => pure ()
  | name :: names => do
    tryRemoveFile name
    removeFiles names

def removeObsoleteFiles {σ : Type} (vs : VersionSet) : St σ Unit := do
  let names ← readDir
  removeFiles (names.filter (isObsolete vs))

/-- Replay the records of a log into a memory table. -/
def replayRecords (records : List Bytes) (memtable : MemTable) : Result MemTable :=
  records.foldlM (fun m record => do
    let e ← decodeEntry record
    return m.apply e.vtype e.seq e.key e.value) memtable

namespace Db

section Reading

/-- The first of the files that has a version of `key` up to `snapshotSeq`, read. -/
def readFiles (key : Bytes) (snapshotSeq : Nat) :
    List FileMetaData → St TableCache (Option (ValueType × Bytes))
  | [] => pure none
  | f :: fs => do
    let reader ← TableCache.get f.number
    match ← ofResult (reader.getEntry key snapshotSeq) with
    | some e => return some e
    | none => readFiles key snapshotSeq fs

/-- The value that a version gives its key. -/
def valueOf : ValueType × Bytes → Option Bytes
  | (.put, v) => some v
  | (.delete, _) => none

def getFromSstables (version : Version) (key : Bytes) (snapshotSeq : Nat) :
    St TableCache (Option Bytes) := do
  let e ← readFiles key snapshotSeq (filesForKey version key)
  return e.bind valueOf

/-- The value of `key` for a reader at `snapshotSeq`. -/
def getAt (snapshotSeq : Nat) (key : Bytes) : St Db (Option Bytes) := do
  let db ← self
  match db.memtable.getEntry key snapshotSeq with
  | some e => return valueOf e
  | none =>
    onField (·.tableCache) (fun tableCache db => { db with tableCache })
      (getFromSstables db.versionSet.current key snapshotSeq)

def get (key : Bytes) : St Db (Option Bytes) := do getAt (← self).versionSet.lastSequence key

/-- The sequence number that a new snapshot holds. -/
def newSnapshot : St Db Nat := do
  let seq := (← self).versionSet.lastSequence
  update fun db => { db with versionSet := db.versionSet.acquireSnapshot seq }
  return seq

def dropSnapshot (seq : Nat) : St Db Unit :=
  update fun db => { db with versionSet := db.versionSet.releaseSnapshot seq }

end Reading

section Writing

variable [Crc32c]

def onWal {α : Type} (m : St WalWriter α) : St Db α :=
  onField (·.wal) (fun wal db => { db with wal }) m

def onVersionSet {α : Type} (m : St VersionSet α) : St Db α :=
  onField (·.versionSet) (fun versionSet db => { db with versionSet }) m

def newFileNumber : St Db Nat := do
  let (n, idGen) := (← self).idGen.newFileNumber
  update fun db => { db with idGen }
  return n

/-- The part of a flush before the commit: the table file, the new log, and the old log on the
disk.  The memory table is empty from the start on. -/
def prepareFlush (frozen : MemTable) : St Db (FileMetaData × Nat × WalWriter) := do
  update fun db => { db with memtable := .withInitialSequence frozen.seq }
  let sst ← newFileNumber
  let options := (← self).options
  let r ← frozen.flushToSstable sst options.blockSize options.bloomBitsPerKey
  let size ← fileLen (.sst sst)
  match r.smallest, r.largest with
  | some smallest, some largest => do
    let newLog ← newFileNumber
    let newWal ← WalWriter.create (.log newLog)
    onWal WalWriter.sync
    return (FileMetaData.new sst size smallest largest, newLog, newWal)
  | _, _ => throw (.error (.corrupted "flushed memtable had no entries"))

def flushMemtable : St Db Unit := do
  let frozen := (← self).memtable
  if frozen.entries = 0 then pure ()
  else do
    let (fileMeta, newLog, newWal) ← prepareFlush frozen
    let edit : VersionEdit :=
      { newFiles := [{ level := 0, fileMeta }]
        logNumber := some newLog
        nextFileNumber := some (← self).idGen.next
        lastSequence := some frozen.seq }
    let _ ← onVersionSet (VersionSet.writeNewVersion edit)
    update fun db => { db with wal := newWal, walNumber := newLog }

/-- A write waits while this holds. -/
def stalled (db : Db) : Bool :=
  level0NeedsSlowdown db.versionSet.current && !db.options.disableAutoCompaction

/-- Log a write. -/
def logWrite (vtype : ValueType) (key value : Bytes) : St Db Unit := do
  let db ← self
  onWal (WalWriter.addRecord (encodeEntry vtype (db.memtable.seq + 1) key value))
  if db.options.syncWrites then onWal WalWriter.sync else pure ()

/-- Apply a write that was logged. -/
def applyWrite (vtype : ValueType) (key value : Bytes) (db : Db) : Db :=
  let seq := db.memtable.seq + 1
  { db with
    memtable := db.memtable.apply vtype seq key value
    versionSet := { db.versionSet with lastSequence := seq } }

/-- The part of a write in front of its flush. -/
def logAndApply (vtype : ValueType) (key value : Bytes) : St Db Unit := do
  logWrite vtype key value
  update (applyWrite vtype key value)

/-- The memory table is to be flushed. -/
def full (db : Db) : Bool :=
  db.memtable.entries ≥ db.options.memtableFlushEntries ||
    db.options.memtableMaxBytes > 0 && db.memtable.approxBytes ≥ db.options.memtableMaxBytes

/-- A write, from where it no longer waits. -/
def write (key value : Bytes) (vtype : ValueType) : St Db Unit := do
  logWrite vtype key value
  update (applyWrite vtype key value)
  if (← self).full then flushMemtable else pure ()

theorem write_eq (key value : Bytes) (vtype : ValueType) :
    write key value vtype = (do
      logAndApply vtype key value
      if (← self).full then flushMemtable else pure ()) := by
  rw [write, logAndApply, bind_assoc]

def put (key value : Bytes) : St Db Unit :=
  if key = [] then throw (.error (.invalidArgument "key must be non-empty"))
  else write key value .put

def delete (key : Bytes) : St Db Unit :=
  if key = [] then throw (.error (.invalidArgument "key must be non-empty"))
  else write key [] .delete

/-- The edit of a compaction of `level`. -/
def compactionEdit (level : Nat) (output : CompactionOutput) (nextNumber : Nat) : VersionEdit :=
  { newFiles := output.newFiles.map fun f => { level := level + 1, fileMeta := f }
    deletedFiles := output.deletedFiles
    compactPointers := (output.newFiles.getLast?.map fun f => (level, f.largest.userKey)).toList
    nextFileNumber := some nextNumber }

/-- Run one compaction, if there is one to run. -/
def runOneCompaction : St Db Bool := do
  let db ← self
  match pickCompaction db.versionSet with
  | none => return false
  | some c => do
    let (output, idGen) ← doCompaction mergerHeap c db.versionSet.current
      db.versionSet.oldestSnapshotSeq
      db.options.blockSize db.options.bloomBitsPerKey { next := db.idGen.next }
    let edit := compactionEdit c.level output idGen.next
    let _ ← onVersionSet (VersionSet.writeNewVersion edit)
    update fun db => { db with
      idGen := db.idGen.bumpTo idGen.next
      tableCache := output.deletedFiles.foldl (fun cache f => cache.evict f.number) db.tableCache }
    return true

end Writing

section Opening

variable [Crc32c] {σ : Type}

/-- Replay the log of the version set `vs`, if it is there, into a new memory table.  Returns the
memory table, and the version set with its last sequence number moved on to the log's. -/
def replayLog (vs : VersionSet) : St σ (MemTable × VersionSet) := do
  let memtable := MemTable.withInitialSequence vs.lastSequence
  if ← pathExists (.log vs.logNumber) then
    let bytes ← readFile (.log vs.logNumber)
    let memtable ← ofResult (replayRecords (readRecords bytes) memtable)
    return (memtable,
      if memtable.seq > vs.lastSequence then { vs with lastSequence := memtable.seq } else vs)
  else return (memtable, vs)

/-- Flush the memory table of a database that is being opened.  Returns the version set and the
generator after that, and the number of the new log. -/
def recoverFlush (memtable : MemTable) (vs : VersionSet) (idGen : IdGenerator)
    (options : Options) : St σ (VersionSet × IdGenerator × Nat) := do
  let (sst, idGen) := idGen.newFileNumber
  let r ← memtable.flushToSstable sst options.blockSize options.bloomBitsPerKey
  let size ← fileLen (.sst sst)
  match r.smallest, r.largest with
  | some smallest, some largest => do
    let (newLog, idGen) := idGen.newFileNumber
    let _ ← (WalWriter.create (.log newLog) : St σ WalWriter)
    let edit : VersionEdit :=
      { newFiles := [{ level := 0, fileMeta := .new sst size smallest largest }]
        logNumber := some newLog
        nextFileNumber := some idGen.next
        lastSequence := some memtable.seq }
    let (_, vs) ← runOn vs (VersionSet.writeNewVersion edit)
    return (vs, idGen, newLog)
  | _, _ => throw (.error (.corrupted "recovered memtable empty"))

/-- Move on to a new log when there is nothing to flush. -/
def recoverEmpty (vs : VersionSet) (idGen : IdGenerator) : St σ (VersionSet × IdGenerator × Nat) :=
  do
  let (newLog, idGen) := idGen.newFileNumber
  let edit : VersionEdit := { logNumber := some newLog, nextFileNumber := some idGen.next }
  let (_, vs) ← runOn vs (VersionSet.writeNewVersion edit)
  return (vs, idGen, newLog)

def recoverOpen (options : Options) : St σ Db := do
  let vs ← VersionSet.recover
  let idGen : IdGenerator := { next := vs.nextFileNumber }
  let (memtable, vs) ← replayLog vs
  let (vs, idGen, walNumber) ←
    if memtable.entries > 0 then recoverFlush memtable vs idGen options
    else recoverEmpty vs idGen
  let wal ← WalWriter.create (.log walNumber)
  removeObsoleteFiles vs
  return {
    versionSet := vs
    memtable := .withInitialSequence memtable.seq
    wal, idGen, walNumber, options
    tableCache := .withCapacity options.tableCacheSize }

def createNew (options : Options) : St σ Db := do
  let idGen : IdGenerator := { next := 1 }
  let (manifestNumber, idGen) := idGen.newFileNumber
  let (logNumber, idGen) := idGen.newFileNumber
  let vs ← VersionSet.newPending manifestNumber
  let initial : VersionEdit :=
    { comparator := some "mulan.BytewiseComparator"
      logNumber := some logNumber
      nextFileNumber := some idGen.next
      lastSequence := some 0 }
  let (_, vs) ← runOn vs (VersionSet.writeNewVersion initial)
  writeCurrent manifestNumber
  let wal ← WalWriter.create (.log logNumber)
  return {
    versionSet := vs
    memtable := .new
    wal, idGen
    walNumber := logNumber
    options
    tableCache := .withCapacity options.tableCacheSize }

/-- The error for a directory that has files but no `CURRENT`. -/
def refusal (path : String) : MulanError :=
  .invalidArgument
    s!"directory {debug path} is not empty and has no CURRENT; refusing to initialize"

/-- Open the database in the directory at `path`, a new one if the directory is empty. -/
def «open» (options : Options) (path : String := ".") : St σ Db := do
  if ← pathExists .current then recoverOpen options
  else
    if (← readDir) ≠ [] then throw (.error (refusal path))
    else createNew options

/-- The path stands in the error for a directory that is refused, and makes no other difference. -/
theorem open_path (options : Options) (path : String) (s : σ × World) :
    Db.open options path s = Db.open options "." s ∨
      ∃ t, ∀ path, Db.open options path s = .error (.error (refusal path)) t := by
  unfold Db.open
  cases hExists : pathExists .current s with
  | error f t => exact .inl (by rw [bind_error hExists, bind_error hExists])
  | ok found t =>
    simp only [bind_ok hExists]
    cases found with
    | true => exact .inl (by simp only [if_true])
    | false =>
      cases hNames : readDir t with
      | error f u => exact .inl (by simp only [Bool.false_eq_true, if_false, bind_error hNames])
      | ok names u =>
        simp only [Bool.false_eq_true, if_false, bind_ok hNames]
        by_cases hEmpty : names = []
        · exact .inl (by rw [if_neg (not_not.mpr hEmpty), if_neg (not_not.mpr hEmpty)])
        · exact .inr ⟨u, fun path => by rw [if_pos hEmpty]; rfl⟩

/-- Close the database: what its log holds is on the disk, unless that fails. -/
def close (db : Db) : St σ Unit := fun s =>
  match runOn db (onWal WalWriter.sync) s with
  | .ok _ s => .ok () s
  | .error (.error _) s => .ok () s
  | .error f s => .error f s

end Opening

end Db

end MulanLsm
