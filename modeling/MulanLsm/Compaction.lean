import MulanLsm.Library.Binary64
import MulanLsm.Library.Heap
import MulanLsm.Sstable
import MulanLsm.Version

/-! Compactions: which files of a level to merge with which of the next, and the merge, which leaves
out versions that no reader sees any more and cuts what is left into new files. -/

namespace MulanLsm

def l0CompactionTrigger : Nat := 4

def level0StopWritesTrigger : Nat := 12

def targetFileSize : Nat := 2 * 1024 * 1024

def maxBytesForLevelBase : Nat := 10 * 1024 * 1024

def maxBytesForLevelMultiplier : Nat := 10

def maxGrandparentOverlapBytes : Nat := 10 * targetFileSize

def maxBytesForLevel (level : Nat) : Nat :=
  if level ≤ 1 then maxBytesForLevelBase
  else maxBytesForLevelBase * maxBytesForLevelMultiplier ^ (level - 1)

/-- The score of a level, a double; an empty level past the first has none. -/
def levelScore (version : Version) (level : Nat) : Option ℚ :=
  if level = 0 then
    some (Binary64.div (Binary64.ofNat (version.numFiles 0)) (Binary64.ofNat l0CompactionTrigger))
  else
    let size := version.totalSize level
    if size = 0 then none
    else some (Binary64.div (Binary64.ofNat size) (Binary64.ofNat (maxBytesForLevel level)))

/-- The first of the levels with the highest score, if that is positive. -/
def compactionScore (version : Version) : Option (Nat × ℚ) :=
  (List.range numLevels).foldl (fun best level =>
    match levelScore version level with
    | none => best
    | some score =>
      if score > 0 ∧ best.all (fun b => score > b.2) then some (level, score) else best)
    none

def level0NeedsSlowdown (version : Version) : Bool := version.numFiles 0 ≥ level0StopWritesTrigger

/-- A compaction of `level`: its input files of that level and of the next, and the files of the
level after that in their range. -/
structure Compaction where
  level : Nat
  inputs : List FileMetaData × List FileMetaData
  grandparents : List FileMetaData
  deriving DecidableEq

namespace Compaction

/-- The input files, in the order they are merged. -/
def inputFiles (c : Compaction) : List FileMetaData := c.inputs.1 ++ c.inputs.2

/-- No file of a deeper level may have the key. -/
def isBaseLevelForUserKey (c : Compaction) (version : Version) (userKey : Bytes) : Bool :=
  (List.range' (c.level + 2) (numLevels - (c.level + 2))).all fun level =>
    (version.getOverlaps level userKey userKey).isEmpty

def inputFileNumbers (c : Compaction) : List DeletedFile :=
  c.inputs.1.map (fun f => { level := c.level, number := f.number }) ++
    c.inputs.2.map fun f => { level := c.level + 1, number := f.number }

end Compaction

/-- The smallest key of the files and the largest. -/
def keyRange (files : List FileMetaData) : Bytes × Bytes :=
  ((files.map (·.smallest.userKey)).min?.getD [], (files.map (·.largest.userKey)).max?.getD [])

/-- The input files of the level itself: all of level 0, else the first past the level's pointer. -/
def pickInputs (vs : VersionSet) (level : Fin numLevels) : Option (List FileMetaData) :=
  if level.val = 0 then some (vs.current.filesAt 0)
  else
    let pointer := vs.compactPointer level
    ((vs.current.filesAt level).find? fun f => pointer = [] ∨ f.largest.userKey > pointer).map
      fun f => [f]

def pickCompaction (vs : VersionSet) : Option Compaction := do
  let version := vs.current
  let (level, _) ← compactionScore version
  if h : level < numLevels - 1 then
    let first ← pickInputs vs ⟨level, by omega⟩
    let range := keyRange first
    let second := if first = [] then [] else version.getOverlaps (level + 1) range.1 range.2
    let range := keyRange (first ++ second)
    let grandparents :=
      if level + 2 < numLevels ∧ first ≠ [] then version.getOverlaps (level + 2) range.1 range.2
      else []
    return { level, inputs := (first, second), grandparents }
  else none

/-- The new files of a compaction, and the ones they replace. -/
structure CompactionOutput where
  newFiles : List FileMetaData
  deletedFiles : List DeletedFile

/-- The variables of the loop of a compaction. -/
structure Outputting where
  newFiles : List FileMetaData
  builder : Option TableBuilder
  smallest : Option InternalKey
  largest : Option InternalKey
  grandparentOverlap : Nat
  fileNumber : Option Nat
  grandparentIdx : Nat
  lastUserKey : Option Bytes
  lastSeq : Nat
  idGen : IdGenerator

/-- The overlap with the grandparents up to a key: those to its left are passed, and those around
it are counted, in 64 bits, and passed. -/
def countOverlap (userKey : Bytes) : List FileMetaData → Nat × Nat → Nat × Nat
  | [], s => s
  | gp :: gps, (idx, overlap) =>
    if userKey > gp.largest.userKey then countOverlap userKey gps (idx + 1, overlap)
    else if userKey < gp.smallest.userKey then (idx, overlap)
    else countOverlap userKey gps (idx + 1, (overlap + gp.fileSize) % 2 ^ 64)

theorem internalKeyCmp_weak :
    Merge.Weak fun a b : Entry => decide (internalKeyCmp a.1 b.1 = .lt) := by
  simp only [internalKeyCmp_lt]
  refine ⟨fun x y z hyx hzy => ?_, fun x y hxy => ?_⟩
  · rw [decide_eq_false_iff_not] at hyx hzy ⊢
    exact KeyLt.not_trans hyx hzy
  · rw [decide_eq_true_eq] at hxy
    rw [decide_eq_false_iff_not]
    exact hxy.asymm

/-- A queue for the entries that come next, each with the number of its table. -/
abbrev EntryQueue := Merge.PriorityQueue (Entry × Nat)
  (Merge.byElement fun a b : Entry => internalKeyCmp a.1 b.1 = .lt)

/-- The heap of the merging iterator. -/
def mergerHeap : EntryQueue := BinaryHeap.queue internalKeyCmp_weak.sourced

/-- The entries of some tables, in the order of their keys. -/
def mergeTables (Q : EntryQueue) (tables : List (List Entry)) : List Entry :=
  Merge.Merging.drain Q tables

-- Entries with the same key do not come out in the order of their tables.
example :
    let table (value : UInt8) : List Entry :=
      [({ userKey := [107], seq := 5, vtype := .put }, [value])]
    (mergeTables mergerHeap [table 0, table 1, table 2, table 3, table 4]).map (·.2) =
      [[0], [2], [4], [1], [3]] := by
  decide +kernel

section DoCompaction

variable (Q : EntryQueue) (c : Compaction) (version : Version) (oldest blockTarget bitsPerKey : Nat)

/-- An entry that no reader sees any more: a newer version of its key is as old as the oldest
snapshot, or it is a deletion as old as that with nothing below to hide. -/
def dropEntry (lastUserKey : Option Bytes) (lastSeq : Nat) (e : Entry) : Bool :=
  let sameKeyAsLast := lastUserKey = some e.1.userKey
  let deleteDroppable := e.1.vtype = .delete ∧ e.1.seq ≤ oldest ∧
    c.isBaseLevelForUserKey version e.1.userKey
  sameKeyAsLast && lastSeq ≤ oldest || deleteDroppable

/-- The current output file is large enough. -/
def shouldSplit (builder : TableBuilder) (overlap : Nat) : Bool :=
  builder.currentSizeEstimate ≥ targetFileSize || overlap > maxGrandparentOverlapBytes

/-- A new output file that starts with `ik`. -/
def openOutput (ik : InternalKey) : St Outputting Unit := do
  let (num, idGen) := (← self).idGen.newFileNumber
  update fun s => { s with idGen, fileNumber := some num }
  createFile (.sst num)
  update fun s => { s with
    builder := some (TableBuilder.withOptions num blockTarget bitsPerKey)
    smallest := some ik, largest := some ik, grandparentOverlap := 0 }

def continueWithEntry (e : Entry) : St Outputting Unit := do
  match (← self).builder with
  | none => throw (.error (.corrupted "compaction builder missing"))
  | some b =>
    onField (fun _ => b) (fun b s => { s with builder := some b }) (TableBuilder.add e.1 e.2)
    update fun s => { s with largest := some e.1 }

/-- Finish the current output file. -/
def finishCurrent : St Outputting Unit := do
  let s ← self
  match s.builder with
  | none => throw (.error (.corrupted "compaction builder missing at finish"))
  | some b =>
    update fun s => { s with builder := none }
    let _ ← runOn b TableBuilder.finish
    match s.fileNumber with
    | none => throw (.error (.corrupted "compaction file number missing"))
    | some num =>
      let fileSize ← fileLen (.sst num)
      match s.smallest, s.largest with
      | some smallest, some largest =>
        update fun s =>
          { s with newFiles := s.newFiles ++ [FileMetaData.new num fileSize smallest largest] }
      | none, _ => throw (.error (.corrupted "compaction smallest key missing"))
      | _, none => throw (.error (.corrupted "compaction largest key missing"))

/-- Write an entry to the current output file, or to a new one if there is none yet or that one is
large enough. -/
def outputEntry (e : Entry) : St Outputting Unit := do
  let s ← self
  match s.builder with
  | none =>
    openOutput blockTarget bitsPerKey e.1
    continueWithEntry e
  | some b =>
    if shouldSplit b s.grandparentOverlap then
      finishCurrent
      openOutput blockTarget bitsPerKey e.1
      update fun s => { s with grandparentIdx := 0 }
    else pure ()
    update fun s =>
      let (grandparentIdx, grandparentOverlap) := countOverlap e.1.userKey
        (c.grandparents.drop s.grandparentIdx) (s.grandparentIdx, s.grandparentOverlap)
      { s with grandparentIdx, grandparentOverlap }
    continueWithEntry e

/-- The loop of a compaction over the merged entries. -/
def compactLoop : List Entry → St Outputting Unit
  | [] => pure ()
  | e :: es => do
    let s ← self
    let drop := dropEntry c version oldest s.lastUserKey s.lastSeq e
    update fun s => { s with lastUserKey := some e.1.userKey, lastSeq := e.1.seq }
    if drop then pure () else outputEntry c blockTarget bitsPerKey e
    compactLoop es

/-- The tables of files, opened in order. -/
def openAll {σ : Type} : List FileMetaData → St σ (List (List Entry))
  | [] => pure []
  | f :: fs => do
    let reader ← TableReader.open f.number
    let rest ← openAll fs
    return reader.entries :: rest

/-- Merge the input files into new files, with the queue `Q`.  Returns these, and the generator
after their numbers. -/
def doCompaction {σ : Type} (idGen : IdGenerator) : St σ (CompactionOutput × IdGenerator) := do
  let tables ← openAll c.inputFiles
  let start : Outputting :=
    { newFiles := [], builder := none, smallest := none, largest := none, grandparentOverlap := 0
      fileNumber := none, grandparentIdx := 0, lastUserKey := none, lastSeq := 0, idGen }
  let (_, s) ← runOn start do
    compactLoop c version oldest blockTarget bitsPerKey (mergeTables Q tables)
    if (← self).builder.isSome then finishCurrent else pure ()
  return ({ newFiles := s.newFiles, deletedFiles := c.inputFileNumbers }, s.idGen)

end DoCompaction

end MulanLsm
