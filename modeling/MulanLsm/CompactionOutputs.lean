import MulanLsm.LsmSteps

/-! What a compaction returns.  Its new files hold the merged entries of its input files without
those that it drops, in order, and each is described by its first entry and its last.  The files
share no key exactly as long as none is cut off between two versions of a key. -/

namespace MulanLsm

/-- Entries that the comparison of internal keys puts in no other order. -/
def InKeyOrder (es : List Entry) : Prop :=
  es.Pairwise fun a b => internalKeyCmp b.1 a.1 ≠ .lt

instance (es : List Entry) : Decidable (InKeyOrder es) := by unfold InKeyOrder; infer_instance

theorem InKeyOrder.userKey_le {es : List Entry} (h : InKeyOrder es) :
    es.Pairwise fun x y => x.1.userKey ≤ y.1.userKey := by
  refine h.imp fun {x y} hxy => ?_
  rw [ne_eq, internalKeyCmp_lt] at hxy
  by_contra hlt
  exact hxy (.inl (not_le.mp hlt))

section Tables

variable {σ : Type} {x y : σ} {d : Dir} {w w' : World} {Q : EntryQueue} {c : Compaction}
  {version : Version} {oldest blockTarget bitsPerKey next : Nat} {idGen idGen' : IdGenerator}
  {os : List Outcome} {output : CompactionOutput} {files : List FileMetaData}

theorem openAll_tables {A : Outcome → Prop} (files : List FileMetaData) :
    Spec A (openAll files)
      (fun _ y d' => (∀ f ∈ files, d.table f.number = some (d.entries f.number)) ∧ y = x ∧ d' = d)
      (fun _ y d' => y = x ∧ d' = d) x d := by
  induction files with
  | nil => exact Spec.pure ⟨by simp, rfl, rfl⟩
  | cons f files ih =>
    refine Spec.bind ((open_reader f.number).mono ?_ fun _ _ _ h => h.2)
    intro r y d' hOpened
    obtain ⟨hReader, rfl, rfl⟩ := hOpened
    have hTable := Dir.table_of_reader hReader
    have hEntries : d'.entries f.number = r.entries := by rw [Dir.entries, hTable]; rfl
    refine Spec.bind (ih.mono ?_ fun _ _ _ h => h)
    intro rest y d' hRest
    obtain ⟨hTables, hy, hd⟩ := hRest
    rw [← hEntries] at hTable
    exact Spec.pure ⟨List.forall_mem_cons.mpr ⟨hTable, hTables⟩, hy, hd⟩

/-- A compaction that returns has found the tables of its input files. -/
theorem doCompaction_tables (hRun : doCompaction Q c version oldest blockTarget bitsPerKey idGen
      (x, ⟨d, os⟩) = .ok (output, idGen') (y, w)) :
    ∀ f ∈ c.inputFiles, d.table f.number = some (d.entries f.number) := by
  have hAll : ∀ o ∈ os, (fun _ : Outcome => True) o := fun _ _ => trivial
  rcases (openAll_tables c.inputFiles (x := x) (d := d)).result hAll with
    ⟨tables, y', w', -, hTables, -⟩ | ⟨f, y', w', hOpen, -⟩
  · exact hTables
  · rw [doCompaction, bind_error hOpen] at hRun
    cases hRun

/-- What a compaction that returns has done. -/
theorem doCompaction_returns (hRun : doCompaction Q c version oldest blockTarget bitsPerKey idGen
      (x, ⟨d, os⟩) = .ok (output, idGen') (y, w)) :
    let out := outputFiles Q c version oldest blockTarget bitsPerKey idGen.next d.entries
    output.deletedFiles = c.inputFileNumbers ∧
      List.Forall₂ (Describes w.dir) output.newFiles out ∧
      output.newFiles.map (·.number) = List.range' idGen.next out.length := by
  have hAll : ∀ o ∈ os, (fun _ : Outcome => True) o := fun _ _ => trivial
  have hPost := Spec.returned hRun (doCompaction_spec (doCompaction_tables hRun)) hAll
  exact ⟨hPost.2.2.1, hPost.2.2.2.1, hPost.2.2.2.2.1⟩

end Tables

section Partition

variable (Q : EntryQueue) (c : Compaction) (version : Version) (oldest : Nat)

/-- Whether the loop drops `e` when the entry in front of it was `prev`. -/
def dropAfter (prev : Option Entry) (e : Entry) : Bool :=
  dropEntry c version oldest (prev.map (·.1.userKey)) ((prev.map (·.1.seq)).getD 0) e

/-- Some entries without those that are dropped, each judged by the one in front of it. -/
def keptOf (es : List Entry) : List Entry :=
  (((none :: es.map some).zip es).filter fun p => !dropAfter c version oldest p.1 p.2).map (·.2)

theorem keep_eq_filter (prev : Option Entry) (es : List Entry) :
    keep c version oldest (prev.map (·.1.userKey)) ((prev.map (·.1.seq)).getD 0) es =
      (((prev :: es.map some).zip es).filter fun p => !dropAfter c version oldest p.1 p.2).map
        (·.2) := by
  induction es generalizing prev with
  | nil => rfl
  | cons e es ih =>
    have hRest := ih (some e)
    simp only [Option.map_some, Option.getD_some] at hRest
    rw [keep, List.map_cons, List.zip_cons_cons]
    cases hDrop : dropEntry c version oldest (prev.map (·.1.userKey))
        ((prev.map (·.1.seq)).getD 0) e with
    | true => rw [if_pos rfl, hRest, List.filter_cons_of_neg (by simp [dropAfter, hDrop])]
    | false =>
      rw [if_neg (by simp), hRest, List.filter_cons_of_pos (by simp [dropAfter, hDrop])]
      rfl

theorem keep_eq_keptOf (es : List Entry) :
    keep c version oldest none 0 es = keptOf c version oldest es :=
  keep_eq_filter c version oldest none es

/-- The output of a compaction that started in `d` and returned in `d'`: what it keeps of the merged
inputs, in order, in files that their first and last keys describe. -/
structure Partitions (d d' : Dir) (start : Nat) (output : CompactionOutput) : Prop where
  merged : (mergeTables Q (c.inputFiles.map fun f => d.entries f.number)).Perm
    (entriesIn d c.inputFiles)
  ordered : InKeyOrder (mergeTables Q (c.inputFiles.map fun f => d.entries f.number))
  entries : entriesIn d' output.newFiles =
    keptOf c version oldest (mergeTables Q (c.inputFiles.map fun f => d.entries f.number))
  tables : ∀ f ∈ output.newFiles, d'.table f.number = some (d'.entries f.number)
  smallest : ∀ f ∈ output.newFiles,
    (d'.entries f.number).head?.map (·.1) = some f.smallest
  largest : ∀ f ∈ output.newFiles, (d'.entries f.number).getLast?.map (·.1) = some f.largest
  distinct : (output.newFiles.map (·.number)).Nodup
  fresh : ∀ f ∈ output.newFiles, start ≤ f.number
  deleted : output.deletedFiles =
    c.inputs.1.map (fun f => { level := c.level, number := f.number }) ++
      c.inputs.2.map fun f => { level := c.level + 1, number := f.number }

end Partition

section Outputs

variable {σ : Type} {x y : σ} {d : Dir} {w : World} {Q : EntryQueue} {c : Compaction}
  {version : Version} {oldest blockTarget bitsPerKey : Nat} {idGen idGen' : IdGenerator}
  {os : List Outcome} {output : CompactionOutput}

theorem mergeTables_inKeyOrder {tables : List (List Entry)} (h : ∀ es ∈ tables, InKeyOrder es) :
    (mergeTables Q tables).Perm tables.flatten ∧ InKeyOrder (mergeTables Q tables) := by
  obtain ⟨hPerm, hSorted⟩ := Merge.Merging.drain_spec (Q := Q) internalKeyCmp_weak
    (fun es hes => (h es hes).imp fun {a b} hab => decide_eq_false hab)
  exact ⟨hPerm, hSorted.imp fun {a b} hab => of_decide_eq_false hab⟩

/-- The merged inputs of a compaction. -/
theorem merged_inputs (hInputs : ∀ f ∈ c.inputFiles, InKeyOrder (d.entries f.number)) :
    (mergeTables Q (c.inputFiles.map fun f => d.entries f.number)).Perm (entriesIn d c.inputFiles) ∧
      InKeyOrder (mergeTables Q (c.inputFiles.map fun f => d.entries f.number)) :=
  mergeTables_inKeyOrder (by simpa using hInputs)

/-- The entries that a compaction keeps. -/
def keptFrom (Q : EntryQueue) (c : Compaction) (version : Version) (oldest : Nat) (d : Dir) :
    List Entry :=
  keptOf c version oldest (mergeTables Q (c.inputFiles.map fun f => d.entries f.number))

theorem keptFrom_userKey_le (hInputs : ∀ f ∈ c.inputFiles, InKeyOrder (d.entries f.number)) :
    (keptFrom Q c version oldest d).Pairwise fun x y => x.1.userKey ≤ y.1.userKey := by
  rw [keptFrom, ← keep_eq_keptOf]
  exact (merged_inputs hInputs).2.userKey_le.sublist (keep_sublist none 0 _)

/-- The tables of the files that a compaction returns. -/
theorem outputs_tables
    (hRun : doCompaction Q c version oldest blockTarget bitsPerKey idGen (x, ⟨d, os⟩) =
      .ok (output, idGen') (y, w)) :
    (output.newFiles.map fun f => w.dir.entries f.number) =
      cutFiles c blockTarget bitsPerKey idGen.next none (keptFrom Q c version oldest d) := by
  obtain ⟨-, hFiles, -⟩ := doCompaction_returns hRun
  rw [← describes_tables hFiles, outputFiles, keep_eq_keptOf]
  rfl

/-- The files that a compaction returns hold exactly the entries of its inputs that it keeps. -/
theorem compaction_partitions (hInputs : ∀ f ∈ c.inputFiles, InKeyOrder (d.entries f.number))
    (hRun : doCompaction Q c version oldest blockTarget bitsPerKey idGen (x, ⟨d, os⟩) =
      .ok (output, idGen') (y, w)) : Partitions Q c version oldest d w.dir idGen.next output := by
  obtain ⟨hDeleted, hFiles, hNumbers⟩ := doCompaction_returns hRun
  obtain ⟨hPerm, hSorted⟩ := merged_inputs hInputs
  refine ⟨hPerm, hSorted, ?_, fun f hf => ?_, fun f hf => ?_, fun f hf => ?_, ?_,
    fun f hf => ?_, hDeleted⟩
  · rw [entriesIn_of_describes hFiles, outputFiles, flatten_cutFiles, keep_eq_keptOf]
    rfl
  · exact (describes_of_mem hFiles hf).table.table
  · exact (describes_of_mem hFiles hf).smallest
  · exact (describes_of_mem hFiles hf).largest
  · rw [hNumbers]
    exact List.nodup_range'
  · have hMem := List.mem_map_of_mem (f := FileMetaData.number) hf
    rw [hNumbers, List.mem_range'_1] at hMem
    exact hMem.1

/-- No user key is in two of the files, and each lies behind the one in front of it. -/
structure DisjointFiles (d : Dir) (files : List FileMetaData) : Prop where
  apart : files.Pairwise fun f g => KeysApart (d.entries f.number) (d.entries g.number)
  ranges : files.IsChain fun f g => f.largest.userKey < g.smallest.userKey

/-- Files of entries in order that share no key follow one another. -/
theorem ranges_of_apart {files : List FileMetaData} {chunks : List (List Entry)}
    (h : List.Forall₂ (Describes d) files chunks)
    (hKeys : chunks.flatten.Pairwise fun x y => x.1.userKey ≤ y.1.userKey)
    (hApart : chunks.Pairwise KeysApart) :
    files.Pairwise fun f g => f.largest.userKey < g.smallest.userKey := by
  rw [List.pairwise_flatten] at hKeys
  have hBoth := hKeys.2.and hApart
  rw [describes_tables h, List.pairwise_map] at hBoth
  refine hBoth.imp_of_mem fun {f g} hf hg hfg => ?_
  obtain ⟨l, hl, hLargest⟩ := Option.map_eq_some_iff.mp (describes_of_mem h hf).largest
  obtain ⟨s, hs, hSmallest⟩ := Option.map_eq_some_iff.mp (describes_of_mem h hg).smallest
  have hlMem := List.mem_of_getLast? hl
  have hsMem := List.mem_of_head? hs
  rw [← hLargest, ← hSmallest]
  exact lt_of_le_of_ne (hfg.1 l hlMem s hsMem) (hfg.2 l hlMem s hsMem)

theorem outputs_disjoint (hInputs : ∀ f ∈ c.inputFiles, InKeyOrder (d.entries f.number))
    (hRun : doCompaction Q c version oldest blockTarget bitsPerKey idGen (x, ⟨d, os⟩) =
      .ok (output, idGen') (y, w))
    (hCut : ¬CutsKey c blockTarget bitsPerKey idGen.next none (keptFrom Q c version oldest d)) :
    DisjointFiles w.dir output.newFiles := by
  obtain ⟨-, hFiles, -⟩ := doCompaction_returns hRun
  have hKeys : (keptFrom Q c version oldest d).Pairwise fun x y => x.1.userKey ≤ y.1.userKey :=
    keptFrom_userKey_le hInputs
  have hFlat : (cutFiles c blockTarget bitsPerKey idGen.next none
      (keptFrom Q c version oldest d)).flatten = keptFrom Q c version oldest d :=
    flatten_cutFiles _ _ _
  have hApart := cutFiles_apart hCut hKeys
  rw [← hFlat] at hKeys
  rw [← outputs_tables hRun] at hApart hKeys
  rw [describes_tables hFiles] at hFiles
  exact ⟨List.pairwise_map.mp hApart, (ranges_of_apart hFiles hKeys hApart).isChain⟩

theorem outputs_shared
    (hRun : doCompaction Q c version oldest blockTarget bitsPerKey idGen (x, ⟨d, os⟩) =
      .ok (output, idGen') (y, w))
    (hCut : CutsKey c blockTarget bitsPerKey idGen.next none (keptFrom Q c version oldest d)) :
    ¬DisjointFiles w.dir output.newFiles := by
  intro h
  apply cutFiles_shared hCut
  rw [← outputs_tables hRun, List.pairwise_map]
  exact h.apart

/-- The files that a compaction returns share no key and follow one another exactly when it cuts
none off between two versions of a key that it keeps. -/
theorem compaction_disjoint_iff (hInputs : ∀ f ∈ c.inputFiles, InKeyOrder (d.entries f.number))
    (hRun : doCompaction Q c version oldest blockTarget bitsPerKey idGen (x, ⟨d, os⟩) =
      .ok (output, idGen') (y, w)) :
    DisjointFiles w.dir output.newFiles ↔
      ¬CutsKey c blockTarget bitsPerKey idGen.next none (keptFrom Q c version oldest d) :=
  ⟨fun h hCut => outputs_shared hRun hCut h, outputs_disjoint hInputs hRun⟩

/-- On a file system that does not fail, a compaction whose input files are tables returns. -/
theorem doCompaction_succeeds {σ : Type} (Q : EntryQueue) (x : σ) (version : Version)
    (oldest blockTarget bitsPerKey : Nat) (idGen : IdGenerator)
    (h : ∀ f ∈ c.inputFiles, d.table f.number = some (d.entries f.number)) :
    ∃ output idGen' w, doCompaction Q c version oldest blockTarget bitsPerKey idGen (x, ⟨d, []⟩) =
      .ok (output, idGen') (x, w) := by
  obtain ⟨⟨output, idGen'⟩, y, w, hRun, rfl, -⟩ := ((doCompaction_spec (x := x) h).quiet
    fun _ _ _ h => h.2.1).run
  exact ⟨output, idGen', w, hRun⟩

end Outputs

section Examples

/-- A table with a version of `k`. -/
def oneVersion : File := tableFile [({ userKey := [107], seq := 3, vtype := .put }, [1])]

/-- A table with another version of `k` and an entry of `a`. -/
def nextVersion : File :=
  tableFile [({ userKey := [97], seq := 4, vtype := .put }, [2]),
    ({ userKey := [107], seq := 5, vtype := .put }, [3])]

def twoVersions : Dir :=
  ((∅ : Dir).insert (.sst 1) oneVersion).insert (.sst 2) nextVersion

/-- These two files above a file of `size` bytes that has `k` in its range. -/
def twoVersionsOver (size : Nat) : Version :=
  let key (k : UInt8) (seq : Nat) : InternalKey := { userKey := [k], seq, vtype := .put }
  { files := ![[.new 2 nextVersion.bytes.length (key 97 4) (key 107 5)],
      [.new 1 oneVersion.bytes.length (key 107 3) (key 107 3)],
      [.new 3 size (key 106 1) (key 108 2)], [], [], [], []] }

def mergeTwoVersions (size : Nat) : Compaction :=
  { level := 0
    inputs := ((twoVersionsOver size).filesAt 0, (twoVersionsOver size).filesAt 1)
    grandparents := (twoVersionsOver size).filesAt 2 }

theorem compaction_partitions_two : ∃ output idGen' w,
    doCompaction mergerHeap (mergeTwoVersions 1) (twoVersionsOver 1) 4 4096 10 { next := 4 }
      ((), ⟨twoVersions, []⟩) = .ok (output, idGen') ((), w) ∧
    Partitions mergerHeap (mergeTwoVersions 1) (twoVersionsOver 1) 4 twoVersions w.dir 4
      output := by
  obtain ⟨output, idGen', w, hRun⟩ := doCompaction_succeeds (c := mergeTwoVersions 1)
    (d := twoVersions) mergerHeap () (twoVersionsOver 1) 4 4096 10 { next := 4 } (by decide)
  exact ⟨output, idGen', w, hRun, compaction_partitions (by decide) hRun⟩

/-- Above a small file the two versions go to one file. -/
theorem compaction_disjoint_small : ∃ output idGen' w,
    doCompaction mergerHeap (mergeTwoVersions 1) (twoVersionsOver 1) 4 4096 10 { next := 4 }
      ((), ⟨twoVersions, []⟩) = .ok (output, idGen') ((), w) ∧
    DisjointFiles w.dir output.newFiles := by
  obtain ⟨output, idGen', w, hRun⟩ := doCompaction_succeeds (c := mergeTwoVersions 1)
    (d := twoVersions) mergerHeap () (twoVersionsOver 1) 4 4096 10 { next := 4 } (by decide)
  exact ⟨output, idGen', w, hRun,
    (compaction_disjoint_iff (by decide) hRun).mpr (by decide +kernel)⟩

/-- Above a file of 30 MiB each version of `k` gets a file. -/
theorem compaction_shares_key : ∃ output idGen' w,
    (∀ f ∈ (mergeTwoVersions (30 * 1024 * 1024)).inputFiles,
      InKeyOrder (twoVersions.entries f.number)) ∧
    doCompaction mergerHeap (mergeTwoVersions (30 * 1024 * 1024))
        (twoVersionsOver (30 * 1024 * 1024)) 4 4096 10 { next := 4 } ((), ⟨twoVersions, []⟩) =
      .ok (output, idGen') ((), w) ∧
    ¬DisjointFiles w.dir output.newFiles := by
  obtain ⟨output, idGen', w, hRun⟩ := doCompaction_succeeds (d := twoVersions)
    (c := mergeTwoVersions (30 * 1024 * 1024)) mergerHeap ()
    (twoVersionsOver (30 * 1024 * 1024)) 4 4096 10 { next := 4 } (by decide)
  exact ⟨output, idGen', w, by decide, hRun, outputs_shared hRun (by decide +kernel)⟩

end Examples

end MulanLsm
