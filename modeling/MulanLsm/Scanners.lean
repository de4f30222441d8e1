import MulanLsm.Iterator
import MulanLsm.Readers

/-! Scans beside writers.  `new_iterator_at` copies the memory table and takes the version under the
lock, and opens the tables after it has given the lock up, not through the cache.  Meanwhile other
calls write, flush and compact, and readers search.  A table that a version names stays as it is, so
that the iterator is the one that would have come about under the lock; and between the snapshot and
the iterator any calls may be made. -/

namespace MulanLsm

open Versioned (Reads)

/-- The iterator that `new_iterator_at` returns as a whole under the lock, without an I/O error. -/
def iteratorAt (seq : Nat) (db : Db) (d : Dir) : Option DBIter :=
  match Db.newIteratorAt seq (db, ⟨d, []⟩) with
  | .ok it _ => some it
  | .error _ _ => none

/-- Where a scan is that has given up the lock: it has opened some tables and has files left, it
gives out items, or it has failed. -/
inductive ScanPhase
  | opening (tables : List (List Entry)) (files : List FileMetaData)
  | done (it : DBIter)
  | failed (outcome : Outcome) (e : MulanError)

/-- A call of `new_iterator_at`, with the copy of the memory table. -/
structure Scan where
  seq : Nat
  memItems : List (Bytes × Bytes)
  atomic : Option DBIter
  phase : ScanPhase

/-- The part of `new_iterator_at` that runs under the lock. -/
def Scan.new (seq : Nat) (db : Db) (d : Dir) : Scan :=
  { seq, memItems := db.memtable.snapshotEntries seq, atomic := iteratorAt seq db d
    phase := .opening [] db.versionSet.current.allFiles }

/-- The iterator over the copy of the memory table and some tables. -/
def Scan.iterator (r : Scan) (tables : List (List Entry)) : DBIter :=
  let iters := (if r.memItems = [] then [] else [r.memItems]) ++ tables.map (·.map Entry.encode)
  DBIter.new (Merge.Merger.new iters) r.seq

/-- A database that serves calls and readers, and the scans beside them. -/
structure Scanning where
  serving : Serving
  scans : List Scan

inductive ScanningStep
  | serve (a : ServingStep)
  | scan (seq : Nat)
  | openTable (i : Nat) (o : Outcome)
  | merge (i : Nat)

namespace Scanning

def withPhase (s : Scanning) (i : Nat) (phase : ScanPhase) : Scanning :=
  { s with scans := s.scans.modify i fun r => { r with phase } }

def newScan (s : Scanning) (seq : Nat) : Option Scanning :=
  match s.serving.ongoing with
  | none => some { s with scans := s.scans ++ [.new seq s.serving.db s.serving.dir] }
  | some _ => none

/-- The first of the files that are left is opened, which goes as `o`. -/
def openTable (s : Scanning) (i : Nat) (o : Outcome) (r : Scan) : Option Scanning :=
  match r.phase with
  | .opening tables (f :: files) =>
    match (TableReader.open f.number : St Unit TableReader) ((), ⟨s.serving.dir, [o]⟩) with
    | .ok reader _ => some (s.withPhase i (.opening (tables ++ [reader.entries]) files))
    | .error (.error e) _ => some (s.withPhase i (.failed o e))
    | .error _ _ => none
  | _ => none

/-- All tables are open. -/
def merge (s : Scanning) (i : Nat) (r : Scan) : Option Scanning :=
  match r.phase with
  | .opening tables [] => some (s.withPhase i (.done (r.iterator tables)))
  | _ => none

def step [Crc32c] (s : Scanning) : ScanningStep → Option Scanning
  | .serve a => (s.serving.step a).map fun serving => { s with serving }
  | .scan seq => s.newScan seq
  | .openTable i o => s.scans[i]?.bind (s.openTable i o)
  | .merge i => s.scans[i]?.bind (s.merge i)

/-- An open database that nobody uses yet. -/
def idle (s : Running) : Scanning := { serving := .idle s, scans := [] }

end Scanning

/-- The scan is on the way to the iterator that comes about under the lock. -/
def Scan.Sound (r : Scan) (d : Dir) (next : Nat) : Prop :=
  match r.phase with
  | .opening tables files => (∀ f ∈ files, f.number < next ∧ ∃ es, d.table f.number = some es) ∧
      r.atomic = some (r.iterator (tables ++ files.map fun f => d.entries f.number))
  | .done it => r.atomic = some it
  | .failed o _ => o ≠ .ok

/-- Besides what holds of the database and its readers, every scan is on its way. -/
structure Scanning.Ok (s : Scanning) : Prop where
  serving : s.serving.Ok
  scans : ∀ r ∈ s.scans, r.Sound s.serving.dir s.serving.db.idGen.next

section Scanning

variable {s s' : Scanning} {r : Scan} {d d' : Dir} {db : Db} {next next' i : Nat}

/-- Nothing that leaves the tables below `next` alone disturbs a scan. -/
theorem Scan.Sound.kept (h : r.Sound d next) (hKept : KeptTables d next d')
    (hNext : next ≤ next') : r.Sound d' next' := by
  unfold Scan.Sound at *
  cases hPhase : r.phase with
  | opening tables files =>
    rw [hPhase] at h
    obtain ⟨hTables, hAtomic⟩ := h
    have hSame : (files.map fun f => d'.entries f.number) = files.map fun f => d.entries f.number :=
      List.map_congr_left fun f hf => hKept.entries (hTables f hf).1
    refine ⟨fun f hf => ?_, hSame ▸ hAtomic⟩
    obtain ⟨hNumber, es, hTable⟩ := hTables f hf
    exact ⟨hNumber.trans_le hNext, es, (hKept.table hNumber).trans hTable⟩
  | done it =>
    rw [hPhase] at h
    exact h
  | failed o e =>
    rw [hPhase] at h
    exact h

theorem iteratorAt_eq (seq : Nat)
    (hTable : ∀ f ∈ db.versionSet.current.allFiles, d.table f.number = some (d.entries f.number)) :
    iteratorAt seq db d =
      some (DBIter.new (Merge.Merger.new ((sourcesAt seq d db).map (·.map Entry.encode))) seq) := by
  obtain ⟨it, db', w, hRun, rfl, -, -⟩ := ((newIteratorAt_spec (A := Quiet) (s := seq) hTable).quiet
    fun _ _ _ h => h.1).run
  rw [iteratorAt, hRun]

theorem Scan.new_sound (h : Readable d db next) (seq : Nat) : (Scan.new seq db d).Sound d next := by
  have hFiles : ∀ f ∈ db.versionSet.current.allFiles,
      f.number < next ∧ ∃ es, d.table f.number = some es := by
    intro f hf
    obtain ⟨level, hf⟩ := mem_allFiles.mp hf
    exact h.files level f hf
  refine ⟨hFiles, (iteratorAt_eq seq fun f hf => ?_).trans ?_⟩
  · obtain ⟨-, es, hTable⟩ := hFiles f hf
    rw [Dir.entries, hTable]
    rfl
  · simp only [Scan.iterator, Scan.new, sourcesAt, MemTable.snapshotEntries, List.nil_append,
      List.map_append, List.map_map, List.map_eq_nil_iff, apply_ite (List.map _), List.map_nil,
      List.map_cons]

theorem Scanning.Ok.withPhase (h : s.Ok) (hScan : s.scans[i]? = some r) {phase : ScanPhase}
    (hSound : Scan.Sound { r with phase } s.serving.dir s.serving.db.idGen.next) :
    (s.withPhase i phase).Ok :=
  ⟨h.serving, forall_mem_modify hScan h.scans hSound⟩

theorem Scanning.Ok.newScan (h : s.Ok) {seq : Nat} (hStep : s.newScan seq = some s') : s'.Ok := by
  unfold Scanning.newScan at hStep
  split at hStep
  · obtain rfl := Option.some.inj hStep
    refine ⟨h.serving, fun r hr => ?_⟩
    rcases List.mem_append.mp hr with hr | hr
    · exact h.scans r hr
    · rw [List.mem_singleton.mp hr]
      exact Scan.new_sound h.serving.readable seq
  · contradiction

theorem Scanning.Ok.openTable (h : s.Ok) (hScan : s.scans[i]? = some r) {o : Outcome}
    (hStep : s.openTable i o r = some s') : s'.Ok := by
  have hSound := h.scans r (List.mem_of_getElem? hScan)
  unfold Scanning.openTable at hStep
  unfold Scan.Sound at hSound
  split at hStep
  · next tables f files hPhase =>
    rw [hPhase] at hSound
    obtain ⟨hTables, hAtomic⟩ := hSound
    obtain ⟨-, es, hTable⟩ := hTables f List.mem_cons_self
    obtain ⟨reader', hReader, rfl⟩ := Dir.reader_of_table hTable
    have hOpen := open_spec (A := (· = o)) (x := ()) hReader
    have ho : ∀ o' ∈ [o], o' = o := fun o' h => List.mem_singleton.mp h
    split at hStep
    · next reader y hRun =>
      obtain ⟨rfl, -, -⟩ := Spec.returned hRun hOpen ho
      obtain rfl := Option.some.inj hStep
      have hEntries : s.serving.dir.entries f.number = reader.entries := by
        rw [Dir.entries, hTable]
        rfl
      apply h.withPhase hScan
      refine ⟨fun g hg => hTables g (List.mem_cons_of_mem f hg), hAtomic.trans ?_⟩
      rw [List.map_cons, hEntries, List.append_cons]
      rfl
    · next e y hRun =>
      obtain ⟨⟨-, ⟨n, hBroken⟩, -⟩, -⟩ := (Effects.wp_error hRun).mp (hOpen [o] ho)
      obtain rfl := Option.some.inj hStep
      apply h.withPhase hScan
      show o ≠ .ok
      rintro rfl
      exact not_broken_quiet hBroken
    · contradiction
  · contradiction

theorem Scanning.Ok.merge (h : s.Ok) (hScan : s.scans[i]? = some r)
    (hStep : s.merge i r = some s') : s'.Ok := by
  have hSound := h.scans r (List.mem_of_getElem? hScan)
  unfold Scanning.merge at hStep
  unfold Scan.Sound at hSound
  split at hStep
  · next tables hPhase =>
    rw [hPhase] at hSound
    obtain ⟨-, hAtomic⟩ := hSound
    rw [List.map_nil, List.append_nil] at hAtomic
    obtain rfl := Option.some.inj hStep
    exact h.withPhase hScan hAtomic
  · contradiction

theorem Scanning.Ok.serve [Crc32c] (h : s.Ok) {a : ServingStep} {serving : Serving}
    (hStep : s.serving.step a = some serving) : Scanning.Ok { s with serving } := by
  obtain ⟨hOk, hKeeps⟩ := h.serving.step hStep
  exact ⟨hOk, fun r hr => (h.scans r hr).kept hKeeps.tables hKeeps.next⟩

theorem Scanning.Ok.step [Crc32c] (h : s.Ok) {a : ScanningStep} (hStep : s.step a = some s') :
    s'.Ok := by
  cases a with
  | serve a =>
    obtain ⟨serving, hServing, rfl⟩ := Option.map_eq_some_iff.mp hStep
    exact h.serve hServing
  | scan seq => exact h.newScan hStep
  | openTable i o =>
    obtain ⟨r, hScan, hStep⟩ := Option.bind_eq_some_iff.mp hStep
    exact h.openTable hScan hStep
  | merge i =>
    obtain ⟨r, hScan, hStep⟩ := Option.bind_eq_some_iff.mp hStep
    exact h.merge hScan hStep

theorem Scanning.Ok.run [Crc32c] (h : s.Ok) {steps : List ScanningStep}
    (hRun : Steps.run Scanning.step steps s = some s') : s'.Ok :=
  Steps.run_kept (fun _ _ _ h hStep => h.step hStep) h hRun

/-- What is fixed when a scan begins stays as it is. -/
theorem Scanning.step_scan [Crc32c] {a : ScanningStep} (hStep : s.step a = some s')
    (hScan : ∃ phase, s.scans[i]? = some { r with phase }) :
    ∃ phase, s'.scans[i]? = some { r with phase } := by
  obtain ⟨phase, hScan⟩ := hScan
  have hPhase (j : Nat) (phase' : ScanPhase) :
      ∃ phase, (s.withPhase j phase').scans[i]? = some { r with phase } := by
    rw [Scanning.withPhase, List.getElem?_modify, hScan]
    split
    · exact ⟨phase', rfl⟩
    · exact ⟨phase, rfl⟩
  cases a with
  | serve a =>
    obtain ⟨serving, -, rfl⟩ := Option.map_eq_some_iff.mp hStep
    exact ⟨phase, hScan⟩
  | scan seq =>
    change s.newScan seq = some s' at hStep
    unfold Scanning.newScan at hStep
    split at hStep
    · obtain rfl := Option.some.inj hStep
      exact ⟨phase, List.getElem?_append_left (List.getElem?_eq_some_iff.mp hScan).1 ▸ hScan⟩
    · contradiction
  | openTable j o =>
    obtain ⟨r', -, hStep⟩ := Option.bind_eq_some_iff.mp hStep
    unfold Scanning.openTable at hStep
    split at hStep
    · split at hStep
      · exact Option.some.inj hStep ▸ hPhase _ _
      · exact Option.some.inj hStep ▸ hPhase _ _
      · contradiction
    · contradiction
  | merge j =>
    obtain ⟨r', -, hStep⟩ := Option.bind_eq_some_iff.mp hStep
    unfold Scanning.merge at hStep
    split at hStep
    · exact Option.some.inj hStep ▸ hPhase _ _
    · contradiction

theorem Scanning.idle_ok {s : Running} (h : (Serving.idle s).Ok) : (Scanning.idle s).Ok :=
  ⟨h, fun _ hr => absurd hr List.not_mem_nil⟩

end Scanning

/-- Whatever goes on between the steps of a scan, its iterator is the one that would have come about
under the lock, and it fails only when a file-system call of its own does. -/
theorem scans_atomic [Crc32c] {s : Running} (h : Orderly s) {steps : List ScanningStep}
    {s₁ : Scanning} (hRun : Steps.run Scanning.step steps (.idle s) = some s₁) :
    ∀ r ∈ s₁.scans, (∀ it, r.phase = .done it → r.atomic = some it) ∧
      ∀ o e, r.phase = .failed o e → o ≠ .ok := by
  have hOk := (Scanning.idle_ok h.idle).run hRun
  intro r hr
  have hSound := hOk.scans r hr
  refine ⟨fun it hPhase => ?_, fun o e hPhase => ?_⟩
  · rwa [Scan.Sound, hPhase] at hSound
  · rwa [Scan.Sound, hPhase] at hSound

/-- A scan opens its table while a compaction writes that will fail. -/
theorem scans_atomic_beside :
    let steps : List ScanningStep := [.scan 1, .serve (.start .compact),
      .serve (.progress [.ok, .ok, .ok] 0), .openTable 0 .ok,
      .serve (.finish (.replicate 10 .ok ++ [.fail 0])), .merge 0]
    ∃ s s₁, Orderly s ∧ Steps.run Scanning.step steps (.idle s) = some s₁ ∧
      ∃ r ∈ s₁.scans, ∃ it, r.phase = .done it ∧ r.atomic = some it := by
  intro steps
  have h : (opened eager ∅).any (fun s0 => Along Op.Sound [.put [97] [1]] s0 ∧
      (opsRun [.put [97] [1]] s0).any fun s =>
        (Steps.run Scanning.step steps (.idle s)).any fun s₁ =>
          s₁.scans.any fun r => match r.phase with
            | .done _ => true
            | _ => false) = true := by
    decide +kernel
  obtain ⟨s0, hStart, h⟩ := (Option.any_eq_true _ _).mp h
  obtain ⟨hOps, h⟩ := of_decide_eq_true h
  obtain ⟨s, hRun, h⟩ := (Option.any_eq_true _ _).mp h
  obtain ⟨s₁, hSteps, h⟩ := (Option.any_eq_true _ _).mp h
  obtain ⟨r, hr, h⟩ := List.any_eq_true.mp h
  have hOrderly : Orderly s := .ran hStart hOps hRun
  cases hPhase : r.phase with
  | done it =>
    exact ⟨s, s₁, hOrderly, hSteps, r, hr, it, hPhase,
      (scans_atomic hOrderly hSteps r hr).1 it hPhase⟩
  | _ =>
    rw [hPhase] at h
    cases h

section Versions

variable [Crc32c] {d : Dir} {db : Db} {flushed : Nat} {log : List WalEntry}

omit [Crc32c] in
theorem Version.allFiles_numbers {v : Version} {next : Nat} (h : Numbered v next) :
    v.allFiles.Pairwise fun f g => f.number ≠ g.number := by
  rw [Version.allFiles, List.pairwise_flatMap]
  refine ⟨fun level _ => h.distinct level, List.nodup_range.imp fun {i j} hij f hf g hg => ?_⟩
  exact h.apart i j hij f hf g hg

/-- The versions that a database holds are distinct and in order. -/
structure Scannable (d : Dir) (db : Db) (flushed : Nat) : Prop where
  numbers : db.versionSet.current.allFiles.Pairwise fun f g => f.number ≠ g.number
  tables : TablesOk d flushed db.versionSet.current
  distinct : DistinctTables d db.versionSet.current
  mem : MemOk db.memtable flushed
  le : flushed ≤ db.memtable.seq

theorem Inv.scannable (h : Inv d db flushed log) : Scannable d db flushed :=
  ⟨Version.allFiles_numbers h.numbered, h.tables, h.distinct, h.mem, h.seq ▸ h.flushedLe⟩

omit [Crc32c] in
theorem Scannable.contents_le (h : Scannable d db flushed) :
    ∀ x ∈ db.contents d, x.1.seq ≤ db.memtable.seq := by
  rintro x (hx | ⟨level, f, hf, hx⟩)
  · exact (h.mem.seqs x hx).2
  · exact ((h.tables level f hf).seqs x hx).trans h.le

omit [Crc32c] in
/-- What a scan at a snapshot merges are distinct versions, each table in ascending order. -/
theorem Scannable.sourcesAt (h : Scannable d db flushed) (seq : Nat) :
    (∀ es ∈ sourcesAt seq d db, Ascending es) ∧
      DistinctVersions (MulanLsm.sourcesAt seq d db).flatten := by
  constructor
  · intro es hes
    rcases List.mem_append.mp hes with hes | hes
    · split at hes
      · contradiction
      · rw [List.mem_singleton.mp hes]
        exact List.Pairwise.filter _ h.mem.ascending
    · obtain ⟨f, hf, rfl⟩ := List.mem_map.mp hes
      obtain ⟨level, hf⟩ := mem_allFiles.mp hf
      exact (h.tables level f hf).ascending
  · refine List.Pairwise.sublist sourcesAt_sublist (List.pairwise_append.mpr
      ⟨h.mem.ascending.distinctVersions, h.distinct.distinctVersions h.tables
        (fun f => mem_allFiles.mp) h.numbers, fun x hx y hy _ => ?_⟩)
    obtain ⟨f, hf, hy⟩ := mem_entriesIn.mp hy
    obtain ⟨level, hf⟩ := mem_allFiles.mp hf
    exact h.mem.seq_ne (h.tables level f hf) hx hy

omit [Crc32c] in
/-- A scan gives out what a reader finds. -/
theorem Scannable.iteratorAt (h : Scannable d db flushed) (hSeq : db.memtable.seq < 2 ^ 64)
    (seq : Nat) : ∃ it, iteratorAt seq db d = some it ∧ Scanned (db.contents d) seq it.items := by
  obtain ⟨hAsc, hDistinct⟩ := h.sourcesAt seq
  obtain ⟨es, hLeaves, hPerm⟩ := leaves_new hAsc hDistinct fun e he =>
    (h.contents_le e (mem_contents.mpr (sourcesAt_sublist.subset he))).trans_lt hSeq
  have hTable : ∀ f ∈ db.versionSet.current.allFiles,
      d.table f.number = some (d.entries f.number) := by
    intro f hf
    obtain ⟨level, hf⟩ := mem_allFiles.mp hf
    exact (h.tables level f hf).describes.table.table
  obtain ⟨hOrder, hItems⟩ := DBIter.items_new (s := seq) hLeaves
  refine ⟨_, iteratorAt_eq seq hTable, hOrder, fun k v => (hItems k v).trans ?_⟩
  refine Reads.congr fun x _ hs => ?_
  rw [mem_contents, mem_versions, hPerm.mem_iff, flatten_sourcesAt, List.mem_append,
    List.mem_append, List.mem_filter, decide_eq_true_eq]
  exact or_congr_left (and_iff_left hs)

end Versions

section Showing

variable [Crc32c] {s0 s s' : Running} {done ops : List Op} {op : Op} {g : Guard} {flushed : Nat}
  {log : List WalEntry} {options : Options}

/-- A snapshot that is held is registered, and shows what had been written when it was taken. -/
structure Running.Shows (s s0 : Running) (done : List Op) (g : Guard) : Prop where
  mem : g.seq ∈ s.db.versionSet.snapshots
  le : g.seq ≤ s.last
  taken : ∃ pre sp, pre ++ [.snapshot] <+: done ∧ opsRun pre s0 = some sp ∧ g.seq = sp.last ∧
    ∀ k, Reads s.contents k g.seq (written pre k)

/-- A database that has made the calls `done` from `s0` on. -/
structure Shown (s0 : Running) (done : List Op) (s : Running) : Prop where
  ran : opsRun done s0 = some s
  recent : Recent s.dir s.db.versionSet.current
  apart : Apart s.dir s.db.versionSet.current
  now : ∀ k, Reads s.contents k s.last (written done k)
  last : s.last ≤ maxSequence
  guards : ∀ g ∈ s.guards, s.Shows s0 done g

theorem Did.last_le_max (h : Did s s' flushed log op) (hOk : s.Ok flushed log) (hRoom : s.Room) :
    s'.last ≤ maxSequence := by
  have := hRoom.seq
  have hLast : s'.last ≤ s.last + 1 := by
    rcases h.contents hOk with ⟨-, -, hLast⟩ | ⟨e, s₁, -, hWrites, -, hLast⟩ | ⟨-, c, hCompacts⟩
    · omega
    · rw [hLast, hWrites.seq, Running.last, hOk.inv.seq]
    · exact hCompacts.compacted.lastSequence.le.trans (Nat.le_succ _)
  exact hLast.trans this

theorem Shown.step (h : Shown s0 done s) (hOk : s.Ok flushed log) (hRun : op.run s = some s')
    (hDid : Did s s' flushed log op) (hSound : op.Sound s) (hWhole : op.Whole s)
    (hShared : op.Unshared s) : Shown s0 (done ++ [op]) s' := by
  obtain ⟨hRecent, hApart⟩ := hDid.recent hOk hWhole h.recent h.apart
  obtain ⟨hNow, hReads⟩ := hDid.reads hOk h.recent h.apart h.now
  have hLe := hDid.last_le hOk
  refine ⟨?_, hRecent, hApart, ?_, hDid.last_le_max hOk hSound.2, fun g hg => ?_⟩
  · rw [opsRun, List.foldlM_append, ← opsRun, h.ran]
    simpa using hRun
  · rw [written_append]
    exact hNow
  · rcases hDid.guard hShared hg with ⟨hg, hMem⟩ | ⟨rfl, hMem, rfl⟩
    · obtain ⟨hOld, hOldLe, pre, sp, hPre, hPreRun, hSeq, hShows⟩ := h.guards g hg
      refine ⟨hMem hOld, hOldLe.trans hLe, pre, sp, hPre.trans (List.prefix_append _ _),
        hPreRun, hSeq, fun k => ?_⟩
      exact (hReads k _ _ hOldLe fun _ => oldestSnapshotSeq_le hOld).mp (hShows k)
    · refine ⟨hMem, hLe, done, s, List.prefix_rfl, h.ran, rfl, fun k => ?_⟩
      exact (hReads k _ _ le_rfl (by simp)).mp (h.now k)

theorem Shown.start (h : opened options ∅ = some s0) : Shown s0 [] s0 := by
  obtain ⟨-, hCreated, hGuards⟩ := opened_new h
  obtain ⟨-, hRecent, hApart, hNow⟩ := hCreated.refines
  refine ⟨rfl, hRecent, hApart, hNow, ?_, fun g hg => by simp [hGuards] at hg⟩
  rw [Running.last, hCreated.state]
  exact Nat.zero_le _

theorem Shown.run (h : Shown s0 done s) (hOk : s.Ok flushed log)
    (hOps : Along (fun op s => op.Sound s ∧ op.Whole s ∧ op.Unshared s) ops s)
    (hRun : opsRun ops s = some s') :
    (∃ flushed log, s'.Ok flushed log) ∧ Shown s0 (done ++ ops) s' := by
  induction ops generalizing s done flushed log with
  | nil =>
    obtain rfl := Option.some.inj hRun
    exact ⟨⟨_, _, hOk⟩, by rwa [List.append_nil]⟩
  | cons op ops ih =>
    rw [opsRun, List.foldlM_cons] at hRun
    obtain ⟨s₁, hStep, hRun⟩ := Option.bind_eq_some_iff.mp hRun
    obtain ⟨⟨hSound, hWhole, hShared⟩, hRest⟩ := hOps
    obtain ⟨s₁', hStep', ⟨_, _, hOk₁⟩, hDid⟩ := hSound.run hOk
    obtain rfl := Option.some.inj (hStep.symm.trans hStep')
    have h₁ := ih (h.step hOk hStep hDid hSound hWhole hShared) hOk₁ (hRest s₁ hStep) hRun
    simpa using h₁

/-- A scan at a snapshot that is held gives out what had been written when the snapshot was taken,
in ascending order, whatever goes on beside it, if no compaction cut off a file between two versions
of a key and a snapshot that was released shared its sequence number with no other. -/
theorem scans_show_snapshots (hStart : opened options ∅ = some s0)
    (hOps : Along (fun op s => op.Sound s ∧ op.Whole s ∧ op.Unshared s) ops s0)
    (hRun : opsRun ops s0 = some s) (hg : g ∈ s.guards) {steps : List ScanningStep} {s₁ : Scanning}
    (hSteps : Steps.run Scanning.step (.scan g.seq :: steps) (.idle s) = some s₁) :
    ∃ pre sp r, pre ++ [.snapshot] <+: ops ∧ opsRun pre s0 = some sp ∧ g.seq = sp.last ∧
      s₁.scans[0]? = some r ∧
      (∀ it, r.phase = .done it → it.items.Pairwise (fun a b => a.1 < b.1) ∧
        ∀ k v, (k, v) ∈ it.items ↔ written pre k = some v) ∧
      ∀ o e, r.phase = .failed o e → o ≠ .ok := by
  obtain ⟨⟨flushed, log, hOk⟩, hShown⟩ := (Shown.start hStart).run (opened_new hStart).1 hOps hRun
  obtain ⟨-, -, pre, sp, hPre, hPreRun, hSeq, hShows⟩ := hShown.guards g hg
  have hLast : s.db.versionSet.lastSequence < 2 ^ 64 :=
    hShown.last.trans_lt (by decide)
  obtain ⟨it, hIt, hOrder, hItems⟩ := hOk.inv.scannable.iteratorAt
    (hOk.inv.seq.trans_lt hLast) g.seq
  have hBegun : Steps.run Scanning.step steps
      { serving := .idle s, scans := [.new g.seq s.db s.dir] } = some s₁ := hSteps
  obtain ⟨phase, hScan⟩ : ∃ phase,
      s₁.scans[0]? = some { Scan.new g.seq s.db s.dir with phase } :=
    Steps.run_kept (fun _ _ _ h hStep => Scanning.step_scan hStep h) ⟨_, rfl⟩ hBegun
  have hSound := ((Scanning.idle_ok hOk.idle).run hSteps).scans _ (List.mem_of_getElem? hScan)
  refine ⟨pre, sp, _, hPre, hPreRun, hSeq, hScan, fun it' hPhase => ?_, fun o e hPhase => ?_⟩
  · rw [Scan.Sound, hPhase] at hSound
    obtain rfl : it = it' := Option.some.inj (hIt.symm.trans hSound)
    refine ⟨hOrder, fun k v => (hItems k v).trans ⟨fun hReads => ?_, fun hWritten => ?_⟩⟩
    · exact ((hReads.unique hOk.inv.distinct_contents (hShows k))).symm
    · exact hWritten ▸ hShows k
  · rwa [Scan.Sound, hPhase] at hSound

end Showing

/-- A key is overwritten and deleted behind the snapshot, tables are compacted, and beside the scan
one more compaction writes and does not commit, and the cache is emptied. -/
theorem scans_show_snapshots_overwritten :
    let ops : List Op := [.put [97] [1], .put [98] [2], .snapshot, .put [97] [3], .compact,
      .delete [98]]
    let steps : List ScanningStep := [.openTable 0 .ok, .serve (.start .compact),
      .serve (.progress [.ok, .ok, .ok] 0), .openTable 0 .ok,
      .serve (.finish (.replicate 10 .ok ++ [.fail 0])), .serve (.evict 3), .merge 0]
    ∃ s0 s, opened eager ∅ = some s0 ∧ opsRun ops s0 = some s ∧ ∃ g ∈ s.guards, ∃ s₁,
      Steps.run Scanning.step (.scan g.seq :: steps) (.idle s) = some s₁ ∧
        ∃ pre sp r, pre ++ [.snapshot] <+: ops ∧ opsRun pre s0 = some sp ∧ g.seq = sp.last ∧
          s₁.scans[0]? = some r ∧
          (∀ it, r.phase = .done it → it.items.Pairwise (fun a b => a.1 < b.1) ∧
            ∀ k v, (k, v) ∈ it.items ↔ written pre k = some v) ∧
          ∀ o e, r.phase = .failed o e → o ≠ .ok := by
  intro ops steps
  have h : (opened eager ∅).any (fun s0 =>
      Along (fun op s => op.Sound s ∧ op.Whole s ∧ op.Unshared s) ops s0 ∧
      (opsRun ops s0).any fun s => s.guards.any fun g =>
        (Steps.run Scanning.step (.scan g.seq :: steps) (.idle s)).isSome) = true := by
    decide +kernel
  obtain ⟨s0, hStart, h⟩ := (Option.any_eq_true _ _).mp h
  obtain ⟨hOps, h⟩ := of_decide_eq_true h
  obtain ⟨s, hRun, h⟩ := (Option.any_eq_true _ _).mp h
  obtain ⟨g, hg, h⟩ := List.any_eq_true.mp h
  obtain ⟨s₁, hSteps⟩ := Option.isSome_iff_exists.mp h
  exact ⟨s0, s, hStart, hRun, g, hg, s₁, hSteps, scans_show_snapshots hStart hOps hRun hg hSteps⟩

end MulanLsm
