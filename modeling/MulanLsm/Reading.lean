import Mathlib.Data.List.Find
import MulanLsm.DbState

/-! Reading.  A reader looks for the newest version that it may see in the memory table, then in the
tables of the files that may have the key, and takes the first that it finds.  It reads the bytes of
the tables; where these serve their entries, it finds what the entries say. -/

namespace MulanLsm

/-- The first version of `key` up to `s` that the bytes of the table files give. -/
def Db.search (d : Dir) (key : Bytes) (s : Nat) :
    List FileMetaData → Result (Option (ValueType × Bytes))
  | [] => .ok none
  | f :: files => do
    match ← (d.reader f.number).elim (.ok none) (·.getEntry key s) with
    | some e => return some e
    | none => Db.search d key s files

/-- What a reader at `s` gets of `key`: a value, or an error in the bytes of a table. -/
def Db.answer (d : Dir) (db : Db) (s : Nat) (key : Bytes) : Result (Option Bytes) :=
  match db.memtable.getEntry key s with
  | some e => .ok (Db.valueOf e)
  | none => (Db.search d key s (filesForKey db.versionSet.current key)).map (·.bind Db.valueOf)

/-- The bytes of a table give what its entries do. -/
def TableReader.Serves (r : TableReader) : Prop :=
  ∀ key s, s < 2 ^ 64 → r.getEntry key s = .ok ((seek r.entries key s).map typed)

/-- The bytes of the version's tables give what their entries do. -/
def Version.Serves (v : Version) (d : Dir) : Prop :=
  ∀ level, ∀ f ∈ v.filesAt level, ∀ r, d.reader f.number = some r → r.Serves

/-- The version of `key` up to `s` that the entries have. -/
def Db.lookup (d : Dir) (db : Db) (s : Nat) (key : Bytes) : Option Entry :=
  (seek db.memtable.skiplist key s).or
    ((filesForKey db.versionSet.current key).findSome? fun f => seek (d.entries f.number) key s)

/-- What a reader at `s` finds in the files of the version. -/
def Db.inFiles (d : Dir) (v : Version) (s : Nat) (key : Bytes) : Option Entry :=
  (filesForKey v key).findSome? fun f => seek (d.entries f.number) key s

/-- The tables of the version's files are there, with numbers below `next`, and the cache agrees
with them. -/
structure Readable (d : Dir) (db : Db) (next : Nat) : Prop where
  cache : db.tableCache.Agrees d next
  files : ∀ level, ∀ f ∈ db.versionSet.current.filesAt level,
    f.number < next ∧ ∃ es, d.table f.number = some es

section Reading

variable {A : Outcome → Prop} {d : Dir} {db : Db} {next : Nat} {key : Bytes} {s : Nat}

theorem valueOf_typed (e : Entry) : Db.valueOf (typed e) = e.value := by
  unfold Db.valueOf typed Entry.value
  cases e.1.vtype <;> rfl

theorem Db.search_cons {f : FileMetaData} {r : TableReader} (h : d.reader f.number = some r)
    (files : List FileMetaData) : Db.search d key s (f :: files) = (do
      match ← r.getEntry key s with
      | some e => return some e
      | none => Db.search d key s files) := by
  rw [Db.search, h]
  rfl

/-- Reading table files gives what their bytes say. -/
theorem readFiles_spec {cache : TableCache} (h : cache.Agrees d next) (key : Bytes) (s : Nat)
    (files : List FileMetaData)
    (hFiles : ∀ f ∈ files, f.number < next ∧ ∃ es, d.table f.number = some es) :
    Spec A (Db.readFiles key s files)
      (fun r cache' d' => d' = d ∧ cache'.Agrees d next ∧ Db.search d key s files = .ok r)
      (fun f cache' d' => (Fails A f ∨ ∃ e, f = .error e ∧ Db.search d key s files = .error e) ∧
        d' = d ∧ cache'.Agrees d next) cache d := by
  induction files generalizing cache with
  | nil => exact Spec.pure ⟨rfl, h, rfl⟩
  | cons f files ih =>
    obtain ⟨hNumber, es, hTable⟩ := hFiles f List.mem_cons_self
    obtain ⟨r, hReader, -⟩ := Dir.reader_of_table hTable
    rw [Db.search_cons hReader]
    refine Spec.bind ((TableCache.get_spec h hNumber hReader).mono ?_ ?_)
    · rintro _ cache' d' ⟨rfl, hAgrees, rfl⟩
      refine Spec.bind (Spec.ofResult (fun found hFound => ?_) fun e he => ?_)
      · rw [hFound]
        cases found with
        | some e => exact Spec.pure ⟨rfl, hAgrees, rfl⟩
        | none => exact ih hAgrees fun g hg => hFiles g (List.mem_cons_of_mem _ hg)
      · exact ⟨.inr ⟨e, rfl, by rw [he]; rfl⟩, rfl, hAgrees⟩
    · rintro f' cache' d' ⟨hFails, rfl, rfl⟩
      exact ⟨.inl hFails, rfl, h⟩

theorem findFileForKey_mem {files : List FileMetaData} {f : FileMetaData}
    (h : findFileForKey files key = some f) : f ∈ files := by
  unfold findFileForKey at h
  simp only at h
  split at h
  · contradiction
  · split at h
    · next g hg =>
      split at h
      · obtain rfl := Option.some.inj h
        exact List.mem_of_getElem? hg
      · contradiction
    · contradiction

theorem filesForKey_mem {v : Version} {f : FileMetaData} (h : f ∈ filesForKey v key) :
    ∃ level, f ∈ v.filesAt level := by
  rcases List.mem_append.mp h with h | h
  · exact ⟨0, List.mem_reverse.mp h⟩
  · obtain ⟨level, -, hf⟩ := List.mem_filterMap.mp h
    exact ⟨level, findFileForKey_mem hf⟩

/-- Readers past all versions find the same. -/
theorem seek_congr {es : List Entry} {s' : Nat} (hs : ∀ e ∈ es, e.1.seq ≤ s)
    (hs' : ∀ e ∈ es, e.1.seq ≤ s') (k : Bytes) : seek es k s = seek es k s' := by
  have hSame : ∀ e ∈ es, Before e.1 { userKey := k, seq := s, vtype := .put } ↔
      Before e.1 { userKey := k, seq := s', vtype := .put } := by
    intro e he
    rw [← not_iff_not, not_before_lookup, not_before_lookup]
    simp only [hs e he, hs' e he]
  unfold seek SkipList.lowerBound
  refine congrArg (Option.filter _) (List.find?_congr fun e he => decide_eq_decide.mpr ?_)
  exact not_congr (hSame e he)

/-- What a reader finds in the files depends on their tables only. -/
theorem Db.inFiles_congr {d d' : Dir} {v : Version} {s' : Nat}
    (h : ∀ level, ∀ f ∈ v.filesAt level,
      seek (d'.entries f.number) key s' = seek (d.entries f.number) key s) :
    Db.inFiles d' v s' key = Db.inFiles d v s key := by
  rw [Db.inFiles, Db.inFiles, ← List.head?_filterMap, ← List.head?_filterMap]
  refine congrArg List.head? (List.filterMap_congr fun f hf => ?_)
  obtain ⟨level, hf⟩ := filesForKey_mem hf
  exact h level f hf

/-- Readers past all that is in the files find the same there. -/
theorem TablesOk.inFiles {v : Version} {last s' : Nat} (h : TablesOk d last v) (hs : last ≤ s)
    (hs' : last ≤ s') (k : Bytes) : Db.inFiles d v s k = Db.inFiles d v s' k := by
  refine Db.inFiles_congr fun level f hf => ?_
  have hLe := (h level f hf).seqs
  exact seek_congr (fun e he => (hLe e he).trans hs) (fun e he => (hLe e he).trans hs') k

/-- A reader at `s` gets what the bytes say, and changes the cache at most. -/
theorem getAt_spec (h : Readable d db next) (s : Nat) (key : Bytes) :
    Spec A (Db.getAt s key)
      (fun r db' d' => d' = d ∧ db.answer d s key = .ok r ∧
        ∃ cache : TableCache, cache.Agrees d next ∧ db' = { db with tableCache := cache })
      (fun f db' d' => (Fails A f ∨ ∃ e, f = .error e ∧ db.answer d s key = .error e) ∧ d' = d ∧
        ∃ cache : TableCache, cache.Agrees d next ∧ db' = { db with tableCache := cache })
        db d := by
  refine Spec.bind (Spec.self ?_)
  rw [Db.answer]
  cases db.memtable.getEntry key s with
  | some e => exact Spec.pure ⟨rfl, rfl, db.tableCache, h.cache, rfl⟩
  | none =>
    refine Spec.onField (Spec.bind ((readFiles_spec h.cache key s _ fun f hf => ?_).mono ?_ ?_))
    · obtain ⟨level, hf⟩ := filesForKey_mem hf
      exact h.files level f hf
    · rintro r cache d' ⟨rfl, hAgrees, hSearch⟩
      exact Spec.pure ⟨rfl, by rw [hSearch]; rfl, cache, hAgrees, rfl⟩
    · rintro f cache d' ⟨hFails | ⟨e, rfl, hSearch⟩, rfl, hAgrees⟩
      · exact ⟨.inl hFails, rfl, cache, hAgrees, rfl⟩
      · exact ⟨.inr ⟨e, rfl, by rw [hSearch]; rfl⟩, rfl, cache, hAgrees, rfl⟩

/-- Where the bytes serve the entries, a search of the bytes is one of the entries. -/
theorem Version.Serves.search {v : Version} (h : v.Serves d) (hs : s < 2 ^ 64)
    (hFiles : ∀ level, ∀ f ∈ v.filesAt level, ∃ es, d.table f.number = some es)
    {files : List FileMetaData} (hMem : ∀ f ∈ files, ∃ level, f ∈ v.filesAt level) :
    Db.search d key s files =
      .ok ((files.findSome? fun f => seek (d.entries f.number) key s).map typed) := by
  induction files with
  | nil => rfl
  | cons f files ih =>
    obtain ⟨level, hf⟩ := hMem f List.mem_cons_self
    obtain ⟨es, hTable⟩ := hFiles level f hf
    obtain ⟨r, hReader, rfl⟩ := Dir.reader_of_table hTable
    have hEntries : d.entries f.number = r.entries := by
      rw [Dir.entries, hTable]
      rfl
    rw [Db.search_cons hReader, h level f hf r hReader key s hs, List.findSome?_cons, hEntries]
    cases seek r.entries key s with
    | some e => rfl
    | none => exact ih fun g hg => hMem g (List.mem_cons_of_mem f hg)

theorem Version.Serves.inFiles (h : db.versionSet.current.Serves d) (hReadable : Readable d db next)
    (hs : s < 2 ^ 64) (key : Bytes) :
    (Db.search d key s (filesForKey db.versionSet.current key)).map (·.bind Db.valueOf) =
      .ok ((Db.inFiles d db.versionSet.current s key).bind Entry.value) := by
  rw [h.search hs (fun level f hf => (hReadable.files level f hf).2) fun f hf => filesForKey_mem hf,
    Except.map, Option.bind_map]
  exact congrArg (fun f => Except.ok (Option.bind _ f)) (funext valueOf_typed)

/-- Where the bytes serve the entries, a reader gets the value of the version that these have. -/
theorem Version.Serves.answer (h : db.versionSet.current.Serves d) (hReadable : Readable d db next)
    (hs : s < 2 ^ 64) (key : Bytes) :
    db.answer d s key = .ok ((db.lookup d s key).bind Entry.value) := by
  rw [Db.answer, MemTable.getEntry_eq, Db.lookup]
  cases seek db.memtable.skiplist key s with
  | some e => exact congrArg Except.ok (valueOf_typed e)
  | none => exact h.inFiles hReadable hs key

theorem Inv.readable [Crc32c] {flushed : Nat} {log : List WalEntry} (h : Inv d db flushed log) :
    Readable d db db.versionSet.nextFileNumber :=
  ⟨h.cache, fun level f hf =>
    ⟨h.numbered.below level f hf, _, (h.tables level f hf).describes.table.table⟩⟩

end Reading

/-- What `get_at` returns for a reader at `s`, a value or an error. -/
def returnedAt (s : Nat) (key : Bytes) (db : Db) (d : Dir) : Option (Result (Option Bytes)) :=
  match Db.getAt s key (db, ⟨d, []⟩) with
  | .ok r _ => some (.ok r)
  | .error (.error e) _ => some (.error e)
  | .error _ _ => none

/-- The value that `get_at` returns for a reader at `s`, if it returns one. -/
def readAt (s : Nat) (key : Bytes) (db : Db) (d : Dir) : Option (Option Bytes) :=
  match Db.getAt s key (db, ⟨d, []⟩) with
  | .ok r _ => some r
  | .error _ _ => none

/-- The value that `get` returns, if it returns one. -/
def readNow (key : Bytes) (db : Db) (d : Dir) : Option (Option Bytes) :=
  match Db.get key (db, ⟨d, []⟩) with
  | .ok r _ => some r
  | .error _ _ => none

section Returning

variable {d : Dir} {db : Db} {next : Nat}

theorem Readable.getAt (h : Readable d db next) (s : Nat) (key : Bytes) :
    ∃ x, Db.getAt s key (db, ⟨d, []⟩) = match db.answer d s key with
      | .ok r => .ok r x
      | .error e => .error (.error e) x := by
  rcases (getAt_spec (A := Quiet) h s key).result (List.forall_mem_nil _) with
    ⟨r, y, w, hRun, -, hAnswer, -⟩ | ⟨f, y, w, hRun, hFails | ⟨e, rfl, hAnswer⟩, -⟩
  · exact ⟨(y, w), by rw [hRun, hAnswer]⟩
  · exact absurd hFails not_fails_quiet
  · exact ⟨(y, w), by rw [hRun, hAnswer]⟩

/-- When no file-system call fails, a reader gets what the bytes say. -/
theorem Readable.returnedAt (h : Readable d db next) (s : Nat) (key : Bytes) :
    returnedAt s key db d = some (db.answer d s key) := by
  obtain ⟨x, hRun⟩ := h.getAt s key
  rw [MulanLsm.returnedAt, hRun]
  cases db.answer d s key <;> rfl

theorem Readable.readAt (h : Readable d db next) (s : Nat) (key : Bytes) :
    readAt s key db d = (db.answer d s key).toOption := by
  obtain ⟨x, hRun⟩ := h.getAt s key
  rw [MulanLsm.readAt, hRun]
  cases db.answer d s key <;> rfl

theorem Readable.readNow (h : Readable d db next) (key : Bytes) :
    readNow key db d = (db.answer d db.versionSet.lastSequence key).toOption := by
  have hGet : Db.get key (db, ⟨d, []⟩) = Db.getAt db.versionSet.lastSequence key (db, ⟨d, []⟩) :=
    bind_ok (m := self) rfl
  rw [← h.readAt, MulanLsm.readNow, hGet, MulanLsm.readAt]

end Returning

end MulanLsm
