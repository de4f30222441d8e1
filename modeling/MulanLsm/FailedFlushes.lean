import MulanLsm.FailedSyncs

/-! Flushes that fail.  The memory table is dropped when the flush begins, so from then on readers
find what the table files have; and the next flush that succeeds starts a new log, so a later
opening finds no more.  A key keeps its value exactly if the table files say already what the memory
table and the log say of it. -/

namespace MulanLsm

open Versioned (Newer Reads)

/-- What a reader of the key finds in the table files alone, if it returns. -/
def readTables (key : Bytes) (db : Db) (d : Dir) : Option (Option Bytes) :=
  match Db.getFromSstables db.versionSet.current key db.versionSet.lastSequence
    (db.tableCache, ⟨d, []⟩) with
  | .ok r _ => some r
  | .error _ _ => none

/-- What the memory table `m` says of the key, the table files say too. -/
def Running.Stored (s : Running) (m : MemTable) (key : Bytes) : Prop :=
  ∀ e ∈ m.getEntry key s.db.versionSet.lastSequence,
    readTables key s.db s.dir = some (Db.valueOf e)

instance (s : Running) (m : MemTable) (key : Bytes) : Decidable (s.Stored m key) := by
  unfold Running.Stored; infer_instance

/-- If the call is a compaction, it appends its files in order and cuts off none between two
versions of a key. -/
def Op.Tidy (op : Op) (s : Running) : Prop := op.InOrder s ∧ op.Whole s

/-- The call does not write the key. -/
def Op.Spares (key : Bytes) : Op → Prop
  | put k _ | delete k => k ≠ key
  | _ => True

section Failing

variable [Crc32c]

/-- The memory table that an opening makes of the log. -/
def Running.relogged (s : Running) : Option MemTable :=
  match (Db.replayLog s.db.versionSet : St Unit (MemTable × VersionSet)) ((), ⟨s.dir, []⟩) with
  | .ok (m, _) _ => some m
  | .error _ _ => none

/-- A call of the flush fails in front of its commit: one that creates or writes the table file,
reads its size, creates the new log or syncs the old one. -/
def Running.preparationFails (s : Running) (os : List Outcome) : Bool :=
  match Db.prepareFlush s.db.memtable (s.db, ⟨s.dir, os⟩) with
  | .error (.error _) _ => true
  | _ => false

/-- The flush of `s` returns an error in front of its commit. -/
def FlushFails (os : List Outcome) (s s' : Running) : Prop :=
  s.attempt Db.flushMemtable os = some (false, s') ∧ s.preparationFails os = true

/-- The states that a new database reaches: with calls that return, with flushes that fail, and
within a write in front of its flush.  The tables have sizes that readers can do with.  If `tidy`
holds, all compactions are tidy. -/
inductive Arises (tidy : Prop) : Running → Prop
  | start {options : Options} {s : Running} : opened options ∅ = some s → Arises tidy s
  | call {op : Op} {s s' : Running} : Arises tidy s → op.Sound s → s.Sized →
      (tidy → op.Tidy s) → op.run s = some s' → Arises tidy s'
  | write {op : Op} {e : WalEntry} {s s' : Running} : Arises tidy s → op.Sound s →
      op.entry s.db = some e → s.call (Db.logAndApply e.vtype e.key e.value) = some s' →
      Arises tidy s'
  | failedFlush {os : List Outcome} {s s' : Running} : Arises tidy s → FlushFails os s s' →
      Arises tidy s'

/-- A reader of the key gets `r` now, and after all later calls that do not write it and leave
tables of sizes that readers can do with; compactions may be among them if they are tidy and `tidy`
holds. -/
def Running.StaysRead (s : Running) (tidy : Prop) (key : Bytes) (r : Option (Option Bytes)) :
    Prop :=
  readNow key s.db s.dir = r ∧
    ∀ later, Along (fun op s => op.Sound s ∧ op.Sized s ∧ op.Spares key ∧
      (op = .compact → tidy ∧ op.Tidy s)) later s →
      ∃ s', opsRun later s = some s' ∧ readNow key s'.db s'.dir = r

end Failing

section Reading

variable [Crc32c] {d : Dir} {db : Db} {s : Running} {next flushed : Nat} {log : List WalEntry}

theorem Inv.readTables (h : Inv s.dir s.db flushed log) (hServes : s.Serves)
    (hLast : s.last < 2 ^ 64) (key : Bytes) : readTables key s.db s.dir =
      some ((Db.inFiles s.dir s.db.versionSet.current s.last key).bind Entry.value) := by
  have hSearch := Version.Serves.inFiles hServes h.readable hLast key
  rcases (readFiles_spec (A := Quiet) h.readable.cache key s.last
      (filesForKey s.db.versionSet.current key) fun f hf => by
        obtain ⟨level, hf⟩ := filesForKey_mem hf
        exact h.readable.files level f hf).result (List.forall_mem_nil _) with
    ⟨r, cache, w, hRun, -, -, hr⟩ | ⟨f, cache, w, hRun, hFails | ⟨e, -, he⟩, -⟩
  · have hGet : Db.getFromSstables s.db.versionSet.current key s.db.versionSet.lastSequence
        (s.db.tableCache, ⟨s.dir, []⟩) = .ok (r.bind Db.valueOf) (cache, w) := bind_ok hRun
    rw [hr] at hSearch
    rw [MulanLsm.readTables, hGet]
    exact congrArg some (Except.ok.inj hSearch)
  · exact absurd hFails not_fails_quiet
  · rw [he] at hSearch
    cases hSearch

omit [Crc32c] in
/-- The versions in a memory table of a log do not depend on where its sequence numbers start. -/
theorem replayed_skiplist (seq seq' : Nat) (log : List WalEntry) :
    (replayed seq log).skiplist = (replayed seq' log).skiplist := by
  induction log using List.reverseRecOn with
  | nil => rfl
  | append_singleton log e ih =>
    rw [replayed_append, replayed_append]
    exact congrArg (SkipList.insert _ _) ih

theorem Inv.relogged (h : Inv s.dir s.db flushed log)
    (hSeq : s.db.versionSet.lastSequence + 1 < 2 ^ 64) :
    s.relogged = some (replayed s.db.versionSet.lastSequence log) := by
  obtain ⟨B, hAt⟩ := h.wal
  obtain ⟨synced, hHas⟩ := h.walNumber ▸ hAt.has
  have hReplay := replayRecords_encode (fun e he => ⟨(h.logged e he).1,
    (h.logged e he).2.2.trans_lt hSeq⟩) (.withInitialSequence s.db.versionSet.lastSequence)
  have hSpec : Spec Quiet (Db.replayLog s.db.versionSet : St Unit (MemTable × VersionSet))
      (fun r _ _ => r.1 = replayed s.db.versionSet.lastSequence log) Never () s.dir := by
    refine Spec.bind (Spec.pathExists halts_quiet ?_ fun f hF => not_fails_quiet hF)
    rw [if_pos (decide_eq_true hHas.mem)]
    refine Spec.bind (Spec.readFile hHas ?_ fun n f hB => not_broken_quiet hB)
    rw [hAt.isLog.readRecords]
    refine Spec.bind (Spec.ofResult (fun m hm => ?_) fun e he => ?_)
    · exact Spec.pure (Except.ok.inj (hm.symm.trans hReplay))
    · exact absurd (hReplay.symm.trans he) (by simp)
  obtain ⟨⟨m, vs⟩, y, w, hRun, hm⟩ := hSpec.run
  rw [Running.relogged, hRun]
  exact congrArg some hm

/-- What the memory table `m` says of the key, in what the table files hold. -/
theorem Inv.stored_iff (h : Inv s.dir s.db flushed log) (hServes : s.Serves)
    (hLast : s.last < 2 ^ 64) (m : MemTable) (key : Bytes) :
    s.Stored m key ↔ ∀ e ∈ seek m.skiplist key s.last,
      (Db.inFiles s.dir s.db.versionSet.current s.last key).bind Entry.value = e.value := by
  unfold Running.Stored
  rw [h.readTables hServes hLast, MemTable.getEntry_eq, ← Running.last]
  constructor
  · intro hStored e he
    have hValue := Option.some.inj (hStored (typed e) (Option.mem_map_of_mem typed he))
    rwa [valueOf_typed] at hValue
  · intro hStored e he
    obtain ⟨x, hx, rfl⟩ := Option.mem_map.mp he
    rw [valueOf_typed]
    exact congrArg some (hStored x hx)

/-- A failing flush empties the memory table, and changes no table file of the version and no entry
of its log. -/
theorem FlushFails.fails {os : List Outcome} {s' : Running} (h : FlushFails os s s')
    (hInv : Inv s.dir s.db flushed log) :
    (∃ next, s'.db = emptied s.db next) ∧ Inv s'.dir s'.db flushed log ∧
      SameFiles s.db.versionSet.current s.dir s'.dir := by
  obtain ⟨hAttempt, hFails⟩ := h
  obtain ⟨e, db', w, hPrepare⟩ : ∃ e db' w, Db.prepareFlush s.db.memtable (s.db, ⟨s.dir, os⟩) =
      .error (.error e) (db', w) := by
    unfold Running.preparationFails at hFails
    split at hFails
    · next hPrepare => exact ⟨_, _, _, hPrepare⟩
    · cases hFails
  have hFlush : s.db.memtable.entries ≠ 0 →
      Db.flushMemtable (s.db, ⟨s.dir, os⟩) = .error (.error e) (db', w) := by
    intro hEntries
    refine (bind_ok (m := self) rfl).trans ?_
    rw [if_neg hEntries]
    exact bind_error hPrepare
  have hMem : s.db.memtable.skiplist ≠ [] := by
    intro hNil
    have hEntries : s.db.memtable.entries = 0 := by
      rw [hInv.mem.count, hNil]
      rfl
    have hReturns : Db.flushMemtable (s.db, ⟨s.dir, os⟩) = .ok () (s.db, ⟨s.dir, os⟩) := by
      refine (bind_ok (m := self) rfl).trans ?_
      rw [if_pos hEntries]
      rfl
    rw [Running.attempt, hReturns] at hAttempt
    cases hAttempt
  have hEntries : s.db.memtable.entries ≠ 0 := by
    rw [hInv.mem.count, Ne, List.length_eq_zero_iff]
    exact hMem
  rw [Running.attempt, hFlush hEntries] at hAttempt
  cases hAttempt
  rcases (prepareFlush_spec (A := fun _ => True) hInv hMem).result
      (fun (o : Outcome) (_ : o ∈ os) => trivial) with
    ⟨r, y, w', hOk, -⟩ | ⟨f, y, w', hError, -, ⟨next, hNext, hDb⟩, hInv', hFrame⟩
  · rw [hPrepare] at hOk
    cases hOk
  · rw [hPrepare] at hError
    cases hError
    exact ⟨⟨next, hDb⟩, hInv', .of_filesFrom hFrame (hInv.numbered.mono hInv.next)⟩

theorem FlushFails.last {os : List Outcome} {s' : Running} (h : FlushFails os s s')
    (hInv : Inv s.dir s.db flushed log) : s'.last = s.last := by
  obtain ⟨⟨next, hDb⟩, -⟩ := h.fails hInv
  rw [Running.last, hDb]
  rfl

theorem FlushFails.sized {os : List Outcome} {s' : Running} (h : FlushFails os s s')
    (hInv : Inv s.dir s.db flushed log) (hSized : s'.Sized) : s.Sized := by
  obtain ⟨⟨next, hDb⟩, -, hSame⟩ := h.fails hInv
  intro level f hf file hFile
  have hf' : f ∈ s'.db.versionSet.current.filesAt level := by
    rw [hDb]
    exact hf
  exact hSized level f hf' file (by rwa [hSame level f hf])

/-- After it, readers find what the table files have. -/
theorem FlushFails.readNow {os : List Outcome} {s' : Running} (h : FlushFails os s s')
    (hInv : Inv s.dir s.db flushed log) (hServes : s'.Serves) (hLast : s.last < 2 ^ 64)
    (key : Bytes) : readNow key s'.db s'.dir =
      some ((Db.inFiles s.dir s.db.versionSet.current s.last key).bind Entry.value) := by
  have hLast' := h.last hInv
  obtain ⟨⟨next, hDb⟩, hInv', hSame⟩ := h.fails hInv
  have hMem : seek s'.db.memtable.skiplist key s'.last = none := by
    rw [hDb]
    rfl
  have hCurrent : s'.db.versionSet.current = s.db.versionSet.current := by rw [hDb]; rfl
  rw [hInv'.readsNow hServes (hLast' ▸ hLast), Db.lookup, hMem, Option.none_or,
    ← inFiles_congr hSame.tables, ← hCurrent, ← hLast']
  rfl

end Reading

section Compacting

variable [Crc32c] {d d' : Dir} {db db' : Db} {flushed s : Nat} {log : List WalEntry}
  {c : Compaction}

/-- What a reader gets from the table files is what their versions say. -/
theorem Inv.reads_inFiles (h : Inv d db flushed log) (hRecent : Recent d db.versionSet.current)
    (hApart : Apart d db.versionSet.current) (hOrdered : Ordered db.versionSet.current) (k : Bytes)
    (s : Nat) : Versioned.Distinct (stored d db.versionSet.current) ∧
      Reads (stored d db.versionSet.current) k s
        ((Db.inFiles d db.versionSet.current s k).bind Entry.value) := by
  have hEmptied := h.emptied (le_refl db.idGen.next)
  have hReads : Reads ((MulanLsm.emptied db db.idGen.next).contents d) k s _ :=
    (hEmptied.lookup_answers hRecent hApart hOrdered).reads
  have hDistinct := hEmptied.distinct_contents
  rw [contents_emptied] at hReads hDistinct
  exact ⟨hDistinct, hReads⟩

/-- A reader past what was flushed gets the same from the table files after a compaction. -/
theorem Compacted.inFiles (h : Compacted d db flushed log c d' db') (hInv : Inv d db flushed log)
    (hc : Picked db.versionSet c) (hRecent : Recent d db.versionSet.current)
    (hApart : Apart d db.versionSet.current) (hOrdered : Ordered db.versionSet.current)
    (hAppends : AppendsInOrder d db c) (hWhole : ¬CutsBetweenVersions d db c) (hs : flushed ≤ s)
    (k : Bytes) :
    (Db.inFiles d' db'.versionSet.current s k).bind Entry.value =
      (Db.inFiles d db.versionSet.current s k).bind Entry.value := by
  set q := max s db.versionSet.oldestSnapshotSeq
  have hq : flushed ≤ q := hs.trans (le_max_left _ _)
  rw [h.inv.tables.inFiles hs hq, hInv.tables.inFiles hs hq]
  have hBefore := (hInv.reads_inFiles hRecent hApart hOrdered k q).2
  obtain ⟨hDistinct, hAfter⟩ := h.inv.reads_inFiles (h.recent hInv hc hRecent hApart)
    (h.apart hInv hc hApart hWhole) (h.ordered hInv hc hOrdered hAppends) k q
  exact hAfter.unique hDistinct
    ((h.rewrote.reads hInv hc hRecent hApart (le_max_right _ _)).mp hBefore)

end Compacting

section Steps

variable [Crc32c] {keys : Set Bytes} {seen : Bytes → Option Bytes} {tidy : Prop}
  {s s' s₁ : Running} {flushed : Nat} {log : List WalEntry} {e : WalEntry} {c : Compaction}
  {op : Op} {os : List Outcome}

/-- A database that may have lost its memory table in flushes.  The memory table has no version of
the keys, and the table files and the log say `seen` of them. -/
structure Lasting (keys : Set Bytes) (seen : Bytes → Option Bytes) (tidy : Prop) (s : Running)
    (flushed : Nat) (log : List WalEntry) : Prop where
  inv : Inv s.dir s.db flushed log
  logged : MemOk (replayed flushed log) flushed
  seq : (replayed flushed log).seq = s.db.memtable.seq
  mem : ∀ x ∈ s.db.memtable.skiplist, x.1.userKey ∉ keys
  log : ∀ k ∈ keys, ∀ q, s.last ≤ q →
    ∀ x ∈ seek (replayed flushed log).skiplist k q, x.value = seen k
  files : ∀ k ∈ keys, ∀ q, flushed ≤ q →
    (Db.inFiles s.dir s.db.versionSet.current q k).bind Entry.value = seen k
  order : tidy → Ordered s.db.versionSet.current ∧ Recent s.dir s.db.versionSet.current ∧
    Apart s.dir s.db.versionSet.current

theorem Lasting.last (h : Lasting keys seen tidy s flushed log) :
    (replayed flushed log).seq = s.last := h.seq.trans h.inv.seq

theorem Lasting.readNow (h : Lasting keys seen tidy s flushed log) (hServes : s.Serves)
    (hLast : s.last < 2 ^ 64) {k : Bytes} (hk : k ∈ keys) :
    readNow k s.db s.dir = some (seen k) := by
  have hMem : seek s.db.memtable.skiplist k s.last = none :=
    seek_none_of_ne fun x hx hKey => h.mem x hx (hKey ▸ hk)
  rw [h.inv.readsNow hServes hLast, Db.lookup, hMem, Option.none_or]
  exact congrArg some (h.files k hk _ h.inv.flushedLe)

/-- A write of another key. -/
theorem Lasting.writes (h : Lasting keys seen tidy s flushed log)
    (hWrites : Writes e s s₁ flushed log)
    (hKey : e.key ∉ keys) : Lasting keys seen tidy s₁ flushed (log ++ [e]) := by
  have hApplied := hWrites.applied
  have hNumber : (replayed flushed log).seq + 1 = e.seq := by rw [h.seq, hWrites.seq]
  have hCurrent : s₁.db.versionSet.current = s.db.versionSet.current := by rw [hApplied.version]
  have hSame : SameTables s.db.versionSet.current s.dir s₁.dir := fun _ f _ =>
    hApplied.tables f.number
  have hOther : ∀ {k}, k ∈ keys → e.key ≠ k := fun hk hEq => hKey (hEq ▸ hk)
  refine ⟨hApplied.inv, ?_, ?_, fun x hx => ?_, fun k hk q hq x hx => ?_, fun k hk q hq => ?_, ?_⟩
  · rw [replayed_append]
    exact h.logged.apply (replayed_seq_ge flushed log).1 (by omega)
      (hApplied.inv.logged e (by simp)).1
  · rw [replayed_seq_append, hApplied.inv.seq, hApplied.version]
    exact max_eq_right (by omega)
  · rw [hApplied.mem] at hx
    rcases SkipList.mem_insert.mp hx with rfl | hx
    · exact hKey
    · exact h.mem x hx
  · rw [seek_replayed_ne (hOther hk)] at hx
    have hLast : s.last ≤ s₁.last := by
      rw [hWrites.contents.2, ← hNumber, h.last]
      exact Nat.le_succ _
    exact h.log k hk q (hLast.trans hq) x hx
  · rw [hCurrent, inFiles_congr hSame]
    exact h.files k hk q hq
  · intro hTidy
    obtain ⟨hOrdered, hRecent, hApart⟩ := h.order hTidy
    rw [hCurrent]
    exact ⟨hOrdered, hRecent.congr hSame, hApart.congr hSame⟩

/-- A new log, and a new file of newer versions that say nothing else of the keys. -/
theorem Lasting.restarts {es : List Entry} {last : Nat} (h : Lasting keys seen tidy s flushed log)
    (hInv : Inv s'.dir s'.db last []) (hMem : s'.db.memtable = .withInitialSequence last)
    (hGrown : Grown s.dir s.db.versionSet.current es s'.dir s'.db.versionSet.current)
    (hLast : flushed ≤ last) (hNew : ∀ x ∈ es, flushed < x.1.seq)
    (hSaid : ∀ k ∈ keys, ∀ q, last ≤ q → ∀ x ∈ seek es k q, x.value = seen k) :
    Lasting keys seen tidy s' last [] := by
  refine ⟨hInv, MemOk.empty, by rw [hMem]; rfl, fun x hx => ?_, fun k hk q hq x hx => ?_,
    fun k hk q hq => ?_, fun hTidy => ?_⟩
  · rw [hMem] at hx
    exact absurd hx List.not_mem_nil
  · cases hx
  · rw [hGrown.inFiles q k]
    cases hSeek : seek es k q with
    | none => exact h.files k hk q (hLast.trans hq)
    | some x => exact hSaid k hk q hq x hSeek
  · obtain ⟨hOrdered, hRecent, hApart⟩ := h.order hTidy
    refine ⟨hGrown.ordered hOrdered, hGrown.recent hRecent ?_, hGrown.apart hApart⟩
    rintro x hx y ⟨level, f, hf, hy⟩ -
    exact ((h.inv.tables level f hf).seqs y hy).trans_lt (hNew x hx)

theorem Lasting.flushes (h : Lasting keys seen tidy s flushed log) (hFlushes : Flushes s s') :
    Lasting keys seen tidy s' s.db.memtable.seq [] := by
  have hFlushed := hFlushes.flushed
  refine h.restarts hFlushed.inv hFlushed.mem (hFlushed.grown h.inv) (h.inv.seq ▸ h.inv.flushedLe)
    (fun x hx => (h.inv.mem.seqs x hx).1) fun k hk q _ x hx => ?_
  obtain ⟨hMem, hKey⟩ := seek_mem hx
  exact absurd hk (hKey ▸ h.mem x hMem)

theorem Lasting.reopens {state : VersionState} (h : Lasting keys seen tidy s flushed log)
    (hState : state.current = s.db.versionSet.current)
    (hInv : Inv s'.dir s'.db (replayed flushed log).seq [])
    (hRe : Reopened s.dir state (replayed flushed log) s'.dir s'.db) :
    Lasting keys seen tidy s' (replayed flushed log).seq [] := by
  have hGrown := hRe.grown
  rw [hState] at hGrown
  exact h.restarts hInv hRe.mem hGrown (replayed_seq_ge flushed log).1
    (fun x hx => (h.logged.seqs x hx).1) fun k hk q hq => h.log k hk q (h.last ▸ hq)

theorem Lasting.keeps (h : Lasting keys seen tidy s flushed log)
    (hInv : Inv s'.dir s'.db flushed log)
    (hKeeps : Keeps s s') : Lasting keys seen tidy s' flushed log := by
  obtain ⟨hDir, hDb⟩ := hKeeps
  have hMem : s'.db.memtable = s.db.memtable := by rw [hDb]
  have hCurrent : s'.db.versionSet.current = s.db.versionSet.current := by rw [hDb]
  have hLast : s'.last = s.last := by rw [Running.last, hDb]; rfl
  exact ⟨hInv, h.logged, hMem ▸ h.seq, hMem ▸ h.mem, hLast ▸ h.log, hDir ▸ hCurrent ▸ h.files,
    hDir ▸ hCurrent ▸ h.order⟩

theorem Lasting.compacts (h : Lasting keys seen tidy s flushed log)
    (hCompacts : Compacts c s s' flushed log) (hTidy : tidy → Op.compact.Tidy s)
    (hKeys : keys.Nonempty → tidy) : Lasting keys seen tidy s' flushed log := by
  have hCompacted := hCompacts.compacted
  have hPicked := pickCompaction_picked hCompacts.picked
  refine ⟨hCompacted.inv, h.logged, hCompacted.mem ▸ h.seq, hCompacted.mem ▸ h.mem, ?_,
    fun k hk q hq => ?_, fun ht => ?_⟩
  · rw [Running.last, hCompacted.lastSequence]
    exact h.log
  · have ht := hKeys ⟨k, hk⟩
    obtain ⟨hOrdered, hRecent, hApart⟩ := h.order ht
    obtain ⟨hAppends, hWhole⟩ := hTidy ht
    rw [hCompacted.inFiles h.inv hPicked hRecent hApart hOrdered (hAppends c hCompacts.picked)
      (hWhole c hCompacts.picked) hq]
    exact h.files k hk q hq
  · obtain ⟨hOrdered, hRecent, hApart⟩ := h.order ht
    obtain ⟨hAppends, hWhole⟩ := hTidy ht
    exact ⟨hCompacted.ordered h.inv hPicked hOrdered (hAppends c hCompacts.picked),
      hCompacted.recent h.inv hPicked hRecent hApart,
      hCompacted.apart h.inv hPicked hApart (hWhole c hCompacts.picked)⟩

theorem Lasting.written (h : Lasting keys seen tidy s flushed log)
    (hWrites : Writes e s s₁ flushed log)
    (hKey : e.key ∉ keys) (hRest : if s₁.db.full then Flushes s₁ s' else s' = s₁) :
    (∃ flushed' log', Lasting keys seen tidy s' flushed' log') ∧ s'.last ≤ s.last + 1 := by
  have h₁ := h.writes hWrites hKey
  have hLast : s₁.last ≤ s.last + 1 := by
    rw [hWrites.contents.2, hWrites.seq, h.inv.seq]
    exact le_rfl
  split at hRest
  · refine ⟨⟨_, _, h₁.flushes hRest⟩, ?_⟩
    rw [Running.last, hRest.flushed.lastSequence]
    exact hLast
  · exact hRest ▸ ⟨⟨_, _, h₁⟩, hLast⟩

/-- A call that writes none of the keys returns, and the keys last. -/
theorem Lasting.step (h : Lasting keys seen tidy s flushed log) (hSound : op.Sound s)
    (hSpares : ∀ k ∈ keys, op.Spares k)
    (hTidy : op = .compact → (tidy → op.Tidy s) ∧ (keys.Nonempty → tidy)) :
    ∃ s', op.run s = some s' ∧ (∃ flushed' log', Lasting keys seen tidy s' flushed' log') ∧
      s'.last ≤ s.last + 1 := by
  obtain ⟨hReady, hRoom⟩ := hSound
  cases op with
  | put key value =>
    obtain ⟨hKey, hFree⟩ := hReady
    obtain ⟨s', hCall, s₁, hWrites, hRest⟩ := h.inv.write_run hRoom hKey
    refine ⟨s', ?_, h.written hWrites (fun hk => hSpares key hk rfl) hRest⟩
    rw [Op.run, if_neg hFree, Db.put, if_neg hKey.1]
    exact hCall
  | delete key =>
    obtain ⟨hKey, hFree⟩ := hReady
    obtain ⟨s', hCall, s₁, hWrites, hRest⟩ := h.inv.write_run hRoom hKey
    refine ⟨s', ?_, h.written hWrites (fun hk => hSpares key hk rfl) hRest⟩
    rw [Op.run, if_neg hFree, Db.delete, if_neg hKey.1]
    exact hCall
  | flush =>
    obtain ⟨s', hCall, ⟨-, rfl⟩ | hFlushes⟩ := h.inv.flush_run hRoom
    · exact ⟨_, hCall, ⟨_, _, h⟩, Nat.le_succ _⟩
    · refine ⟨s', hCall, ⟨_, _, h.flushes hFlushes⟩, ?_⟩
      rw [Running.last, hFlushes.flushed.lastSequence]
      exact Nat.le_succ _
  | compact =>
    obtain ⟨hTidy, hKeys⟩ := hTidy rfl
    obtain ⟨s', hCall, ⟨-, rfl⟩ | ⟨c, hCompacts⟩⟩ := h.inv.compact_run hRoom
    · exact ⟨_, hCall, ⟨_, _, h⟩, Nat.le_succ _⟩
    · refine ⟨s', hCall, ⟨_, _, h.compacts hCompacts hTidy hKeys⟩, ?_⟩
      rw [Running.last, hCompacts.compacted.lastSequence]
      exact Nat.le_succ _
  | read seq key =>
    obtain ⟨s', hCall, hInv, hKeeps, -, -⟩ := h.inv.read_run seq key
    exact ⟨s', hCall, ⟨_, _, h.keeps hInv hKeeps⟩, hKeeps.contents.2.trans_le (Nat.le_succ _)⟩
  | snapshot =>
    exact ⟨_, rfl, ⟨_, _, h.keeps { h.inv with } ⟨rfl, rfl⟩⟩, Nat.le_succ _⟩
  | release i =>
    have hGet : s.guards[i]? = some s.guards[i] := List.getElem?_eq_getElem hReady
    refine ⟨{ db := { s.db with versionSet := s.db.versionSet.releaseSnapshot s.guards[i].seq }
              dir := s.dir, guards := s.guards.eraseIdx i }, ?_,
      ⟨flushed, log, h.keeps { h.inv with } ⟨rfl, rfl⟩⟩, Nat.le_succ _⟩
    rw [Op.run, hGet]
    rfl
  | reopen options =>
    obtain ⟨s', hRun, hRe, hInv, -⟩ := h.inv.reopen_run h.logged hRoom options
    have hState : (s.db.saved flushed).current = s.db.versionSet.current := rfl
    refine ⟨s', hRun, ⟨_, _, h.reopens hState hInv hRe⟩, ?_⟩
    rw [Running.last, hRe.lastSequence, h.last]
    exact Nat.le_succ _

theorem Lasting.run {k : Bytes} {ops : List Op} (h : Lasting {k} seen tidy s flushed log)
    (hLast : s.last < 2 ^ 64) (hSized : s.Sized)
    (hOps : Along (fun op s => op.Sound s ∧ op.Sized s ∧ op.Spares k ∧
      (op = .compact → tidy ∧ op.Tidy s)) ops s) :
    ∃ s' flushed' log', opsRun ops s = some s' ∧ Lasting {k} seen tidy s' flushed' log' ∧
      s'.last < 2 ^ 64 ∧ s'.Sized := by
  induction ops generalizing s flushed log with
  | nil => exact ⟨s, flushed, log, rfl, h, hLast, hSized⟩
  | cons op ops ih =>
    obtain ⟨⟨hSound, hSized₁, hSpares, hTidy⟩, hRest⟩ := hOps
    obtain ⟨s₁, hStep, ⟨flushed₁, log₁, h₁⟩, hLast₁⟩ := h.step hSound (fun _ hk => hk ▸ hSpares)
      fun hOp => ⟨fun _ => (hTidy hOp).2, fun _ => (hTidy hOp).1⟩
    obtain ⟨s', flushed', log', hRun, h'⟩ := ih h₁ (hLast₁.trans_lt hSound.2.seq_lt)
      (hSized₁ s₁ hStep) (hRest s₁ hStep)
    refine ⟨s', flushed', log', ?_, h'⟩
    rw [opsRun, List.foldlM_cons, hStep]
    exact hRun

/-- A failing flush leaves the keys of which the table files and the log say `seen`. -/
theorem Lasting.fails {keys' : Set Bytes} {seen' : Bytes → Option Bytes}
    (h : Lasting keys seen tidy s flushed log) (hFails : FlushFails os s s')
    (hLog : ∀ k ∈ keys', ∀ q, s.last ≤ q →
      ∀ x ∈ seek (replayed flushed log).skiplist k q, x.value = seen' k)
    (hFiles : ∀ k ∈ keys', ∀ q, flushed ≤ q →
      (Db.inFiles s.dir s.db.versionSet.current q k).bind Entry.value = seen' k) :
    Lasting keys' seen' tidy s' flushed log := by
  obtain ⟨⟨next, hDb⟩, hInv, hSame⟩ := hFails.fails h.inv
  have hCurrent : s'.db.versionSet.current = s.db.versionSet.current := by rw [hDb]; rfl
  refine ⟨hInv, h.logged, ?_, fun x hx => ?_, hFails.last h.inv ▸ hLog,
    fun k hk q hq => ?_, fun ht => ?_⟩
  · rw [hDb]
    exact h.seq
  · rw [hDb] at hx
    exact absurd hx List.not_mem_nil
  · rw [hCurrent, inFiles_congr hSame.tables]
    exact hFiles k hk q hq
  · obtain ⟨hOrdered, hRecent, hApart⟩ := h.order ht
    rw [hCurrent]
    exact ⟨hOrdered, hRecent.congr hSame.tables, hApart.congr hSame.tables⟩

theorem Arises.built (h : Arises tidy s) : s.Built := by
  induction h with
  | start hStart => exact opened_built faithful_empty hStart
  | call _ _ _ _ hRun ih => exact Op.run_built ih hRun
  | write _ _ _ hCall ih => exact .call (logAndApply_faithful ih.tidy _ _ _) ih.faithful hCall
  | failedFlush _ hFails ih => exact .attempt (flushMemtable_faithful ih.tidy) ih.faithful hFails.1

theorem Arises.lasting (h : Arises tidy s) : ∃ flushed log, Lasting ∅ seen tidy s flushed log := by
  induction h with
  | @start options s hStart =>
    obtain ⟨hOk, hCreated, -⟩ := opened_new hStart
    exact ⟨0, [], hOk.inv, hOk.mem ▸ hOk.inv.mem, congrArg MemTable.seq hOk.mem.symm,
      fun _ _ => id, by simp, by simp, fun _ => hCreated.order⟩
  | @call op s s' _ hSound _ hTidy hRun ih =>
    obtain ⟨flushed, log, h⟩ := ih
    obtain ⟨s₁, hStep, h', -⟩ := h.step hSound (by simp) fun _ => ⟨hTidy, by simp⟩
    obtain rfl : s₁ = s' := Option.some.inj (hStep.symm.trans hRun)
    exact h'
  | @write op e s s' _ hSound hEntry hCall ih =>
    obtain ⟨flushed, log, h⟩ := ih
    obtain ⟨hFits, vtype, key, value, rfl⟩ : EntryFits e.entry ∧
        ∃ vtype key value, e = nextEntry s.db vtype key value := by
      cases op with
      | put key value =>
        obtain rfl := Option.some.inj hEntry
        exact ⟨hSound.1.1.2, _, _, _, rfl⟩
      | delete key =>
        obtain rfl := Option.some.inj hEntry
        exact ⟨hSound.1.1.2, _, _, _, rfl⟩
      | _ => cases hEntry
    obtain ⟨_, s₁, hRun, hGuards, hApplied⟩ := call_of_spec (logAndApply_spec h.inv hFits)
    obtain rfl : s₁ = s' := Option.some.inj (hRun.symm.trans hCall)
    exact ⟨flushed, _, h.writes ⟨hApplied, rfl, hGuards⟩ id⟩
  | failedFlush _ hFails ih =>
    obtain ⟨flushed, log, h⟩ := ih
    exact ⟨flushed, log, h.fails hFails (by simp) (by simp)⟩

/-- What the log says of the key, the table files say too. -/
theorem Lasting.relogged_iff (h : Lasting keys seen tidy s flushed log) (hServes : s.Serves)
    (hSeq : s.last + 1 < 2 ^ 64) (k : Bytes) :
    (∀ m ∈ s.relogged, s.Stored m k) ↔ ∀ x ∈ seek (replayed flushed log).skiplist k s.last,
      (Db.inFiles s.dir s.db.versionSet.current s.last k).bind Entry.value = x.value := by
  rw [h.inv.relogged hSeq, replayed_skiplist flushed s.last log,
    ← h.inv.stored_iff hServes (Nat.lt_of_succ_lt hSeq)]
  exact ⟨fun hAll => hAll _ rfl, fun hOne m hm => Option.some.inj hm ▸ hOne⟩

/-- After a clean close and another opening, readers find what the log says, and then what the table
files have. -/
theorem Lasting.shows_log (h : Lasting keys seen tidy s flushed log) (hRoom : s.Room)
    (hBuilt : s.Built) (hSized : (Op.reopen options).Sized s) (k : Bytes) :
    ∃ s', (Op.reopen options).run s = some s' ∧ s.Sized ∧ MulanLsm.readNow k s'.db s'.dir =
      some (((seek (replayed flushed log).skiplist k s.last).or
        (Db.inFiles s.dir s.db.versionSet.current s.last k)).bind Entry.value) := by
  obtain ⟨s', hRun, hRe, hInv, -⟩ := h.inv.reopen_run h.logged hRoom options
  have hRun' : (Op.reopen options).run s = some s' := by rw [Op.run, hRun]
  have hSized' := hSized s' hRun'
  have hLast : s'.last < 2 ^ 64 := by
    rw [Running.last, hRe.lastSequence, h.last]
    exact Nat.lt_of_succ_lt hRoom.seq_lt
  refine ⟨s', hRun', hRe.sized rfl hSized', ?_⟩
  rw [hInv.readsNow (hInv.serves (Op.run_built hBuilt hRun') hLast hSized') hLast, hRe.lookup,
    Running.last, hRe.lastSequence, h.last]
  rfl

/-- A reader of a key goes on to find what the table files have, as long as the log says no
other. -/
theorem Lasting.stays (h : Lasting keys seen tidy s flushed log) (hFails : FlushFails os s s')
    (hBuilt : s'.Built) (hLast : s'.last < 2 ^ 64) (hSized : s'.Sized) {k : Bytes}
    {v : Option Bytes}
    (hFiles : (Db.inFiles s.dir s.db.versionSet.current s.last k).bind Entry.value = v)
    (hLog : ∀ x ∈ seek (replayed flushed log).skiplist k s.last, v = x.value) :
    s'.StaysRead tidy k (some v) := by
  have h' : Lasting {k} (fun _ => v) tidy s' flushed log := by
    apply h.fails hFails
    · rintro _ rfl q hq x hx
      have hLe : ∀ x ∈ (replayed flushed log).skiplist, x.1.seq ≤ s.last := fun x hx =>
        (h.logged.seqs x hx).2.trans_eq h.last
      rw [seek_congr (fun x hx => (hLe x hx).trans hq) hLe] at hx
      exact (hLog x hx).symm
    · rintro _ rfl q hq
      rw [h.inv.tables.inFiles hq h.inv.flushedLe]
      exact hFiles
  refine ⟨h'.readNow (h'.inv.serves hBuilt hLast hSized) hLast rfl, fun later hLater => ?_⟩
  obtain ⟨s'', _, _, hRun, h'', hLast'', hSized''⟩ := h'.run hLast hSized hLater
  exact ⟨s'', hRun, h''.readNow (h''.inv.serves (opsRun_built hBuilt hRun) hLast'' hSized'')
    hLast'' rfl⟩

/-- A flush that fails keeps what a reader of the key finds exactly if the table files say already
what the memory table and the log say of the key.  The tables have sizes that readers can do with,
also after another opening. -/
theorem failed_flush_keeps_iff (h : Arises tidy s) (hFails : FlushFails os s s') (hRoom : s'.Room)
    (hSized : (Op.reopen s'.db.options).Sized s') (k : Bytes) :
    s'.StaysRead tidy k (readNow k s.db s.dir) ↔
      s.Stored s.db.memtable k ∧ ∀ m ∈ s.relogged, s.Stored m k := by
  have hBuilt := h.built
  have hBuilt' : s'.Built := .attempt (flushMemtable_faithful hBuilt.tidy) hBuilt.faithful hFails.1
  obtain ⟨flushed, log, h⟩ : ∃ flushed log, Lasting ∅ (fun _ => none) tidy s flushed log :=
    h.lasting
  have h' : Lasting ∅ (fun _ => none) tidy s' flushed log := h.fails hFails (by simp) (by simp)
  have hLast := hFails.last h.inv
  have hSeq' : s'.last + 1 < 2 ^ 64 := hRoom.seq_lt
  have hSeq : s.last + 1 < 2 ^ 64 := hLast ▸ hSeq'
  have hLt : s.last < 2 ^ 64 := Nat.lt_of_succ_lt hSeq
  obtain ⟨s'', hRun, hSized', hShown⟩ := h'.shows_log hRoom hBuilt' hSized k
  have hServes := h.inv.serves hBuilt hLt (hFails.sized h.inv hSized')
  have hServes' := h'.inv.serves hBuilt' (Nat.lt_of_succ_lt hSeq') hSized'
  have hNow : readNow k s.db s.dir = some (((seek s.db.memtable.skiplist k s.last).or
      (Db.inFiles s.dir s.db.versionSet.current s.last k)).bind Entry.value) :=
    h.inv.readsNow hServes hLt k
  rw [h.inv.stored_iff hServes hLt, h.relogged_iff hServes hSeq]
  set v := (Db.inFiles s.dir s.db.versionSet.current s.last k).bind Entry.value with hv
  constructor
  · rintro ⟨hRead, hLater⟩
    have hAfter := hFails.readNow h.inv hServes' hLt k
    rw [hRead] at hAfter
    refine ⟨fun x hx => ?_, fun x hx => ?_⟩
    · rw [hNow, hx] at hAfter
      exact (Option.some.inj hAfter).symm
    · -- The opening of the closed database shows what its log says.
      obtain ⟨t, hRun', hKept⟩ := hLater [.reopen s'.db.options]
        ⟨⟨⟨trivial, hRoom⟩, hSized, trivial, nofun⟩, fun _ _ => trivial⟩
      obtain ⟨t', hStep, hDone⟩ := Option.bind_eq_some_iff.mp hRun'
      obtain rfl : s'' = t := (Option.some.inj (hRun.symm.trans hStep)).trans
        (Option.some.inj hDone)
      rw [hKept, hAfter, hLast, hx] at hShown
      exact Option.some.inj hShown
  · rintro ⟨hMem, hLog⟩
    have hRead : readNow k s.db s.dir = some v := by
      rw [hNow]
      cases hSeek : seek s.db.memtable.skiplist k s.last with
      | none => rfl
      | some x => exact congrArg some (hMem x hSeek).symm
    rw [hRead]
    exact h.stays hFails hBuilt' (Nat.lt_of_succ_lt hSeq') hSized' hv.symm hLog

end Steps

/-- The memory table is flushed after two writes. -/
def everyTwo : Options := { eager with memtableFlushEntries := 2 }

theorem failed_flush_keeps_flushed :
    ∃ s s', Arises True s ∧ FlushFails [.ok, .fail 3] s s' ∧ s'.Room ∧
      (Op.reopen s'.db.options).Sized s' ∧ s'.StaysRead True [97] (some (some [1])) := by
  have h : (opened everyTwo ∅).any (fun s₀ => Op.Sound (.put [97] [1]) s₀ ∧ s₀.Short ∧
      ((Op.put [97] [1]).run s₀).any fun s₁ => Op.Sound .flush s₁ ∧ s₁.Short ∧
      (Op.flush.run s₁).any fun s₂ => Op.Sound (.put [98] [2]) s₂ ∧ s₂.Short ∧
      ((Op.put [98] [2]).run s₂).any fun s => s.preparationFails [.ok, .fail 3] = true ∧
      (s.Stored s.db.memtable [97] ∧ ∀ m ∈ s.relogged, s.Stored m [97]) ∧
      readNow [97] s.db s.dir = some (some [1]) ∧
      (s.attempt Db.flushMemtable [.ok, .fail 3]).any fun r => r.1 = false ∧ r.2.Room ∧
        ∀ r' ∈ (Op.reopen r.2.db.options).run r.2, r'.Short) = true := by
    decide +kernel
  obtain ⟨s₀, hStart, h⟩ := (Option.any_eq_true _ _).mp h
  obtain ⟨hPut, hShort₀, h⟩ := of_decide_eq_true h
  obtain ⟨s₁, hRun₁, h⟩ := (Option.any_eq_true _ _).mp h
  obtain ⟨hFlush, hShort₁, h⟩ := of_decide_eq_true h
  obtain ⟨s₂, hRun₂, h⟩ := (Option.any_eq_true _ _).mp h
  obtain ⟨hPut', hShort₂, h⟩ := of_decide_eq_true h
  obtain ⟨s, hRun, h⟩ := (Option.any_eq_true _ _).mp h
  obtain ⟨hFails, hStored, hRead, h⟩ := of_decide_eq_true h
  obtain ⟨⟨returned, s'⟩, hAttempt, h⟩ := (Option.any_eq_true _ _).mp h
  obtain ⟨rfl, hRoom, hShort⟩ := of_decide_eq_true h
  have hArises : Arises True s :=
    (((Arises.start hStart).call hPut hShort₀.sized (fun _ => ⟨trivial, trivial⟩) hRun₁).call
      hFlush hShort₁.sized (fun _ => ⟨trivial, trivial⟩) hRun₂).call
      hPut' hShort₂.sized (fun _ => ⟨trivial, trivial⟩) hRun
  have hSized : (Op.reopen s'.db.options).Sized s' := fun r hReopen => (hShort r hReopen).sized
  exact ⟨s, s', hArises, ⟨hAttempt, hFails⟩, hRoom, hSized,
    hRead ▸ (failed_flush_keeps_iff hArises ⟨hAttempt, hFails⟩ hRoom hSized [97]).mpr hStored⟩

/-- A put fails because its flush cannot create the table file.  What the put before it has written
is lost at once, and does not come back. -/
theorem failed_flush_loses :
    ∃ s₀ s₁ s s' s'', opened everyTwo ∅ = some s₀ ∧ (Op.put [97] [1]).run s₀ = some s₁ ∧
      s₁.call (Db.logAndApply .put [98] [2]) = some s ∧ Arises True s ∧ FlushFails [.fail 0] s s' ∧
      readNow [97] s.db s.dir = some (some [1]) ∧ readNow [97] s'.db s'.dir = some none ∧
      opsRun [.put [99] [3], .flush, .reopen everyTwo] s' = some s'' ∧
      readNow [97] s''.db s''.dir = some none := by
  have h : (opened everyTwo ∅).any (fun s₀ => Op.Sound (.put [97] [1]) s₀ ∧ s₀.Short ∧
      ((Op.put [97] [1]).run s₀).any fun s₁ => Op.Sound (.put [98] [2]) s₁ ∧
      (s₁.call (Db.logAndApply .put [98] [2])).any fun s => s.preparationFails [.fail 0] = true ∧
      readNow [97] s.db s.dir = some (some [1]) ∧
      (s.attempt Db.flushMemtable [.fail 0]).any fun r => r.1 = false ∧
      readNow [97] r.2.db r.2.dir = some none ∧
      (opsRun [.put [99] [3], .flush, .reopen everyTwo] r.2).any fun s'' =>
        readNow [97] s''.db s''.dir = some none) = true := by
    decide +kernel
  obtain ⟨s₀, hStart, h⟩ := (Option.any_eq_true _ _).mp h
  obtain ⟨hPut, hShort, h⟩ := of_decide_eq_true h
  obtain ⟨s₁, hRun₁, h⟩ := (Option.any_eq_true _ _).mp h
  obtain ⟨hPut', h⟩ := of_decide_eq_true h
  obtain ⟨s, hRun, h⟩ := (Option.any_eq_true _ _).mp h
  obtain ⟨hFails, hBefore, h⟩ := of_decide_eq_true h
  obtain ⟨⟨returned, s'⟩, hAttempt, h⟩ := (Option.any_eq_true _ _).mp h
  obtain ⟨rfl, hAfter, h⟩ := of_decide_eq_true h
  obtain ⟨s'', hLater, hEnd⟩ := (Option.any_eq_true _ _).mp h
  have hArises : Arises True s := ((Arises.start hStart).call hPut hShort.sized
    (fun _ => ⟨trivial, trivial⟩) hRun₁).write hPut' rfl hRun
  exact ⟨s₀, s₁, s, s', s'', hStart, hRun₁, hRun, hArises, ⟨hAttempt, hFails⟩, hBefore,
    hAfter, hLater, of_decide_eq_true hEnd⟩

end MulanLsm
