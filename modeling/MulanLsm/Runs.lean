import MulanLsm.LsmSteps

/-! Runs of a database.  Calls follow one another on a database that was opened in an empty
directory, no file-system call fails, and a snapshot remembers what its readers got when it was
taken.  As long as keys and values fit their length fields and the counters their type, every call
returns and the database stays in step with its directory. -/

namespace MulanLsm

/-- A snapshot that is held: its sequence number, and what a reader of each key got when it was
taken. -/
structure Guard where
  seq : Nat
  seen : Bytes → Option (Option Bytes)

/-- A database that is open, with its directory and the snapshots that are held. -/
structure Running where
  db : Db
  dir : Dir
  guards : List Guard

/-- A call, or a clean close and another opening. -/
inductive Op
  | put (key value : Bytes)
  | delete (key : Bytes)
  | flush
  | compact
  | read (seq : Nat) (key : Bytes)
  | snapshot
  | release (i : Nat)
  | reopen (options : Options)

section Running

variable [Crc32c]

/-- The state after a call, if it returns. -/
def Running.call {α : Type} (s : Running) (m : St Db α) : Option Running :=
  match m (s.db, ⟨s.dir, []⟩) with
  | .ok _ (db, w) => some { s with db, dir := w.dir }
  | .error _ _ => none

/-- The state after a call, if it returns a value or an error. -/
def Running.ended {α : Type} (s : Running) (m : St Db α) : Option Running :=
  match m (s.db, ⟨s.dir, []⟩) with
  | .ok _ (db, w) | .error (.error _) (db, w) => some { s with db, dir := w.dir }
  | .error _ _ => none

/-- The database that opens in a directory, with the directory then. -/
def opened (options : Options) (d : Dir) : Option Running :=
  match (Db.open options : St Unit Db) ((), ⟨d, []⟩) with
  | .ok db (_, w) => some { db, dir := w.dir, guards := [] }
  | .error _ _ => none

/-- The directory after a clean close. -/
def closed (s : Running) : Option Dir :=
  match (Db.close s.db : St Unit Unit) ((), ⟨s.dir, []⟩) with
  | .ok _ (_, w) => some w.dir
  | .error _ _ => none

/-- A write that would wait does not return.  A reader of damaged bytes returns an error. -/
def Op.run : Op → Running → Option Running
  | put key value, s => if s.db.stalled then none else s.call (Db.put key value)
  | delete key, s => if s.db.stalled then none else s.call (Db.delete key)
  | flush, s => s.call Db.flushMemtable
  | compact, s => s.call Db.runOneCompaction
  | read seq key, s => s.ended (Db.getAt seq key)
  | snapshot, s =>
    let guard : Guard :=
      { seq := s.db.versionSet.lastSequence, seen := fun key => readNow key s.db s.dir }
    (s.call Db.newSnapshot).map fun s => { s with guards := s.guards ++ [guard] }
  | release i, s =>
    s.guards[i]?.bind fun guard =>
      (s.call (Db.dropSnapshot guard.seq)).map fun s => { s with guards := s.guards.eraseIdx i }
  | reopen options, s => (closed s).bind (opened options)

/-- The state after some calls. -/
def opsRun (ops : List Op) (s : Running) : Option Running := ops.foldlM (fun s op => op.run s) s

/-- Every call of the list meets `C` in the state in which it is made. -/
def Along (C : Op → Running → Prop) : List Op → Running → Prop
  | [], _ => True
  | op :: ops, s => C op s ∧ ∀ s', op.run s = some s' → Along C ops s'

/-- The key is not empty, and the key and the value fit their length fields. -/
def Writable (key value : Bytes) : Prop :=
  key ≠ [] ∧ key.length + keyFooterLen < 2 ^ 32 ∧ value.length < 2 ^ 32

/-- The call can be made: a write fits and need not wait, and a snapshot that is released is
held. -/
def Op.Ready : Op → Running → Prop
  | put key value, s => Writable key value ∧ ¬s.db.stalled
  | delete key, s => Writable key [] ∧ ¬s.db.stalled
  | release i, s => i < s.guards.length
  | _, _ => True

/-- The counters have room for another call. -/
structure Running.Room (s : Running) : Prop where
  seq : s.db.versionSet.lastSequence < maxSequence
  next : s.db.idGen.next + 2 < 2 ^ 64
  compaction : ∀ c, pickCompaction s.db.versionSet = some c →
    s.db.idGen.next + (compactedFiles s.dir s.db c).length < 2 ^ 64

omit [Crc32c] in
theorem Running.Room.seq_lt {s : Running} (h : s.Room) :
    s.db.versionSet.lastSequence + 1 < 2 ^ 64 := by
  have := h.seq
  unfold maxSequence at this
  omega

/-- The call can be made and the counters have room for it. -/
def Op.Sound (op : Op) (s : Running) : Prop := op.Ready s ∧ s.Room

section Deciding

instance (key value : Bytes) : Decidable (Writable key value) := by unfold Writable; infer_instance

omit [Crc32c] in
theorem room_iff (s : Running) : s.Room ↔ s.db.versionSet.lastSequence < maxSequence ∧
    s.db.idGen.next + 2 < 2 ^ 64 ∧ ∀ c ∈ pickCompaction s.db.versionSet,
      s.db.idGen.next + (compactedFiles s.dir s.db c).length < 2 ^ 64 :=
  ⟨fun h => ⟨h.seq, h.next, h.compaction⟩, fun h => ⟨h.1, h.2.1, h.2.2⟩⟩

instance (s : Running) : Decidable s.Room := decidable_of_iff' _ (room_iff s)

instance : ∀ (op : Op) (s : Running), Decidable (op.Ready s)
  | .put key value, s => inferInstanceAs (Decidable (Writable key value ∧ ¬s.db.stalled))
  | .delete key, s => inferInstanceAs (Decidable (Writable key [] ∧ ¬s.db.stalled))
  | .release i, s => inferInstanceAs (Decidable (i < s.guards.length))
  | .flush, _ | .compact, _ | .read _ _, _ | .snapshot, _ | .reopen _, _ => isTrue trivial

instance (op : Op) (s : Running) : Decidable (op.Sound s) := by unfold Op.Sound; infer_instance

instance decidableAlong {C : Op → Running → Prop} [∀ op s, Decidable (C op s)] :
    ∀ (ops : List Op) (s : Running), Decidable (Along C ops s)
  | [], _ => isTrue trivial
  | op :: ops, s =>
    have : ∀ s', Decidable (Along C ops s') := decidableAlong ops
    inferInstanceAs (Decidable (C op s ∧ ∀ s' ∈ op.run s, Along C ops s'))

end Deciding

/-- The database is in step with its directory, and the memory table is what its log replays to. -/
structure Running.Ok (s : Running) (flushed : Nat) (log : List WalEntry) : Prop where
  inv : Inv s.dir s.db flushed log
  mem : s.db.memtable = replayed flushed log

/-- `s'` is `s` after the write of `e`. -/
structure Writes (e : WalEntry) (s s' : Running) (flushed : Nat) (log : List WalEntry) : Prop where
  applied : Applied s.dir s.db flushed log e s'.dir s'.db
  seq : e.seq = s.db.memtable.seq + 1
  guards : s'.guards = s.guards

/-- `s'` is `s` after a flush. -/
structure Flushes (s s' : Running) : Prop where
  flushed : Flushed s.dir s.db s'.dir s'.db
  guards : s'.guards = s.guards

/-- `s'` is `s` after the compaction `c`. -/
structure Compacts (c : Compaction) (s s' : Running) (flushed : Nat) (log : List WalEntry) :
    Prop where
  picked : pickCompaction s.db.versionSet = some c
  compacted : Compacted s.dir s.db flushed log c s'.dir s'.db
  guards : s'.guards = s.guards

/-- `s'` is `s` after a clean close and another opening. -/
structure Reopens (s s' : Running) (flushed : Nat) : Prop where
  reopened : Reopened s.dir (s.db.saved flushed) s.db.memtable s'.dir s'.db
  guards : s'.guards = []

/-- `s'` differs from `s` in the cache, the snapshots and the guards at most. -/
structure Keeps (s s' : Running) : Prop where
  dir : s'.dir = s.dir
  db : s'.db = { s.db with
    versionSet := { s.db.versionSet with snapshots := s'.db.versionSet.snapshots }
    tableCache := s'.db.tableCache }

/-- The entry that the call logs, if it is a write. -/
def Op.entry : Op → Db → Option WalEntry
  | put key value, db => some (nextEntry db .put key value)
  | delete key, db => some (nextEntry db .delete key [])
  | _, _ => none

/-- What a call that returns with `s'` has done. -/
inductive Did (s s' : Running) (flushed : Nat) (log : List WalEntry) : Op → Prop
  | write {op : Op} {e : WalEntry} {s₁ : Running} : op.entry s.db = some e →
      Writes e s s₁ flushed log → s₁.Ok flushed (log ++ [e]) →
      (if s₁.db.full then Flushes s₁ s' else s' = s₁) → Did s s' flushed log op
  | flush : Flushes s s' → Did s s' flushed log .flush
  | compact {c : Compaction} : Compacts c s s' flushed log → Did s s' flushed log .compact
  | keep {op : Op} : op.entry s.db = none → Keeps s s' → s'.guards = s.guards →
      s'.db.versionSet.snapshots = s.db.versionSet.snapshots → Did s s' flushed log op
  | snapshot : Keeps s s' →
      s'.guards = s.guards ++
        [{ seq := s.db.versionSet.lastSequence, seen := fun key => readNow key s.db s.dir }] →
      s'.db.versionSet.snapshots =
        s.db.versionSet.snapshots ++ [s.db.versionSet.lastSequence] →
      Did s s' flushed log .snapshot
  | release {i : Nat} {g : Guard} : s.guards[i]? = some g → Keeps s s' →
      s'.guards = s.guards.eraseIdx i →
      s'.db.versionSet.snapshots = s.db.versionSet.snapshots.filter (· ≠ g.seq) →
      Did s s' flushed log (.release i)
  | reopen {options : Options} : Reopens s s' flushed → Did s s' flushed log (.reopen options)

section Calls

variable {s : Running} {flushed : Nat} {log : List WalEntry}

omit [Crc32c] in
theorem call_of_spec {α : Type} {m : St Db α} {Q : α → Db → Dir → Prop}
    (h : Spec Quiet m Q Never s.db s.dir) :
    ∃ a s', s.call m = some s' ∧ s'.guards = s.guards ∧ Q a s'.db s'.dir := by
  obtain ⟨a, db, w, hRun, hQ⟩ := h.run
  exact ⟨a, { s with db, dir := w.dir }, by rw [Running.call, hRun], rfl, hQ⟩

theorem Flushes.ok {s' : Running} (hFlushes : Flushes s s') :
    s'.Ok s.db.memtable.seq [] :=
  ⟨hFlushes.flushed.inv, hFlushes.flushed.mem⟩

/-- A write that fits returns. -/
theorem Inv.write_run (h : Inv s.dir s.db flushed log) (hRoom : s.Room) {vtype : ValueType}
    {key value : Bytes} (hKey : Writable key value) :
    ∃ s', s.call (Db.write key value vtype) = some s' ∧
      ∃ s₁, Writes (nextEntry s.db vtype key value) s s₁ flushed log ∧
        if s₁.db.full then Flushes s₁ s' else s' = s₁ := by
  have hSeq : s.db.memtable.seq + 1 < 2 ^ 64 := h.seq ▸ hRoom.seq_lt
  obtain ⟨⟨⟩, s', hCall, hGuards, d₁, db₁, hApplied, hRest⟩ := call_of_spec
    (write_spec h hKey.2 hRoom.next hSeq)
  refine ⟨s', hCall, { s with db := db₁, dir := d₁ }, ⟨hApplied, rfl, rfl⟩, ?_⟩
  split at hRest
  · next hFull =>
    rw [if_pos hFull]
    exact ⟨hRest, hGuards⟩
  · next hFull =>
    obtain ⟨db', dir', guards'⟩ := s'
    obtain ⟨rfl, rfl⟩ := hRest
    rw [if_neg hFull, show guards' = s.guards from hGuards]

theorem Writes.ok {e : WalEntry} {s₁ : Running} (hWrites : Writes e s s₁ flushed log)
    (h : s.Ok flushed log) : s₁.Ok flushed (log ++ [e]) := by
  refine ⟨hWrites.applied.inv, ?_⟩
  rw [replayed_append, ← h.mem]
  exact hWrites.applied.mem

theorem Inv.flush_run (h : Inv s.dir s.db flushed log) (hRoom : s.Room) :
    ∃ s', s.call Db.flushMemtable = some s' ∧
      (s.db.memtable.entries = 0 ∧ s' = s ∨ Flushes s s') := by
  by_cases hMem : s.db.memtable.skiplist = []
  · have hEntries : s.db.memtable.entries = 0 := by
      rw [h.mem.count, hMem]
      rfl
    obtain ⟨⟨⟩, ⟨db', dir', guards'⟩, hCall, hGuards, rfl, rfl⟩ := call_of_spec (s := s)
      (m := Db.flushMemtable) (Q := fun _ db' d' => db' = s.db ∧ d' = s.dir)
      (Spec.bind (Spec.self (by rw [if_pos hEntries]; exact Spec.pure ⟨rfl, rfl⟩)))
    exact ⟨_, hCall, .inl ⟨hEntries, by rw [show guards' = s.guards from hGuards]⟩⟩
  · have hSeq : s.db.memtable.seq < 2 ^ 64 := h.seq ▸ Nat.lt_of_succ_lt hRoom.seq_lt
    obtain ⟨⟨⟩, s', hCall, hGuards, hFlushed⟩ := call_of_spec
      (flushMemtable_quiet h hMem hRoom.next hSeq)
    exact ⟨s', hCall, .inr ⟨hFlushed, hGuards⟩⟩

theorem Inv.compact_run (h : Inv s.dir s.db flushed log) (hRoom : s.Room) :
    ∃ s', s.call Db.runOneCompaction = some s' ∧
      (pickCompaction s.db.versionSet = none ∧ s' = s ∨ ∃ c, Compacts c s s' flushed log) := by
  have hSeq : s.db.versionSet.lastSequence < 2 ^ 64 := Nat.lt_of_succ_lt hRoom.seq_lt
  obtain ⟨r, s', hCall, hGuards, hQ⟩ := call_of_spec
    ((runOneCompaction_spec h hRoom.compaction hSeq).quiet (by
      rintro f y d' ⟨c, -, ⟨hFails, -⟩ | ⟨_, _, _, _, _, _, hFailed⟩⟩
      · exact hFails
      · exact hFailed.fails.1))
  refine ⟨s', hCall, ?_⟩
  cases hPick : pickCompaction s.db.versionSet with
  | none =>
    rw [hPick] at hQ
    obtain ⟨db', dir', guards'⟩ := s'
    obtain ⟨-, rfl, rfl⟩ := hQ
    exact .inl ⟨rfl, by rw [show guards' = s.guards from hGuards]⟩
  | some c =>
    rw [hPick] at hQ
    exact .inr ⟨c, hPick, hQ.2, hGuards⟩

theorem Inv.read_run (h : Inv s.dir s.db flushed log) (seq : Nat) (key : Bytes) :
    ∃ s', s.ended (Db.getAt seq key) = some s' ∧ Inv s'.dir s'.db flushed log ∧ Keeps s s' ∧
      s'.guards = s.guards ∧ s'.db.versionSet.snapshots = s.db.versionSet.snapshots := by
  have hEnds (cache : TableCache) (hAgrees : cache.Agrees s.dir s.db.versionSet.nextFileNumber) :=
    show Inv s.dir { s.db with tableCache := cache } flushed log from { h with cache := hAgrees }
  unfold Running.ended
  rcases (getAt_spec (A := Quiet) h.readable seq key).result (List.forall_mem_nil _) with
    ⟨r, y, w, hRun, hDir, -, cache, hAgrees, rfl⟩ |
    ⟨f, y, w, hRun, hFails | ⟨e, rfl, -⟩, hDir, cache, hAgrees, rfl⟩
  · rw [hRun]
    exact ⟨_, rfl, hDir ▸ hEnds cache hAgrees, ⟨hDir, rfl⟩, rfl, rfl⟩
  · exact absurd hFails not_fails_quiet
  · rw [hRun]
    exact ⟨_, rfl, hDir ▸ hEnds cache hAgrees, ⟨hDir, rfl⟩, rfl, rfl⟩

/-- A clean close and another opening return, with what the log replays to in a table file. -/
theorem Inv.reopen_run (h : Inv s.dir s.db flushed log)
    (hMem : MemOk (replayed flushed log) flushed)
    (hRoom : s.Room) (options : Options) :
    ∃ s', (closed s).bind (opened options) = some s' ∧
      Reopened s.dir (s.db.saved flushed) (replayed flushed log) s'.dir s'.db ∧
      Inv s'.dir s'.db (replayed flushed log).seq [] ∧ s'.guards = [] := by
  obtain ⟨⟨⟩, ⟨⟩, w, hClose, -, hInv, hFrame, -⟩ :=
    ((h.close_spec (A := Quiet) (x := ())).quiet fun _ _ _ hE => hE.2.1).run
  have hNext : s.db.versionSet.nextFileNumber + 2 < 2 ^ 64 := by
    have := h.next
    have := hRoom.next
    omega
  obtain ⟨db', ⟨⟩, w', hOpen, -, hInv', hRe, -⟩ :=
    ((hInv.open_spec (A := Quiet) (x := ()) hRoom.seq_lt hNext halts_quiet hMem).quiet
      fun _ _ _ hE => hE.2.choose_spec.fails).run
  refine ⟨{ db := db', dir := w'.dir, guards := [] }, ?_, ?_, hInv', rfl⟩
  · rw [closed, hClose, Option.bind_some, opened, hOpen]
  · have hSame : ∀ n, w.dir.lookup (.sst n) = s.dir.lookup (.sst n) := fun n => hFrame _ (by simp)
    exact { hRe with tables := fun level f hf => (hRe.tables level f hf).trans (hSame _) }

theorem reopen_run (h : s.Ok flushed log) (hRoom : s.Room) (options : Options) :
    ∃ s', (closed s).bind (opened options) = some s' ∧ Reopens s s' flushed ∧
      s'.Ok s.db.memtable.seq [] := by
  obtain ⟨s', hRun, hRe, hInv, hGuards⟩ := h.inv.reopen_run (h.mem ▸ h.inv.mem) hRoom options
  rw [← h.mem] at hRe hInv
  exact ⟨s', hRun, ⟨hRe, hGuards⟩, hInv, hRe.mem⟩

/-- A call that is sound returns, and leaves the database in step with its directory. -/
theorem Op.Sound.run {op : Op} (hSound : op.Sound s) (h : s.Ok flushed log) :
    ∃ s', op.run s = some s' ∧ (∃ flushed' log', s'.Ok flushed' log') ∧
      Did s s' flushed log op := by
  obtain ⟨hReady, hRoom⟩ := hSound
  have hWrite : ∀ {vtype key value}, Writable key value → op.entry s.db =
      some (nextEntry s.db vtype key value) → ∃ s', s.call (Db.write key value vtype) = some s' ∧
        (∃ flushed' log', s'.Ok flushed' log') ∧ Did s s' flushed log op := by
    intro vtype key value hKey hEntry
    obtain ⟨s', hCall, s₁, hWrites, hRest⟩ := h.inv.write_run hRoom hKey
    have hOk₁ := hWrites.ok h
    refine ⟨s', hCall, ?_, .write hEntry hWrites hOk₁ hRest⟩
    split at hRest
    · exact ⟨_, _, hRest.ok⟩
    · exact hRest ▸ ⟨_, _, hOk₁⟩
  have hSelf : op.entry s.db = none → Did s s flushed log op := fun hEntry =>
    .keep hEntry ⟨rfl, rfl⟩ rfl rfl
  cases op with
  | put key value =>
    obtain ⟨hKey, hFree⟩ := hReady
    rw [Op.run, if_neg hFree, Db.put, if_neg hKey.1]
    exact hWrite hKey rfl
  | delete key =>
    obtain ⟨hKey, hFree⟩ := hReady
    rw [Op.run, if_neg hFree, Db.delete, if_neg hKey.1]
    exact hWrite hKey rfl
  | flush =>
    obtain ⟨s', hCall, ⟨-, rfl⟩ | hFlushes⟩ := h.inv.flush_run hRoom
    · exact ⟨_, hCall, ⟨_, _, h⟩, hSelf rfl⟩
    · exact ⟨s', hCall, ⟨_, _, hFlushes.ok⟩, .flush hFlushes⟩
  | compact =>
    obtain ⟨s', hCall, ⟨-, rfl⟩ | ⟨c, hCompacts⟩⟩ := h.inv.compact_run hRoom
    · exact ⟨_, hCall, ⟨_, _, h⟩, hSelf rfl⟩
    · exact ⟨s', hCall, ⟨_, _, hCompacts.compacted.inv, hCompacts.compacted.mem.trans h.mem⟩,
        .compact hCompacts⟩
  | read seq key =>
    obtain ⟨s', hCall, hInv, hKeeps, hGuards, hSnapshots⟩ := h.inv.read_run seq key
    have hMem : s'.db.memtable = s.db.memtable := by rw [hKeeps.db]
    exact ⟨s', hCall, ⟨_, _, hInv, hMem.trans h.mem⟩, .keep rfl hKeeps hGuards hSnapshots⟩
  | snapshot => exact ⟨_, rfl, ⟨_, _, { h.inv with }, h.mem⟩, .snapshot ⟨rfl, rfl⟩ rfl rfl⟩
  | release i =>
    have hGet : s.guards[i]? = some s.guards[i] := List.getElem?_eq_getElem hReady
    refine ⟨{ db := { s.db with versionSet := s.db.versionSet.releaseSnapshot s.guards[i].seq }
              dir := s.dir, guards := s.guards.eraseIdx i }, ?_, ⟨_, _, { h.inv with }, h.mem⟩,
      .release hGet ⟨rfl, rfl⟩ rfl rfl⟩
    rw [Op.run, hGet]
    rfl
  | reopen options =>
    obtain ⟨s', hRun, hReopens, hOk⟩ := reopen_run h hRoom options
    exact ⟨s', hRun, ⟨_, _, hOk⟩, .reopen hReopens⟩

end Calls

end Running

/-- The memory table is flushed after each write, and compactions are called for. -/
def eager : Options :=
  { memtableFlushEntries := 1, blockSize := 64, bloomBitsPerKey := 1,
    disableAutoCompaction := true }

end MulanLsm
