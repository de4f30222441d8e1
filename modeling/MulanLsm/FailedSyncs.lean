import MulanLsm.PointReads
import MulanLsm.SharedNumbers

/-! Writes whose sync fails.  The database goes on, with the record in its log and without the write
in its memory table.  The next opening finds what its readers found, but for keys that were deleted
under the number of a put that failed. -/

namespace MulanLsm

open Versioned (Reads)

section Recovered

variable [Crc32c] {d d' : Dir} {db db' : Db} {flushed : Nat} {log : List WalEntry} {k : Bytes}
  {s : Nat} {state : VersionState} {m : MemTable} {options : Options}

omit [Crc32c] in
/-- A reader of a database that was opened looks first in what its log held. -/
theorem Reopened.lookup (h : Reopened d state m d' db') :
    db'.lookup d' s k = (seek m.skiplist k s).or (Db.inFiles d state.current s k) := by
  have hMem : seek db'.memtable.skiplist k s = none := by
    rw [h.mem]
    rfl
  rw [Db.lookup, hMem, Option.none_or]
  exact h.grown.inFiles s k

omit [Crc32c] in
theorem Reopened.readable (h : Reopened d state m d' db')
    (hNumbered : Numbered state.current state.nextFileNumber)
    (hTables : ∀ level, ∀ f ∈ state.current.filesAt level, ∃ es, d.table f.number = some es) :
    Readable d' db' db'.versionSet.nextFileNumber := by
  have hLt := h.numbers.1
  refine ⟨h.cache ▸ TableCache.Agrees.empty _ _ _, fun level f hf => ?_⟩
  rcases h.file hf with hf | ⟨hNumber, hDesc⟩
  · refine ⟨(hNumbered.below level f hf).trans hLt, ?_⟩
    rw [Dir.table, h.tables level f hf]
    exact hTables level f hf
  · exact ⟨hNumber ▸ hLt, _, hDesc.table.table⟩

omit [Crc32c] in
/-- The tables that were there before have the sizes that they have after. -/
theorem Reopened.sized {s r : Running} (h : Reopened s.dir state m r.dir r.db)
    (hCurrent : s.db.versionSet.current = state.current) (hSized : r.Sized) : s.Sized := by
  intro level f hf file hFile
  have hf' : f ∈ state.current.filesAt level := hCurrent ▸ hf
  exact hSized level f (h.keeps hf') file (by rwa [h.tables level f hf'])

/-- The opening of a database that was in step with its directory returns, and its readers find what
the log replays to, and then what the files have, if its tables have sizes that they can do with. -/
theorem Inv.recovers (h : Inv d db flushed log) (hSeq : db.versionSet.lastSequence + 1 < 2 ^ 64)
    (hRoom : db.versionSet.nextFileNumber + 2 < 2 ^ 64) (options : Options) :
    ∃ r, opened options d = some r ∧
      Reopened d (db.saved flushed) (replayed flushed log) r.dir r.db ∧
      (d.Faithful (fun _ _ => True) → r.Sized → ∀ k, readNow k r.db r.dir =
        some (((seek (replayed flushed log).skiplist k (replayed flushed log).seq).or
          (Db.inFiles d db.versionSet.current (replayed flushed log).seq k)).bind
            Entry.value)) := by
  obtain ⟨offset, hSpec⟩ := h.opened_spec (A := Quiet) (x := ()) options hSeq hRoom halts_quiet
  obtain ⟨db', ⟨⟩, w, hOpen, -, hOpened⟩ := (hSpec.quiet fun _ _ _ hE => hE.2.fails).run
  obtain ⟨hRe, -⟩ := hOpened.reopened (h.openable hSeq hRoom).numbered
  have hRun : opened options d = some { db := db', dir := w.dir, guards := [] } := by
    rw [opened, hOpen]
  refine ⟨_, hRun, hRe, fun hd hSized k => ?_⟩
  have hReadable := hRe.readable (h.openable hSeq hRoom).numbered fun level f hf =>
    ⟨_, (h.tables level f hf).describes.table.table⟩
  have hLog : (replayed flushed log).seq ≤ db.versionSet.lastSequence + 1 :=
    replayed_seq_le (h.flushedLe.trans (Nat.le_succ _)) fun e he => (h.logged e he).2.2
  have hServes : Running.Serves { db := db', dir := w.dir, guards := [] } := by
    refine (opened_built hd hRun).serves (fun level f hf e he => ?_) hSized
    rcases hRe.file hf with hf | ⟨-, hDesc⟩
    · have hSame : w.dir.entries f.number = d.entries f.number := by
        rw [Dir.entries, Dir.table, hRe.tables level f hf]
        rfl
      have := ((h.tables level f hf).seqs e (hSame ▸ he)).trans h.flushedLe
      omega
    · obtain ⟨w', hw, rfl⟩ := mem_replayed.mp (hDesc.entries ▸ he)
      have := (h.logged w' hw).2.2
      exact this.trans_lt hSeq
  have hLast : db'.versionSet.lastSequence < 2 ^ 64 := by
    rw [hRe.lastSequence]
    omega
  rw [hReadable.readNow, Version.Serves.answer hServes hReadable hLast, hRe.lookup,
    hRe.lastSequence]
  rfl

end Recovered

/-- A file-system call fails, and the machine goes on. -/
def Outcome.failed : Outcome → Bool
  | .fail _ => true
  | _ => false

/-- A request of a user, with how its file-system calls go; or a compaction in the background, with
calls that all succeed. -/
inductive Event
  | request (r : Request) (outcomes : List Outcome)
  | compact

section Events

variable [Crc32c]

/-- The state after a call that returns or fails, and whether it has returned. -/
def Running.attempt (s : Running) (m : St Db Unit) (os : List Outcome) : Option (Bool × Running) :=
  match m (s.db, ⟨s.dir, os⟩) with
  | .ok _ (db, w) => some (true, { s with db, dir := w.dir })
  | .error (.error _) (db, w) => some (false, { s with db, dir := w.dir })
  | .error _ _ => none

/-- How a request was answered by the database `db`, if no call failed but the sync. -/
def Request.answer (r : Request) (db : Db) (returned : Bool) : Answer :=
  if r.key = [] then .refused
  else if !returned then .unsynced
  else if (db.applyWrite r.vtype r.key r.bytes).full then .flushed
  else .applied

/-- A request with an empty key is refused at once; another one that would wait does not return. -/
def Event.run : Event → Running → Option (List Attempt × Running)
  | request r os, s =>
    if r.key ≠ [] ∧ s.db.stalled then none
    else (s.attempt r.call os).map fun (returned, s') =>
      ([{ request := r, answer := r.answer s.db returned }], s')
  | compact, s => (s.call Db.runOneCompaction).map ([], ·)

def eventsRun : List Event → Running → Option (List Attempt × Running)
  | [], s => some ([], s)
  | e :: es, s => do
    let (attempts, s) ← e.run s
    let (past, s) ← eventsRun es s
    return (attempts ++ past, s)

/-- The outcomes that are left when the record of a request is in the log. -/
def outcomesAfterRecord (r : Request) (os : List Outcome) (s : Running) : Option (List Outcome) :=
  match Db.onWal (WalWriter.addRecord (r.entry (s.db.memtable.seq + 1)).encode)
    (s.db, ⟨s.dir, os⟩) with
  | .ok _ (_, w) => some w.outcomes
  | .error _ _ => none

/-- The record of the request is completely written, and the sync behind it fails. -/
def SyncFails (r : Request) (os : List Outcome) (s : Running) : Prop :=
  s.db.options.syncWrites = true ∧
    ∃ o rest, outcomesAfterRecord r os s = some (o :: rest) ∧ o.failed = true

/-- No call fails but a sync behind a record, writes fit and need not wait, and the counters have
room. -/
def Event.Fair : Event → Running → Prop
  | request r os, s => r.key = [] ∨
    Writable r.key r.bytes ∧ ¬s.db.stalled ∧ s.Room ∧ (os = [] ∨ SyncFails r os s)
  | compact, s => s.Room

/-- Every event is fair in the state in which it happens. -/
def Fairly : List Event → Running → Prop
  | [], s => s.Room
  | e :: es, s => e.Fair s ∧ ∀ attempts s', e.run s = some (attempts, s') → Fairly es s'

/-- `P` holds of every state of the run. -/
def Throughout (P : Running → Prop) : List Event → Running → Prop
  | [], s => P s
  | e :: es, s => P s ∧ ∀ attempts s', e.run s = some (attempts, s') → Throughout P es s'

/-- Every compaction appends its files in order. -/
def CompactsInOrder : List Event → Running → Prop
  | [], _ => True
  | e :: es, s =>
    (e = .compact → ∀ c, pickCompaction s.db.versionSet = some c → AppendsInOrder s.dir s.db c) ∧
      ∀ attempts s', e.run s = some (attempts, s') → CompactsInOrder es s'

section Deciding

instance (r : Request) (os : List Outcome) (s : Running) : Decidable (SyncFails r os s) :=
  decidable_of_iff (s.db.options.syncWrites = true ∧
    ((outcomesAfterRecord r os s).bind List.head?).any Outcome.failed) <| by
  refine and_congr_right fun _ => ?_
  cases outcomesAfterRecord r os s with
  | none => simp
  | some os' => cases os' <;> simp

instance decidableEventFair : ∀ (e : Event) (s : Running), Decidable (e.Fair s)
  | .request r os, s => inferInstanceAs (Decidable (r.key = [] ∨
      Writable r.key r.bytes ∧ ¬s.db.stalled ∧ s.Room ∧ (os = [] ∨ SyncFails r os s)))
  | .compact, s => inferInstanceAs (Decidable s.Room)

instance decidableFairly : ∀ (es : List Event) (s : Running), Decidable (Fairly es s)
  | [], s => inferInstanceAs (Decidable s.Room)
  | e :: es, s =>
    have : ∀ s', Decidable (Fairly es s') := decidableFairly es
    decidable_of_iff (e.Fair s ∧ ∀ r ∈ e.run s, Fairly es r.2)
      (and_congr_right fun _ => ⟨fun h attempts s' hRun => h (attempts, s') hRun,
        fun h r hRun => h r.1 r.2 hRun⟩)

instance decidableThroughout {P : Running → Prop} [∀ s, Decidable (P s)] :
    ∀ (es : List Event) (s : Running), Decidable (Throughout P es s)
  | [], s => inferInstanceAs (Decidable (P s))
  | e :: es, s =>
    have : ∀ s', Decidable (Throughout P es s') := decidableThroughout es
    decidable_of_iff (P s ∧ ∀ r ∈ e.run s, Throughout P es r.2)
      (and_congr_right fun _ => ⟨fun h attempts s' hRun => h (attempts, s') hRun,
        fun h r hRun => h r.1 r.2 hRun⟩)

end Deciding

section Building

variable {s s' : Running} {e : Event} {es : List Event} {attempts : List Attempt}
  {P P' : Running → Prop}

omit [Crc32c] in
/-- A call that returns or fails leaves the tables as builders make them. -/
theorem Running.Makes.attempt {P : Nat → Nat → Prop} {m : St Db Unit} {os : List Outcome}
    {returned : Bool}
    (h : Keeping Any (Dir.Faithful P) m s.db (fun _ => Db.Tidy P) (Db.Tidy P))
    (hd : s.dir.Faithful P)
    (hAttempt : s.attempt m os = some (returned, s')) : s'.Makes P := by
  have hSpec := h s.dir hd os fun _ _ => trivial
  unfold Running.attempt at hAttempt
  split at hAttempt
  · next hRun =>
    cases hAttempt
    obtain ⟨⟨hTidy, hFaithful⟩, -⟩ := (Effects.wp_ok hRun).mp hSpec
    exact ⟨hFaithful, hTidy⟩
  · next hRun =>
    cases hAttempt
    obtain ⟨⟨hTidy, hFaithful⟩, -⟩ := (Effects.wp_error hRun).mp hSpec
    exact ⟨hFaithful, hTidy⟩
  · contradiction

theorem Event.run_built (h : s.Built) (hRun : e.run s = some (attempts, s')) : s'.Built := by
  cases e with
  | request r os =>
    rw [Event.run] at hRun
    split at hRun
    · contradiction
    · obtain ⟨⟨returned, s₁⟩, hAttempt, hEq⟩ := Option.map_eq_some_iff.mp hRun
      cases hEq
      cases hValue : r.value with
      | none =>
        rw [Request.call, hValue] at hAttempt
        exact .attempt (Call.run_faithful h.tidy (.delete r.key)) h.faithful hAttempt
      | some value =>
        rw [Request.call, hValue] at hAttempt
        exact .attempt (Call.run_faithful h.tidy (.put r.key value)) h.faithful hAttempt
  | compact =>
    obtain ⟨s₁, hCall, hEq⟩ := Option.map_eq_some_iff.mp hRun
    cases hEq
    exact .call (runOneCompaction_faithful h.tidy) h.faithful hCall

theorem eventsRun_built (h : s.Built) (hRun : eventsRun es s = some (attempts, s')) : s'.Built := by
  induction es generalizing s attempts with
  | nil =>
    cases hRun
    exact h
  | cons e es ih =>
    obtain ⟨⟨first, s₁⟩, hStep, hRest⟩ := Option.bind_eq_some_iff.mp hRun
    obtain ⟨⟨rest, s₂⟩, hRest, hEq⟩ := Option.bind_eq_some_iff.mp hRest
    cases hEq
    exact ih (Event.run_built h hStep) hRest

theorem Throughout.last (h : Throughout P es s) (hRun : eventsRun es s = some (attempts, s')) :
    P s' := by
  induction es generalizing s attempts with
  | nil =>
    cases hRun
    exact h
  | cons e es ih =>
    obtain ⟨⟨first, s₁⟩, hStep, hRest⟩ := Option.bind_eq_some_iff.mp hRun
    obtain ⟨⟨rest, s₂⟩, hRest, hEq⟩ := Option.bind_eq_some_iff.mp hRest
    cases hEq
    exact ih (h.2 first s₁ hStep) hRest

theorem Throughout.mono (h : Throughout P es s) (hP : ∀ s, P s → P' s) : Throughout P' es s := by
  induction es generalizing s with
  | nil => exact hP s h
  | cons e es ih => exact ⟨hP s h.1, fun attempts s' hRun => ih (h.2 attempts s' hRun)⟩

end Building

/-- A database that has taken some requests since it was opened new: its log holds what `tally`
says, and its versions say what the requests wrote that returned.  Its deeper levels are in order if
`inOrder` holds. -/
structure Tried (past : List Attempt) (s : Running) (flushed : Nat) (inOrder : Prop) : Prop where
  inv : Inv s.dir s.db flushed (tally flushed (unflushed past)).logged
  mem : s.db.memtable = replayed flushed (tally flushed (unflushed past)).kept
  ordered : inOrder → Ordered s.db.versionSet.current
  recent : Recent s.dir s.db.versionSet.current
  apart : Apart s.dir s.db.versionSet.current
  unregistered : s.db.versionSet.snapshots = []
  now : ∀ k, Reads s.contents k s.last (said past k)

section Steps

variable {past : List Attempt} {s s' s₁ s0 : Running} {flushed : Nat} {r : Request}
  {os : List Outcome} {log : List WalEntry} {es : List Event} {e : Event} {options : Options}
  {inOrder inOrder' : Prop}

theorem Tried.seq (h : Tried past s flushed inOrder) :
    s.db.memtable.seq = (tally flushed (unflushed past)).seq := by
  rw [h.mem, replayed_kept_seq]

theorem Tried.start (h : opened options ∅ = some s0) : Tried [] s0 0 True := by
  obtain ⟨hOk, hCreated, -⟩ := opened_new h
  have hView : Refines [] s0 := hCreated.refines
  exact ⟨hOk.inv, hOk.mem, fun _ => hView.ordered, hView.recent, hView.apart, hCreated.snapshots,
    hView.now⟩

/-- A request that is logged and applied. -/
theorem Tried.applied (h : Tried past s flushed inOrder)
    (hWrites : Writes (r.entry (s.db.memtable.seq + 1)) s s₁ flushed
      (tally flushed (unflushed past)).logged) :
    Tried (past ++ [{ request := r, answer := .applied }]) s₁ flushed inOrder := by
  have hApplied := hWrites.applied
  have hCurrent : s₁.db.versionSet.current = s.db.versionSet.current := by rw [hApplied.version]
  have hSame : SameTables s.db.versionSet.current s.dir s₁.dir := fun _ f _ =>
    hApplied.tables f.number
  have hTally : tally flushed (unflushed (past ++ [{ request := r, answer := .applied }])) =
      { seq := s.db.memtable.seq + 1
        logged := (tally flushed (unflushed past)).logged ++ [r.entry (s.db.memtable.seq + 1)]
        kept := (tally flushed (unflushed past)).kept ++ [r.entry (s.db.memtable.seq + 1)] } := by
    rw [unflushed_append, if_neg (by simp), tally_append, h.seq]
    rfl
  refine ⟨?_, ?_, ?_, ?_, ?_, ?_, fun k => ?_⟩
  · rw [hTally]
    exact hApplied.inv
  · rw [hTally, replayed_append, ← h.mem]
    exact hApplied.mem
  · exact hCurrent ▸ h.ordered
  · exact hCurrent ▸ h.recent.congr hSame
  · exact hCurrent ▸ h.apart.congr hSame
  · rw [hApplied.version]
    exact h.unregistered
  · obtain ⟨hSelf, hOther, -⟩ := hWrites.reads h.inv
    have hSaid : said (past ++ [{ request := r, answer := .applied }]) =
        Function.update (said past) r.key r.value := (said_append _ _).trans (if_pos rfl)
    rw [hWrites.contents.2, hSaid]
    by_cases hk : k = r.key
    · subst hk
      rw [Function.update_self, ← Request.entry_value r (s.db.memtable.seq + 1)]
      exact hSelf
    · rw [Function.update_of_ne hk]
      exact hOther k _ hk (h.now k)

/-- A flush of what was applied starts a new log. -/
theorem Tried.flushes (h : Tried (past ++ [{ request := r, answer := .applied }]) s flushed inOrder)
    (hFlushed : Flushed s.dir s.db s'.dir s'.db) :
    Tried (past ++ [{ request := r, answer := .flushed }]) s' s.db.memtable.seq inOrder := by
  have hGrown := hFlushed.grown h.inv
  have hTally : tally s.db.memtable.seq
      (unflushed (past ++ [{ request := r, answer := .flushed }])) =
      { seq := s.db.memtable.seq, logged := [], kept := [] } := by
    rw [unflushed_append, if_pos rfl]
    rfl
  refine ⟨?_, ?_, fun ho => hGrown.ordered (h.ordered ho), hGrown.recent h.recent h.inv.newer,
    hGrown.apart h.apart, hFlushed.snapshots.trans h.unregistered, fun k => ?_⟩
  · rw [hTally]
    exact hFlushed.inv
  · rw [hTally]
    exact hFlushed.mem
  · have hContents : s'.contents = s.contents := hGrown.contents (by rw [hFlushed.mem]; rfl)
    have hLast : s'.last = s.last := hFlushed.lastSequence
    have hNow := h.now k
    rw [said_append] at hNow ⊢
    rw [hContents, hLast]
    exact hNow

omit [Crc32c] in
theorem Running.attempt_of_call {m : St Db Unit} (h : s.call m = some s') :
    s.attempt m [] = some (true, s') := by
  unfold Running.call at h
  unfold Running.attempt
  split at h
  · next hRun =>
    rw [hRun]
    exact congrArg (fun s => some (true, s)) (Option.some.inj h)
  · cases h

/-- A request whose calls all succeed returns. -/
theorem Tried.returns (h : Tried past s flushed inOrder) (hKey : Writable r.key r.bytes)
    (hRoom : s.Room) :
    ∃ s' flushed', s.attempt r.call [] = some (true, s') ∧
      Tried (past ++ [{ request := r, answer := r.answer s.db true }]) s' flushed' inOrder := by
  obtain ⟨s', hCall, s₁, hWrites, hRest⟩ := h.inv.write_run hRoom hKey
  have hTried : Tried (past ++ [{ request := r, answer := .applied }]) s₁ flushed inOrder :=
    h.applied hWrites
  have hAttempt : s.attempt r.call [] = some (true, s') :=
    Running.attempt_of_call (r.call_eq hKey.1 ▸ hCall)
  have hFull : s₁.db.full = (s.db.applyWrite r.vtype r.key r.bytes).full := by
    unfold Db.full
    rw [hWrites.applied.mem, hWrites.applied.options]
    rfl
  have hAnswer : r.answer s.db true = if s₁.db.full then .flushed else .applied := by
    rw [Request.answer, if_neg hKey.1, hFull]
    rfl
  by_cases hNow : s₁.db.full = true
  · rw [if_pos hNow] at hRest hAnswer
    rw [hAnswer]
    exact ⟨_, _, hAttempt, hTried.flushes hRest.flushed⟩
  · rw [if_neg hNow] at hRest hAnswer
    subst hRest
    rw [hAnswer]
    exact ⟨_, _, hAttempt, hTried⟩

/-- A sync that fails behind a record leaves the record in the log. -/
theorem SyncFails.attempt (h : SyncFails r os s) (hInv : Inv s.dir s.db flushed log)
    (hKey : Writable r.key r.bytes) :
    ∃ s', s.attempt r.call os = some (false, s') ∧
      Inv s'.dir s'.db flushed (log ++ [r.entry (s.db.memtable.seq + 1)]) ∧
      s.dir.Frame {.log s.db.walNumber} s'.dir ∧ ∃ w, s'.db = { s.db with wal := w } := by
  obtain ⟨hSync, o, rest, hOutcomes, hFailed⟩ := h
  set e := r.entry (s.db.memtable.seq + 1) with he
  obtain ⟨B, hAt⟩ := hInv.wal
  unfold outcomesAfterRecord at hOutcomes
  rcases (hAt.addRecord_spec (A := fun _ => True) e.encode).result
      (fun (o : Outcome) (_ : o ∈ os) => trivial) with
    ⟨⟨⟩, wal, ⟨d, os'⟩, hRecord, ⟨_, B', _, _, hAt', hFrame⟩, -⟩ | ⟨f, wal, w, hRecord, -⟩
  · have hWal : Db.onWal (WalWriter.addRecord e.encode) (s.db, ⟨s.dir, os⟩) =
        .ok () ({ s.db with wal }, ⟨d, os'⟩) := onField_ok hRecord
    rw [hWal] at hOutcomes
    obtain rfl : os' = o :: rest := Option.some.inj hOutcomes
    obtain ⟨n, rfl⟩ : ∃ n, o = .fail n := by
      cases o with
      | fail n => exact ⟨n, rfl⟩
      | ok | crash => cases hFailed
    have hFails : (Db.onWal WalWriter.sync : St Db Unit) ({ s.db with wal }, ⟨d, .fail n :: rest⟩) =
        .error (.error .io) ({ s.db with wal }, ⟨d, rest⟩) := rfl
    have hWrite : Db.write r.key r.bytes r.vtype (s.db, ⟨s.dir, os⟩) =
        .error (.error .io) ({ s.db with wal }, ⟨d, rest⟩) := by
      apply bind_error
      refine (bind_ok hWal).trans ?_
      rw [if_pos hSync]
      exact hFails
    refine ⟨{ s with db := { s.db with wal }, dir := d }, ?_, ?_, hFrame, wal, rfl⟩
    · rw [Running.attempt, r.call_eq hKey.1, hWrite]
    · refine hInv.relog hFrame (by simpa using hAt') fun e' he' => ?_
      rcases List.mem_append.mp he' with he' | he'
      · exact hInv.logged e' he'
      · obtain rfl := List.mem_singleton.mp he'
        have := hInv.flushedLe
        have := hInv.seq
        have hNumber : e.seq = s.db.memtable.seq + 1 := rfl
        exact ⟨hKey.2, by omega, by omega⟩
  · have hWal : Db.onWal (WalWriter.addRecord e.encode) (s.db, ⟨s.dir, os⟩) =
        .error f ({ s.db with wal }, w) := onField_error hRecord
    rw [hWal] at hOutcomes
    cases hOutcomes

/-- A request whose sync fails. -/
theorem Tried.unsynced (h : Tried past s flushed inOrder) (hKey : Writable r.key r.bytes)
    (hFails : SyncFails r os s) :
    ∃ s', s.attempt r.call os = some (false, s') ∧
      Tried (past ++ [{ request := r, answer := r.answer s.db false }]) s' flushed inOrder := by
  obtain ⟨⟨db', dir', guards'⟩, hAttempt, hInv, hFrame, w, hDb⟩ := hFails.attempt h.inv hKey
  obtain rfl : db' = { s.db with wal := w } := hDb
  have hAnswer : r.answer s.db false = .unsynced := by
    rw [Request.answer, if_neg hKey.1]
    rfl
  have hTally : tally flushed (unflushed (past ++ [{ request := r, answer := .unsynced }])) =
      { seq := s.db.memtable.seq
        logged := (tally flushed (unflushed past)).logged ++ [r.entry (s.db.memtable.seq + 1)]
        kept := (tally flushed (unflushed past)).kept } := by
    rw [unflushed_append, if_neg (by simp), tally_append, h.seq]
    rfl
  have hSame : SameTables s.db.versionSet.current s.dir dir' := fun _ f _ =>
    Dir.entries_frame hFrame (by simp)
  refine ⟨_, hAttempt, ?_⟩
  rw [hAnswer]
  refine ⟨?_, ?_, h.ordered, h.recent.congr hSame, h.apart.congr hSame, h.unregistered, fun k => ?_⟩
  · rw [hTally]
    exact hInv
  · rw [hTally]
    exact h.mem
  · have hContents : Running.contents ⟨{ s.db with wal := w }, dir', guards'⟩ = s.contents := by
      unfold Running.contents Db.contents
      rw [stored_congr hSame]
    have hSaid : said (past ++ [{ request := r, answer := .unsynced }]) = said past :=
      (said_append _ _).trans (if_neg (by simp [Answer.ok]))
    rw [hContents, hSaid]
    exact h.now k

/-- A request with an empty key. -/
theorem Tried.refused (h : Tried past s flushed inOrder) (hKey : r.key = []) (os : List Outcome) :
    ∃ s', s.attempt r.call os = some (false, s') ∧
      Tried (past ++ [{ request := r, answer := r.answer s.db false }]) s' flushed inOrder := by
  have hAnswer : r.answer s.db false = .refused := if_pos hKey
  have hAttempt : s.attempt r.call os = some (false, s) := by
    obtain ⟨key, value⟩ := r
    obtain rfl : key = [] := hKey
    cases value <;> rfl
  have hTally : tally flushed (unflushed (past ++ [{ request := r, answer := .refused }])) =
      tally flushed (unflushed past) := by
    rw [unflushed_append, if_neg (by simp), tally_append]
    rfl
  have hSaid : said (past ++ [{ request := r, answer := .refused }]) = said past :=
    (said_append _ _).trans (if_neg (by simp [Answer.ok]))
  refine ⟨s, hAttempt, ?_⟩
  rw [hAnswer]
  refine ⟨?_, ?_, h.ordered, h.recent, h.apart, h.unregistered, ?_⟩
  · rw [hTally]
    exact h.inv
  · rw [hTally]
    exact h.mem
  · rw [hSaid]
    exact h.now

/-- A compaction changes neither the memory table nor the log. -/
theorem Tried.compacts (h : Tried past s flushed inOrder) (hRoom : s.Room) :
    ∃ s', s.call Db.runOneCompaction = some s' ∧ Tried past s' flushed (inOrder ∧
      ∀ c, pickCompaction s.db.versionSet = some c → AppendsInOrder s.dir s.db c) := by
  obtain ⟨s', hCall, ⟨-, rfl⟩ | ⟨c, hCompacts⟩⟩ := h.inv.compact_run hRoom
  · exact ⟨s', hCall, { h with ordered := fun ho => h.ordered ho.1 }⟩
  · have hPicked := pickCompaction_picked hCompacts.picked
    have hCompacted := hCompacts.compacted
    have hOldest : s.db.versionSet.oldestSnapshotSeq = maxSequence := by
      rw [VersionSet.oldestSnapshotSeq, h.unregistered]
      rfl
    have hWhole : ¬CutsBetweenVersions s.dir s.db c :=
      h.inv.not_cuts hPicked (hOldest ▸ h.inv.flushedLe.trans hRoom.seq.le)
    exact ⟨s', hCall, hCompacted.inv, hCompacted.mem.trans h.mem,
      fun ho => hCompacted.ordered h.inv hPicked (h.ordered ho.1) (ho.2 c hCompacts.picked),
      hCompacted.recent h.inv hPicked h.recent h.apart,
      hCompacted.apart h.inv hPicked h.apart hWhole, hCompacted.snapshots.trans h.unregistered,
      fun k => hCompacted.now h.inv hPicked h.recent h.apart (h.now k)⟩

theorem Tried.mono (h : Tried past s flushed inOrder) (hOrder : inOrder' → inOrder) :
    Tried past s flushed inOrder' := { h with ordered := fun ho => h.ordered (hOrder ho) }

theorem Tried.step (h : Tried past s flushed inOrder) (hFair : e.Fair s) :
    ∃ attempts s' flushed', e.run s = some (attempts, s') ∧
      Tried (past ++ attempts) s' flushed' (inOrder ∧ (e = .compact →
        ∀ c, pickCompaction s.db.versionSet = some c → AppendsInOrder s.dir s.db c)) := by
  cases e with
  | request r os =>
    have hRun : ∀ {returned s' flushed'}, ¬(r.key ≠ [] ∧ s.db.stalled) →
        s.attempt r.call os = some (returned, s') →
        Tried (past ++ [{ request := r, answer := r.answer s.db returned }]) s' flushed' inOrder →
        ∃ attempts s' flushed', (Event.request r os).run s = some (attempts, s') ∧
          Tried (past ++ attempts) s' flushed' (inOrder ∧ (Event.request r os = .compact →
            ∀ c, pickCompaction s.db.versionSet = some c → AppendsInOrder s.dir s.db c)) := by
      intro returned s' flushed' hFree hAttempt hTried
      exact ⟨_, _, _, by rw [Event.run, if_neg hFree, hAttempt]; rfl, hTried.mono And.left⟩
    rcases hFair with hKey | ⟨hKey, hFree, hRoom, rfl | hFails⟩
    · obtain ⟨s', hAttempt, hTried⟩ := h.refused hKey os
      exact hRun (fun hWait => hWait.1 hKey) hAttempt hTried
    · obtain ⟨s', flushed', hAttempt, hTried⟩ := h.returns hKey hRoom
      exact hRun (fun hWait => hFree hWait.2) hAttempt hTried
    · obtain ⟨s', hAttempt, hTried⟩ := h.unsynced hKey hFails
      exact hRun (fun hWait => hFree hWait.2) hAttempt hTried
  | compact =>
    obtain ⟨s', hCall, hTried⟩ := h.compacts hFair
    refine ⟨[], s', flushed, ?_, ?_⟩
    · rw [Event.run, hCall]
      rfl
    · rw [List.append_nil]
      exact hTried.mono fun ho => ⟨ho.1, ho.2 rfl⟩

theorem Tried.run (h : Tried past s flushed inOrder) (hFair : Fairly es s) :
    ∃ attempts s' flushed', eventsRun es s = some (attempts, s') ∧ s'.Room ∧
      Tried (past ++ attempts) s' flushed' (inOrder ∧ CompactsInOrder es s) := by
  induction es generalizing past s flushed inOrder with
  | nil =>
    refine ⟨[], s, flushed, rfl, hFair, ?_⟩
    rw [List.append_nil]
    exact h.mono And.left
  | cons e es ih =>
    obtain ⟨first, s₁, flushed₁, hStep, h₁⟩ := h.step hFair.1
    obtain ⟨rest, s', flushed', hRest, hRoom, h'⟩ := ih h₁ (hFair.2 first s₁ hStep)
    refine ⟨first ++ rest, s', flushed', ?_, hRoom, ?_⟩
    · rw [eventsRun, hStep]
      simp only [Option.bind_eq_bind, Option.bind_some, hRest]
      rfl
    · rw [← List.append_assoc]
      exact h'.mono fun ho => ⟨⟨ho.1, ho.2.1⟩, ho.2.2 first s₁ hStep⟩

theorem Tried.readNow (h : Tried past s flushed inOrder) (hOrder : inOrder) (hServes : s.Serves)
    (hLast : s.last < 2 ^ 64) (k : Bytes) : readNow k s.db s.dir = some (said past k) := by
  rw [h.inv.readsNow hServes hLast]
  exact congrArg some (h.inv.reads_lookup h.recent h.apart (h.ordered hOrder) (h.now k))

/-- A key that was not requested since the last flush is neither in the log nor in the memory
table. -/
theorem Tried.absent (h : Tried past s flushed inOrder) {k : Bytes}
    (hNone : ∀ b ∈ unflushed past, b.request.key ≠ k) (q : Nat) :
    seek (replayed flushed (tally flushed (unflushed past)).logged).skiplist k q = none ∧
      seek s.db.memtable.skiplist k q = none := by
  have hOther : ∀ w ∈ (tally flushed (unflushed past)).logged, w.key ≠ k := by
    intro w hw hKey
    obtain ⟨b, hb, hbKey⟩ := (mem_logged hw).1
    exact hNone b hb (hbKey.trans hKey)
  refine ⟨seek_replayed_none hOther, ?_⟩
  rw [h.mem]
  exact seek_replayed_none fun w hw => hOther w ((kept_sublist _ _).subset hw)

/-- What the memory table has of a key that was written last by a request that returned, and what
the log has. -/
theorem Tried.present (h : Tried past s flushed inOrder) {pre post : List Attempt} {a : Attempt}
    (hSplit : unflushed past = pre ++ [a] ++ post) (hOk : a.answer.ok = true)
    (hLast : ∀ b ∈ post, b.request.key ≠ a.request.key) :
    (∃ y, seek s.db.memtable.skiplist a.request.key s.db.versionSet.lastSequence = some y ∧
        y.value = a.request.value) ∧
      ∃ x, seek (replayed flushed (tally flushed (unflushed past)).logged).skiplist a.request.key
          (replayed flushed (tally flushed (unflushed past)).logged).seq = some x ∧
        (x.value = a.request.value ↔ a.request.value ≠ none ∨ NoFailedPut pre a.request.key) := by
  rw [h.mem, hSplit]
  have hHigh := (replayed_seq_ge flushed (tally flushed (pre ++ [a] ++ post)).logged).2
  have hEntry : a.request.entry ((tally flushed pre).seq + 1) ∈
      (tally flushed (pre ++ [a] ++ post)).logged := by
    apply logged_subset _ _
    rw [tally_append]
    exact Tally.mem_add_logged.mpr (.inr ⟨fun h => by simp [h, Answer.ok] at hOk, rfl⟩)
  obtain ⟨x, hSeek, hValue⟩ := seek_logged hOk (hHigh _ hEntry)
  have hMem : seek (replayed flushed (tally flushed (pre ++ [a] ++ post)).kept).skiplist
      a.request.key s.db.versionSet.lastSequence =
      some (a.request.entry ((tally flushed pre).seq + 1)).entry := by
    apply seek_kept hOk hLast
    rw [← h.inv.seq, h.seq, hSplit]
    exact le_seq_tally hOk
  rw [seek_logged_append hLast]
  exact ⟨⟨_, hMem, Request.entry_value _ _⟩, x, hSeek, hValue⟩

/-- What the opening after some attempts finds for a key that was written last by a request that
returned is what a reader found before, unless that is a deletion that took its number from a put
whose sync failed, and there was no flush since. -/
theorem Tried.recovers (h : Tried past s flushed inOrder) (hRoom : s.Room) (hBuilt : s.Built)
    {pre post : List Attempt} {a : Attempt} (hPast : past = pre ++ a :: post)
    (hOk : a.answer.ok = true) (hLast : ∀ b ∈ post, b.request.key ≠ a.request.key)
    (options : Options) :
    ∃ r, opened options s.dir = some r ∧ (r.Sized →
      (MulanLsm.readNow a.request.key r.db r.dir = MulanLsm.readNow a.request.key s.db s.dir ↔
        a.request.value ≠ none ∨ (∃ b ∈ a :: post, b.answer = .flushed) ∨
          NoFailedPut pre a.request.key)) := by
  have hNext : s.db.versionSet.nextFileNumber + 2 < 2 ^ 64 := by
    have := h.inv.next
    have := hRoom.next
    omega
  have hSeq : s.last < 2 ^ 64 := Nat.lt_of_succ_lt hRoom.seq_lt
  obtain ⟨r, hOpen, hRe, hReads⟩ := h.inv.recovers hRoom.seq_lt hNext options
  refine ⟨r, hOpen, fun hSized => ?_⟩
  have hServes := h.inv.serves hBuilt hSeq (hRe.sized rfl hSized)
  rw [hReads hBuilt.faithful hSized, h.inv.readsNow hServes hSeq, Db.lookup, Running.last]
  by_cases hFlush : ∃ b ∈ a :: post, b.answer = .flushed
  · -- Neither the log nor the memory table has the key, and both readers look in the files.
    have hNone : ∀ b ∈ unflushed past, b.request.key ≠ a.request.key := fun b hb =>
      hLast b (mem_unflushed hFlush (hPast ▸ hb))
    rw [(h.absent hNone _).1, (h.absent hNone _).2, Option.none_or, Option.none_or,
      h.inv.tables.inFiles (replayed_seq_ge flushed _).1 h.inv.flushedLe]
    exact iff_of_true rfl (.inr (.inl hFlush))
  · have hNoFlush : ∀ b ∈ a :: post, b.answer ≠ .flushed := by simpa using hFlush
    have hSplit : unflushed past = unflushed pre ++ [a] ++ post := by
      rw [hPast, unflushed_append_all hNoFlush, List.append_assoc]
      rfl
    obtain ⟨⟨y, hMem, hSaid⟩, x, hFound, hValue⟩ := h.present hSplit hOk hLast
    rw [hFound, hMem, Option.some_or, Option.some_or, Option.bind_some, Option.bind_some, hSaid,
      Option.some.injEq, hValue, NoFailedPut, failing_unflushed]
    exact or_congr_right (or_iff_right hFlush).symm

/-- After any requests, some of whose syncs failed, the next opening finds for a key whose last
request returned what a reader found before, exactly if that was a put, or there was a flush since,
or no put of the key failed in its sync between that deletion and the request before it that
returned.  While every compaction appends its files in order, that is what the request wrote.  The
tables have sizes that readers can do with. -/
theorem failed_syncs_recover_iff (hStart : opened options ∅ = some s0) (hFair : Fairly es s0)
    (hSized : Throughout Running.Sized es s0) :
    ∃ past s, eventsRun es s0 = some (past, s) ∧ ∀ (pre post : List Attempt) (a : Attempt),
      past = pre ++ a :: post → a.answer.ok = true →
      (∀ b ∈ post, b.request.key ≠ a.request.key) → ∀ options' : Options,
      ∃ r, opened options' s.dir = some r ∧
        (r.Sized → (readNow a.request.key r.db r.dir = readNow a.request.key s.db s.dir ↔
          a.request.value ≠ none ∨ (∃ b ∈ a :: post, b.answer = .flushed) ∨
            NoFailedPut pre a.request.key)) ∧
        (CompactsInOrder es s0 → readNow a.request.key s.db s.dir = some a.request.value) := by
  obtain ⟨past, s, flushed, hRun, hRoom, hTried⟩ := (Tried.start hStart).run hFair
  refine ⟨past, s, hRun, fun pre post a hPast hOk hLast options' => ?_⟩
  have hBuilt := eventsRun_built (opened_built faithful_empty hStart) hRun
  have hSeq : s.last < 2 ^ 64 := Nat.lt_of_succ_lt hRoom.seq_lt
  obtain ⟨r, hOpen, hReads⟩ := hTried.recovers hRoom hBuilt hPast hOk hLast options'
  refine ⟨r, hOpen, hReads, fun hOrder => ?_⟩
  have hServes := hTried.inv.serves hBuilt hSeq (hSized.last hRun)
  rw [hTried.readNow ⟨trivial, hOrder⟩ hServes hSeq, List.nil_append, hPast, said_last hOk hLast]

end Steps

end Events

theorem failed_syncs_recover_two :
    let es : List Event := [.request ⟨[97], some [1]⟩ [.ok, .fail 0], .request ⟨[97], some [2]⟩ []]
    ∃ s0, opened {} ∅ = some s0 ∧ Fairly es s0 ∧
      ∃ past s, eventsRun es s0 = some (past, s) ∧ ∀ (pre post : List Attempt) (a : Attempt),
        past = pre ++ a :: post → a.answer.ok = true →
        (∀ b ∈ post, b.request.key ≠ a.request.key) → ∀ options' : Options,
        ∃ r, opened options' s.dir = some r ∧
          (r.Sized → (readNow a.request.key r.db r.dir = readNow a.request.key s.db s.dir ↔
            a.request.value ≠ none ∨ (∃ b ∈ a :: post, b.answer = .flushed) ∨
              NoFailedPut pre a.request.key)) ∧
          (CompactsInOrder es s0 → readNow a.request.key s.db s.dir = some a.request.value) := by
  intro es
  have h : (opened {} ∅).any (fun s0 => Fairly es s0 ∧ Throughout Running.Short es s0) = true := by
    decide +kernel
  obtain ⟨s0, hStart, h⟩ := (Option.any_eq_true _ _).mp h
  obtain ⟨hFair, hShort⟩ := of_decide_eq_true h
  exact ⟨s0, hStart, hFair,
    failed_syncs_recover_iff hStart hFair (hShort.mono fun _ => Running.Short.sized)⟩

/-- A deletion that returns takes its number from a put whose sync failed, and the next opening
finds the value of the put. -/
theorem failed_put_returns :
    let es : List Event := [.request ⟨[97], some [1]⟩ [.ok, .fail 0], .request ⟨[97], none⟩ []]
    ∃ s0, opened {} ∅ = some s0 ∧ Fairly es s0 ∧ ∃ past s r, eventsRun es s0 = some (past, s) ∧
      past = [⟨⟨[97], some [1]⟩, .unsynced⟩, ⟨⟨[97], none⟩, .applied⟩] ∧
      opened eager s.dir = some r ∧ readNow [97] s.db s.dir = some none ∧
      readNow [97] r.db r.dir = some (some [1]) := by
  intro es
  have h : (opened {} ∅).any (fun s0 => Fairly es s0 ∧ (eventsRun es s0).any fun p =>
      p.1 = [⟨⟨[97], some [1]⟩, .unsynced⟩, ⟨⟨[97], none⟩, .applied⟩] ∧
      (opened eager p.2.dir).any fun r => readNow [97] p.2.db p.2.dir = some none ∧
        readNow [97] r.db r.dir = some (some [1])) = true := by
    decide +kernel
  obtain ⟨s0, hStart, h⟩ := (Option.any_eq_true _ _).mp h
  obtain ⟨hFair, h⟩ := of_decide_eq_true h
  obtain ⟨⟨past, s⟩, hRun, h⟩ := (Option.any_eq_true _ _).mp h
  obtain ⟨hPast, h⟩ := of_decide_eq_true h
  obtain ⟨r, hOpen, hr⟩ := (Option.any_eq_true _ _).mp h
  exact ⟨s0, hStart, hFair, past, s, r, hRun, hPast, hOpen, of_decide_eq_true hr⟩

end MulanLsm
