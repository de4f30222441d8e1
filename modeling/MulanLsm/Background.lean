import MulanLsm.CompactionsEnd
import MulanLsm.Library.Wakeups

/-! The lock of an open database, and its condition variable.  A write waits while level 0 is full;
the background thread waits while no compaction is asked for or due, and wakes every writer after
each.  A call that succeeds wakes one of those that wait, which may be another writer. -/

namespace MulanLsm

open Wakeups (Protocol State)

/-- What the lock guards. -/
structure Shared where
  db : Db
  dir : Dir
  bgCompactionScheduled : Bool
  shuttingDown : Bool

/-- The calls that take the lock to change something. -/
inductive Access
  | put (key value : Bytes)
  | delete (key : Bytes)
  | compactOnce
  | newSnapshot
  | dropSnapshot (seq : Nat)
  deriving DecidableEq

namespace Access

def call : Access → Call
  | put key value => .put key value
  | delete key => .delete key
  | compactOnce => .compact
  | newSnapshot => .snapshot
  | dropSnapshot seq => .release seq

/-- The call is a write that has come past its check of the key. -/
def writes : Access → Bool
  | put key _ => key ≠ []
  | delete key => key ≠ []
  | _ => false

/-- The call notifies when it succeeds. -/
def notifies : Access → Bool
  | put .. | delete .. | compactOnce => true
  | _ => false

end Access

namespace Shared

def maybeScheduleCompaction (s : Shared) : Shared :=
  if s.db.options.disableAutoCompaction || s.bgCompactionScheduled || s.shuttingDown then s
  else if (compactionScore s.db.versionSet.current).isSome then
    { s with bgCompactionScheduled := true }
  else s

variable [Crc32c]

/-- What a call does under the lock, and whether it notifies once it has given the lock up.  The
process does not outlive a crash. -/
def serve (r : Access) (os : List Outcome) (s : Shared) : Option (Shared × Bool) :=
  match r.call.run (s.db, ⟨s.dir, os⟩) with
  | .ok _ (db, w) =>
    let s := { s with db, dir := w.dir }
    some (if r.writes then s.maybeScheduleCompaction else s, r.notifies)
  | .error (.error _) (db, w) => some ({ s with db, dir := w.dir }, false)
  | .error _ _ => none

/-- The background thread waits while this holds. -/
def rests (s : Shared) : Bool :=
  !s.shuttingDown && !s.bgCompactionScheduled && (compactionScore s.db.versionSet.current).isNone

/-- A compaction in the background, whose error is only printed. -/
def compact (os : List Outcome) (s : Shared) : Option Shared :=
  match Db.runOneCompaction (s.db, ⟨s.dir, os⟩) with
  | .ok _ (db, w) => some { s with db, dir := w.dir, bgCompactionScheduled := false }
  | .error (.error _) (db, w) => some { s with db, dir := w.dir, bgCompactionScheduled := false }
  | .error _ _ => none

/-- The database is dropped: its log is synced, unless that fails. -/
def shutDown (os : List Outcome) (s : Shared) : Option Shared :=
  match Db.onWal WalWriter.sync (s.db, ⟨s.dir, os⟩) with
  | .ok _ (db, w) => some { s with db, dir := w.dir, shuttingDown := true }
  | .error (.error _) (db, w) => some { s with db, dir := w.dir, shuttingDown := true }
  | .error _ _ => none

/-- The database has been opened, and nobody has called it yet. -/
def opened (db : Db) (d : Dir) : Shared :=
  { db, dir := d, bgCompactionScheduled := false, shuttingDown := false }

end Shared

/-- The threads that call a database, and the one that compacts it. -/
def background [Crc32c] : Protocol Shared Access (List Outcome) where
  waits r s := r.writes && s.db.stalled
  park := Shared.maybeScheduleCompaction
  serve := Shared.serve
  rests := Shared.rests
  turn := Shared.compact
  close := Shared.shutDown
  closed := Shared.shuttingDown

/-- `db'` has the version of `db` and its options. -/
structure Db.Settled (db db' : Db) : Prop where
  current : db'.versionSet.current = db.versionSet.current
  options : db'.options = db.options

/-- `db'` comes from `db` with at most `n` files more at level 0. -/
structure Db.Grows (n : Nat) (db db' : Db) : Prop where
  files : db'.versionSet.current.numFiles 0 ≤ db.versionSet.current.numFiles 0 + n
  options : db'.options = db.options

theorem Db.Settled.grows {db db' : Db} (h : db.Settled db') (n : Nat) : db.Grows n db' :=
  ⟨by rw [h.current]; exact Nat.le_add_right _ _, h.options⟩

theorem Db.Settled.behind {db db₁ db' : Db} (h : db₁.Settled db') (h₁ : db.Settled db₁) :
    db.Settled db' := ⟨h.current.trans h₁.current, h.options.trans h₁.options⟩

theorem Db.Grows.behind {db db₁ db' : Db} {n : Nat} (h : db₁.Grows n db') (h₁ : db.Settled db₁) :
    db.Grows n db' := ⟨h₁.current ▸ h.files, h.options.trans h₁.options⟩

section Growing

variable {A : Outcome → Prop} {I : Dir → Prop} {next : Nat} {db : Db}

theorem prepareFlush_settled (hI : Closed I next) (h : db.Confined next) {frozen : MemTable}
    (hFrozen : frozen.skiplist ≠ []) :
    Keeping A I (Db.prepareFlush frozen) db
      (fun _ db' => db.Settled db' ∧ db'.versionSet = db.versionSet) db.Settled := by
  refine .bind (.update (.bind (newFileNumber_keeping (.bind (.self ?_)))))
  refine .bind ((flushToSstable_keeping hI h.fresh hFrozen _ _).mono ?_ ?_)
  · rintro r db₁ rfl
    refine .bind (.look (fun size => ?_) ⟨rfl, rfl⟩)
    split
    · refine .bind (newFileNumber_keeping
        (.bind ((create_keeping hI (isLogName_log _)).mono ?_ ?_)))
      · rintro w db₂ ⟨-, rfl⟩
        refine .bind (.onField ((sync_keeping hI h.wal).mono (fun _ w' _ => ?_) fun w' _ => ?_))
        · exact .pure ⟨⟨rfl, rfl⟩, rfl⟩
        · exact ⟨rfl, rfl⟩
      · rintro _ rfl
        exact ⟨rfl, rfl⟩
    · exact .throw ⟨rfl, rfl⟩
  · rintro _ rfl
    exact ⟨rfl, rfl⟩

variable [Crc32c]

theorem logWrite_settled (hI : Closed I next) (h : db.Confined next) (vtype : ValueType)
    (key value : Bytes) :
    Keeping A I (Db.logWrite vtype key value) db
      (fun _ db' => db.Settled db' ∧ db'.Confined next) db.Settled := by
  refine .bind (.self
    (.bind (.onField ((addRecord_keeping hI h.wal _).mono ?_ fun _ _ => ⟨rfl, rfl⟩))))
  intro _ w hw
  have h' : Db.Confined next { db with wal := w } := { h with wal := hw ▸ h.wal }
  split
  · refine .onField ((sync_keeping hI h'.wal).mono (fun _ w' hw' => ?_) fun _ _ => ⟨rfl, rfl⟩)
    exact ⟨⟨rfl, rfl⟩, { h' with wal := hw' ▸ h'.wal }⟩
  · exact .pure ⟨⟨rfl, rfl⟩, h'⟩

/-- A flush puts at most one file at level 0, and none if it fails. -/
theorem flushMemtable_grows (hI : Closed I next) (h : db.Confined next) :
    Keeping A I Db.flushMemtable db (fun _ => db.Grows 1) db.Settled := by
  refine .bind (.self ?_)
  dsimp only
  split
  · exact .pure ((Db.Settled.grows ⟨rfl, rfl⟩ 1))
  · next hEntries =>
    refine .bind ((prepareFlush_settled hI h (h.held hEntries)).mono ?_ fun _ h => h)
    rintro ⟨f, newLog, newWal⟩ db₁ ⟨hSettled, hVersionSet⟩
    have hName : IsLogName db₁.versionSet.manifestWriter.wal.name := hVersionSet ▸ h.manifest
    refine .bind (.self
      (.bind (.onField ((writeNewVersion_keeping hI hName (by simp)).mono ?_ ?_))))
    · rintro v vs ⟨hCurrent, -⟩
      refine .update ⟨?_, hSettled.options⟩
      show (vs.current.filesAt 0).length ≤ (db.versionSet.current.filesAt 0).length + 1
      rw [Version.filesAt_applyEdit hCurrent, hSettled.current, List.length_append]
      exact Nat.add_le_add (List.length_filter_le _ _) (by simp)
    · exact fun vs hvs => ⟨hvs.1.trans hSettled.current, hSettled.options⟩

theorem write_grows (hI : Closed I next) (h : db.Confined next) (key value : Bytes)
    (vtype : ValueType) :
    Keeping A I (Db.write key value vtype) db (fun _ => db.Grows 1) db.Settled := by
  refine .bind ((logWrite_settled hI h vtype key value).mono ?_ fun _ h => h)
  rintro - db₁ ⟨hSettled, h₁⟩
  refine .bind (.update_eq fun db₂ hdb₂ => .bind (.self ?_))
  have h₂ : db₂.Confined next := by
    subst hdb₂
    exact { h₁ with held := held_apply _ _ _ _ _ }
  have hSettled₂ : db.Settled db₂ := by
    subst hdb₂
    exact ⟨hSettled.1, hSettled.2⟩
  split
  · exact (flushMemtable_grows hI h₂).mono (fun _ _ h => h.behind hSettled₂)
      fun _ h => h.behind hSettled₂
  · exact .pure (hSettled₂.grows 1)

/-- `s'` is `s` after something that changed neither the version nor the tables. -/
structure Unmoved (s s' : Db × Dir) : Prop where
  settled : s.1.Settled s'.1
  next : s'.1.idGen.next = s.1.idGen.next
  kept : KeptTables s.2 s.1.idGen.next s'.2

omit [Crc32c] in
theorem Unmoved.refl (s : Db × Dir) : Unmoved s s := ⟨⟨rfl, rfl⟩, rfl, .refl _ _⟩

/-- A compaction, whatever the calls do, is made, or the version and the tables stay. -/
theorem runOneCompaction_deepens {d : Dir}
    (hName : IsLogName db.versionSet.manifestWriter.wal.name) :
    Spec A Db.runOneCompaction
      (fun b db' d' => b = true ∧ db'.options = db.options ∧
        (∃ c fs, Deepens (db, d) (db', d') c fs) ∨
        b = false ∧ Unmoved (db, d) (db', d'))
      (fun _ db' d' => Unmoved (db, d) (db', d')) db d := by
  refine Spec.bind (Spec.self ?_)
  cases hPick : pickCompaction db.versionSet with
  | none => exact Spec.pure (.inr ⟨rfl, .refl _⟩)
  | some c =>
  have hFresh {oldest blockTarget bitsPerKey : Nat} :
      Spec A (doCompaction mergerHeap c db.versionSet.current oldest blockTarget bitsPerKey
        { next := db.idGen.next }) (fun _ y d' => y = db ∧ KeptTables d db.idGen.next d')
        (fun _ y d' => y = db ∧ KeptTables d db.idGen.next d') db d :=
    doCompaction_keeping (keptTables_closed d db.idGen.next) le_rfl d (.refl _ _)
  by_cases hTables : ∀ f ∈ c.inputFiles, d.table f.number = some (d.entries f.number)
  · refine Spec.bind (((doCompaction_spec hTables).and hFresh).mono ?_ ?_)
    · rintro ⟨output, idGen⟩ db₁ d₁ ⟨⟨hdb₁, hFrame, hDeleted, hFiles, hNumbers, hNext⟩, -, hKept₁⟩
      subst hdb₁
      have hRange := compactionEdit_inRange (pickCompaction_picked hPick) hDeleted idGen.next
      have hLen := hFiles.length_eq
      have hLe : db₁.idGen.next ≤ idGen.next := by
        dsimp only at hNext
        omega
      have hBelow : ∀ f ∈ output.newFiles, f.number < idGen.next := by
        intro f hf
        have hMem := List.mem_map_of_mem (f := FileMetaData.number) hf
        rw [hNumbers, List.mem_range'_1, ← hNext] at hMem
        exact hMem.2
      have hKept {d₂ : Dir} (h : KeptTables d₁ idGen.next d₂) : KeptTables d db₁.idGen.next d₂ :=
        fun n hn => (h n (hn.trans_le hLe)).trans (hKept₁ n hn)
      refine Spec.bind (Spec.onField
        ((writeNewVersion_keeping (keptTables_closed d₁ idGen.next) hName
        hRange.2.2 d₁ (.refl _ _)).mono ?_ ?_))
      · rintro v vs d₂ ⟨⟨hVersion, -⟩, hKept₂⟩
        refine Spec.bind (Spec.update
          (Spec.pure (.inl ⟨rfl, rfl, c, output.newFiles, hPick, hTables,
          ?_, ?_, ⟨_, hDeleted, rfl, hVersion⟩, ?_, hKept hKept₂⟩)))
        · rw [hKept₂.entriesIn hBelow, entriesIn_of_describes hFiles]
          exact outputFiles_subperm d.entries
        · rw [hNumbers, hLen]
        · rw [hLen, ← hNext]
          exact bumpTo_next hLe
      · exact fun _ vs d₂ h => ⟨⟨h.1.1, rfl⟩, rfl, hKept h.2⟩
    · rintro f db₁ d₁ ⟨-, rfl, hKept⟩
      exact ⟨⟨rfl, rfl⟩, rfl, hKept⟩
  · refine Spec.bind (Spec.bind (((openAll_tables c.inputFiles).and
      ((openAll_keeping c.inputFiles : Keeping A (KeptTables d db.idGen.next) _ db _ _) d
        (.refl _ _))).mono (fun _ _ _ h => absurd h.1.1 hTables) ?_))
    rintro f db₁ d₁ ⟨-, rfl, hKept⟩
    exact ⟨⟨rfl, rfl⟩, rfl, hKept⟩

omit [Crc32c] in
theorem Deepens.numFiles_zero {s s' : Db × Dir} {c : Compaction} {fs : List FileMetaData}
    (h : Deepens s s' c fs) :
    s'.1.versionSet.current.numFiles 0 ≤ s.1.versionSet.current.numFiles 0 := by
  unfold Version.numFiles
  rw [h.filesAt, if_neg (Nat.succ_ne_zero _).symm, List.append_nil]
  exact List.length_filter_le _ _

theorem runOneCompaction_grows {d : Dir} (h : db.Confined next) :
    Spec A Db.runOneCompaction (fun _ db' _ => db.Grows 0 db')
      (fun _ db' _ => db.Settled db') db d := by
  refine (runOneCompaction_deepens h.manifest).mono (fun b db' d' hCase => ?_)
    fun _ _ _ h => h.settled
  rcases hCase with ⟨-, hOptions, c, fs, hDeepens⟩ | ⟨-, hUnmoved⟩
  · exact ⟨hDeepens.numFiles_zero, hOptions⟩
  · exact hUnmoved.settled.grows 0

/-- A call that fails leaves the version as it is, and one that notifies nobody puts no file at
level 0. -/
theorem Access.grows (hI : Closed I next) {d : Dir} (hd : I d) (h : db.Confined next) (r : Access) :
    Spec A r.call.run (fun _ db' _ => db.Grows (if r.notifies then 1 else 0) db' ∧
      (r.notifies = false → db.Settled db')) (fun _ db' _ => db.Settled db') db d := by
  have hWrite (key value : Bytes) (vtype : ValueType) :
      Spec A (Db.write key value vtype) (fun _ db' _ => db.Grows 1 db')
        (fun _ db' _ => db.Settled db') db d :=
    (write_grows hI h key value vtype d hd).mono (fun _ _ _ h => h.1) fun _ _ _ h => h.1
  cases r with
  | put key value =>
    show Spec A (Db.put key value) _ _ db d
    unfold Db.put
    split
    · exact Spec.throw ⟨rfl, rfl⟩
    · exact (hWrite key value .put).mono (fun _ _ _ h => ⟨h, nofun⟩) fun _ _ _ h => h
  | delete key =>
    show Spec A (Db.delete key) _ _ db d
    unfold Db.delete
    split
    · exact Spec.throw ⟨rfl, rfl⟩
    · exact (hWrite key [] .delete).mono (fun _ _ _ h => ⟨h, nofun⟩) fun _ _ _ h => h
  | compactOnce =>
    exact Spec.bind ((runOneCompaction_grows h).mono
      (fun _ _ _ h => Spec.pure ⟨⟨h.files.trans (Nat.le_succ _), h.options⟩, nofun⟩)
      fun _ _ _ h => h)
  | newSnapshot =>
    have hTaken (seq : Nat) :
        db.Settled { db with versionSet := db.versionSet.acquireSnapshot seq } :=
      ⟨rfl, rfl⟩
    exact Spec.bind (Spec.bind (Spec.self (Spec.bind (Spec.update (Spec.pure (Spec.pure
      (And.intro ((hTaken _).grows 0) fun _ => hTaken _)))))))
  | dropSnapshot seq =>
    have hDropped : db.Settled { db with versionSet := db.versionSet.releaseSnapshot seq } :=
      ⟨rfl, rfl⟩
    show Spec A (Db.dropSnapshot seq) _ _ db d
    exact Spec.update ⟨hDropped.grows 0, fun _ => hDropped⟩

end Growing

/-- Level 0 is compacted in the background, and no finished table is empty. -/
structure Shared.Sound (s : Shared) : Prop where
  confined : s.db.Confined 0
  filled : Filled s.dir
  auto : s.db.options.disableAutoCompaction = false

section Bounding

variable {s s' : Shared} {r : Access} {os : List Outcome} {notifies : Bool}

theorem maybeScheduleCompaction_cases (s : Shared) : s.maybeScheduleCompaction = s ∨
    s.maybeScheduleCompaction = { s with bgCompactionScheduled := true } := by
  unfold Shared.maybeScheduleCompaction
  split
  · exact .inl rfl
  · split
    · exact .inr rfl
    · exact .inl rfl

theorem Shared.Sound.maybeSchedule (h : s.Sound) : s.maybeScheduleCompaction.Sound := by
  rcases maybeScheduleCompaction_cases s with hEq | hEq
  · rwa [hEq]
  · rw [hEq]
    exact { h with }

@[simp] theorem maybeScheduleCompaction_db (s : Shared) : s.maybeScheduleCompaction.db = s.db := by
  rcases maybeScheduleCompaction_cases s with h | h <;> rw [h]

@[simp] theorem maybeScheduleCompaction_shuttingDown (s : Shared) :
    s.maybeScheduleCompaction.shuttingDown = s.shuttingDown := by
  rcases maybeScheduleCompaction_cases s with h | h <;> rw [h]

theorem maybeScheduleCompaction_called (h : s.bgCompactionScheduled) :
    s.maybeScheduleCompaction.bgCompactionScheduled := by
  rcases maybeScheduleCompaction_cases s with hEq | hEq
  · rwa [hEq]
  · rw [hEq]

/-- A write that comes to wait has asked for a compaction. -/
theorem maybeScheduleCompaction_stalled (hStalled : s.db.stalled) (hOpen : s.shuttingDown = false) :
    s.maybeScheduleCompaction.bgCompactionScheduled := by
  unfold Db.stalled at hStalled
  rw [Bool.and_eq_true, Bool.not_eq_true'] at hStalled
  unfold Shared.maybeScheduleCompaction
  rw [if_pos (score_of_slowdown hStalled.1), hStalled.2, hOpen, Bool.or_false, Bool.false_or]
  split
  · next h => exact h
  · rfl

theorem rests_iff : s.rests ↔ s.shuttingDown = false ∧ s.bgCompactionScheduled = false ∧
    compactionScore s.db.versionSet.current = none := by
  simp [Shared.rests, and_assoc]

/-- Without a score there is no file at level 0. -/
theorem numFiles_zero_of_score {v : Version} (h : compactionScore v = none) : v.numFiles 0 = 0 := by
  rw [compactionScore_eq, Search.foldl_better_eq_none] at h
  have hZero := h 0 (by decide) _ rfl
  by_contra hFiles
  exact absurd hZero (not_le.mpr (levelZeroScore_pos (Nat.pos_of_ne_zero hFiles)))

theorem Shared.Sound.shutDown (h : s.Sound) (hClose : s.shutDown os = some s') :
    s'.Sound ∧ s'.shuttingDown := by
  have hSpec : Spec Any (Db.onWal WalWriter.sync) (fun _ db' d' =>
      ({ s with db := db', dir := d', shuttingDown := true } : Shared).Sound) (fun _ db' d' =>
      ({ s with db := db', dir := d', shuttingDown := true } : Shared).Sound) s.db s.dir := by
    refine Spec.onField ((sync_keeping filled_closed h.confined.wal s.dir h.filled).mono ?_ ?_)
    · rintro _ w d' ⟨hw, hFilled⟩
      exact ⟨{ h.confined with wal := hw ▸ h.confined.wal }, hFilled, h.auto⟩
    · rintro _ w d' ⟨hw, hFilled⟩
      exact ⟨{ h.confined with wal := hw ▸ h.confined.wal }, hFilled, h.auto⟩
  unfold Shared.shutDown at hClose
  split at hClose
  · next b db w hRun =>
    cases hClose
    exact ⟨Spec.returned hRun hSpec fun _ _ => trivial, rfl⟩
  · next e db w hRun =>
    cases hClose
    exact ⟨Spec.raised hRun hSpec fun _ _ => trivial, rfl⟩
  · cases hClose

variable [Crc32c]

theorem Shared.Sound.call (h : s.Sound) (r : Access) :
    Spec Any r.call.run (fun _ db' d' => ({ s with db := db', dir := d' } : Shared).Sound ∧
        db'.versionSet.current.numFiles 0 ≤
          s.db.versionSet.current.numFiles 0 + (if r.notifies then 1 else 0) ∧
        (r.notifies = false → s.db.Settled db'))
      (fun _ db' d' => ({ s with db := db', dir := d' } : Shared).Sound ∧ s.db.Settled db')
      s.db s.dir := by
  refine ((r.call.run_kept filled_closed h.filled h.confined).and
    (r.grows filled_closed h.filled h.confined)).mono ?_ ?_
  · rintro _ db' d' ⟨⟨hAdvances, hFilled⟩, hGrows, hSettled⟩
    exact ⟨⟨hAdvances.confined, hFilled, hGrows.options.symm ▸ h.auto⟩, hGrows.files, hSettled⟩
  · rintro _ db' d' ⟨⟨hAdvances, hFilled⟩, hSettled⟩
    exact ⟨⟨hAdvances.confined, hFilled, hSettled.options.symm ▸ h.auto⟩, hSettled⟩

/-- What a call leads to, with everything that the other threads can tell of it. -/
theorem Shared.Sound.serve (h : s.Sound) (hServe : s.serve r os = some (s', notifies)) :
    s'.Sound ∧ s'.shuttingDown = s.shuttingDown ∧
      (s.bgCompactionScheduled → s'.bgCompactionScheduled) ∧
      s'.db.versionSet.current.numFiles 0 ≤
        s.db.versionSet.current.numFiles 0 + (if notifies then 1 else 0) ∧
      (notifies = false →
        s.db.Settled s'.db ∧ s'.bgCompactionScheduled = s.bgCompactionScheduled) := by
  unfold Shared.serve at hServe
  split at hServe
  · next db w hRun =>
    obtain ⟨hSound, hFiles, hSettled⟩ := Spec.returned hRun (h.call r) fun _ _ => trivial
    obtain ⟨rfl, rfl⟩ := Prod.mk.inj (Option.some.inj hServe)
    split
    · next hWrites =>
      refine ⟨hSound.maybeSchedule, by simp,
        fun h => maybeScheduleCompaction_called h, by simpa using hFiles, ?_⟩
      intro hNot
      cases r <;> simp [Access.notifies, Access.writes] at hNot hWrites
    · exact ⟨hSound, rfl, id, hFiles, fun hNot => ⟨hSettled hNot, rfl⟩⟩
  · next e db w hRun =>
    obtain ⟨hSound, hSettled⟩ := Spec.raised hRun (h.call r) fun _ _ => trivial
    obtain ⟨rfl, rfl⟩ := Prod.mk.inj (Option.some.inj hServe)
    exact ⟨hSound, rfl, id, hSettled.current ▸ Nat.le_add_right _ _, fun _ => ⟨hSettled, rfl⟩⟩
  · cases hServe

theorem Shared.Sound.compact (h : s.Sound) (hTurn : s.compact os = some s') :
    s'.Sound ∧ s'.shuttingDown = s.shuttingDown := by
  have hSpec := ((runOneCompaction_kept (A := Any) filled_closed h.filled h.confined).and
    (runOneCompaction_grows h.confined)).mono (fun _ db' d' hCase =>
      (⟨hCase.1.1.confined, hCase.1.2, hCase.2.options.symm ▸ h.auto⟩ :
        ({ s with db := db', dir := d', bgCompactionScheduled := false } : Shared).Sound))
      fun _ db' d' hCase => (⟨hCase.1.1.confined, hCase.1.2, hCase.2.options.symm ▸ h.auto⟩ :
        ({ s with db := db', dir := d', bgCompactionScheduled := false } : Shared).Sound)
  unfold Shared.compact at hTurn
  split at hTurn
  · next b db w hRun =>
    cases hTurn
    exact ⟨Spec.returned hRun hSpec fun _ _ => trivial, rfl⟩
  · next e db w hRun =>
    cases hTurn
    exact ⟨Spec.raised hRun hSpec fun _ _ => trivial, rfl⟩
  · cases hTurn

theorem background_bounded : Wakeups.Bounded background Shared.Sound
    (fun s => s.bgCompactionScheduled) (fun s => s.db.versionSet.current.numFiles 0)
    level0StopWritesTrigger where
  waits h := by
    obtain ⟨-, hStalled⟩ := Bool.and_eq_true_iff.mp h
    exact of_decide_eq_true (Bool.and_eq_true_iff.mp hStalled).1
  park hs h :=
    ⟨hs.maybeSchedule, fun hOpen =>
      ⟨maybeScheduleCompaction_stalled (Bool.and_eq_true_iff.mp h).2 hOpen,
        (maybeScheduleCompaction_shuttingDown _).trans hOpen⟩⟩
  serve hs h := by
    obtain ⟨hSound, hOpen, hCalled, hFiles, hSettled⟩ := hs.serve h
    refine ⟨hSound, hOpen, hCalled, hFiles, fun hNot hRests => ?_⟩
    obtain ⟨hSame, hScheduled⟩ := hSettled hNot
    obtain ⟨hDown, hIdle, hScore⟩ := rests_iff.mp hRests
    exact rests_iff.mpr ⟨hOpen.trans hDown, hScheduled.trans hIdle, by rw [hSame.current, hScore]⟩
  rests h := by
    obtain ⟨-, hIdle, hScore⟩ := rests_iff.mp h
    exact ⟨numFiles_zero_of_score hScore, by simp [hIdle]⟩
  turn hs h := hs.compact h
  close hs h := hs.shutDown h

/-- The database has just been opened, whatever went before, and has a background thread. -/
def Shared.Begins (s : Shared) : Prop :=
  ∃ d options os w, Reached none d ∧
    (Db.open options : St Unit Db) ((), ⟨d, os⟩) = .ok s.db ((), w) ∧
    s = .opened s.db w.dir ∧ s.db.options.disableAutoCompaction = false

theorem Shared.Begins.sound (h : s.Begins) : s.Sound := by
  obtain ⟨d, options, os, w, hReached, hOpen, hEq, hAuto⟩ := h
  obtain ⟨hFilled, hConfined⟩ := (hReached.opened hOpen).filled
  exact ⟨hConfined _ rfl, by rw [hEq]; exact hFilled, hAuto⟩

end Bounding

section Stalling

variable [Crc32c] {s s' : Shared} {r : Access} {os : List Outcome} {limit : Nat}

/-- The database, and its directory. -/
def Shared.files (s : Shared) : Db × Dir := (s.db, s.dir)

/-- A turn of the background thread makes a compaction. -/
def Shared.Compacts (os : List Outcome) (s : Shared) : Prop :=
  s.shuttingDown = false ∧ ∃ db w, Db.runOneCompaction (s.db, ⟨s.dir, os⟩) = .ok true (db, w)

/-- `s'` is `s` after a compaction, or with the version and the tables of `s`. -/
def Deepened (s s' : Db × Dir) : Prop := (∃ c fs, Deepens s s' c fs) ∨ Unmoved s s'

omit [Crc32c] in
theorem Unmoved.numbersBelow {s s' : Db × Dir} (h : Unmoved s s') (hBelow : NumbersBelow limit s) :
    NumbersBelow limit s' := by
  intro level f hf
  rw [h.settled.current] at hf
  rw [h.next]
  exact hBelow level f hf

omit [Crc32c] in
theorem Unmoved.distance_eq {s s' : Db × Dir} (h : Unmoved s s') (hBelow : NumbersBelow limit s) :
    distance limit s' = distance limit s := by
  unfold distance
  rw [h.next, h.settled.current]
  split
  · rfl
  · next hLimit =>
    have hWeight : weight s'.2 s.1.versionSet.current = weight s.2 s.1.versionSet.current := by
      refine Finset.sum_congr rfl fun k _ => Finset.sum_congr rfl fun level _ => ?_
      rw [← length_entriesIn, ← length_entriesIn, h.kept.entriesIn]
      intro f hf
      have := hBelow level f hf
      omega
    rw [hWeight]

omit [Crc32c] in
theorem Deepened.numbersBelow {s s' : Db × Dir} (h : Deepened s s')
    (hBelow : NumbersBelow limit s) :
    NumbersBelow limit s' := by
  rcases h with ⟨c, fs, hDeepens⟩ | hUnmoved
  · exact hDeepens.numbersBelow hBelow
  · exact hUnmoved.numbersBelow hBelow

omit [Crc32c] in
theorem Deepened.distance_le {s s' : Db × Dir} (h : Deepened s s') (hFilled : Filled s.2)
    (hBelow : NumbersBelow limit s) : distance limit s' ≤ distance limit s := by
  rcases h with ⟨c, fs, hDeepens⟩ | hUnmoved
  · exact (hDeepens.distance_lt hFilled hBelow).le
  · exact (hUnmoved.distance_eq hBelow).le

/-- A call that is no write compacts, or leaves the version and the tables as they are. -/
theorem Access.deepens {db : Db} {d : Dir} (h : IsLogName db.versionSet.manifestWriter.wal.name)
    (hNot : r.writes = false) :
    Spec Any r.call.run (fun _ db' d' => Deepened (db, d) (db', d'))
      (fun _ db' d' => Deepened (db, d) (db', d')) db d := by
  have hSame : Deepened (db, d) (db, d) := .inr (.refl _)
  cases r with
  | put key value =>
    obtain rfl : key = [] := by simpa [Access.writes] using hNot
    show Spec Any (Db.put [] value) _ _ db d
    exact Spec.throw hSame
  | delete key =>
    obtain rfl : key = [] := by simpa [Access.writes] using hNot
    show Spec Any (Db.delete []) _ _ db d
    exact Spec.throw hSame
  | compactOnce =>
    refine Spec.bind ((runOneCompaction_deepens h).mono (fun b db' d' hCase => Spec.pure ?_)
      fun _ _ _ h => .inr h)
    rcases hCase with ⟨-, -, hDeepens⟩ | ⟨-, hUnmoved⟩
    · exact .inl hDeepens
    · exact .inr hUnmoved
  | newSnapshot =>
    have hTaken (seq : Nat) :
        Deepened (db, d) ({ db with versionSet := db.versionSet.acquireSnapshot seq }, d) :=
      .inr ⟨⟨rfl, rfl⟩, rfl, .refl _ _⟩
    exact Spec.bind (Spec.bind (Spec.self
      (Spec.bind (Spec.update (Spec.pure (Spec.pure (hTaken _)))))))
  | dropSnapshot seq =>
    have hDropped :
        Deepened (db, d) ({ db with versionSet := db.versionSet.releaseSnapshot seq }, d) :=
      .inr ⟨⟨rfl, rfl⟩, rfl, .refl _ _⟩
    show Spec Any (Db.dropSnapshot seq) _ _ db d
    exact Spec.update hDropped

theorem serve_deepens (h : s.Sound) (hNot : r.writes = false) {notifies : Bool}
    (hServe : s.serve r os = some (s', notifies)) : Deepened s.files s'.files := by
  have hSpec := Access.deepens (d := s.dir) h.confined.manifest hNot
  unfold Shared.serve at hServe
  split at hServe
  · next db w hRun =>
    obtain ⟨rfl, -⟩ := Prod.mk.inj (Option.some.inj hServe)
    rw [hNot, if_neg Bool.false_ne_true]
    exact Spec.returned hRun hSpec fun _ _ => trivial
  · next e db w hRun =>
    obtain ⟨rfl, -⟩ := Prod.mk.inj (Option.some.inj hServe)
    exact Spec.raised hRun hSpec fun _ _ => trivial
  · cases hServe

theorem compact_deepens (h : s.Sound) (hTurn : s.compact os = some s') :
    Deepened s.files s'.files ∧ (s.Compacts os → ∃ c fs, Deepens s.files s'.files c fs) := by
  have hSpec := runOneCompaction_deepens (A := Any) (d := s.dir) h.confined.manifest
  unfold Shared.compact at hTurn
  split at hTurn
  · next b db w hRun =>
    cases hTurn
    rcases Spec.returned hRun hSpec fun _ _ => trivial with ⟨-, -, hDeepens⟩ | ⟨rfl, hUnmoved⟩
    · exact ⟨.inl hDeepens, fun _ => hDeepens⟩
    · refine ⟨.inr hUnmoved, ?_⟩
      rintro ⟨-, db', w', hTrue⟩
      rw [hRun] at hTrue
      cases hTrue
  · next e db w hRun =>
    cases hTurn
    refine ⟨.inr (Spec.raised hRun hSpec fun _ _ => trivial), ?_⟩
    rintro ⟨-, db', w', hTrue⟩
    rw [hRun] at hTrue
    cases hTrue
  · cases hTurn

omit [Crc32c] in
theorem shutDown_deepens (h : s.Sound) (hClose : s.shutDown os = some s') :
    Deepened s.files s'.files := by
  have hSpec : Spec Any (Db.onWal WalWriter.sync) (fun _ db' d' => Deepened s.files (db', d'))
      (fun _ db' d' => Deepened s.files (db', d')) s.db s.dir := by
    refine Spec.onField
      ((sync_keeping (keptTables_closed s.dir s.db.idGen.next) h.confined.wal s.dir
      (.refl _ _)).mono ?_ ?_)
    · exact fun _ _ _ h => .inr ⟨⟨rfl, rfl⟩, rfl, h.2⟩
    · exact fun _ _ _ h => .inr ⟨⟨rfl, rfl⟩, rfl, h.2⟩
  unfold Shared.shutDown at hClose
  split at hClose
  · next b db w hRun =>
    cases hClose
    exact Spec.returned hRun hSpec fun _ _ => trivial
  · next e db w hRun =>
    cases hClose
    exact Spec.raised hRun hSpec fun _ _ => trivial
  · cases hClose

end Stalling

section Calling

variable [Crc32c] {ι : Type} [DecidableEq ι] [Fintype ι] {s : Shared}

/-- With at most as many callers as level 0 takes files before writes wait, no write waits while the
background thread does; and then there is nothing to compact, or a caller is about to wake it. -/
theorem background_wakes (hCard : Fintype.card ι ≤ level0StopWritesTrigger) (h : s.Begins)
    {as : List (Wakeups.Step ι Access (List Outcome))} {m : State ι Shared Access}
    (hRun : Steps.run (Wakeups.step background) as (.start s) = some m) (hw : m.server = .waiting) :
    (∀ i, (m.clients i).isWaiting = false) ∧
      (m.shared.bgCompactionScheduled = false ∧
          compactionScore m.shared.db.versionSet.current = none ∨
        ∃ i, (m.clients i).isNotifying) := by
  have hAwake := (Wakeups.Awake.start h.sound).run background_bounded hCard as hRun
  refine ⟨hAwake.alone hw, (hAwake.told hw).imp (fun hRests => ?_) Wakeups.exists_of_pending⟩
  exact (rests_iff.mp hRests).2

/-- While writes wait, a step of any thread compacts, or leaves the version and the tables as they
are. -/
theorem step_deepens {m m' : State ι Shared Access} {a : Wakeups.Step ι Access (List Outcome)}
    (h : m.shared.Sound) (hStalled : m.shared.db.stalled)
    (hStep : Wakeups.step background m a = some m') :
    Deepened m.shared.files m'.shared.files ∧
      ((∃ os, a = .turn os ∧ m.shared.Compacts os) →
        ∃ c fs, Deepens m.shared.files m'.shared.files c fs) := by
  obtain ⟨turn, -, hShares⟩ := Wakeups.step_shares hStep
  cases hShares with
  | same hSame hIdle =>
    refine ⟨hSame ▸ .inr (.refl _), ?_⟩
    rintro ⟨os, rfl, hOpen, -⟩
    rcases hIdle os rfl with hClosed | hRests
    · exact Bool.false_ne_true (hOpen.symm.trans hClosed) |>.elim
    · have hScore := score_of_slowdown (Bool.and_eq_true_iff.mp hStalled).1
      rw [(rests_iff.mp hRests).2.2] at hScore
      cases hScore
  | parks _ _ hPark =>
    refine ⟨?_, nofun⟩
    have hSame : m'.shared.files = m.shared.files := by
      rw [← hPark]
      show m.shared.maybeScheduleCompaction.files = m.shared.files
      rcases maybeScheduleCompaction_cases m.shared with hEq | hEq
      · rw [hEq]
      · rw [hEq]
        rfl
    exact hSame ▸ .inr (.refl _)
  | @serves i os r notifies _ hGoes hServe =>
    refine ⟨serve_deepens h ?_ hServe, nofun⟩
    have hNot : (r.writes && m.shared.db.stalled) = false := hGoes
    rwa [hStalled, Bool.and_true] at hNot
  | turns _ _ hTurn =>
    obtain ⟨hDeepened, hMade⟩ := compact_deepens h hTurn
    refine ⟨hDeepened, ?_⟩
    rintro ⟨os', ha, hCompacts⟩
    cases ha
    exact hMade hCompacts
  | closes hClose => exact ⟨shutDown_deepens h hClose, nofun⟩

/-- However the threads take turns, as long as the background thread does again and again, its
compactions fail or find nothing to compact again and again, or the time comes again and again when
writes need not wait. -/
theorem stalls_end {states : ℕ → State ι Shared Access}
    {acts : ℕ → Wakeups.Step ι Access (List Outcome)} (h : (states 0).shared.Begins)
    (hRun : ∀ n, Wakeups.step background (states n) (acts n) = some (states (n + 1)))
    (hFair : ∀ n, ∃ k ≥ n, ∃ os, acts k = .turn os) (n : ℕ) :
    ∃ k ≥ n, (states k).shared.db.stalled = false ∨
      ∃ os, acts k = .turn os ∧ ¬(states k).shared.Compacts os := by
  by_contra hNever
  push Not at hNever
  have hSound := background_bounded.kept_along hRun h.sound
  obtain ⟨limit, hLimit⟩ := exists_limit (states n).shared.db.versionSet.current
  have hBelow : NumbersBelow limit (states n).shared.files := fun level f hf =>
    (hLimit level f hf).trans_le (le_max_left _ _)
  have hTurns (j : ℕ) : ∃ k ≥ j, ∃ os, acts k = .turn os ∧ (states k).shared.Compacts os := by
    obtain ⟨k, hk, os, ha⟩ := hFair (max j n)
    exact ⟨k, (le_max_left _ _).trans hk, os, ha, (hNever k ((le_max_right _ _).trans hk)).2 os ha⟩
  obtain ⟨k, hk, hCalm⟩ := Steps.fails_again
    (J := fun m : State ι Shared Access => m.shared.Sound ∧ NumbersBelow limit m.shared.files)
    (B := fun m => m.shared.db.stalled) (L := fun a m => ∃ os, a = .turn os ∧ m.shared.Compacts os)
    (fun m => distance limit m.shared.files) hRun (fun m a m' ⟨hm, hmBelow⟩ hStalled hStep => by
      obtain ⟨hDeepened, hMade⟩ := step_deepens hm hStalled hStep
      refine ⟨⟨background_bounded.step_kept hm hStep, hDeepened.numbersBelow hmBelow⟩,
        hDeepened.distance_le hm.filled hmBelow, fun hLowers => ?_⟩
      obtain ⟨c, fs, hDeepens⟩ := hMade hLowers
      exact hDeepens.distance_lt hm.filled hmBelow) hTurns ⟨hSound n, hBelow⟩
  exact hCalm (by simpa using (hNever k hk).1)

end Calling

/-- The options of a database that flushes every write, and compacts in the background. -/
def eagerly : Options := { eager with disableAutoCompaction := false }

theorem opened_begins {options : Options} {r : Running} (h : opened options ∅ = some r)
    (hAuto : r.db.options.disableAutoCompaction = false) : (Shared.opened r.db r.dir).Begins := by
  unfold MulanLsm.opened at h
  split at h
  · next db w hOpen =>
    cases h
    exact ⟨∅, options, [], w, .start, hOpen, rfl, hAuto⟩
  · cases h

/-- A caller has put a key while the background thread slept, and is about to wake it. -/
theorem background_wakes_put :
    ∃ (s : Shared) (m : State (Fin 2) Shared Access), s.Begins ∧
      Steps.run (Wakeups.step background)
        [.turn [], .request 0 (.put [97] [1]), .enter 0 []] (.start s) = some m ∧
      m.server = .waiting ∧ (∀ i, (m.clients i).isWaiting = false) ∧
      (m.shared.bgCompactionScheduled = false ∧
          compactionScore m.shared.db.versionSet.current = none ∨
        ∃ i, (m.clients i).isNotifying) := by
  have h : (opened eagerly ∅).any (fun r => r.db.options.disableAutoCompaction = false ∧
      (Steps.run (Wakeups.step background) [.turn [], .request 0 (.put [97] [1]), .enter 0 []]
        (.start (.opened r.db r.dir) : State (Fin 2) Shared Access)).any
          fun m => m.server = .waiting) = true := by
    decide +kernel
  obtain ⟨r, hOpen, h⟩ := (Option.any_eq_true _ _).mp h
  obtain ⟨hAuto, h⟩ := of_decide_eq_true h
  obtain ⟨m, hRun, hw⟩ := (Option.any_eq_true _ _).mp h
  have hBegins := opened_begins hOpen hAuto
  have hw := of_decide_eq_true hw
  exact ⟨_, m, hBegins, hRun, hw, background_wakes (by decide) hBegins hRun hw⟩

section Waiting

open Wakeups (Sleeper)

/-- A turn that finds nothing to compact, although a level has a score. -/
theorem turn_idle {ι : Type} [DecidableEq ι] [Fintype ι] [Crc32c] {m : State ι Shared Access}
    (hReady : m.server = .ready) (hAwake : ∀ i, (m.clients i).isWaiting = false)
    (hOpen : m.shared.shuttingDown = false) (hBusy : m.shared.rests = false)
    (hIdle : m.shared.bgCompactionScheduled = false)
    (hPick : pickCompaction m.shared.db.versionSet = none) :
    Wakeups.step background m (.turn []) = some m := by
  have hCompact : m.shared.compact [] = some m.shared := by
    have hSelf : (self : St Db Db) (m.shared.db, ⟨m.shared.dir, []⟩) =
        .ok m.shared.db (m.shared.db, ⟨m.shared.dir, []⟩) := rfl
    have hNone : Db.runOneCompaction (m.shared.db, ⟨m.shared.dir, []⟩) =
        .ok false (m.shared.db, ⟨m.shared.dir, []⟩) := by
      refine (bind_ok hSelf).trans ?_
      rw [hPick]
      rfl
    rw [Shared.compact, hNone]
    simp only [← hIdle]
  have hWoken : m.wakeAll = m := by
    obtain ⟨shared, clients, server⟩ := m
    obtain rfl : server = .ready := hReady
    have hClients : (fun i => (clients i).woken) = clients := by
      funext i
      have := hAwake i
      cases hClient : clients i <;> simp [hClient, Wakeups.Client.woken] at this ⊢
    rw [State.wakeAll, hClients]
    rfl
  have hOpen' : background.closed m.shared = false := hOpen
  have hBusy' : background.rests m.shared = false := hBusy
  have hTurn : background.turn [] m.shared = some m.shared := hCompact
  rw [Wakeups.step, hReady]
  simp only [Wakeups.serverTurn, hOpen', hBusy', hTurn, Bool.false_eq_true, if_false,
    Option.map_some]
  exact congrArg some hWoken

/-- A write, up to its notification. -/
def putOnce (woken : Option (Sleeper (Fin 2))) :
    List (Wakeups.Step (Fin 2) Access (List Outcome)) :=
  [.request 0 (.put [97] [1]), .enter 0 [], .notify 0 woken]

/-- While the background thread has had nothing to do but sleep, a caller fills level 0, and waits
with one more write. -/
def fillAndWait : List (Wakeups.Step (Fin 2) Access (List Outcome)) :=
  .turn [] :: putOnce (some .server) ++ (List.replicate 11 (putOnce none)).flatten ++
    [.request 0 (.put [97] [1]), .enter 0 []]

/-- A compaction empties level 0, the write goes on, and compactions take its key down to the last
level. -/
def settle : List (Wakeups.Step (Fin 2) Access (List Outcome)) :=
  [.turn [], .enter 0 [], .notify 0 none] ++ List.replicate 6 (.turn [])

/-- A write waits until a compaction is made; later turns find nothing to compact. -/
theorem stalls_end_waiting :
    ∃ (s : Shared) (states : ℕ → State (Fin 2) Shared Access)
      (acts : ℕ → Wakeups.Step (Fin 2) Access (List Outcome)) (k : ℕ),
      states 0 = .start s ∧ s.Begins ∧ ((states k).clients 0).isWaiting ∧
      (states k).shared.db.stalled ∧ acts k = .turn [] ∧ (states k).shared.Compacts [] ∧
      ∀ n, ∃ k ≥ n, (states k).shared.db.stalled = false ∨
        ∃ os, acts k = .turn os ∧ ¬(states k).shared.Compacts os := by
  have h : (opened eagerly ∅).any (fun r => r.db.options.disableAutoCompaction = false ∧
      (Steps.run (Wakeups.step background) fillAndWait (.start (.opened r.db r.dir))).any fun m =>
        (m.clients 0).isWaiting ∧ m.shared.db.stalled ∧ m.shared.shuttingDown = false ∧
          (Effects.returned (Db.runOneCompaction (m.shared.db, ⟨m.shared.dir, []⟩))).any (·.1) ∧
          (Steps.run (Wakeups.step background) settle m).any fun m =>
            m.server = .ready ∧ (∀ i, (m.clients i).isWaiting = false) ∧
              m.shared.shuttingDown = false ∧ m.shared.rests = false ∧
              m.shared.bgCompactionScheduled = false ∧
              pickCompaction m.shared.db.versionSet = none) = true := by
    decide +kernel
  obtain ⟨r, hOpen, h⟩ := (Option.any_eq_true _ _).mp h
  obtain ⟨hAuto, h⟩ := of_decide_eq_true h
  obtain ⟨m, hFill, h⟩ := (Option.any_eq_true _ _).mp h
  obtain ⟨hWaiting, hStalled, hUp, hCompacts, h⟩ := of_decide_eq_true h
  obtain ⟨⟨made, db, w⟩, hRun, hMade⟩ := (Option.any_eq_true _ _).mp hCompacts
  obtain rfl : made = true := hMade
  obtain ⟨m', hSettle, h⟩ := (Option.any_eq_true _ _).mp h
  obtain ⟨hReady, hAwake, hUp', hBusy, hIdle, hPick⟩ := of_decide_eq_true h
  have hAll : Steps.run (Wakeups.step background) (fillAndWait ++ settle)
      (.start (.opened r.db r.dir)) = some m' := by
    rw [Steps.run_append, hFill, Option.bind_some, hSettle]
  obtain ⟨states, acts, hSteps, hStates, hActs⟩ :=
    Steps.exists_endless hAll (turn_idle hReady hAwake hUp' hBusy hIdle hPick)
  have hStart : states 0 = .start (.opened r.db r.dir) := (Option.some.inj (hStates 0)).symm
  have hBegins : (states 0).shared.Begins := by
    rw [hStart]
    exact opened_begins hOpen hAuto
  have hFilled : states fillAndWait.length = m :=
    Option.some.inj ((hStates fillAndWait.length).symm.trans (by rw [List.take_left' rfl, hFill]))
  refine ⟨_, states, acts, fillAndWait.length, hStart, opened_begins hOpen hAuto, ?_, ?_, ?_, ?_,
    stalls_end hBegins hSteps fun n => ⟨n + 60, by omega, [], ?_⟩⟩
  · rw [hFilled]
    exact hWaiting
  · rw [hFilled]
    exact hStalled
  · rw [hActs]
    rfl
  · rw [hFilled]
    exact ⟨hUp, db, w, Effects.returned_eq_some.mp hRun⟩
  · rw [hActs, List.getD_eq_default]
    have hLength : (fillAndWait ++ settle).length = 48 := rfl
    omega

end Waiting

theorem parks_once (s : Shared) : s.maybeScheduleCompaction.maybeScheduleCompaction =
    s.maybeScheduleCompaction := by
  rcases maybeScheduleCompaction_cases s with hEq | hEq
  · rw [hEq, hEq]
  · rw [hEq, Shared.maybeScheduleCompaction, Bool.or_true, Bool.true_or, if_pos rfl]

/-- Twelve callers put a key each, while the background thread sleeps. -/
theorem twelve_served : ∃ s s', s.Begins ∧ s.rests ∧ s'.shuttingDown = false ∧
    background.waits (.put [97] [1]) s' ∧
    Wakeups.serveAll background (.put [97] [1]) (List.replicate 12 []) s = some s' := by
  have h : (opened eagerly ∅).any (fun r => r.db.options.disableAutoCompaction = false ∧
      (Shared.opened r.db r.dir).rests ∧
      (Wakeups.serveAll background (.put [97] [1]) (List.replicate 12 []) (.opened r.db r.dir)).any
        fun s' => s'.shuttingDown = false ∧ background.waits (.put [97] [1]) s') = true := by
    decide +kernel
  obtain ⟨r, hOpen, h⟩ := (Option.any_eq_true _ _).mp h
  obtain ⟨hAuto, hRests, h⟩ := of_decide_eq_true h
  obtain ⟨s', hServe, h⟩ := (Option.any_eq_true _ _).mp h
  obtain ⟨hDown, hWaits⟩ := of_decide_eq_true h
  exact ⟨_, s', opened_begins hOpen hAuto, hRests, hDown, hWaits, hServe⟩

/-- Callers and the background thread can come to wait for each other exactly if there are more
callers than level 0 takes files before writes wait. -/
theorem never_stuck_iff (ι : Type) [DecidableEq ι] [Fintype ι] :
    (∀ s : Shared, s.Begins → ∀ m : State ι Shared Access,
      Steps.Leads (Wakeups.step background) (.start s) m → ¬m.Stuck) ↔
        Fintype.card ι ≤ level0StopWritesTrigger := by
  constructor
  · intro h
    by_contra hCard
    obtain ⟨s, s', hBegins, hRests, hDown, hWaits, hServe⟩ := twelve_served
    have hOpen : background.closed s = false := (rests_iff.mp hRests).1
    obtain ⟨m, hLeads, hStuck⟩ := Wakeups.exists_stuck [] hOpen hRests hServe hDown hWaits
      (by simpa [background] using hWaits) (parks_once s') (not_le.mp hCard)
    exact h s hBegins m hLeads hStuck
  · rintro hCard s h m ⟨as, hRun⟩
    exact ((Wakeups.Awake.start h.sound).run background_bounded hCard as hRun).not_stuck

end MulanLsm
