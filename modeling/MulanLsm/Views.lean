import MulanLsm.LsmRuns

/-! What the readers of a running database find.  The database refines a map from keys to values,
and each snapshot the map as it was when the snapshot was taken. -/

namespace MulanLsm

open Versioned (Reads)

/-- What a call does to the map that the database stands for. -/
def Op.effect : Op → (Bytes → Option Bytes) → Bytes → Option Bytes
  | put key value, m => Function.update m key (some value)
  | delete key, m => Function.update m key none
  | _, m => m

/-- The map after some calls on a new database: of each key, what the last write of it says. -/
def written (ops : List Op) : Bytes → Option Bytes :=
  ops.foldl (fun m op => op.effect m) fun _ => none

/-- No snapshot is taken or released. -/
def Op.Plain : Op → Prop
  | snapshot => False
  | release _ => False
  | _ => True

/-- A snapshot that is released shares its sequence number with no other that is held. -/
def Op.Unshared (op : Op) (s : Running) : Prop :=
  match op with
  | .release i => ∀ g ∈ s.guards[i]?, ∀ h ∈ s.guards.eraseIdx i, g.seq ≠ h.seq
  | _ => True

instance : ∀ (op : Op) (s : Running), Decidable (op.Unshared s)
  | .release i, s => inferInstanceAs
    (Decidable (∀ g ∈ s.guards[i]?, ∀ h ∈ s.guards.eraseIdx i, g.seq ≠ h.seq))
  | .put _ _, _ | .delete _, _ | .flush, _ | .compact, _ | .read _ _, _ | .snapshot, _
  | .reopen _, _ => isTrue trivial

instance : ∀ op : Op, Decidable op.Plain
  | .snapshot | .release _ => isFalse id
  | .put _ _ | .delete _ | .flush | .compact | .read _ _ | .reopen _ => isTrue trivial

section Contents

variable [Crc32c] {s s' : Running} {flushed : Nat} {log : List WalEntry} {op : Op} {e : WalEntry}
  {c : Compaction}

/-- All versions that the database holds. -/
def Running.contents (s : Running) : Set Entry := s.db.contents s.dir

/-- The sequence number of the last write. -/
def Running.last (s : Running) : Nat := s.db.versionSet.lastSequence

theorem Inv.contents_le {d : Dir} {db : Db} (h : Inv d db flushed log) :
    ∀ x ∈ db.contents d, x.1.seq ≤ db.versionSet.lastSequence := by
  rintro x (hx | ⟨level, f, hf, hx⟩)
  · exact (h.mem.seqs x hx).2.trans_eq h.seq
  · exact ((h.tables level f hf).seqs x hx).trans h.flushedLe

theorem Running.Ok.contents_le (h : s.Ok flushed log) : ∀ x ∈ s.contents, x.1.seq ≤ s.last :=
  h.inv.contents_le

omit [Crc32c] in
theorem Grown.contents {d d' : Dir} {db db' : Db}
    (h : Grown d db.versionSet.current db.memtable.skiplist d' db'.versionSet.current)
    (hMem : db'.memtable.skiplist = []) : db'.contents d' = db.contents d := by
  rw [Db.contents, Db.contents, h.stored, hMem]
  simp [versions]

theorem Flushes.contents (h : Flushes s s') (hOk : s.Ok flushed log) :
    s'.contents = s.contents ∧ s'.last = s.last :=
  ⟨(h.grown hOk).contents (by rw [h.flushed.mem]; rfl), h.flushed.lastSequence⟩

theorem Reopens.contents (h : Reopens s s' flushed) (hOk : s.Ok flushed log) :
    s'.contents = s.contents ∧ s'.last = s.last :=
  ⟨h.grown.contents (by rw [h.reopened.mem]; rfl), h.reopened.lastSequence.trans hOk.inv.seq⟩

omit [Crc32c] in
theorem Keeps.contents (h : Keeps s s') : s'.contents = s.contents ∧ s'.last = s.last := by
  constructor
  · unfold Running.contents Db.contents
    rw [h.db, h.dir]
  · rw [Running.last, h.db]
    rfl

theorem Writes.contents (h : Writes e s s' flushed log) :
    s'.contents = {e.entry} ∪ s.contents ∧ s'.last = e.seq := by
  constructor
  · have hStored :
        stored s'.dir s'.db.versionSet.current = stored s.dir s.db.versionSet.current := by
      rw [h.applied.version]
      exact stored_congr fun _ f _ => h.applied.tables f.number
    have hMem : versions s'.db.memtable.skiplist =
        {e.entry} ∪ versions s.db.memtable.skiplist := by
      rw [h.applied.mem]
      ext x
      exact SkipList.mem_insert
    unfold Running.contents Db.contents
    rw [hStored, hMem, Set.union_assoc]
  · rw [Running.last, h.applied.version]

/-- What a write does to what readers find: the reader at its sequence number finds it, and readers
before that find what they found. -/
theorem Writes.reads (h : Writes e s s' flushed log) (hInv : Inv s.dir s.db flushed log) :
    Reads s'.contents e.key e.seq e.entry.value ∧
      (∀ k r, k ≠ e.key → Reads s.contents k s.last r → Reads s'.contents k e.seq r) ∧
      ∀ k q r, q ≤ s.last → (Reads s.contents k q r ↔ Reads s'.contents k q r) := by
  have hLast : e.seq = s.last + 1 := by rw [h.seq, hInv.seq, Running.last]
  have hOld : ∀ x ∈ s.contents, x.1.seq ≤ s.last := hInv.contents_le
  rw [h.contents.1]
  refine ⟨?_, fun k r hk hReads => ?_, fun k q r hq => ?_⟩
  · refine Reads.insert_self (x := e.entry) (fun y hy _ => ?_) le_rfl
    exact (hOld y hy).trans_lt (by simp only [Entry.version_seq, WalEntry.entry]; omega)
  · refine (Reads.insert_ne (x := e.entry) (Ne.symm hk)).mpr ?_
    exact (Reads.congr_seq (fun y hy _ => hOld y hy) (by omega)).mp hReads
  · exact (Reads.insert_later (x := e.entry)
      (by simp only [Entry.version_seq, WalEntry.entry]; omega)).symm

omit [Crc32c] in
theorem Op.effect_of_none (m : Bytes → Option Bytes) (h : op.entry s.db = none) :
    op.effect m = m := by
  cases op <;> first | rfl | contradiction

omit [Crc32c] in
theorem Op.effect_of_some (m : Bytes → Option Bytes) (h : op.entry s.db = some e) :
    op.effect m = Function.update m e.key e.entry.value := by
  cases op with
  | put key value =>
    obtain rfl := Option.some.inj h
    rfl
  | delete key =>
    obtain rfl := Option.some.inj h
    rfl
  | _ => contradiction

/-- What a call does to what the database holds: nothing, unless it is a write or a compaction. -/
theorem Did.contents (h : Did s s' flushed log op) (hOk : s.Ok flushed log) :
    op.entry s.db = none ∧ s'.contents = s.contents ∧ s'.last = s.last ∨
      (∃ e s₁, op.entry s.db = some e ∧ Writes e s s₁ flushed log ∧
        s'.contents = s₁.contents ∧ s'.last = e.seq) ∨
      op = .compact ∧ ∃ c, Compacts c s s' flushed log := by
  cases h with
  | @write _ e s₁ hEntry hWrites hOk₁ hRest =>
    refine .inr (.inl ⟨e, s₁, hEntry, hWrites, ?_⟩)
    rw [← hWrites.contents.2]
    split at hRest
    · exact hRest.contents hOk₁
    · exact hRest ▸ ⟨rfl, rfl⟩
  | flush hFlushes => exact .inl ⟨rfl, hFlushes.contents hOk⟩
  | compact hCompacts => exact .inr (.inr ⟨rfl, _, hCompacts⟩)
  | keep hEntry hKeeps => exact .inl ⟨hEntry, hKeeps.contents⟩
  | snapshot hKeeps => exact .inl ⟨rfl, hKeeps.contents⟩
  | release _ hKeeps => exact .inl ⟨rfl, hKeeps.contents⟩
  | reopen hReopens => exact .inl ⟨rfl, hReopens.contents hOk⟩

theorem Did.last_le (h : Did s s' flushed log op) (hOk : s.Ok flushed log) : s.last ≤ s'.last := by
  rcases h.contents hOk with ⟨-, -, hLast⟩ | ⟨e, s₁, -, hWrites, -, hLast⟩ | ⟨-, c, hCompacts⟩
  · exact hLast.ge
  · rw [hLast, hWrites.seq, Running.last, hOk.inv.seq]
    exact Nat.le_succ _
  · exact hCompacts.compacted.lastSequence.ge

/-- A reader at the last write finds the same after a compaction. -/
theorem Compacted.now {d d' : Dir} {db db' : Db} (h : Compacted d db flushed log c d' db')
    (hInv : Inv d db flushed log) (hc : Picked db.versionSet c)
    (hRecent : Recent d db.versionSet.current) (hApart : Apart d db.versionSet.current) {k : Bytes}
    {r : Option Bytes} (hNow : Reads (db.contents d) k db.versionSet.lastSequence r) :
    Reads (db'.contents d') k db'.versionSet.lastSequence r := by
  have hReads : ∀ {q}, db.versionSet.oldestSnapshotSeq ≤ q →
      (Reads (db.contents d) k q r ↔ Reads (db'.contents d') k q r) := fun hq =>
    h.reads hInv hc hRecent hApart hq
  rcases le_total db.versionSet.oldestSnapshotSeq db.versionSet.lastSequence with hOldest | hOldest
  · rw [h.lastSequence]
    exact (hReads hOldest).mp hNow
  · -- No version is newer than the last write, so a reader at the oldest snapshot sees all too.
    have hOld := (Reads.congr_seq (fun y hy _ => hInv.contents_le y hy) hOldest).mp hNow
    exact (Reads.congr_seq (fun y hy _ => h.inv.contents_le y hy)
      (h.lastSequence.trans_le hOldest)).mpr ((hReads le_rfl).mp hOld)

/-- What a call does to what readers find: one at the last write finds the effect of the call, and
an older one what it found before, unless a compaction need not keep it. -/
theorem Did.reads (h : Did s s' flushed log op) (hOk : s.Ok flushed log)
    (hRecent : Recent s.dir s.db.versionSet.current) (hApart : Apart s.dir s.db.versionSet.current)
    {m : Bytes → Option Bytes} (hNow : ∀ k, Reads s.contents k s.last (m k)) :
    (∀ k, Reads s'.contents k s'.last (op.effect m k)) ∧
      ∀ k q r, q ≤ s.last → (op = .compact → s.db.versionSet.oldestSnapshotSeq ≤ q) →
        (Reads s.contents k q r ↔ Reads s'.contents k q r) := by
  rcases h.contents hOk with ⟨hEntry, hContents, hLast⟩ |
    ⟨e, s₁, hEntry, hWrites, hContents, hLast⟩ | ⟨rfl, c, hCompacts⟩
  · rw [hContents, hLast, Op.effect_of_none m hEntry]
    exact ⟨hNow, fun _ _ _ _ _ => Iff.rfl⟩
  · obtain ⟨hSelf, hOther, hBefore⟩ := hWrites.reads hOk.inv
    rw [hContents, hLast, Op.effect_of_some m hEntry]
    refine ⟨fun k => ?_, fun k q r hq _ => hBefore k q r hq⟩
    by_cases hk : k = e.key
    · subst hk
      rw [Function.update_self]
      exact hSelf
    · rw [Function.update_of_ne hk]
      exact hOther k _ hk (hNow k)
  · have hCompacted := hCompacts.compacted
    have hPicked := pickCompaction_picked hCompacts.picked
    exact ⟨fun k => hCompacted.now hOk.inv hPicked hRecent hApart (hNow k),
      fun k q r _ hq => hCompacted.reads hOk.inv hPicked hRecent hApart (hq rfl)⟩

end Contents

section Views

variable [Crc32c] {s s' s0 : Running} {flushed : Nat} {log : List WalEntry} {op : Op}
  {ops done : List Op} {options : Options}

/-- The levels are in order, and a reader finds what the calls wrote. -/
structure Refines (ops : List Op) (s : Running) : Prop where
  ordered : Ordered s.db.versionSet.current
  recent : Recent s.dir s.db.versionSet.current
  apart : Apart s.dir s.db.versionSet.current
  now : ∀ k, Reads s.contents k s.last (written ops k)

/-- A snapshot that is held is registered, and a reader at it finds what one found at first. -/
structure Running.Holds (s : Running) (g : Guard) : Prop where
  mem : g.seq ∈ s.db.versionSet.snapshots
  le : g.seq ≤ s.last
  reads : ∀ k, ∃ r, g.seen k = some r ∧ Reads s.contents k g.seq r

/-- The bytes of the tables give what their entries do. -/
def Running.Serves (s : Running) : Prop := s.db.versionSet.current.Serves s.dir

theorem Inv.readsAt (h : Inv s.dir s.db flushed log) (hServes : s.Serves) {q : Nat}
    (hq : q < 2 ^ 64)
    (k : Bytes) : readAt q k s.db s.dir = some ((s.db.lookup s.dir q k).bind Entry.value) := by
  rw [h.readable.readAt, Version.Serves.answer hServes h.readable hq]
  rfl

theorem Inv.readsNow (h : Inv s.dir s.db flushed log) (hServes : s.Serves) (hLast : s.last < 2 ^ 64)
    (k : Bytes) :
    readNow k s.db s.dir = some ((s.db.lookup s.dir s.last k).bind Entry.value) := by
  rw [h.readable.readNow, ← Running.last, Version.Serves.answer hServes h.readable hLast]
  rfl

theorem Running.Ok.readAt (h : s.Ok flushed log) (hView : Refines ops s) (hServes : s.Serves)
    {k : Bytes} {q : Nat} {r : Option Bytes} (hq : q < 2 ^ 64) (hReads : Reads s.contents k q r) :
    readAt q k s.db s.dir = some r := by
  rw [h.inv.readsAt hServes hq, h.inv.reads_lookup hView.recent hView.apart hView.ordered hReads]

theorem Running.Ok.readNow (h : s.Ok flushed log) (hView : Refines ops s) (hServes : s.Serves)
    (hLast : s.last < 2 ^ 64) (k : Bytes) : readNow k s.db s.dir = some (written ops k) := by
  rw [h.inv.readsNow hServes hLast,
    h.inv.reads_lookup hView.recent hView.apart hView.ordered (hView.now k)]

omit [Crc32c] in
theorem written_append (done : List Op) (op : Op) :
    written (done ++ [op]) = op.effect (written done) :=
  List.foldl_append

theorem Did.refines (h : Did s s' flushed log op) (hOk : s.Ok flushed log) (hOrder : op.InOrder s)
    (hWhole : op.Whole s) (hView : Refines done s) : Refines (done ++ [op]) s' := by
  obtain ⟨hRecent, hApart⟩ := h.recent hOk hWhole hView.recent hView.apart
  refine ⟨h.ordered hOk hOrder hView.ordered, hRecent, hApart, ?_⟩
  rw [written_append]
  exact (h.reads hOk hView.recent hView.apart hView.now).1

omit [Crc32c] in
theorem Created.refines (h : Created options s.db) : Refines [] s := by
  obtain ⟨hOrdered, hRecent, hApart⟩ := h.order (d := s.dir)
  refine ⟨hOrdered, hRecent, hApart, fun k => .inr ⟨?_, rfl⟩⟩
  rintro x ⟨hx | ⟨level, f, hf, -⟩, -⟩
  · rw [h.mem] at hx
    exact absurd hx List.not_mem_nil
  · rw [h.filesAt] at hf
    exact absurd hf List.not_mem_nil

omit [Crc32c] in
theorem Created.last_lt (h : Created options s.db) : s.last < 2 ^ 64 := by
  have hZero : s.db.versionSet.lastSequence = 0 := congrArg VersionState.lastSequence h.state
  rw [Running.last, hZero]
  decide

/-- Where the snapshots that are held come from. -/
theorem Did.guard (h : Did s s' flushed log op) (hShared : op.Unshared s) {g : Guard}
    (hg : g ∈ s'.guards) :
    g ∈ s.guards ∧ (g.seq ∈ s.db.versionSet.snapshots → g.seq ∈ s'.db.versionSet.snapshots) ∨
      g = ⟨s.last, fun key => MulanLsm.readNow key s.db s.dir⟩ ∧
        s.last ∈ s'.db.versionSet.snapshots ∧ op = .snapshot := by
  cases h with
  | @write _ e s₁ hEntry hWrites hOk₁ hRest =>
    have hVersion := hWrites.applied.version
    split at hRest
    · rw [hRest.guards, hWrites.guards] at hg
      rw [hRest.flushed.snapshots, hVersion]
      exact .inl ⟨hg, id⟩
    · subst hRest
      rw [hWrites.guards] at hg
      rw [hVersion]
      exact .inl ⟨hg, id⟩
  | flush hFlushes =>
    rw [hFlushes.guards] at hg
    rw [hFlushes.flushed.snapshots]
    exact .inl ⟨hg, id⟩
  | compact hCompacts =>
    rw [hCompacts.guards] at hg
    rw [hCompacts.compacted.snapshots]
    exact .inl ⟨hg, id⟩
  | keep _ _ hGuards hSnapshots =>
    rw [hGuards] at hg
    rw [hSnapshots]
    exact .inl ⟨hg, id⟩
  | snapshot _ hGuards hSnapshots =>
    rw [hGuards] at hg
    rw [hSnapshots]
    rcases List.mem_append.mp hg with hg | hg
    · exact .inl ⟨hg, fun h => List.mem_append_left _ h⟩
    · exact .inr ⟨List.mem_singleton.mp hg, by simp [Running.last], rfl⟩
  | @release i g₀ hGet _ hGuards hSnapshots =>
    rw [hGuards] at hg
    rw [hSnapshots]
    exact .inl ⟨List.mem_of_mem_eraseIdx hg, fun h =>
      List.mem_filter.mpr ⟨h, decide_eq_true (hShared g₀ hGet g hg).symm⟩⟩
  | reopen hReopens =>
    rw [hReopens.guards] at hg
    exact absurd hg List.not_mem_nil

omit [Crc32c] in
theorem oldestSnapshotSeq_le {vs : VersionSet} {q : Nat} (h : q ∈ vs.snapshots) :
    vs.oldestSnapshotSeq ≤ q := by
  unfold VersionSet.oldestSnapshotSeq
  cases hMin : vs.snapshots.min? with
  | none => exact absurd (List.min?_eq_none_iff.mp hMin ▸ h) List.not_mem_nil
  | some m => exact (List.min?_eq_some_iff.mp hMin).2 q h

theorem Did.holds (h : Did s s' flushed log op) (hOk : s.Ok flushed log) (hShared : op.Unshared s)
    (hView : Refines done s) (hServes : op = .snapshot → s.Serves) (hLast : s.last < 2 ^ 64)
    (hHolds : ∀ g ∈ s.guards, s.Holds g) : ∀ g ∈ s'.guards, s'.Holds g := by
  intro g hg
  have hReads := (h.reads hOk hView.recent hView.apart hView.now).2
  rcases h.guard hShared hg with ⟨hg, hMem⟩ | ⟨rfl, hMem, rfl⟩
  · obtain ⟨hOld, hLe, hSeen⟩ := hHolds g hg
    refine ⟨hMem hOld, hLe.trans (h.last_le hOk), fun k => ?_⟩
    obtain ⟨r, hr, hRead⟩ := hSeen k
    exact ⟨r, hr, (hReads k _ r hLe fun _ => oldestSnapshotSeq_le hOld).mp hRead⟩
  · refine ⟨hMem, h.last_le hOk, fun k => ⟨_, hOk.readNow hView (hServes rfl) hLast k, ?_⟩⟩
    exact (hReads k _ _ le_rfl (by simp)).mp (hView.now k)

theorem Did.unregistered (h : Did s s' flushed log op) (hPlain : op.Plain)
    (hNone : s.db.versionSet.snapshots = []) : s'.db.versionSet.snapshots = [] := by
  cases h with
  | @write _ e s₁ hEntry hWrites hOk₁ hRest =>
    have hVersion := hWrites.applied.version
    split at hRest
    · rw [hRest.flushed.snapshots, hVersion, hNone]
    · rw [hRest, hVersion, hNone]
  | flush hFlushes => rw [hFlushes.flushed.snapshots, hNone]
  | compact hCompacts => rw [hCompacts.compacted.snapshots, hNone]
  | keep _ _ _ hSnapshots => rw [hSnapshots, hNone]
  | snapshot => exact hPlain.elim
  | release => exact hPlain.elim
  | reopen hReopens => exact hReopens.reopened.snapshots

/-- Without snapshots no compaction cuts off a file between two versions of a key. -/
theorem Running.Ok.whole (h : s.Ok flushed log) (hRoom : s.Room)
    (hNone : s.db.versionSet.snapshots = []) (op : Op) : op.Whole s := by
  cases op with
  | compact =>
    intro c hPick
    apply h.inv.not_cuts (pickCompaction_picked hPick)
    rw [VersionSet.oldestSnapshotSeq, hNone]
    exact h.inv.flushedLe.trans hRoom.seq.le
  | _ => trivial

/-- The sequence numbers have room for the call. -/
theorem Did.last_lt (h : Did s s' flushed log op) (hOk : s.Ok flushed log) (hRoom : s.Room) :
    s'.last < 2 ^ 64 := by
  have hLt : s.last + 1 < 2 ^ 64 := hRoom.seq_lt
  rcases h.contents hOk with ⟨-, -, hLast⟩ | ⟨e, s₁, -, hWrites, -, hLast⟩ | ⟨-, c, hCompacts⟩
  · omega
  · rw [hLast, hWrites.seq, hOk.inv.seq]
    exact hLt
  · rw [Running.last, hCompacts.compacted.lastSequence]
    exact Nat.lt_of_succ_lt hLt

/-- What is written without snapshots, with compactions that append their files in order. -/
theorem Along.refines (hStart : opened options ∅ = some s0)
    (hOps : Along (fun op s => op.Sound s ∧ op.Plain ∧ op.InOrder s) ops s0) :
    ∃ s flushed log, opsRun ops s0 = some s ∧ s.Ok flushed log ∧ Refines ops s ∧
      s.last < 2 ^ 64 := by
  obtain ⟨hOk, hCreated, -⟩ := opened_new hStart
  obtain ⟨s, hRun, ⟨flushed, log, hOk'⟩, hView, -, hLast⟩ := hOps.run
    (P := fun done s => Refines done s ∧ s.db.versionSet.snapshots = [] ∧ s.last < 2 ^ 64)
    (fun _ _ h => h.1)
    (fun _ op s _ _ _ hC hOk hDid hP =>
      ⟨hDid.refines hOk hC.2.2 (hOk.whole hC.1.2 hP.2.1 op) hP.1,
        hDid.unregistered hC.2.1 hP.2.1, hDid.last_lt hOk hC.1.2⟩)
    hOk ⟨hCreated.refines, hCreated.snapshots, hCreated.last_lt⟩
  exact ⟨s, flushed, log, hRun, hOk', hView, hLast⟩

/-- What snapshots hold on to, with compactions that append their files in order and cut off none
between two versions of a key. -/
theorem Along.holds (hStart : opened options ∅ = some s0)
    (hOps : Along (fun op s => op.Sound s ∧ op.InOrder s ∧ op.Whole s ∧ op.Unshared s ∧
      (op = .snapshot → s.Serves)) ops s0) :
    ∃ s flushed log, opsRun ops s0 = some s ∧ s.Ok flushed log ∧ Refines ops s ∧
      s.last < 2 ^ 64 ∧ ∀ g ∈ s.guards, s.Holds g := by
  obtain ⟨hOk, hCreated, hGuards⟩ := opened_new hStart
  obtain ⟨s, hRun, ⟨flushed, log, hOk'⟩, hView, hLast, hHolds⟩ := hOps.run
    (P := fun done s => Refines done s ∧ s.last < 2 ^ 64 ∧ ∀ g ∈ s.guards, s.Holds g)
    (fun _ _ h => h.1)
    (fun _ _ _ _ _ _ hC hOk hDid hP => ⟨hDid.refines hOk hC.2.1 hC.2.2.1 hP.1,
      hDid.last_lt hOk hC.1.2, hDid.holds hOk hC.2.2.2.1 hP.1 hC.2.2.2.2 hP.2.1 hP.2.2⟩) hOk
    ⟨hCreated.refines, hCreated.last_lt,
      fun g hg => by rw [hGuards] at hg; exact absurd hg List.not_mem_nil⟩
  exact ⟨s, flushed, log, hRun, hOk', hView, hLast, hHolds⟩

end Views

end MulanLsm
