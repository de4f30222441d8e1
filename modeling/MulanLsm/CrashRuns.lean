import MulanLsm.Crash

/-! Crashes in runs.  Between two calls the manifest and, if writes are synced, the log are on the
disk, and what the table files and the first entries of the log say is what some of the calls wrote,
from the first on.  So the disk comes back with that, wherever in a call the machine stops. -/

namespace MulanLsm

section Durability

variable [Crc32c] {A : Outcome → Prop} {d d' : Dir} {db : Db} {flushed : Nat}
  {log : List WalEntry} {options : Options}

omit [Crc32c] in
theorem Settled.durable (h : Settled d db) : Durable d db :=
  ⟨h.current.onDisk, h.manifest.onDisk, fun _ => .of_empty h.log⟩

/-- The manifest is on the disk after a commit. -/
theorem commit_synced {vs : VersionSet} (hIn : InStep ({ vs with lastSequence := flushed }, d))
    (edit : VersionEdit) :
    Spec A (VersionSet.writeNewVersion edit)
      (fun _ vs' d' => vs'.manifestNumber = vs.manifestNumber ∧
        d'.Synced (.manifest vs.manifestNumber) ∧ d.Frame {.manifest vs.manifestNumber} d')
      (fun _ _ _ => True) vs d := by
  obtain ⟨-, B, records, edits, hAt, -⟩ := hIn
  replace hAt : LogAt vs.manifestWriter.wal d (.manifest vs.manifestNumber) B records := hAt
  refine (writeNewVersion_spec hAt edit).mono ?_ fun _ _ _ _ => trivial
  rintro - vs' d' ⟨⟨-, -, -, -, -, hFrame⟩, -, hSame, hSynced⟩
  exact ⟨hSame.state.2, hSynced, hFrame⟩

/-- What a flush that returns leaves is on the disk. -/
theorem Inv.flush_durable (h : Inv d db flushed log) (hDurable : Durable d db)
    (hMem : db.memtable.skiplist ≠ []) :
    Spec A Db.flushMemtable (fun _ db' d' => Durable d' db') (fun _ _ _ => True) db d := by
  have hEntries : ¬db.memtable.entries = 0 := by
    rw [h.mem.count, List.length_eq_zero_iff]
    exact hMem
  refine Spec.bind (Spec.self ?_)
  rw [if_neg hEntries]
  refine Spec.bind ((prepareFlush_spec h hMem).mono ?_ fun _ _ _ _ => trivial)
  rintro r db₁ d₁ ⟨newWal, f, rfl, rfl, -, -, hNew, -, hInv, hFrame⟩
  have hCurrent : d₁.OnDisk .current := hDurable.current.frame hFrame (by
    rintro (⟨n, -, hName | hName⟩ | hName) <;> cases hName)
  refine Spec.bind (Spec.self (Spec.bind (Spec.onField ((commit_synced hInv.manifest _).mono ?_
    fun _ _ _ _ => trivial))))
  rintro - vs' d₂ ⟨hNumber, hSynced, hFrame₂⟩
  exact Spec.update ⟨hCurrent.frame hFrame₂ (by simp), hNumber ▸ hSynced.onDisk,
    fun _ => .of_empty (hNew.frame hFrame₂ (by simp)).has⟩

/-- What a compaction that returns leaves is on the disk. -/
theorem Inv.compaction_durable (h : Inv d db flushed log) (hDurable : Durable d db) :
    Spec A Db.runOneCompaction (fun _ db' d' => Durable d' db') (fun _ _ _ => True) db d := by
  refine Spec.bind (Spec.self ?_)
  cases hPick : pickCompaction db.versionSet with
  | none => exact Spec.pure hDurable
  | some c =>
  have hc := pickCompaction_picked hPick
  refine Spec.bind ((doCompaction_spec (t := d.entries) fun f hf =>
    (h.input_table hc hf).describes.table.table).mono ?_ fun _ _ _ _ => trivial)
  rintro ⟨output, idGen⟩ db₁ d₁ ⟨rfl, hFrame₁, -⟩
  have hSub : sstsFrom db₁.idGen.next ⊆ filesFrom db₁.idGen.next := sstsFrom_subset le_rfl
  have hDurable₁ := hDurable.frame (h.walBelow.trans_le h.next) hFrame₁ hSub
  have hIn := h.manifest.frame hFrame₁ (by rintro ⟨n, -, hName⟩; cases hName)
    (by rintro ⟨n, -, hName⟩; cases hName)
  refine Spec.bind (Spec.onField ((commit_synced hIn _).mono ?_ fun _ _ _ _ => trivial))
  rintro - vs' d₂ ⟨hNumber, hSynced, hFrame₂⟩
  exact Spec.bind (Spec.update (Spec.pure ⟨hDurable₁.current.frame hFrame₂ (by simp),
    hNumber ▸ hSynced.onDisk, fun hSync => (hDurable₁.log hSync).frame hFrame₂ (by simp)⟩))

theorem Opened.durable {state : VersionState} {m : MemTable} {number offset seq : Nat}
    (h : Opened d state m (openedSet state number offset seq)
      (CommitLogged number state) options d' db)
    (hCurrent : d.OnDisk .current) : Durable d' db := by
  obtain ⟨edit, d₁, d₂, hReadied, -, hCommitted, ⟨-, hSynced⟩, hFrame, hSwept, -, hWal, hDb⟩ := h
  have hCurrent₁ : d₁.OnDisk .current := hCurrent.frame hReadied.1 (by
    rintro ⟨n, -, hName | hName⟩ <;> cases hName)
  have hNumber : db.versionSet.manifestNumber = number := by
    obtain ⟨v, pointers, writer, -, -, hvs⟩ := hCommitted
    rw [hvs]
    rfl
  have hSame := hSwept.frame
  rw [hNumber] at hSame
  refine ⟨(hCurrent₁.frame hFrame (by simp)).frame hSame (by simp),
    hNumber ▸ hSynced.onDisk.frame hSame (by simp), fun _ => ?_⟩
  exact congrArg Db.walNumber hDb ▸ .of_empty hWal.has

/-- What an opening that returns leaves is on the disk. -/
theorem Inv.open_durable {σ : Type} {x : σ} (h : Inv d db flushed log) (options : Options)
    (hDurable : Durable d db)
    (hRoom : db.Reopenable) (hA : Halts A) :
    Spec A (Db.open options) (fun db' _ d' => Durable d' db') (fun _ _ _ => True) x d := by
  obtain ⟨offset, hSpec⟩ := h.opened_spec options (x := x) hRoom.1 hRoom.2 hA
  refine hSpec.mono ?_ fun _ _ _ _ => trivial
  rintro db' y d' ⟨-, hOpened⟩
  exact hOpened.durable hDurable.current

end Durability

section Stopping

variable [Crc32c] {A : Outcome → Prop} {d d' : Dir} {db : Db} {flushed : Nat}
  {log : List WalEntry} {options : Options} {W : Dir → Version → Prop}

/-- A flush that returns leaves what is on the disk, and one that is cut what comes back. -/
theorem Inv.flush_stops (h : Inv d db flushed log) (hDurable : Durable d db)
    (hReplayed : db.memtable = replayed flushed log)
    (hNext : db.idGen.next + 4 < 2 ^ 64) (hSeq : db.versionSet.lastSequence + 1 < 2 ^ 64) :
    Spec A Db.flushMemtable (fun _ db' d' => Durable d' db') (fun _ _ d' => ComesBack d'
      (Back db.versionSet.current flushed (db.syncedLog log) log W d)) db d := by
  by_cases hMem : db.memtable.skiplist = []
  · have hEntries : db.memtable.entries = 0 := by
      rw [h.mem.count, hMem]
      rfl
    refine Spec.bind (Spec.self ?_)
    rw [if_pos hEntries]
    exact Spec.pure hDurable
  · exact ((h.flush_durable hDurable hMem).and (h.flush_comesBack hDurable hMem hReplayed hNext hSeq
      (hDurable.certain log))).mono (fun _ _ _ h => h.1) (fun _ _ _ h => h.2)

/-- A write that returns leaves what is on the disk, and one that is cut what comes back, with the
entry or without it. -/
theorem Inv.write_stops (h : Inv d db flushed log) (hDurable : Durable d db)
    (hReplayed : db.memtable = replayed flushed log) {vtype : ValueType} {key value : Bytes}
    (hFits : EntryFits (nextEntry db vtype key value).entry)
    (hNext : db.idGen.next + 4 < 2 ^ 64) (hSeq : db.versionSet.lastSequence + 2 < 2 ^ 64) :
    Spec A (Db.write key value vtype) (fun _ db' d' => Durable d' db')
      (fun _ _ d' => ComesBack d' (Back db.versionSet.current flushed (db.syncedLog log)
        (log ++ [nextEntry db vtype key value]) W d)) db d := by
  set e := nextEntry db vtype key value with he
  obtain ⟨B, hAt⟩ := h.wal
  have hRoom : db.Reopenable := ⟨by omega, by have := h.next; omega⟩
  refine Spec.bind (((logWrite_spec h hFits hAt).and
    (h.logWrite_comesBack hDurable hRoom hFits)).mono ?_ fun _ _ _ h => h.2)
  rintro - db₁ d₁ ⟨⟨w', rfl, hInv, ⟨-, -, -, -, -, hFrame⟩, -⟩, hDurable₁⟩
  have hApplied := applied_of_logged hFits hInv hFrame
  replace hDurable₁ : Durable d₁ (Db.applyWrite vtype key value { db with wal := w' }) :=
    ⟨hDurable₁.current, hDurable₁.manifest, hDurable₁.log⟩
  refine Spec.bind (Spec.update (Spec.bind (Spec.self ?_)))
  split
  · refine (hApplied.inv.flush_stops (W := W) hDurable₁ ?_ hNext ?_).mono (fun _ _ _ h => h)
      fun _ _ _ hBack => hBack.mono fun _ _ _ h => ?_
    · rw [hApplied.mem, hReplayed, replayed_append]
    · rw [hApplied.version]
      have := h.seq
      change db.memtable.seq + 1 + 1 < 2 ^ 64
      omega
    · rw [hApplied.version] at h
      refine h.mono (.of_frame hFrame (by simp)) ?_ fun _ _ h => h
      unfold Db.syncedLog
      rw [hApplied.options]
      split
      · exact List.prefix_append _ _
      · exact List.prefix_rfl
  · exact Spec.pure hDurable₁

end Stopping

section Recovering

variable [Crc32c] {d d' : Dir} {number : Nat} {state : VersionState} {log : List WalEntry}
  {options : Options} {Q : Set Entry → Prop}

/-- A directory that opens does so also behind a manifest that is cut. -/
theorem Openable.opened_cut (h : Openable d number state log) (options : Options) :
    ∃ r offset, opened options d = some r ∧ Opened d state (replayed state.lastSequence log)
      (openedSet state number offset (replayed state.lastSequence log).seq)
      (fun _ _ d' => .manifest number ∈ d') options r.dir r.db := by
  obtain ⟨B, synced, -, hHas, -⟩ := h.manifest.2
  obtain ⟨⟨f, hf, -⟩, -⟩ := h.manifest
  have hSpec : Spec Quiet (Db.open options : St Unit Db) (fun db _ d' =>
      Opened d state (replayed state.lastSequence log) (openedSet state number
        (B.length % blockSize) (replayed state.lastSequence log).seq)
        (fun _ _ d' => .manifest number ∈ d') options d' db) Never () d := by
    refine Spec.bind (Spec.pathExists halts_quiet ?_ fun f hF => not_fails_quiet hF)
    rw [if_pos (decide_eq_true (Dir.mem_of_lookup hf))]
    refine (recoverOpen_spec h halts_quiet hHas (Openable.commits_cut hHas)).mono
      (fun _ _ _ h => h.2) ?_
    rintro f y d' ⟨-, ⟨hFails, -⟩ | ⟨_, _, -, -, hBad⟩ | ⟨hFails, -⟩⟩
    · exact not_fails_quiet hFails
    · exact hBad
    · exact not_fails_quiet hFails
  obtain ⟨db, ⟨⟩, w, hRun, hOpened⟩ := hSpec.run
  exact ⟨{ db, dir := w.dir, guards := [] }, _, by rw [opened, hRun], hOpened⟩

/-- A directory that opens gives its table files and its log, replayed. -/
theorem Openable.reopens (h : Openable d number state log) (options : Options) :
    ∃ r, opened options d = some r ∧
      Reopened d state (replayed state.lastSequence log) r.dir r.db := by
  obtain ⟨r, offset, hRun, hOpened⟩ := h.opened_cut options
  exact ⟨r, hRun, (hOpened.reopened h.numbered).1⟩

omit [Crc32c] in
theorem Reopened.contents {db : Db} (h : Reopened d state (replayed state.lastSequence log) d' db) :
    db.contents d' = stored d state.current ∪ logVersions log := by
  have hNone : versions (MemTable.withInitialSequence
      (replayed state.lastSequence log).seq).skiplist = ∅ :=
    Set.eq_empty_of_forall_notMem fun _ => List.not_mem_nil
  rw [Db.contents, h.grown.stored, h.mem, replayed_versions, hNone, Set.empty_union, Set.union_comm]

/-- A directory that opens gives the versions of its table files and of its log. -/
theorem Openable.opens (h : Openable d number state log) (options : Options) :
    ∃ r, opened options d = some r ∧
      r.contents = stored d state.current ∪ logVersions log := by
  obtain ⟨r, hRun, hRe⟩ := h.reopens options
  exact ⟨r, hRun, hRe.contents⟩

/-- Whatever the disk keeps of a directory that restores opens. -/
theorem Restores.opens (h : Restores d Q) (hSurvives : Survives d d') (options : Options) :
    ∃ r, opened options d' = some r ∧ Q r.contents := by
  obtain ⟨number, state, log, hOpen, -, hQ⟩ := h d' hSurvives
  obtain ⟨r, hRun, hContents⟩ := hOpen.opens options
  exact ⟨r, hRun, hContents ▸ hQ⟩

theorem Begun.openable (h : Begun d) (hSurvives : Survives d d') :
    Openable d' 1 initialState [] := by
  have hFrame : d.Frame {.current, .manifest 1}ᶜ d' := hSurvives.frame _ (by
    rintro name (rfl | rfl)
    · exact h.current.onDisk
    · exact h.manifest.onDisk)
  refine created_openable (h.said.frame hFrame (by simp) (by simp)) fun n hMem => ?_
  obtain ⟨rfl, synced, hHas⟩ := h.logs n (hSurvives.mem_iff.mp hMem)
  obtain ⟨k, -, hHas'⟩ := hSurvives.has hHas
  exact ⟨rfl, synced, by simpa using hHas'⟩

/-- A directory that has files but no `CURRENT` is refused. -/
theorem opened_refuses {name : FileName} (hMem : name ∈ d) (hCurrent : .current ∉ d) :
    opened options d = none := by
  have hKeys : d.keys ≠ [] := List.ne_nil_of_mem hMem
  have hSpec : Spec Quiet (Db.open options : St Unit Db) (fun _ _ _ => False) (fun _ _ _ => True)
      () d := by
    refine Spec.bind (Spec.pathExists halts_quiet ?_ fun _ _ => trivial)
    rw [if_neg (by simpa using hCurrent)]
    refine Spec.bind (Spec.look (fun names hNames => ?_) (fun _ => trivial) fun _ _ _ => trivial)
    obtain rfl : d.keys = names := Option.some.inj hNames
    rw [if_pos hKeys]
    exact Spec.throw trivial
  rcases hSpec.result (List.forall_mem_nil _) with ⟨_, _, _, _, hFalse⟩ | ⟨f, y, w, hRun, -⟩
  · exact hFalse.elim
  · rw [opened, hRun]

end Recovering

/-- The machine may stop in `m`, run on `x` and `d`, with the directory `d'`. -/
def StopsIn {σ α : Type} (m : St σ α) (x : σ) (d d' : Dir) : Prop :=
  ∃ os, (∀ o ∈ os, Stops o) ∧ ∃ y w, m (x, ⟨d, os⟩) = .error .crash (y, w) ∧ w.dir = d'

theorem StopsIn.of_spec {σ α : Type} {m : St σ α} {x : σ} {d d' : Dir} {Q : α → σ → Dir → Prop}
    {E : Fault → σ → Dir → Prop} (h : StopsIn m x d d') (hSpec : Spec Stops m Q E x d) :
    ∃ y, E .crash y d' := by
  obtain ⟨os, hos, y, w, hRun, rfl⟩ := h
  rcases hSpec.result hos with ⟨_, _, _, hRun', -⟩ | ⟨f, y', w', hRun', hE⟩
  · rw [hRun] at hRun'
    contradiction
  · rw [hRun, EStateM.Result.error.injEq, Prod.mk.injEq] at hRun'
    obtain ⟨rfl, rfl, rfl⟩ := hRun'
    exact ⟨y, hE⟩

section Points

variable [Crc32c] {s s' : Running} {d d' : Dir} {op : Op} {flushed : Nat} {log : List WalEntry}
  {options : Options} {Q : Set Entry → Prop} {W : Dir → Version → Prop}

/-- The machine may stop in the call with the directory `d'`. -/
def Op.StopsAt : Op → Running → Dir → Prop
  | put key value, s, d' => StopsIn (Db.put key value) s.db s.dir d'
  | delete key, s, d' => StopsIn (Db.delete key) s.db s.dir d'
  | flush, s, d' => StopsIn Db.flushMemtable s.db s.dir d'
  | compact, s, d' => StopsIn Db.runOneCompaction s.db s.dir d'
  | read seq key, s, d' => StopsIn (Db.getAt seq key) s.db s.dir d'
  | snapshot, s, d' => StopsIn Db.newSnapshot s.db s.dir d'
  | release i, s, d' => ∃ g ∈ s.guards[i]?, StopsIn (Db.dropSnapshot g.seq) s.db s.dir d'
  | reopen options, s, d' => StopsIn (Db.close s.db : St Unit Unit) () s.dir d' ∨
      ∃ d₁, closed s = some d₁ ∧ StopsIn (Db.open options : St Unit Db) () d₁ d'

/-- The counters have room for another call and, whatever comes of it, for an opening. -/
structure Running.Ample (s : Running) : Prop where
  seq : s.db.versionSet.lastSequence < maxSequence
  next : s.db.idGen.next + 4 < 2 ^ 64
  compaction : ∀ c, pickCompaction s.db.versionSet = some c →
    s.db.idGen.next + (compactedFiles s.dir s.db c).length + 2 < 2 ^ 64

omit [Crc32c] in
theorem Running.Ample.room (h : s.Ample) : s.Room :=
  ⟨h.seq, by have := h.next; omega, fun c hc => by have := h.compaction c hc; omega⟩

instance (s : Running) : Decidable s.Ample :=
  decidable_of_iff (s.db.versionSet.lastSequence < maxSequence ∧ s.db.idGen.next + 4 < 2 ^ 64 ∧
      ∀ c ∈ pickCompaction s.db.versionSet,
        s.db.idGen.next + (compactedFiles s.dir s.db c).length + 2 < 2 ^ 64)
    ⟨fun h => ⟨h.1, h.2.1, h.2.2⟩, fun h => ⟨h.seq, h.next, h.compaction⟩⟩

/-- What the disk may come back with after the machine stops in the call, or in front of it, meets
`Q`. -/
structure Covers (op : Op) (s : Running) (log : List WalEntry) (Q : Set Entry → Prop) : Prop where
  rest : ∀ log₁, s.db.syncedLog log <+: log₁ → log₁ <+: log →
    Q (stored s.dir s.db.versionSet.current ∪ logVersions log₁)
  write : ∀ e, op.entry s.db = some e →
    Q (stored s.dir s.db.versionSet.current ∪ logVersions (log ++ [e]))
  compact : op = .compact → ∀ log₁, s.db.syncedLog log <+: log₁ → log₁ <+: log →
    ∀ c d' v', Picked s.db.versionSet c → Rewrote s.dir s.db c d' v' →
      Q (stored d' v' ∪ logVersions log₁)

omit [Crc32c] in
theorem Running.call_spec {α : Type} {A : Outcome → Prop} {m : St Db α} {Q : α → Db → Dir → Prop}
    {E : Fault → Db → Dir → Prop} (hSpec : Spec A m Q E s.db s.dir) (h : s.call m = some s') :
    ∃ a, Q a s'.db s'.dir := by
  unfold Running.call at h
  rcases hSpec.result (List.forall_mem_nil _) with ⟨a, y, w, hRun, hQ⟩ | ⟨f, y, w, hRun, -⟩
  · rw [hRun, Option.some.injEq] at h
    exact ⟨a, h ▸ hQ⟩
  · rw [hRun] at h
    contradiction

theorem Running.Ok.comesBack (h : s.Ok flushed log) (hDurable : Durable s.dir s.db)
    (hAmple : s.Ample) : ComesBack s.dir
      (Back s.db.versionSet.current flushed (s.db.syncedLog log) log W s.dir) := by
  have hRoom : s.db.Reopenable := by
    have := hAmple.seq
    have := hAmple.next
    have := h.inv.next
    unfold maxSequence at *
    exact ⟨by omega, by omega⟩
  exact h.inv.comesBack hDurable (hDurable.certain log) hRoom

theorem Running.Ok.close_spec (h : s.Ok flushed log) (hDurable : Durable s.dir s.db) :
    Spec Stops (Db.close s.db : St Unit Unit)
      (fun _ _ d' => Inv d' s.db flushed log ∧ Durable d' s.db ∧
        d'.OnDisk (.log s.db.walNumber) ∧ SameFiles s.db.versionSet.current s.dir d')
      (fun _ _ d' => d' = s.dir) () s.dir := by
  refine (h.inv.close_spec (A := Stops)).mono ?_ fun _ _ _ h => h.2.2
  rintro - - d' ⟨-, hInv, hFrame, hSynced | ⟨e, n, hBroken⟩⟩
  · exact ⟨hInv, ⟨hDurable.current.frame hFrame (by simp), hDurable.manifest.frame hFrame (by simp),
      fun _ => hSynced.onDisk⟩, hSynced.onDisk, .of_frame hFrame (by simp)⟩
  · cases e with
    | io => exact hBroken.elim
    | _ => exact hBroken.elim

theorem closed_same (h : s.Ok flushed log) (hDurable : Durable s.dir s.db)
    (hClosed : closed s = some d) :
    Inv d s.db flushed log ∧ Durable d s.db ∧ d.OnDisk (.log s.db.walNumber) ∧
      SameFiles s.db.versionSet.current s.dir d := by
  unfold closed at hClosed
  rcases (h.close_spec hDurable).result (List.forall_mem_nil _) with
    ⟨_, _, w, hRun, hQ⟩ | ⟨_, _, _, hRun, -⟩
  · rw [hRun, Option.some.injEq] at hClosed
    exact hClosed ▸ hQ
  · rw [hRun] at hClosed
    contradiction

/-- After a clean close the log is on the disk. -/
theorem closed_durable (h : s.Ok flushed log) (hDurable : Durable s.dir s.db)
    (hClosed : closed s = some d) :
    Inv d s.db flushed log ∧ Durable d s.db ∧ d.OnDisk (.log s.db.walNumber) ∧
      stored d s.db.versionSet.current = stored s.dir s.db.versionSet.current := by
  obtain ⟨hInv, hDurable', hLog, hSame⟩ := closed_same h hDurable hClosed
  exact ⟨hInv, hDurable', hLog, stored_congr hSame.tables⟩

theorem reopen_stops (h : s.Ok flushed log) (hDurable : Durable s.dir s.db) (hAmple : s.Ample) :
    (∀ s', (closed s).bind (opened options) = some s' → Durable s'.dir s'.db) ∧
      ∀ d', (Op.reopen options).StopsAt s d' → ComesBack d'
        (Back s.db.versionSet.current flushed (s.db.syncedLog log) log W s.dir) := by
  have hSeq : s.db.versionSet.lastSequence + 1 < 2 ^ 64 := by
    have := hAmple.seq
    unfold maxSequence at this
    omega
  have hRoom : s.db.versionSet.nextFileNumber + 4 < 2 ^ 64 := by
    have := h.inv.next
    have := hAmple.next
    omega
  constructor
  · intro s' hRun
    obtain ⟨d₁, hClose, hOpen⟩ := Option.bind_eq_some_iff.mp hRun
    obtain ⟨hInv, hDurable₁, -⟩ := closed_same h hDurable hClose
    unfold opened at hOpen
    rcases (hInv.open_durable options (A := Stops) (x := ()) hDurable₁
      ⟨hSeq, by omega⟩ halts_stops).result (List.forall_mem_nil _) with
      ⟨_, _, w, hRun, hQ⟩ | ⟨_, _, _, hRun, -⟩
    · rw [hRun, Option.some.injEq] at hOpen
      exact hOpen ▸ hQ
    · rw [hRun] at hOpen
      contradiction
  · rintro d' (hStops | ⟨d₁, hClose, hStops⟩)
    · obtain ⟨-, rfl⟩ := hStops.of_spec (h.close_spec hDurable)
      exact h.comesBack hDurable hAmple
    · obtain ⟨hInv, hDurable₁, hLog, hSame⟩ := closed_same h hDurable hClose
      have hNumber : (s.db.saved flushed).logNumber = s.db.walNumber := hInv.walNumber.symm
      obtain ⟨-, hBack⟩ := hStops.of_spec ((hInv.openable hSeq (by omega)).open_comesBack (W := W)
        hInv.manifest.whole (fun _ _ => hInv.tables_onDisk) hDurable₁.current hDurable₁.manifest
        (fun _ => hNumber ▸ hLog) hRoom halts_stops)
      exact hBack.mono fun _ _ _ h => h.mono hSame (s.db.syncedLog_prefix log) fun _ _ h => h

/-- What the call, if it is a compaction, makes of the tables. -/
def Op.Rewrites (op : Op) (s : Running) (flushed : Nat) (d' : Dir) (v' : Version) : Prop :=
  op = .compact ∧ ∃ c, MulanLsm.Rewrites s.dir s.db flushed c d' v'

/-- What may come back after the machine stopped in the call: the entries of `log`, with that of the
call if it is a write. -/
def Op.Back (op : Op) (s : Running) (flushed : Nat) (log : List WalEntry) :
    Dir → VersionState → List WalEntry → Prop :=
  MulanLsm.Back s.db.versionSet.current flushed (s.db.syncedLog log)
    (log ++ (op.entry s.db).toList) (op.Rewrites s flushed) s.dir

/-- A call that returns leaves what is on the disk, and one that is cut what comes back. -/
theorem Op.comesBack (h : s.Ok flushed log) (hDurable : Durable s.dir s.db) (hReady : op.Ready s)
    (hAmple : s.Ample) : (∀ s', op.run s = some s' → Durable s'.dir s'.db) ∧
      ∀ d', op.StopsAt s d' → ComesBack d' (op.Back s flushed log) := by
  have hCall : ∀ {α : Type} {m : St Db α}, Spec Stops m (fun _ db' d' => Durable d' db')
      (fun _ _ d' => ComesBack d' (op.Back s flushed log)) s.db s.dir →
      (∀ s', s.call m = some s' → Durable s'.dir s'.db) ∧
        ∀ d', StopsIn m s.db s.dir d' → ComesBack d' (op.Back s flushed log) := by
    intro α m hSpec
    refine ⟨fun s' hRun => ?_, fun d' hStops => ?_⟩
    · obtain ⟨-, hQ⟩ := Running.call_spec hSpec hRun
      exact hQ
    · obtain ⟨-, hE⟩ := hStops.of_spec hSpec
      exact hE
  have hSeq : s.db.versionSet.lastSequence + 2 < 2 ^ 64 := by
    have := hAmple.seq
    unfold maxSequence at this
    omega
  have hRoom : s.db.Reopenable := ⟨by omega, by have := hAmple.next; have := h.inv.next; omega⟩
  have hBack : op.entry s.db = none → op.Back s flushed log =
      MulanLsm.Back s.db.versionSet.current flushed (s.db.syncedLog log) log
        (op.Rewrites s flushed) s.dir := by
    intro hEntry
    rw [Op.Back, hEntry, Option.toList_none, List.append_nil]
  have hRest : op.entry s.db = none → ComesBack s.dir (op.Back s flushed log) := fun hEntry =>
    hBack hEntry ▸ h.comesBack hDurable hAmple
  have hWrite : ∀ {vtype key value}, Writable key value →
      op.entry s.db = some (nextEntry s.db vtype key value) →
      Spec Stops (Db.write key value vtype) (fun _ db' d' => Durable d' db')
        (fun _ _ d' => ComesBack d' (op.Back s flushed log)) s.db s.dir := by
    intro vtype key value hKey hEntry
    rw [Op.Back, hEntry]
    exact h.inv.write_stops hDurable h.mem hKey.2 hAmple.next hSeq
  cases op with
  | put key value =>
    obtain ⟨hKey, hFree⟩ := hReady
    have := hCall (hWrite hKey rfl)
    simpa only [Op.run, Op.StopsAt, if_neg hFree, Db.put, if_neg hKey.1] using this
  | delete key =>
    obtain ⟨hKey, hFree⟩ := hReady
    have := hCall (hWrite hKey rfl)
    simpa only [Op.run, Op.StopsAt, if_neg hFree, Db.delete, if_neg hKey.1] using this
  | flush => exact hCall (hBack rfl ▸ h.inv.flush_stops hDurable h.mem hAmple.next hRoom.1)
  | compact =>
    refine hCall
      (((h.inv.compaction_durable hDurable).and (h.inv.compaction_comesBack hDurable hRoom
      hAmple.compaction (hDurable.certain log))).mono (fun _ _ _ h => h.1) fun _ _ _ h => ?_)
    rw [hBack rfl]
    exact h.2.mono fun _ _ _ h => h.mono (.refl _ _) List.prefix_rfl fun _ _ h => ⟨rfl, h⟩
  | read seq key =>
    refine ⟨fun s' hRun => ?_, fun d' hStops => ?_⟩
    · obtain ⟨s₁, hRead, -, ⟨hDir, hDb⟩, -⟩ := h.inv.read_run seq key
      obtain rfl := Option.some.inj (hRead.symm.trans hRun)
      rw [hDir, hDb]
      exact ⟨hDurable.current, hDurable.manifest, hDurable.log⟩
    · obtain ⟨-, -, rfl, -⟩ := hStops.of_spec (getAt_spec h.inv.readable seq key)
      exact hRest rfl
  | snapshot =>
    refine ⟨fun s' hRun => ?_, fun d' hStops => ?_⟩
    · obtain rfl := Option.some.inj hRun
      exact ⟨hDurable.current, hDurable.manifest, hDurable.log⟩
    · obtain ⟨_, _, _, _, hRun, -⟩ := hStops
      exact absurd hRun (by rintro ⟨⟩)
  | release i =>
    refine ⟨fun s' hRun => ?_, fun d' hStops => ?_⟩
    · obtain ⟨g, _, hRun⟩ := Option.bind_eq_some_iff.mp hRun
      obtain rfl := Option.some.inj hRun
      exact ⟨hDurable.current, hDurable.manifest, hDurable.log⟩
    · obtain ⟨g, _, _, _, _, _, hRun, -⟩ := hStops
      exact absurd hRun (by rintro ⟨⟩)
  | reopen options => exact hBack rfl ▸ reopen_stops h hDurable hAmple

omit [Crc32c] in
theorem Covers.meets {state : VersionState} {log' : List WalEntry} (hCovers : Covers op s log Q)
    (h : op.Back s flushed log d' state log') : Q (stored d' state.current ∪ logVersions log') := by
  refine h.meets ?_ (fun log₁ hLow hHigh => ?_) ?_
  · exact (s.db.syncedLog_prefix log).trans (List.prefix_append _ _)
  · cases hEntry : op.entry s.db with
    | none =>
      rw [hEntry, Option.toList_none, List.append_nil] at hHigh
      exact hCovers.rest log₁ hLow hHigh
    | some e =>
      rw [hEntry] at hHigh
      rcases List.prefix_concat_iff.mp hHigh with rfl | hHigh
      · exact hCovers.write e hEntry
      · exact hCovers.rest log₁ hLow hHigh
  · rintro d₁ v' ⟨rfl, c, hRewrites⟩ log₁ hLow hHigh
    exact hCovers.compact rfl log₁ hLow (by simpa [Op.entry] using hHigh) c d₁ v' hRewrites.picked
      hRewrites.rewrote

theorem ComesBack.restores (h : ComesBack d (op.Back s flushed log)) (hCovers : Covers op s log Q) :
    Restores d Q := by
  intro d' hSurvives
  obtain ⟨number, state, log', hOpen, hTables, hBack⟩ := h d' hSurvives
  exact ⟨number, state, log', hOpen, hTables, hCovers.meets hBack⟩

/-- A call that returns leaves what is on the disk, and one that is cut what comes back. -/
theorem Op.stops (h : s.Ok flushed log) (hDurable : Durable s.dir s.db) (hReady : op.Ready s)
    (hAmple : s.Ample) (hCovers : Covers op s log Q) :
    (∀ s', op.run s = some s' → Durable s'.dir s'.db) ∧ ∀ d', op.StopsAt s d' → Restores d' Q := by
  obtain ⟨hReturns, hStops⟩ := Op.comesBack h hDurable hReady hAmple
  exact ⟨hReturns, fun d' hStop => (hStops d' hStop).restores hCovers⟩

/-- The machine may stop with `d'` in front of the call or in it. -/
def Stopped (next : Option Op) (s : Running) (d' : Dir) : Prop :=
  d' = s.dir ∨ ∃ op ∈ next, op.StopsAt s d'

theorem Stopped.restores {next : Option Op} (hStopped : Stopped next s d') (h : s.Ok flushed log)
    (hDurable : Durable s.dir s.db) (hReady : ∀ op ∈ next, op.Ready s) (hAmple : s.Ample)
    (hRest : ∀ log₁, s.db.syncedLog log <+: log₁ → log₁ <+: log →
      Q (stored s.dir s.db.versionSet.current ∪ logVersions log₁))
    (hNext : ∀ op ∈ next, Covers op s log Q) : Restores d' Q := by
  rcases hStopped with rfl | ⟨op, hOp, hStops⟩
  · intro d'' hSurvives
    obtain ⟨number, state, log', hOpen, hTables, hBack⟩ :=
      h.comesBack (W := fun _ _ => False) hDurable hAmple d'' hSurvives
    exact ⟨number, state, log', hOpen, hTables, hBack.meets (s.db.syncedLog_prefix log) hRest
      fun _ _ h => h.elim⟩
  · exact (Op.stops h hDurable (hReady op hOp) hAmple (hNext op hOp)).2 d' hStops

end Points

section Openable

variable [Crc32c] {s s' s0 : Running} {d d' : Dir} {op : Op} {ops : List Op} {next : Option Op}
  {flushed : Nat} {log : List WalEntry} {options options' : Options}

theorem opened_durable (h : opened options ∅ = some s0) : Durable s0.dir s0.db := by
  obtain ⟨db, ⟨⟩, w, hRun, -, -, -, hSettled⟩ := ((open_new_spec options (A := Quiet) (x := ())
    (d := ∅) halts_quiet (by simp)).quiet fun _ _ _ hE => hE.2.1).run
  rw [opened, hRun, Option.some.injEq] at h
  exact h ▸ hSettled.durable

/-- Calls that can be made leave a database in step with its directory, and what they return on the
disk. -/
theorem ops_durable (hOps : Along (fun op s => op.Ready s ∧ s.Ample) ops s0)
    (hOk : s0.Ok flushed log) (hDurable : Durable s0.dir s0.db) (hRun : opsRun ops s0 = some s) :
    (∃ flushed log, s.Ok flushed log) ∧ Durable s.dir s.db := by
  induction ops generalizing s0 flushed log with
  | nil =>
    obtain rfl := Option.some.inj hRun
    exact ⟨⟨_, _, hOk⟩, hDurable⟩
  | cons op ops ih =>
    obtain ⟨⟨hReady, hAmple⟩, hRest⟩ := hOps
    rw [opsRun, List.foldlM_cons] at hRun
    obtain ⟨s₁, hStep, hRun⟩ := Option.bind_eq_some_iff.mp hRun
    obtain ⟨s₁', hStep', ⟨flushed₁, log₁, hOk₁⟩, -⟩ := Op.Sound.run ⟨hReady, hAmple.room⟩ hOk
    obtain rfl := Option.some.inj (hStep.symm.trans hStep')
    have hCovers : Covers op s0 log fun _ => True :=
      ⟨fun _ _ _ => trivial, fun _ _ => trivial, fun _ _ _ _ _ _ _ _ _ => trivial⟩
    exact ih (hRest s₁ hStep) hOk₁ ((Op.stops hOk hDurable hReady hAmple hCovers).1 s₁ hStep) hRun

/-- Wherever the machine stops in a run, the next opening returns, unless the machine stopped in the
first opening, in front of the rename of `CURRENT`, and left files. -/
theorem crash_leaves_openable :
    (∀ d, StopsIn (Db.open options : St Unit Db) () ∅ d → ∀ d', Survives d d' →
      ((opened options' d').isSome ↔ (∀ name, name ∉ d') ∨ .current ∈ d')) ∧
    ∀ s0, opened options ∅ = some s0 → Along (fun op s => op.Ready s ∧ s.Ample) ops s0 →
      ∀ s, opsRun ops s0 = some s → s.Ample → (∀ op ∈ next, op.Ready s) →
        ∀ d, Stopped next s d → ∀ d', Survives d d' → (opened options' d').isSome := by
  constructor
  · intro d hStops d' hSurvives
    obtain ⟨-, -, -, hCut⟩ := hStops.of_spec (open_new_spec options halts_stops (by simp))
    constructor
    · intro hOpen
      by_contra hNot
      obtain ⟨hMem, hCurrent⟩ := not_or.mp hNot
      obtain ⟨name, hMem⟩ := not_forall_not.mp hMem
      rw [opened_refuses hMem hCurrent] at hOpen
      contradiction
    · rintro (hEmpty | hMem)
      · obtain ⟨db, ⟨⟩, w, hRun, -⟩ := ((open_new_spec options' (A := Quiet) (x := ())
          halts_quiet hEmpty).quiet fun _ _ _ hE => hE.2.1).run
        rw [opened, hRun]
        rfl
      · have hBegun := hCut.resolve_left (not_not.mpr (hSurvives.mem_iff.mp hMem))
        obtain ⟨r, hRun, -⟩ := (hBegun.openable hSurvives).opens options'
        rw [hRun]
        rfl
  · intro s0 hStart hOps s hRun hAmple hReady d hStopped d' hSurvives
    obtain ⟨⟨flushed, log, hOk⟩, hDurable⟩ :=
      ops_durable hOps (opened_new hStart).1 (opened_durable hStart) hRun
    have hRestores : Restores d fun _ => True :=
      hStopped.restores hOk hDurable hReady hAmple (fun _ _ _ => trivial) fun _ _ =>
        ⟨fun _ _ _ => trivial, fun _ _ => trivial, fun _ _ _ _ _ _ _ _ _ => trivial⟩
    obtain ⟨r, hOpen, -⟩ := hRestores.opens hSurvives options'
    rw [hOpen]
    rfl

end Openable

/-- A database that keeps its writes in memory and does not sync them. -/
def relaxed : Options := { eager with memtableFlushEntries := 8, syncWrites := false }

/-- The machine stops in the write of a record, and none of the log behind its synced bytes is
kept. -/
theorem crash_leaves_openable_cut :
    let ops : List Op := [.put [97] [1], .flush, .put [98] [2]]
    ∃ s0 s d f, opened relaxed ∅ = some s0 ∧ opsRun ops s0 = some s ∧
      (Op.put [99] [3]).StopsAt s d ∧ d.lookup (.log s.db.walNumber) = some f ∧
        f.synced < f.bytes.length ∧
          (opened relaxed (d.insert (.log s.db.walNumber) (f.cut f.synced))).isSome := by
  intro ops
  have h : (opened relaxed ∅).any (fun s0 => Along (fun op s => op.Ready s ∧ s.Ample) ops s0 ∧
      (opsRun ops s0).any fun s => s.Ample ∧ (Op.put [99] [3]).Ready s ∧
        (Effects.raised (Db.put [99] [3] (s.db, ⟨s.dir, [.crash 5]⟩))).any fun p =>
          p.1 = .crash ∧ (p.2.2.dir.lookup (.log s.db.walNumber)).any fun f =>
            f.synced < f.bytes.length) = true := by
    decide +kernel
  obtain ⟨s0, hStart, h⟩ := (Option.any_eq_true _ _).mp h
  obtain ⟨hOps, h⟩ := of_decide_eq_true h
  obtain ⟨s, hRun, h⟩ := (Option.any_eq_true _ _).mp h
  obtain ⟨hAmple, hReady, h⟩ := of_decide_eq_true h
  obtain ⟨⟨fault, db, w⟩, hPut, h⟩ := (Option.any_eq_true _ _).mp h
  obtain ⟨rfl, h⟩ := of_decide_eq_true h
  obtain ⟨f, hf, hLost⟩ := (Option.any_eq_true _ _).mp h
  have hStops : (Op.put [99] [3]).StopsAt s w.dir :=
    ⟨_, by simp [Stops], db, w, Effects.raised_eq_some.mp hPut, rfl⟩
  refine ⟨s0, s, w.dir, f, hStart, hRun, hStops, hf, of_decide_eq_true hLost, ?_⟩
  exact crash_leaves_openable.2 s0 hStart hOps s hRun hAmple (by simpa using hReady) w.dir
    (.inr ⟨_, rfl, hStops⟩) _ (Survives.cut hf le_rfl)

/-- Where the machine stops right after the first opening has created the manifest, the next opening
refuses the directory. -/
theorem crash_before_current :
    ∃ d, StopsIn (Db.open eager : St Unit Db) () ∅ d ∧ Survives d d ∧ opened eager d = none := by
  have h : (Effects.raised
      ((Db.open eager : St Unit Db) ((), ⟨∅, [.ok, .ok, .ok, .crash 0]⟩))).any
        (fun p => p.1 = .crash ∧ (opened eager p.2.2.dir).isNone) = true := by
    decide +kernel
  obtain ⟨⟨f, y, w⟩, hRun, h⟩ := (Option.any_eq_true _ _).mp h
  obtain ⟨rfl, hNone⟩ := of_decide_eq_true h
  refine ⟨w.dir, ⟨_, ?_, y, w, Effects.raised_eq_some.mp hRun, rfl⟩, Survives.refl _,
    Option.isNone_iff_eq_none.mp hNone⟩
  simp [Stops]

end MulanLsm
