import MulanLsm.CrashRuns

/-! What comes back after a crash.  The table files and the first entries of the log say what the
calls up to some call wrote, and the calls in front of the last flush are among them.  So the
opening after a crash finds what the calls up to some call wrote. -/

namespace MulanLsm

open Versioned (Newer Distinct Reads)

/-- The newest version of each key in `S` says what `m` says. -/
def Represents (S : Set Entry) (m : Bytes → Option Bytes) : Prop :=
  ∀ k r, Reads S k maxSequence r ↔ r = m k

section Viewing

variable [Crc32c] {s s' : Running} {flushed : Nat} {log : List WalEntry} {op : Op} {e : WalEntry}
  {c : Compaction} {base ops : List Op}

/-- Whatever first entries of the log are left say, with the table files, what some first calls of
`ops` wrote, those of `base` among them. -/
def Viewed (base ops : List Op) (s : Running) (log : List WalEntry) : Prop :=
  ∀ log₁, log₁ <+: log → ∃ ops₁, base <+: ops₁ ∧ ops₁ <+: ops ∧ (log₁ = log → ops₁ = ops) ∧
    ∀ k, Reads (stored s.dir s.db.versionSet.current ∪ logVersions log₁) k maxSequence
      (written ops₁ k)

omit [Crc32c] in
theorem represents_of_reads {S : Set Entry} {m : Bytes → Option Bytes} (hDistinct : Distinct S)
    (h : ∀ k, Reads S k maxSequence (m k)) : Represents S m := fun k _ =>
  ⟨fun hr => hr.unique hDistinct (h k), fun hr => hr ▸ h k⟩

omit [Crc32c] in
theorem logVersions_append (log : List WalEntry) (e : WalEntry) :
    logVersions (log ++ [e]) = {e.entry} ∪ logVersions log := by
  ext x
  constructor
  · rintro ⟨w, hw, rfl⟩
    rcases List.mem_append.mp hw with hw | hw
    · exact .inr ⟨w, hw, rfl⟩
    · exact .inl (List.mem_singleton.mp hw ▸ rfl)
  · rintro (rfl | ⟨w, hw, rfl⟩)
    · exact ⟨e, by simp, rfl⟩
    · exact ⟨w, List.mem_append_left _ hw, rfl⟩

omit [Crc32c] in
theorem logVersions_mono {log₁ log : List WalEntry} (h : log₁ <+: log) :
    logVersions log₁ ⊆ logVersions log := fun _ ⟨w, hw, he⟩ => ⟨w, h.subset hw, he⟩

theorem Running.Ok.contents_eq (h : s.Ok flushed log) :
    stored s.dir s.db.versionSet.current ∪ logVersions log = s.contents := by
  rw [Running.contents, Db.contents, h.mem, replayed_versions, Set.union_comm]

omit [Crc32c] in
/-- A call that writes nothing and leaves the files and the log. -/
theorem Viewed.skip (h : Viewed base ops s log) (hEffect : ∀ m, op.effect m = m)
    (hStored : stored s'.dir s'.db.versionSet.current = stored s.dir s.db.versionSet.current) :
    Viewed base (ops ++ [op]) s' log := by
  intro log₁ hLog
  obtain ⟨ops₁, hBase, hOps, hAll, hReads⟩ := h log₁ hLog
  rw [hStored]
  by_cases hEq : log₁ = log
  · refine ⟨ops ++ [op], hBase.trans (hOps.trans (List.prefix_append _ _)), List.prefix_rfl,
      fun _ => rfl, ?_⟩
    rw [written_append, hEffect, ← hAll hEq]
    exact hReads
  · exact ⟨ops₁, hBase, hOps.trans (List.prefix_append _ _), fun h => absurd h hEq, hReads⟩

/-- A write that was logged and applied. -/
theorem Viewed.write (h : Viewed base ops s log) (hOk : s.Ok flushed log)
    (hEntry : op.entry s.db = some e) (hSeq : e.seq = s.db.memtable.seq + 1)
    (hRoom : s.last < maxSequence)
    (hStored : stored s'.dir s'.db.versionSet.current = stored s.dir s.db.versionSet.current) :
    Viewed base (ops ++ [op]) s' (log ++ [e]) := by
  intro log₁ hLog
  rw [hStored]
  rcases List.prefix_concat_iff.mp hLog with rfl | hLog
  · obtain ⟨ops₁, hBase, -, hAll, hReads⟩ := h log List.prefix_rfl
    obtain rfl := hAll rfl
    refine ⟨ops₁ ++ [op], hBase.trans (List.prefix_append _ _), List.prefix_rfl, fun _ => rfl, ?_⟩
    have hNew : e.seq = s.last + 1 := by rw [hSeq, hOk.inv.seq, Running.last]
    rw [written_append, Op.effect_of_some _ hEntry, logVersions_append, Set.union_left_comm]
    intro k
    by_cases hk : k = e.key
    · subst hk
      rw [Function.update_self]
      refine Reads.insert_self (x := e.entry) (fun y hy _ => ?_) ?_
      · rw [hOk.contents_eq] at hy
        exact (hOk.contents_le y hy).trans_lt (by
          simp only [Entry.version_seq, WalEntry.entry]
          omega)
      · simp only [Entry.version_seq, WalEntry.entry]
        omega
    · rw [Function.update_of_ne hk]
      exact (Reads.insert_ne (x := e.entry) (Ne.symm hk)).mpr (hReads k)
  · obtain ⟨ops₁, hBase, hOps, -, hReads⟩ := h log₁ hLog
    refine ⟨ops₁, hBase, hOps.trans (List.prefix_append _ _), fun hEq => ?_, hReads⟩
    have := hLog.length_le
    rw [hEq, List.length_append, List.length_singleton] at this
    omega

/-- The log moved to the table files, which leaves nothing to lose. -/
theorem Viewed.moved (h : Viewed base ops s log) (hOk : s.Ok flushed log)
    (hGrown : Grown s.dir s.db.versionSet.current s.db.memtable.skiplist s'.dir
      s'.db.versionSet.current) : Viewed ops ops s' [] := by
  intro log₁ hLog
  obtain rfl := List.prefix_nil.mp hLog
  obtain ⟨ops₁, -, -, hAll, hReads⟩ := h log List.prefix_rfl
  obtain rfl := hAll rfl
  refine ⟨ops₁, List.prefix_rfl, List.prefix_rfl, fun _ => rfl, fun k => ?_⟩
  rw [hGrown.stored, logVersions_nil, Set.union_empty, hOk.mem, replayed_versions, Set.union_comm]
  exact hReads k

theorem Rewrote.subset {d d' : Dir} {db : Db} {v' : Version} (h : Rewrote d db c d' v')
    (hInv : Inv d db flushed log) (hc : Picked db.versionSet c) :
    MulanLsm.stored d' v' ⊆ MulanLsm.stored d db.versionSet.current := by
  rw [h.stored hInv]
  rintro e (⟨level, f, hf, he⟩ | he)
  · exact ⟨level, f, hf.1, he⟩
  · obtain ⟨f, hf, hx⟩ := hInv.mem_kept hc he
    rcases List.mem_append.mp hf with hf | hf
    · exact ⟨_, f, hc.mem_first hf, hx⟩
    · exact ⟨_, f, hc.mem_second hf, hx⟩

/-- What a compaction rewrote reads the same behind any entries of the log. -/
theorem Running.Ok.rewrote_reads {d' : Dir} {v' : Version} (hOk : s.Ok flushed log)
    (hc : Picked s.db.versionSet c) (h : Rewrote s.dir s.db c d' v')
    (hRecent : Recent s.dir s.db.versionSet.current) (hApart : Apart s.dir s.db.versionSet.current)
    (hNone : s.db.versionSet.snapshots = []) {log₁ : List WalEntry}
    (hLog : log₁ <+: log) {k : Bytes}
    {r : Option Bytes} :
    Reads (stored s.dir s.db.versionSet.current ∪ logVersions log₁) k maxSequence r ↔
      Reads (stored d' v' ∪ logVersions log₁) k maxSequence r := by
  have hNewer : Newer (logVersions log₁) (stored s.dir s.db.versionSet.current) := by
    intro x hx
    apply hOk.newer x
    rw [hOk.mem, replayed_versions]
    exact logVersions_mono hLog hx
  have hNewer' : Newer (logVersions log₁) (stored d' v') := fun x hx y hy =>
    hNewer x hx y (h.subset hOk.inv hc hy)
  rw [Set.union_comm, Set.union_comm (stored d' v')]
  by_cases hVisible : ∃ x, Versioned.Visible (logVersions log₁) k maxSequence x
  · obtain ⟨x, hx⟩ := hVisible
    rw [Reads.union_newer hNewer hx, Reads.union_newer hNewer' hx]
  · rw [Reads.union_none (not_exists.mp hVisible), Reads.union_none (not_exists.mp hVisible)]
    apply h.reads hOk.inv hc hRecent hApart
    rw [VersionSet.oldestSnapshotSeq, hNone]
    exact le_rfl

theorem Keeps.ok {flushed' : Nat} {log' : List WalEntry} (h : Keeps s s') (hOk : s.Ok flushed log)
    (hOk' : s'.Ok flushed' log') : s'.Ok flushed log := by
  have hCache := hOk'.inv.cache
  obtain ⟨hDir, hDb⟩ := h
  rw [hDb] at hCache
  refine ⟨?_, by rw [hDb]; exact hOk.mem⟩
  rw [hDb]
  rw [hDir] at hCache ⊢
  exact { hOk.inv with cache := hCache }

omit [Crc32c] in
theorem Keeps.stored (h : Keeps s s') : MulanLsm.stored s'.dir s'.db.versionSet.current =
    MulanLsm.stored s.dir s.db.versionSet.current := by
  rw [h.db, h.dir]

theorem Reopens.viewed {flushed₁ : Nat} {log₁ : List WalEntry} {options : Options}
    (h : Reopens s s' flushed) (hOk : s.Ok flushed log) (hOk₁ : s'.Ok flushed₁ log₁)
    (hViewed : Viewed base ops s log) :
    Viewed (ops ++ [.reopen options]) (ops ++ [.reopen options]) s' log₁ := by
  obtain rfl : log₁ = [] := by
    have hEntries := congrArg MemTable.entries (h.reopened.mem.symm.trans hOk₁.mem)
    rw [replayed_entries] at hEntries
    exact List.length_eq_zero_iff.mp hEntries.symm
  have hSkip : Viewed base (ops ++ [.reopen options]) s log := hViewed.skip (fun _ => rfl) rfl
  exact hSkip.moved hOk h.grown

/-- What a call does to what may be left of the files and the log. -/
theorem Did.viewed {flushed₁ : Nat} {log₁ : List WalEntry} (h : Did s s' flushed log op)
    (hOk : s.Ok flushed log) (hOk₁ : s'.Ok flushed₁ log₁) (hAmple : s.Ample) (hPlain : op.Plain)
    (hRecent : Recent s.dir s.db.versionSet.current) (hApart : Apart s.dir s.db.versionSet.current)
    (hNone : s.db.versionSet.snapshots = []) (hViewed : Viewed base ops s log) :
    ∃ base' flushed' log', base <+: base' ∧ s'.Ok flushed' log' ∧
      Viewed base' (ops ++ [op]) s' log' := by
  obtain ⟨ops₁, hBase, -, hAll, -⟩ := hViewed log List.prefix_rfl
  obtain rfl := hAll rfl
  have hMore : base <+: ops₁ ++ [op] := hBase.trans (List.prefix_append _ _)
  cases h with
  | @write _ e s₁ hEntry hWrites hOk₁ hRest =>
    have hStored : stored s₁.dir s₁.db.versionSet.current =
        stored s.dir s.db.versionSet.current := by
      rw [hWrites.applied.version]
      exact stored_congr fun _ f _ => hWrites.applied.tables f.number
    have hViewed₁ := hViewed.write hOk hEntry hWrites.seq hAmple.seq hStored
    split at hRest
    · exact ⟨_, _, _, hMore, hRest.ok, hViewed₁.moved hOk₁ (hRest.grown hOk₁)⟩
    · exact hRest ▸ ⟨base, _, _, List.prefix_rfl, hOk₁, hViewed₁⟩
  | flush hFlushes =>
    have hSkip : Viewed base (ops₁ ++ [.flush]) s log := hViewed.skip (fun _ => rfl) rfl
    exact ⟨_, _, _, hMore, hFlushes.ok, hSkip.moved hOk (hFlushes.grown hOk)⟩
  | @compact c hCompacts =>
    have hPicked := pickCompaction_picked hCompacts.picked
    have hRewrote := hCompacts.compacted.rewrote
    refine ⟨base, _, _, List.prefix_rfl, ⟨hCompacts.compacted.inv,
      hCompacts.compacted.mem.trans hOk.mem⟩, fun log₁ hLog => ?_⟩
    have hSkip : Viewed base (ops₁ ++ [.compact]) s log := hViewed.skip (fun _ => rfl) rfl
    obtain ⟨ops₂, hBase, hOps, hAll, hReads⟩ := hSkip log₁ hLog
    exact ⟨ops₂, hBase, hOps, hAll, fun k =>
      (hOk.rewrote_reads hPicked hRewrote hRecent hApart hNone hLog).mp (hReads k)⟩
  | keep hEntry hKeeps =>
    exact ⟨base, _, _, List.prefix_rfl, hKeeps.ok hOk hOk₁,
      hViewed.skip (fun m => Op.effect_of_none m hEntry) hKeeps.stored⟩
  | snapshot => exact hPlain.elim
  | release => exact hPlain.elim
  | reopen hReopens =>
    exact ⟨_, _, _, hMore, hOk₁, hReopens.viewed hOk hOk₁ hViewed⟩

end Viewing

section Tracing

variable [Crc32c] {s s' s0 s1 : Running} {d d' d₁ : Dir} {flushed : Nat} {log : List WalEntry}
  {op : Op} {e : WalEntry} {base ops done past : List Op} {next : Option Op}
  {options options₀ options' : Options}

/-- A database that has made the calls `ops` without snapshots, with what the calls `base` wrote on
the disk. -/
structure Traced (base ops : List Op) (s : Running) (flushed : Nat) (log : List WalEntry) :
    Prop where
  ok : s.Ok flushed log
  durable : Durable s.dir s.db
  viewed : Viewed base ops s log
  recent : Recent s.dir s.db.versionSet.current
  apart : Apart s.dir s.db.versionSet.current
  unregistered : s.db.versionSet.snapshots = []

/-- A call that can be made and takes no snapshot, on counters that have room. -/
def Op.Fair (op : Op) (s : Running) : Prop := op.Ready s ∧ s.Ample ∧ op.Plain

instance (op : Op) (s : Running) : Decidable (op.Fair s) := by unfold Op.Fair; infer_instance

theorem Op.Fair.durable (h : op.Fair s) (hOk : s.Ok flushed log) (hDurable : Durable s.dir s.db)
    (hRun : op.run s = some s') : Durable s'.dir s'.db := by
  have hCovers : Covers op s log fun _ => True :=
    ⟨fun _ _ _ => trivial, fun _ _ => trivial, fun _ _ _ _ _ _ _ _ _ => trivial⟩
  exact (Op.stops hOk hDurable h.1 h.2.1 hCovers).1 s' hRun

theorem Traced.step (h : Traced base done s flushed log) (hFair : op.Fair s)
    (hRun : op.run s = some s') :
    ∃ base' flushed' log', base <+: base' ∧ Traced base' (done ++ [op]) s' flushed' log' := by
  obtain ⟨s₁, hRun', ⟨flushed₁, log₁, hOk₁⟩, hDid⟩ :=
    Op.Sound.run ⟨hFair.1, hFair.2.1.room⟩ h.ok
  obtain rfl := Option.some.inj (hRun.symm.trans hRun')
  obtain ⟨hRecent, hApart⟩ :=
    hDid.recent h.ok (h.ok.whole hFair.2.1.room h.unregistered op) h.recent h.apart
  obtain ⟨base', flushed', log', hBase, hOk', hViewed⟩ := hDid.viewed h.ok hOk₁ hFair.2.1 hFair.2.2
    h.recent h.apart h.unregistered h.viewed
  exact ⟨base', flushed', log', hBase, hOk', hFair.durable h.ok h.durable hRun, hViewed, hRecent,
    hApart, hDid.unregistered hFair.2.2 h.unregistered⟩

/-- After a reopening all that was written is on the disk. -/
theorem Traced.reopen (h : Traced base done s flushed log) (hFair : (Op.reopen options).Fair s)
    (hRun : (Op.reopen options).run s = some s') :
    ∃ flushed' log',
      Traced (done ++ [.reopen options]) (done ++ [.reopen options]) s' flushed' log' := by
  obtain ⟨_, _, _, -, h'⟩ := h.step hFair hRun
  obtain ⟨s₁, hRun', hReopens, hOk₁⟩ := reopen_run h.ok hFair.2.1.room options
  obtain rfl := Option.some.inj (hRun.symm.trans hRun')
  exact ⟨_, _, { h' with ok := hOk₁, viewed := hReopens.viewed h.ok hOk₁ h.viewed }⟩

theorem Traced.run (h : Traced base done s flushed log) (hOps : Along Op.Fair ops s)
    (hRun : opsRun ops s = some s') :
    ∃ base' flushed' log', base <+: base' ∧ Traced base' (done ++ ops) s' flushed' log' := by
  induction ops generalizing s base done flushed log with
  | nil =>
    obtain rfl := Option.some.inj hRun
    exact ⟨base, _, _, List.prefix_rfl, by rwa [List.append_nil]⟩
  | cons op ops ih =>
    rw [opsRun, List.foldlM_cons] at hRun
    obtain ⟨s₁, hStep, hRun⟩ := Option.bind_eq_some_iff.mp hRun
    obtain ⟨base₁, _, _, hBase, h₁⟩ := h.step hOps.1 hStep
    obtain ⟨base', flushed', log', hBase', h'⟩ := ih h₁ (hOps.2 s₁ hStep) hRun
    exact ⟨base', flushed', log', hBase.trans hBase', by simpa using h'⟩

theorem Traced.start (h : opened options ∅ = some s0) : Traced [] [] s0 0 [] := by
  obtain ⟨hOk, hCreated, -⟩ := opened_new h
  obtain ⟨-, hRecent, hApart⟩ := hCreated.order (d := s0.dir)
  refine ⟨hOk, opened_durable h, fun log₁ hLog => ?_, hRecent, hApart, hCreated.snapshots⟩
  refine ⟨[], List.prefix_rfl, List.prefix_rfl, fun _ => rfl, fun k => .inr ⟨?_, rfl⟩⟩
  rintro x ⟨⟨level, f, hf, -⟩ | ⟨e, he, -⟩, -⟩
  · rw [hCreated.filesAt] at hf
    contradiction
  · rw [List.prefix_nil.mp hLog] at he
    contradiction

/-- `S` says what some first calls of `ops` and `next` wrote, those of `base` among them, and all of
`ops` if writes are synced. -/
def Recovers (base ops : List Op) (next : Option Op) (s : Running) (S : Set Entry) : Prop :=
  ∃ pre, base <+: pre ∧ pre <+: ops ++ next.toList ∧ (s.db.options.syncWrites → ops <+: pre) ∧
    Represents S (written pre)

theorem Traced.rest (h : Traced base ops s flushed log) (next : Option Op) {log₁ : List WalEntry}
    (hLow : s.db.syncedLog log <+: log₁) (hHigh : log₁ <+: log) :
    Recovers base ops next s (stored s.dir s.db.versionSet.current ∪ logVersions log₁) := by
  obtain ⟨ops₁, hBase, hOps, hAll, hReads⟩ := h.viewed log₁ hHigh
  refine ⟨ops₁, hBase, hOps.trans (List.prefix_append _ _), fun hSync => ?_,
    represents_of_reads (h.ok.inv.distinct_contents.mono ?_) hReads⟩
  · rw [Db.syncedLog, if_pos hSync] at hLow
    rw [hAll (hHigh.eq_of_length (le_antisymm hHigh.length_le hLow.length_le))]
  · exact (Set.union_subset_union_right _ (logVersions_mono hHigh)).trans_eq h.ok.contents_eq

theorem Traced.covers (h : Traced base ops s flushed log) (hAmple : s.Ample) :
    Covers op s log (Recovers base ops (some op) s) where
  rest := fun log₁ hLow hHigh => h.rest _ hLow hHigh
  write := fun e hEntry => by
    have hSeq : e.seq = s.db.memtable.seq + 1 := by
      cases op <;> cases hEntry <;> rfl
    obtain ⟨ops₁, hBase, hOps, hAll, hReads⟩ := h.viewed.write h.ok hEntry hSeq hAmple.seq
      rfl (log ++ [e]) List.prefix_rfl
    obtain rfl := hAll rfl
    refine ⟨ops ++ [op], hBase, List.prefix_rfl, fun _ => List.prefix_append _ _,
      represents_of_reads ?_ hReads⟩
    rw [logVersions_append, Set.union_left_comm, h.ok.contents_eq]
    refine h.ok.inv.distinct_contents.insert fun y hy _ => (h.ok.contents_le y hy).trans_lt ?_
    have := h.ok.inv.seq
    simp only [Entry.version_seq, WalEntry.entry, Running.last]
    omega
  compact := fun _ log₁ hLow hHigh c d' v' hc hRewrote => by
    obtain ⟨pre, hBase, hPre, hSync, hRep⟩ := h.rest (some op) hLow hHigh
    refine ⟨pre, hBase, hPre, hSync, fun k r => ?_⟩
    rw [← h.ok.rewrote_reads hc hRewrote h.recent h.apart h.unregistered hHigh]
    exact hRep k r

/-- Wherever the machine stops in a run behind a clean close, the next opening returns and finds
what some first calls wrote: those up to the close, and if writes are synced all that returned. -/
theorem crash_keeps_first_calls (hStart : opened options₀ ∅ = some s0)
    (hPast : Along Op.Fair past s0)
    (hPastRun : opsRun past s0 = some s1) (hAmple₁ : s1.Ample) (hClosed : closed s1 = some d₁) :
    (∀ d, StopsIn (Db.open options : St Unit Db) () d₁ d → ∀ d', Survives d d' →
      ∃ r, opened options' d' = some r ∧ Represents r.contents (written past)) ∧
    ∀ s2, opened options d₁ = some s2 → Along Op.Fair ops s2 → ∀ s, opsRun ops s2 = some s →
      s.Ample → (∀ op ∈ next, op.Ready s) → ∀ d, Stopped next s d → ∀ d', Survives d d' →
        ∃ pre, past <+: pre ∧ pre <+: past ++ .reopen options :: ops ++ next.toList ∧
          (s.db.options.syncWrites → past ++ .reopen options :: ops <+: pre) ∧
          ∃ r, opened options' d' = some r ∧ Represents r.contents (written pre) := by
  obtain ⟨base₁, flushed₁, log₁, -, h₁⟩ := (Traced.start hStart).run hPast hPastRun
  rw [List.nil_append] at h₁
  constructor
  · intro d hStops d' hSurvives
    obtain ⟨hInv, hDurable, hLog, hStored⟩ := closed_durable h₁.ok h₁.durable hClosed
    have hReads : Represents (stored s1.dir s1.db.versionSet.current ∪ logVersions log₁)
        (written past) := by
      obtain ⟨ops₁, -, -, hAll, hReads⟩ := h₁.viewed log₁ List.prefix_rfl
      obtain rfl := hAll rfl
      exact represents_of_reads (h₁.ok.contents_eq ▸ h₁.ok.inv.distinct_contents) hReads
    have hSeq := hAmple₁.seq
    unfold maxSequence at hSeq
    obtain ⟨-, hRestores⟩ := hStops.of_spec (hInv.open_restores
      (Q := fun S => Represents S (written past)) hDurable hLog (by omega)
      (by have := hInv.next; have := hAmple₁.next; omega) halts_stops (hStored ▸ hReads))
    exact hRestores.opens hSurvives options'
  · intro s2 hOpen hOps s hRun hAmple hReady d hStopped d' hSurvives
    obtain ⟨flushed₂, log₂, h₂⟩ := h₁.reopen ⟨trivial, hAmple₁, trivial⟩
      (by rw [Op.run, hClosed]; exact hOpen)
    obtain ⟨base, flushed, log, hBase, h⟩ := h₂.run hOps hRun
    rw [← List.append_cons] at h
    have hRestores : Restores d (Recovers base (past ++ .reopen options :: ops) next s) := by
      refine hStopped.restores h.ok h.durable hReady hAmple (fun _ => h.rest next) fun op hOp => ?_
      obtain rfl : next = some op := hOp
      exact h.covers hAmple
    obtain ⟨r, hRecovered, pre, hPre, hNext, hSync, hRep⟩ := hRestores.opens hSurvives options'
    exact ⟨pre, (List.prefix_append _ _).trans (hBase.trans hPre), hNext, hSync, r,
      hRecovered, hRep⟩

end Tracing

/-- The machine stops in the write of a record, and none of the log behind its synced bytes is
kept. -/
theorem crash_keeps_first_calls_cut :
    let past : List Op := [.put [97] [1], .flush, .delete [97]]
    let ops : List Op := [.put [98] [2], .compact, .put [97] [3]]
    ∃ s0 s1 d₁ s2 s d f, opened relaxed ∅ = some s0 ∧ opsRun past s0 = some s1 ∧
      closed s1 = some d₁ ∧ opened relaxed d₁ = some s2 ∧ opsRun ops s2 = some s ∧
        (Op.put [99] [4]).StopsAt s d ∧ d.lookup (.log s.db.walNumber) = some f ∧
          f.synced < f.bytes.length ∧
            ∃ pre, past <+: pre ∧ pre <+: past ++ .reopen relaxed :: ops ++ [.put [99] [4]] ∧
              (s.db.options.syncWrites → past ++ .reopen relaxed :: ops <+: pre) ∧
              ∃ r, opened relaxed (d.insert (.log s.db.walNumber) (f.cut f.synced)) = some r ∧
                Represents r.contents (written pre) := by
  intro past ops
  have h : (opened relaxed ∅).any (fun s0 => Along Op.Fair past s0 ∧
      (opsRun past s0).any fun s1 => s1.Ample ∧ (closed s1).any fun d₁ =>
        (opened relaxed d₁).any fun s2 => Along Op.Fair ops s2 ∧
          (opsRun ops s2).any fun s => s.Ample ∧ (Op.put [99] [4]).Ready s ∧
            (Effects.raised (Db.put [99] [4] (s.db, ⟨s.dir, [.crash 5]⟩))).any fun p =>
              p.1 = .crash ∧ (p.2.2.dir.lookup (.log s.db.walNumber)).any fun f =>
                f.synced < f.bytes.length) = true := by
    decide +kernel
  obtain ⟨s0, hStart, h⟩ := (Option.any_eq_true _ _).mp h
  obtain ⟨hPast, h⟩ := of_decide_eq_true h
  obtain ⟨s1, hPastRun, h⟩ := (Option.any_eq_true _ _).mp h
  obtain ⟨hAmple₁, h⟩ := of_decide_eq_true h
  obtain ⟨d₁, hClosed, h⟩ := (Option.any_eq_true _ _).mp h
  obtain ⟨s2, hOpen, h⟩ := (Option.any_eq_true _ _).mp h
  obtain ⟨hOps, h⟩ := of_decide_eq_true h
  obtain ⟨s, hRun, h⟩ := (Option.any_eq_true _ _).mp h
  obtain ⟨hAmple, hReady, h⟩ := of_decide_eq_true h
  obtain ⟨⟨fault, db, w⟩, hPut, h⟩ := (Option.any_eq_true _ _).mp h
  obtain ⟨rfl, h⟩ := of_decide_eq_true h
  obtain ⟨f, hf, hLost⟩ := (Option.any_eq_true _ _).mp h
  have hStops : (Op.put [99] [4]).StopsAt s w.dir :=
    ⟨_, by simp [Stops], db, w, Effects.raised_eq_some.mp hPut, rfl⟩
  refine ⟨s0, s1, d₁, s2, s, w.dir, f, hStart, hPastRun, hClosed, hOpen, hRun, hStops, hf,
    of_decide_eq_true hLost, ?_⟩
  exact (crash_keeps_first_calls hStart hPast hPastRun hAmple₁ hClosed).2 s2 hOpen
    hOps s hRun hAmple
    (by simpa using hReady) w.dir (.inr ⟨_, rfl, hStops⟩) _ (Survives.cut hf le_rfl)

section Unfit

variable [Crc32c] {d d' : Dir} {db : Db} {flushed number : Nat} {log : List WalEntry}
  {state : VersionState} {options : Options} {B : Bytes} {synced : Nat}

/-- A write of any lengths that does not fill the memory table is logged. -/
theorem Inv.write_logs (h : Inv d db flushed log) {vtype : ValueType} {key value : Bytes}
    (hFull : (db.applyWrite vtype key value).full = false) :
    Spec Quiet (Db.write key value vtype)
      (fun _ _ d' => (∃ B synced, d'.Has (.log db.walNumber) B synced ∧
        readRecords B = log.map WalEntry.encode ++
          [encodeEntry vtype (db.memtable.seq + 1) key value]) ∧
        d.Frame {.log db.walNumber} d') Never db d := by
  obtain ⟨B, hAt⟩ := h.wal
  refine Spec.bind (Spec.bind (Spec.self
    (Spec.bind (Spec.onField ((hAt.addRecord_spec _).mono ?_ ?_)))))
  swap
  · rintro f w d' ⟨_, _, _, _, n, _, _, hBroken, _⟩
    exact not_broken_quiet hBroken
  rintro - w₁ d₁ ⟨⟨ps, B₁, -, -, hAt₁, hFrame₁⟩, -⟩
  have hRest : ∀ {w d₂}, LogAt w d₂ (.log db.walNumber) B₁ (log.map WalEntry.encode ++
      [encodeEntry vtype (db.memtable.seq + 1) key value]) → d.Frame {.log db.walNumber} d₂ →
      Spec Quiet (do
        update (Db.applyWrite vtype key value)
        if (← self).full then Db.flushMemtable else pure () : St Db Unit)
      (fun _ _ d' => (∃ B synced, d'.Has (.log db.walNumber) B synced ∧
        readRecords B = log.map WalEntry.encode ++
          [encodeEntry vtype (db.memtable.seq + 1) key value]) ∧
        d.Frame {.log db.walNumber} d') Never { db with wal := w } d₂ := by
    intro w d₂ hAt₂ hFrame₂
    refine Spec.bind (Spec.update (Spec.bind (Spec.self ?_)))
    rw [show (Db.applyWrite vtype key value { db with wal := w }).full = false from hFull]
    obtain ⟨synced, hHas⟩ := hAt₂.has
    exact Spec.pure ⟨⟨B₁, synced, hHas, hAt₂.isLog.readRecords⟩, hFrame₂⟩
  split
  · refine Spec.onField (hAt₁.sync_spec.mono ?_ fun _ _ _ h => not_fails_quiet h.2.2)
    rintro - w₂ d₂ ⟨rfl, hAt₂, -, hFrame₂⟩
    exact hRest hAt₂ (hFrame₁.trans hFrame₂)
  · exact Spec.pure (hRest hAt₁ hFrame₁)

/-- A directory whose log does not decode does not open. -/
theorem opened_unreadable (hSays : Says d number state)
    (hHas : d.Has (.log state.logNumber) B synced)
    (hBad : ∀ m, ∃ e, replayRecords (readRecords B) m = .error e) : opened options d = none := by
  obtain ⟨⟨f, hf, -⟩, M, _, -, hManifest, -⟩ := id hSays
  have hSpec : Spec Quiet (Db.open options : St Unit Db) (fun _ _ _ => False) (fun _ _ _ => True)
      () d := by
    refine Spec.bind (Spec.pathExists halts_quiet ?_ fun _ _ => trivial)
    rw [if_pos (decide_eq_true (Dir.mem_of_lookup hf))]
    refine Spec.bind ((hSays.recover_spec hManifest).mono ?_ fun _ _ _ _ => trivial)
    rintro _ y d' ⟨rfl, rfl, rfl⟩
    refine Spec.bind (Spec.bind (Spec.pathExists halts_quiet ?_ fun _ _ => trivial))
    rw [if_pos (decide_eq_true hHas.mem)]
    refine Spec.bind (Spec.readFile hHas ?_ fun _ _ _ => trivial)
    refine Spec.bind (Spec.ofResult (fun m hm => ?_) fun _ _ => trivial)
    obtain ⟨e, he⟩ := hBad (.withInitialSequence state.lastSequence)
    rw [he] at hm
    contradiction
  rcases hSpec.result (List.forall_mem_nil _) with ⟨_, _, _, _, hFalse⟩ | ⟨f, y, w, hRun, -⟩
  · exact hFalse.elim
  · rw [opened, hRun]

omit [Crc32c] in
/-- An entry whose key overflows its length field is read as one with an empty key, and the key's
bytes are no varint. -/
theorem decodeEntry_overflow {n : Nat} (h5 : 5 ≤ n) (hn : asU32 n = 0) (seq : Nat) :
    ∃ e, decodeEntry (encodeEntry .put seq (List.replicate n 0xFF) []) = .error e := by
  obtain ⟨m, rfl⟩ := Nat.exists_eq_add_of_le h5
  have hKey : List.replicate (5 + m) (0xFF : UInt8) =
      0xFF :: 0xFF :: 0xFF :: 0xFF :: 0xFF :: List.replicate m 0xFF := by
    rw [List.replicate_add]
    rfl
  obtain ⟨b0, b1, b2, b3, b4, b5, b6, b7, hSeq⟩ : ∃ b0 b1 b2 b3 b4 b5 b6 b7,
      toLeBytes 8 seq = [b0, b1, b2, b3, b4, b5, b6, b7] := ⟨_, _, _, _, _, _, _, _, rfl⟩
  have hEmpty : ∀ rest : Bytes, decodeVarint32 (0 :: rest) = .ok (0, 1) := fun _ => rfl
  have hBad : ∀ rest : Bytes, decodeVarint32 (0xFF :: 0xFF :: 0xFF :: 0xFF :: 0xFF :: rest) =
      .error (.corrupted s!"varint too long or unterminated (max 5 bytes)") := fun _ => rfl
  have hData : encodeEntry .put seq (List.replicate (5 + m) 0xFF) [] =
      ValueType.put.toU8 :: b0 :: b1 :: b2 :: b3 :: b4 :: b5 :: b6 :: b7 :: 0 ::
        0xFF :: 0xFF :: 0xFF :: 0xFF :: 0xFF :: (List.replicate m 0xFF ++ [0]) := by
    rw [encodeEntry, List.length_replicate, hn, hKey, hSeq, List.append_nil]
    rfl
  refine ⟨.corrupted s!"varint too long or unterminated (max 5 bytes)", ?_⟩
  have hType : ValueType.fromU8 ValueType.put.toU8 = some .put := rfl
  have hShort : ∀ k < 11, ¬(m + 16 < k) := fun k hk => by omega
  simp [hData, decodeEntry, hEmpty, hBad, hType, hShort, bind, Except.bind]

end Unfit

/-- Tables are flushed by their entries alone. -/
def unbounded : Options := { memtableMaxBytes := 0, disableAutoCompaction := true }

/-- A write whose log entry does not decode makes the log unreadable. -/
theorem crash_after_unreadable {key : Bytes} (hNe : key ≠ [])
    (hBad : ∀ seq, ∃ e, decodeEntry (encodeEntry .put seq key []) = .error e) :
    ∃ s0 d₁ s2 s, opened unbounded ∅ = some s0 ∧ closed s0 = some d₁ ∧
      opened unbounded d₁ = some s2 ∧ opsRun [.put key []] s2 = some s ∧
        opened unbounded s.dir = none := by
  have h : (opened unbounded ∅).any (fun s0 => s0.Room ∧ (closed s0).any fun d₁ =>
      (opened unbounded d₁).any fun s2 => ¬s2.db.stalled ∧
        s2.db.memtable.entries = 0 ∧ s2.db.options.memtableFlushEntries = 1000 ∧
          s2.db.options.memtableMaxBytes = 0) = true := by
    decide +kernel
  obtain ⟨s0, hStart, h⟩ := (Option.any_eq_true _ _).mp h
  obtain ⟨hRoom, h⟩ := of_decide_eq_true h
  obtain ⟨d₁, hClosed, h⟩ := (Option.any_eq_true _ _).mp h
  obtain ⟨s2, hOpen, h⟩ := (Option.any_eq_true _ _).mp h
  obtain ⟨hFree, hEntries, hFlush, hMax⟩ := of_decide_eq_true h
  obtain ⟨s2', hRun, -, hOk⟩ := reopen_run (opened_new hStart).1 hRoom unbounded
  rw [hClosed, Option.bind_some, hOpen] at hRun
  obtain rfl := Option.some.inj hRun
  have hFull : (s2.db.applyWrite .put key []).full = false := by
    simp [Db.full, Db.applyWrite, MemTable.apply, hEntries, hFlush, hMax]
  obtain ⟨⟨⟩, s, hCall, -, ⟨B, synced, hHas, hRead⟩, hFrame⟩ := call_of_spec
    (hOk.inv.write_logs hFull)
  refine ⟨s0, d₁, s2, s, hStart, hClosed, hOpen, ?_, ?_⟩
  · rw [opsRun, List.foldlM_cons, Op.run, if_neg hFree, Db.put, if_neg hNe, hCall]
    rfl
  · have hSays := (hOk.inv.manifest.frame hFrame (by simp) (by simp)).said
    have hLog : s.dir.Has (.log s2.db.versionSet.logNumber) B synced := hOk.inv.walNumber ▸ hHas
    refine opened_unreadable hSays hLog fun m => ?_
    obtain ⟨e, he⟩ := hBad (s2.db.memtable.seq + 1)
    refine ⟨e, ?_⟩
    rw [hRead, List.map_nil, List.nil_append, replayRecords, List.foldlM_cons, he]
    rfl

/-- A write whose key does not fit its length field returns, and the next opening does not. -/
theorem crash_after_long_key :
    ∃ s0 d₁ s2 s, opened unbounded ∅ = some s0 ∧ closed s0 = some d₁ ∧
      opened unbounded d₁ = some s2 ∧ opsRun [.put (List.replicate (2 ^ 32) 0xFF) []] s2 = some s ∧
        Survives s.dir s.dir ∧ opened unbounded s.dir = none := by
  have hNe : List.replicate (2 ^ 32) (0xFF : UInt8) ≠ [] :=
    List.ne_nil_of_length_pos (by rw [List.length_replicate]; norm_num)
  obtain ⟨s0, d₁, s2, s, hStart, hClosed, hOpen, hRun, hNone⟩ :=
    crash_after_unreadable hNe (decodeEntry_overflow (by norm_num) (by unfold asU32; norm_num))
  exact ⟨s0, d₁, s2, s, hStart, hClosed, hOpen, hRun, Survives.refl _, hNone⟩

end MulanLsm
