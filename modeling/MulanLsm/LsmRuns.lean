import MulanLsm.TableFiles

/-! What holds in every state that a run reaches.  The files of the deeper levels stay in order
while every compaction appends its files in order; readers come to newer versions first while no
compaction cuts a file off between two versions of a key; and while both is so, a reader gets what
was written last, and a snapshot what it saw first. -/

namespace MulanLsm

open Versioned (Newer Reads)

section Runs

variable [Crc32c] {s s' s0 : Running} {flushed : Nat} {log : List WalEntry} {op : Op}
  {ops : List Op} {options : Options}

theorem opened_new (h : opened options ∅ = some s0) :
    s0.Ok 0 [] ∧ Created options s0.db ∧ s0.guards = [] := by
  obtain ⟨db, ⟨⟩, w, hRun, -, hInv, hCreated, -⟩ := ((open_new_spec options (A := Quiet) (x := ())
    (d := ∅) halts_quiet (by simp)).quiet fun _ _ _ hE => hE.2.1).run
  rw [opened, hRun, Option.some.injEq] at h
  subst h
  exact ⟨⟨hInv, hCreated.mem⟩, hCreated, rfl⟩

/-- A property that every sound call keeps holds at the end of a run of sound calls. -/
theorem Along.run {C : Op → Running → Prop} {P : List Op → Running → Prop}
    (hSound : ∀ op s, C op s → op.Sound s)
    (hStep : ∀ done op s s' flushed log, C op s → s.Ok flushed log → Did s s' flushed log op →
      P done s → P (done ++ [op]) s')
    (hAlong : Along C ops s) (hOk : s.Ok flushed log) (hP : P [] s) :
    ∃ s', opsRun ops s = some s' ∧ (∃ flushed' log', s'.Ok flushed' log') ∧ P ops s' := by
  suffices h : ∀ ops s flushed log done, Along C ops s → s.Ok flushed log → P done s →
      ∃ s', opsRun ops s = some s' ∧ (∃ flushed' log', s'.Ok flushed' log') ∧
        P (done ++ ops) s' from
    h ops s flushed log [] hAlong hOk hP
  intro ops
  induction ops with
  | nil =>
    intro s flushed log done _ hOk hP
    exact ⟨s, rfl, ⟨_, _, hOk⟩, by rwa [List.append_nil]⟩
  | cons op ops ih =>
    intro s flushed log done hAlong hOk hP
    obtain ⟨s₁, hRun, ⟨flushed₁, log₁, hOk₁⟩, hDid⟩ := (hSound op s hAlong.1).run hOk
    obtain ⟨s', hRest, hOk', hP'⟩ := ih s₁ flushed₁ log₁ (done ++ [op]) (hAlong.2 s₁ hRun) hOk₁
      (hStep done op s s₁ flushed log hAlong.1 hOk hDid hP)
    refine ⟨s', ?_, hOk', by simpa using hP'⟩
    rw [opsRun, List.foldlM_cons, hRun]
    exact hRest

/-- The memory table has the newest versions. -/
theorem Inv.newer {d : Dir} {db : Db} (h : Inv d db flushed log) :
    Newer (versions db.memtable.skiplist) (stored d db.versionSet.current) := by
  rintro x hx y ⟨level, f, hf, hy⟩ -
  exact ((h.tables level f hf).seqs y hy).trans_lt (h.mem.seqs x hx).1

theorem Running.Ok.newer (h : s.Ok flushed log) :
    Newer (versions s.db.memtable.skiplist) (stored s.dir s.db.versionSet.current) := h.inv.newer

theorem Flushed.grown {d d' : Dir} {db db' : Db} (h : Flushed d db d' db')
    (hInv : Inv d db flushed log) :
    Grown d db.versionSet.current db.memtable.skiplist d' db'.versionSet.current := by
  obtain ⟨f, -, hAdds, hEntries⟩ := h.files
  exact ⟨.inr ⟨f, hAdds, hEntries⟩, fun level f hf =>
    h.tables _ ((hInv.numbered.below level f hf).trans_le hInv.next)⟩

theorem Flushes.grown (h : Flushes s s') (hOk : s.Ok flushed log) :
    Grown s.dir s.db.versionSet.current s.db.memtable.skiplist s'.dir s'.db.versionSet.current :=
  h.flushed.grown hOk.inv

omit [Crc32c] in
theorem Reopened.grown {d d' : Dir} {state : VersionState} {m : MemTable} {db : Db}
    (h : Reopened d state m d' db) :
    Grown d state.current m.skiplist d' db.versionSet.current := by
  refine ⟨?_, fun level f hf => ?_⟩
  · have hFiles := h.files
    split at hFiles
    · next hNil => exact .inl ⟨hNil, hFiles⟩
    · obtain ⟨f, -, hAdds, hDesc⟩ := hFiles
      exact .inr ⟨f, hAdds, hDesc.entries⟩
  · unfold Dir.entries Dir.table
    rw [h.tables level f hf]

omit [Crc32c] in
theorem Reopens.grown (h : Reopens s s' flushed) :
    Grown s.dir s.db.versionSet.current s.db.memtable.skiplist s'.dir s'.db.versionSet.current :=
  h.reopened.grown

omit [Crc32c] in
theorem Grown.nothing {d d' : Dir} {v v' : Version} (hv : v' = v)
    (hTables : ∀ n, d'.entries n = d.entries n) : Grown d v [] d' v' :=
  ⟨.inl ⟨rfl, hv⟩, fun _ f _ => hTables f.number⟩

omit [Crc32c] in
theorem Keeps.grown (h : Keeps s s') :
    Grown s.dir s.db.versionSet.current [] s'.dir s'.db.versionSet.current :=
  .nothing (by rw [h.db]) fun _ => by rw [h.dir]

/-- What a call does to the version: it adds a file of newer versions to level 0, if anything, or it
is a compaction. -/
theorem Did.version (h : Did s s' flushed log op) (hOk : s.Ok flushed log) :
    (∃ es, Grown s.dir s.db.versionSet.current es s'.dir s'.db.versionSet.current ∧
        Newer (versions es) (stored s.dir s.db.versionSet.current)) ∨
      op = .compact ∧ ∃ c, Compacts c s s' flushed log := by
  have hNone : ∀ {S : Set Entry}, Newer (versions []) S := fun x hx => by simp at hx
  cases h with
  | @write _ e s₁ hEntry hWrites hOk₁ hRest =>
    have hVersion : s₁.db.versionSet.current = s.db.versionSet.current := by
      rw [hWrites.applied.version]
    have hSame : SameTables s.db.versionSet.current s.dir s₁.dir := fun _ f _ =>
      hWrites.applied.tables f.number
    split at hRest
    · obtain ⟨hFiles, hTables⟩ := hRest.grown hOk₁
      rw [hVersion] at hFiles hTables
      refine .inl ⟨s₁.db.memtable.skiplist, ⟨hFiles, fun level f hf =>
        (hTables level f hf).trans (hSame level f hf)⟩, ?_⟩
      rw [← hVersion, ← stored_congr (hVersion ▸ hSame)]
      exact hOk₁.newer
    · rw [hRest]
      exact .inl ⟨[], .nothing hVersion hWrites.applied.tables, hNone⟩
  | flush hFlushes => exact .inl ⟨_, hFlushes.grown hOk, hOk.newer⟩
  | compact hCompacts => exact .inr ⟨rfl, _, hCompacts⟩
  | keep _ hKeeps => exact .inl ⟨[], hKeeps.grown, hNone⟩
  | snapshot hKeeps => exact .inl ⟨[], hKeeps.grown, hNone⟩
  | release _ hKeeps => exact .inl ⟨[], hKeeps.grown, hNone⟩
  | reopen hReopens => exact .inl ⟨_, hReopens.grown, hOk.newer⟩

/-- If the call is a compaction, it appends its files in order. -/
def Op.InOrder (op : Op) (s : Running) : Prop :=
  match op with
  | .compact => ∀ c, pickCompaction s.db.versionSet = some c → AppendsInOrder s.dir s.db c
  | _ => True

/-- If the call is a compaction, it cuts off no file between two versions of a key. -/
def Op.Whole (op : Op) (s : Running) : Prop :=
  match op with
  | .compact => ∀ c, pickCompaction s.db.versionSet = some c → ¬CutsBetweenVersions s.dir s.db c
  | _ => True

instance : ∀ (op : Op) (s : Running), Decidable (op.InOrder s)
  | .compact, s => inferInstanceAs
    (Decidable (∀ c ∈ pickCompaction s.db.versionSet, AppendsInOrder s.dir s.db c))
  | .put _ _, _ | .delete _, _ | .flush, _ | .read _ _, _ | .snapshot, _ | .release _, _
  | .reopen _, _ => isTrue trivial

instance : ∀ (op : Op) (s : Running), Decidable (op.Whole s)
  | .compact, s => inferInstanceAs
    (Decidable (∀ c ∈ pickCompaction s.db.versionSet, ¬CutsBetweenVersions s.dir s.db c))
  | .put _ _, _ | .delete _, _ | .flush, _ | .read _ _, _ | .snapshot, _ | .release _, _
  | .reopen _, _ => isTrue trivial

theorem Did.ordered (h : Did s s' flushed log op) (hOk : s.Ok flushed log) (hOp : op.InOrder s)
    (hOrdered : Ordered s.db.versionSet.current) : Ordered s'.db.versionSet.current := by
  rcases h.version hOk with ⟨es, hGrown, -⟩ | ⟨rfl, c, hCompacts⟩
  · exact hGrown.ordered hOrdered
  · exact hCompacts.compacted.ordered hOk.inv (pickCompaction_picked hCompacts.picked) hOrdered
      (hOp c hCompacts.picked)

theorem Did.recent (h : Did s s' flushed log op) (hOk : s.Ok flushed log) (hOp : op.Whole s)
    (hRecent : Recent s.dir s.db.versionSet.current)
    (hApart : Apart s.dir s.db.versionSet.current) :
    Recent s'.dir s'.db.versionSet.current ∧ Apart s'.dir s'.db.versionSet.current := by
  rcases h.version hOk with ⟨es, hGrown, hNewer⟩ | ⟨rfl, c, hCompacts⟩
  · exact ⟨hGrown.recent hRecent hNewer, hGrown.apart hApart⟩
  · have hPicked := pickCompaction_picked hCompacts.picked
    exact ⟨hCompacts.compacted.recent hOk.inv hPicked hRecent hApart,
      hCompacts.compacted.apart hOk.inv hPicked hApart (hOp c hCompacts.picked)⟩

omit [Crc32c] in
theorem Created.filesAt {db : Db} (h : Created options db) (level : Nat) :
    db.versionSet.current.filesAt level = [] := by
  rw [show db.versionSet.current = initialState.current by rw [h.state], initialState_filesAt]

omit [Crc32c] in
theorem Created.order {d : Dir} {db : Db} (h : Created options db) :
    Ordered db.versionSet.current ∧ Recent d db.versionSet.current ∧
      Apart d db.versionSet.current := by
  refine ⟨fun level _ => ?_, ⟨?_, fun i j _ f hf => ?_⟩, fun level _ => ?_⟩
  · rw [h.filesAt]
    exact List.Pairwise.nil
  · rw [h.filesAt]
    exact List.Pairwise.nil
  · rw [h.filesAt] at hf
    contradiction
  · rw [h.filesAt]
    exact List.Pairwise.nil

/-- While every compaction appends its files in order, the files of the deeper levels are in
ascending order, and the search finds a file that covers a key whenever there is one. -/
theorem levels_in_order (hStart : opened options ∅ = some s0)
    (hOps : Along (fun op s => op.Sound s ∧ op.InOrder s) ops s0) :
    ∃ s, opsRun ops s0 = some s ∧ ∀ level, level ≠ 0 →
      ((s.db.versionSet.current.filesAt level).Pairwise fun f g =>
        f.smallest.userKey ≤ g.smallest.userKey) ∧
      ∀ key, (∃ f ∈ s.db.versionSet.current.filesAt level, f.Covers key) →
        ∃ f ∈ s.db.versionSet.current.filesAt level,
          findFileForKey (s.db.versionSet.current.filesAt level) key = some f ∧ f.Covers key := by
  obtain ⟨hOk, hCreated, -⟩ := opened_new hStart
  obtain ⟨s, hRun, ⟨flushed, log, hOk'⟩, hOrdered⟩ := hOps.run
    (P := fun _ s => Ordered s.db.versionSet.current) (fun _ _ h => h.1)
    (fun _ _ _ _ _ _ hC hOk hDid hP => hDid.ordered hOk hC.2 hP) hOk
    (hCreated.order (d := s0.dir)).1
  refine ⟨s, hRun, fun level hLevel => ?_⟩
  have hEach : ∀ f ∈ s.db.versionSet.current.filesAt level,
      f.smallest.userKey ≤ f.largest.userKey := by
    intro f hf
    obtain ⟨hCovers, ⟨e, he, hk⟩, -⟩ := (hOk'.inv.tables level f hf).bounds
    rw [← hk]
    exact (hCovers e he).2
  refine ⟨(hOrdered level hLevel).imp_of_mem fun hf _ hfg => (hEach _ hf).trans hfg, ?_⟩
  rintro key ⟨f, hf, hCovers⟩
  have hFind := findFileForKey_spec key (hOrdered level hLevel) hEach
  cases hFile : findFileForKey (s.db.versionSet.current.filesAt level) key with
  | none =>
    rw [hFile] at hFind
    exact absurd hCovers (hFind f hf)
  | some g =>
    rw [hFile] at hFind
    exact ⟨g, hFind.1, rfl, hFind.2⟩

end Runs

theorem levels_in_order_ascending :
    let ops : List Op := [.put [97] [1], .compact, .put [109] [2], .reopen eager, .compact]
    ∃ s0, opened eager ∅ = some s0 ∧ Along (fun op s => op.Sound s ∧ op.InOrder s) ops s0 ∧
      ∃ s, opsRun ops s0 = some s ∧ ∀ level, level ≠ 0 →
        ((s.db.versionSet.current.filesAt level).Pairwise fun f g =>
          f.smallest.userKey ≤ g.smallest.userKey) ∧
        ∀ key, (∃ f ∈ s.db.versionSet.current.filesAt level, f.Covers key) →
          ∃ f ∈ s.db.versionSet.current.filesAt level,
            findFileForKey (s.db.versionSet.current.filesAt level) key = some f ∧ f.Covers key := by
  intro ops
  have h : (opened eager ∅).any (fun s0 =>
      Along (fun op s => op.Sound s ∧ op.InOrder s) ops s0) = true := by
    decide +kernel
  obtain ⟨s0, hStart, hOps⟩ := (Option.any_eq_true _ _).mp h
  have hOps := of_decide_eq_true hOps
  exact ⟨s0, hStart, hOps, levels_in_order hStart hOps⟩

/-- A compaction of smaller keys puts its file behind that of the larger ones, and the search does
not find the file that covers a key. -/
theorem levels_out_of_order :
    let ops : List Op := [.put [109] [1], .compact, .put [97] [2], .compact]
    ∃ s0, opened eager ∅ = some s0 ∧ Along (fun op s => op.Sound s) ops s0 ∧
      ∃ s, opsRun ops s0 = some s ∧
        ¬((s.db.versionSet.current.filesAt 1).Pairwise fun f g =>
          f.smallest.userKey ≤ g.smallest.userKey) ∧
        (∃ f ∈ s.db.versionSet.current.filesAt 1, f.Covers [109]) ∧
        findFileForKey (s.db.versionSet.current.filesAt 1) [109] = none := by
  intro ops
  have h : (opened eager ∅).any (fun s0 => Along (fun op s => op.Sound s) ops s0 ∧
      ((opsRun ops s0).any fun s =>
        ¬((s.db.versionSet.current.filesAt 1).Pairwise fun f g =>
          f.smallest.userKey ≤ g.smallest.userKey) ∧
        (∃ f ∈ s.db.versionSet.current.filesAt 1, f.Covers [109]) ∧
        findFileForKey (s.db.versionSet.current.filesAt 1) [109] = none)) = true := by
    decide +kernel
  obtain ⟨s0, hStart, h⟩ := (Option.any_eq_true _ _).mp h
  obtain ⟨hOps, h⟩ := of_decide_eq_true h
  obtain ⟨s, hRun, hs⟩ := (Option.any_eq_true _ _).mp h
  exact ⟨s0, hStart, hOps, s, hRun, of_decide_eq_true hs⟩

section Runs

variable [Crc32c] {s s' s0 : Running} {flushed : Nat} {log : List WalEntry} {op : Op}
  {ops : List Op} {options : Options}

/-- While no compaction cuts off a file between two versions of a key, readers come to newer
versions first: those of the memory table, then those of level 0, the last file first, then those of
the deeper levels. -/
theorem newer_versions_first (hStart : opened options ∅ = some s0)
    (hOps : Along (fun op s => op.Sound s ∧ op.Whole s) ops s0) :
    ∃ s, opsRun ops s0 = some s ∧
      Newer (versions s.db.memtable.skiplist) (stored s.dir s.db.versionSet.current) ∧
      Recent s.dir s.db.versionSet.current := by
  obtain ⟨hOk, hCreated, -⟩ := opened_new hStart
  obtain ⟨s, hRun, ⟨flushed, log, hOk'⟩, hRecent, -⟩ := hOps.run
    (P := fun _ s => Recent s.dir s.db.versionSet.current ∧ Apart s.dir s.db.versionSet.current)
    (fun _ _ h => h.1)
    (fun _ _ _ _ _ _ hC hOk hDid hP => hDid.recent hOk hC.2 hP.1 hP.2) hOk
    hCreated.order.2
  exact ⟨s, hRun, hOk'.newer, hRecent⟩

end Runs

theorem newer_versions_first_snapshot :
    let ops : List Op := [.put [97] [1], .snapshot, .put [97] [2], .compact, .delete [97], .compact]
    ∃ s0, opened eager ∅ = some s0 ∧ Along (fun op s => op.Sound s ∧ op.Whole s) ops s0 ∧
      ∃ s, opsRun ops s0 = some s ∧
        Newer (versions s.db.memtable.skiplist) (stored s.dir s.db.versionSet.current) ∧
        Recent s.dir s.db.versionSet.current := by
  intro ops
  have h : (opened eager ∅).any (fun s0 =>
      Along (fun op s => op.Sound s ∧ op.Whole s) ops s0) = true := by
    decide +kernel
  obtain ⟨s0, hStart, hOps⟩ := (Option.any_eq_true _ _).mp h
  have hOps := of_decide_eq_true hOps
  exact ⟨s0, hStart, hOps, newer_versions_first hStart hOps⟩

section Sinking

variable [Crc32c] {s s' : Running} {flushed : Nat} {log : List WalEntry} {F S T : FileMetaData}
  {big : Bytes} {x y : Entry}

/-- The bounds of a file of one entry. -/
theorem Running.Ok.bounds_one (h : s.Ok flushed log) (level : Nat) {f : FileMetaData}
    (hf : f ∈ s.db.versionSet.current.filesAt level) (he : s.dir.entries f.number = [x]) :
    f.smallest = x.1 ∧ f.largest = x.1 := by
  obtain ⟨hSmall, hLarge, -⟩ := (h.inv.tables level f hf).describes
  rw [he] at hSmall hLarge
  exact ⟨(Option.some.inj hSmall).symm, (Option.some.inj hLarge).symm⟩

omit [Crc32c] in
theorem le_of_mod {m n k : Nat} (h : m ≤ n) : m % k ≤ n := (Nat.mod_le m k).trans h

/-- The size of a file of one entry, where tables are built with the options `eager`. -/
theorem Running.Ok.size_one (h : s.Ok flushed log)
    (hMakes : s.Makes fun blockTarget bitsPerKey => blockTarget = 64 ∧ bitsPerKey = 1) (level : Nat)
    {f : FileMetaData} (hf : f ∈ s.db.versionSet.current.filesAt level)
    (he : s.dir.entries f.number = [x]) :
    f.fileSize ≤ 2 * x.1.userKey.length + x.2.length + 2 ^ 12 := by
  have hDesc := (h.inv.tables level f hf).describes
  obtain ⟨file, hFile, hTable, -⟩ := hDesc.table
  rw [he] at hTable
  obtain ⟨-, _, _, ⟨rfl, rfl⟩, hBytes⟩ := hMakes.faithful f.number file hFile _ hTable
  have hSize := hDesc.size
  rw [hFile, Option.map_some, Option.some.injEq, hBytes] at hSize
  have hLength : (Sstable.tableBytes 64 1 [x]).length ≤ _ := Sstable.one_tableBytes_length x
  have hFilter : (Sstable.TableBuilder.withOptions 64 1).bloom.bits.length = 125 := by
    decide +kernel
  rw [hFilter] at hLength
  rw [← hSize]
  exact le_of_mod (by omega)

theorem compact_call (h : s.Ok flushed log) (hSeq : s.db.versionSet.lastSequence < maxSequence)
    {c : Compaction} (hPick : pickCompaction s.db.versionSet = some c)
    (hNext : s.db.idGen.next + 2 + (compactedFiles s.dir s.db c).length < 2 ^ 64) :
    Op.compact.Sound s ∧ ∃ s', Op.compact.run s = some s' ∧ s'.Ok flushed log ∧
      Compacted s.dir s.db flushed log c s'.dir s'.db := by
  have hSound : Op.compact.Sound s := by
    refine ⟨trivial, hSeq, by omega, fun c' hc' => ?_⟩
    obtain rfl : c = c' := Option.some.inj (hPick.symm.trans hc')
    omega
  refine ⟨hSound, ?_⟩
  obtain ⟨s', hRun, ⟨hNone, -⟩ | ⟨c', hCompacts⟩⟩ := h.inv.compact_run hSound.2
  · rw [hNone] at hPick
    contradiction
  · obtain rfl : c = c' := Option.some.inj (hPick.symm.trans hCompacts.picked)
    exact ⟨s', hRun, ⟨hCompacts.compacted.inv, hCompacts.compacted.mem.trans h.mem⟩,
      hCompacts.compacted⟩

/-- A state in which a file of level 0 holds the one version of a key, which a snapshot sees, and
the files of the next levels are before their pointers. -/
structure Poised (s : Running) (F S T : FileMetaData) : Prop where
  current : s.db.versionSet.current = threeLevels [F] [S] [T]
  entries : s.dir.entries F.number = [(⟨[2], 3, .put⟩, [1])]
  keys : S.largest.userKey = [1] ∧ T.largest.userKey = [1]
  sizes : 0 < S.fileSize ∧ S.fileSize ≤ 2 ^ 20 ∧ T.fileSize ≤ S.fileSize
  pointer : s.db.versionSet.compactPointer ⟨1, by decide⟩ = [1]
  snapshots : s.db.versionSet.snapshots = [3]
  mem : s.db.memtable.skiplist = []
  seq : s.db.versionSet.lastSequence = 3
  next : s.db.idGen.next < 100
  options : s.db.options.memtableFlushEntries = 1

/-- A write puts another file of the key at level 0. -/
structure Loaded (s : Running) (F G S T : FileMetaData) (big : Bytes) : Prop where
  current : s.db.versionSet.current = threeLevels [F, G] [S] [T]
  entries : s.dir.entries F.number = [(⟨[2], 3, .put⟩, [1])] ∧
    s.dir.entries G.number = [(⟨[2], 4, .put⟩, big)]
  pointer : s.db.versionSet.compactPointer ⟨1, by decide⟩ = [1]
  snapshots : s.db.versionSet.snapshots = [3]
  seq : s.db.versionSet.lastSequence = 4
  next : s.db.idGen.next < 102

theorem Poised.put (h : Poised s F S T) (hOk : s.Ok flushed log)
    (hSound : (Op.put [2] big).Sound s) : ∃ s' flushed' log' G, (Op.put [2] big).run s = some s' ∧
      s'.Ok flushed' log' ∧ Loaded s' F G S T big := by
  obtain ⟨s', hRun, ⟨flushed', log', hOk'⟩, hDid⟩ := hSound.run hOk
  refine ⟨s', flushed', log', ?_⟩
  cases hDid with
  | @write _ e s₁ hEntry hWrites hOk₁ hRest =>
    obtain rfl := Option.some.inj hEntry
    have hSeq : s.db.memtable.seq = 3 := hOk.inv.seq.trans h.seq
    have hFull : s₁.db.full = true := by
      have hEntries : 1 ≤ s₁.db.memtable.entries := by
        rw [hWrites.applied.mem]
        exact Nat.le_add_left 1 _
      unfold Db.full
      rw [hWrites.applied.options, h.options]
      simp [hEntries]
    rw [if_pos hFull] at hRest
    obtain ⟨G, -, ⟨hZero, hDeeper⟩, hG⟩ := hRest.flushed.files
    have hVersion := hWrites.applied.version
    rw [hVersion] at hZero hDeeper
    have hF : F.number < s₁.db.idGen.next := by
      rw [hWrites.applied.idGen]
      refine (hOk.inv.numbered.below 0 F ?_).trans_le hOk.inv.next
      simp [h.current]
    refine ⟨G, hRun, hOk', ?_, ⟨?_, ?_⟩, ?_, ?_, ?_, ?_⟩
    · refine Version.ext_filesAt fun level => ?_
      match level with
      | 0 => simpa [h.current] using hZero
      | 1 => simpa [h.current] using hDeeper 1 (by decide)
      | 2 => simpa [h.current] using hDeeper 2 (by decide)
      | level + 3 => simpa [h.current] using hDeeper (level + 3) (by omega)
    · rw [hRest.flushed.tables _ hF, hWrites.applied.tables, h.entries]
    · rw [hG, hWrites.applied.mem]
      simp only [MemTable.apply, h.mem, nextEntry, hSeq]
      rfl
    · rw [hRest.flushed.pointers, hVersion]
      exact h.pointer
    · rw [hRest.flushed.snapshots, hVersion]
      exact h.snapshots
    · rw [hRest.flushed.lastSequence, hVersion]
      simp [nextEntry, hSeq]
    · rw [hRest.flushed.next, hWrites.applied.idGen]
      have := h.next
      omega
  | keep hEntry => contradiction

/-- The large version and the old one are at level 1, in files of their own. -/
structure Cut (s : Running) (S A B T : FileMetaData) (big : Bytes) : Prop where
  current : s.db.versionSet.current = threeLevels [] [S, A, B] [T]
  entries : s.dir.entries A.number = [(⟨[2], 4, .put⟩, big)] ∧
    s.dir.entries B.number = [(⟨[2], 3, .put⟩, [1])]
  pointer : s.db.versionSet.compactPointer ⟨1, by decide⟩ = [1]
  snapshots : s.db.versionSet.snapshots = [3]
  seq : s.db.versionSet.lastSequence = 4
  next : s.db.idGen.next < 104

theorem Loaded.compact {G : FileMetaData} (h : Loaded s F G S T big) (hOk : s.Ok flushed log)
    (hBig : targetFileSize ≤ big.length) (hKeys : S.largest.userKey = [1] ∧ T.largest.userKey = [1])
    (hSizes : S.fileSize ≤ 2 ^ 20 ∧ T.fileSize ≤ 2 ^ 20) :
    Op.compact.Sound s ∧ ∃ s' A B, Op.compact.run s = some s' ∧ s'.Ok flushed log ∧
      Cut s' S A B T big := by
  have hF := hOk.bounds_one 0 (f := F) (by simp [h.current]) h.entries.1
  have hG := hOk.bounds_one 0 (f := G) (by simp [h.current]) h.entries.2
  have hRange : (keyRange [F, G]).1 = [2] := by
    simp [keyRange, hF.1, hG.1]
  have hPick : pickCompaction s.db.versionSet =
      some { level := 0, inputs := ([F, G], []), grandparents := [] } := by
    refine pickCompaction_zero h.current (List.cons_ne_nil _ _)
      (by simpa [sizes] using le_of_mod hSizes.1) (by simpa [sizes] using le_of_mod hSizes.2)
      fun g hg => ?_
    rw [hRange]
    have : g.largest.userKey = [1] := by
      rcases List.mem_cons.mp hg with rfl | hg
      · exact hKeys.1
      · exact (List.mem_singleton.mp hg) ▸ hKeys.2
    rw [this]
    decide
  have hOldest : s.db.versionSet.oldestSnapshotSeq = 3 := by
    rw [VersionSet.oldestSnapshotSeq, h.snapshots]
    rfl
  have hMerged : mergedInputs s.dir { level := 0, inputs := ([F, G], []), grandparents := [] } =
      [(⟨[2], 4, .put⟩, big), (⟨[2], 3, .put⟩, [1])] := by
    simp only [mergedInputs, Compaction.inputFiles, List.append_nil, List.map_cons, List.map_nil,
      h.entries.1, h.entries.2]
    exact mergeTables_eq (by simp [Ascending]) (List.Perm.swap ..) (by simp [Ascending, KeyLt])
  have hFiles :
      compactedFiles s.dir s.db { level := 0, inputs := ([F, G], []), grandparents := [] } =
      [[(⟨[2], 4, .put⟩, big)], [(⟨[2], 3, .put⟩, [1])]] := by
    have hKept : keptEntries s.dir s.db
        { level := 0, inputs := ([F, G], []), grandparents := [] } =
          [(⟨[2], 4, .put⟩, big), (⟨[2], 3, .put⟩, [1])] := by
      rw [keptEntries, hMerged, hOldest]
      simp [keep, dropEntry]
    rw [compactedFiles, outputFiles]
    exact (congrArg _ hKept).trans (cutFiles_large hBig)
  obtain ⟨hSound, s', hRun, hOk', hCompacted⟩ := compact_call hOk (by rw [h.seq]; decide) hPick
    (by rw [hFiles]; have := h.next; simp only [List.length_cons, List.length_nil]; omega)
  refine ⟨hSound, s', ?_⟩
  obtain ⟨fs, hChunks, -, hReplaces⟩ := id hCompacted.files
  rw [hFiles] at hChunks
  obtain ⟨A, fs, rfl, hA, hChunks⟩ := List.map_eq_cons_iff.mp hChunks
  obtain ⟨B, fs, rfl, hB, hChunks⟩ := List.map_eq_cons_iff.mp hChunks
  obtain rfl := List.map_eq_nil_iff.mp hChunks
  refine ⟨A, B, hRun, hOk', ?_, ⟨hA, hB⟩, ?_, ?_, ?_, ?_⟩
  · refine Version.ext_filesAt fun level => ?_
    rw [hReplaces]
    rcases level with _ | _ | _ | level
    · simp [h.current]
    · simp [h.current]
    · simp [h.current]
    · simp [h.current]
  · rw [hCompacted.pointers _ Nat.one_ne_zero]
    exact h.pointer
  · rw [hCompacted.snapshots, h.snapshots]
  · rw [hCompacted.lastSequence, h.seq]
  · rw [hCompacted.next, hFiles]
    have := h.next
    simp only [List.length_cons, List.length_nil]
    omega

theorem Cut.compact {A B : FileMetaData} (h : Cut s S A B T big) (hOk : s.Ok flushed log)
    (hKeys : S.largest.userKey = [1] ∧ T.largest.userKey = [1])
    (hSizes : 0 < S.fileSize ∧ S.fileSize ≤ 2 ^ 20 ∧ T.fileSize ≤ S.fileSize)
    (hMakes : s.Makes fun blockTarget bitsPerKey => blockTarget = 64 ∧ bitsPerKey = 1)
    (hLength : big.length ≤ 2 ^ 30) :
    Op.compact.Sound s ∧ ∃ s' C, Op.compact.run s = some s' ∧
      B ∈ s'.db.versionSet.current.filesAt 1 ∧ C ∈ s'.db.versionSet.current.filesAt 2 ∧
      s'.dir.entries B.number = [(⟨[2], 3, .put⟩, [1])] ∧
      s'.dir.entries C.number = [(⟨[2], 4, .put⟩, big)] := by
  have hA := hOk.bounds_one 1 (f := A) (by simp [h.current]) h.entries.1
  have hPick : pickCompaction s.db.versionSet =
      some { level := 1, inputs := ([A], []), grandparents := [] } := by
    have hSizeA := hOk.size_one hMakes 1 (f := A) (by simp [h.current]) h.entries.1
    have hSizeB := hOk.size_one hMakes 1 (f := B) (by simp [h.current]) h.entries.2
    have hOne : sizes [S, A, B] = S.fileSize + (A.fileSize + B.fileSize) := by
      simp only [List.length_cons, List.length_nil] at hSizeA hSizeB
      simp only [sizes, List.map_cons, List.map_nil, List.sum_cons, List.sum_nil, Nat.add_zero]
      exact Nat.mod_eq_of_lt (by omega)
    have hTwo : sizes [T] ≤ S.fileSize := by simpa [sizes] using le_of_mod hSizes.2.2
    refine pickCompaction_one h.current (by omega) (by omega) ?_ ?_
    · have hPast : ([1] : Bytes) < [2] := by decide
      simp [h.pointer, hKeys.1, hA.2, hPast]
    · intro g hg
      rw [List.mem_singleton.mp hg, hKeys.2, hA.1]
      exact show ([1] : Bytes) < [2] by decide
  have hMerged : mergedInputs s.dir { level := 1, inputs := ([A], []), grandparents := [] } =
      [(⟨[2], 4, .put⟩, big)] := by
    simp only [mergedInputs, Compaction.inputFiles, List.append_nil, List.map_cons, List.map_nil,
      h.entries.1]
    exact mergeTables_eq (by simp [Ascending]) (List.Perm.refl _) (by simp [Ascending])
  have hFiles : compactedFiles s.dir s.db { level := 1, inputs := ([A], []), grandparents := [] } =
      [[(⟨[2], 4, .put⟩, big)]] := by
    have hKept : keptEntries s.dir s.db { level := 1, inputs := ([A], []), grandparents := [] } =
        [(⟨[2], 4, .put⟩, big)] := by
      rw [keptEntries, hMerged]
      simp [keep, dropEntry]
    rw [compactedFiles, outputFiles]
    refine (congrArg _ hKept).trans ?_
    simp [cutFiles, Pen.new, TableBuilder.withOptions]
  obtain ⟨hSound, s', hRun, hOk', hCompacted⟩ := compact_call hOk (by rw [h.seq]; decide) hPick
    (by rw [hFiles]; have := h.next; simp only [List.length_cons, List.length_nil]; omega)
  obtain ⟨fs, hChunks, -, hReplaces⟩ := id hCompacted.files
  rw [hFiles] at hChunks
  obtain ⟨C, fs, rfl, hC, hChunks⟩ := List.map_eq_cons_iff.mp hChunks
  obtain rfl := List.map_eq_nil_iff.mp hChunks
  have hB : B.number < s.db.idGen.next :=
    (hOk.inv.numbered.below 1 B (by simp [h.current])).trans_le hOk.inv.next
  have hne : B ≠ A := by
    rintro rfl
    have := h.entries.1.symm.trans h.entries.2
    simp at this
  refine ⟨hSound, s', C, hRun, ?_, ?_, ?_, hC⟩
  · rw [hReplaces]
    simp [h.current, hne]
  · rw [hReplaces]
    simp [h.current]
  · rw [hCompacted.tables _ hB]
    exact h.entries.2

end Sinking

theorem exists_threeLevels {v : Version}
    (h : (List.range numLevels).map v.numFiles = [1, 1, 1, 0, 0, 0, 0]) :
    ∃ F S T, v = threeLevels [F] [S] [T] := by
  simp only [show List.range numLevels = [0, 1, 2, 3, 4, 5, 6] from rfl, List.map_cons,
    List.map_nil, List.cons.injEq, and_true, Version.numFiles, List.length_eq_one_iff,
    List.length_eq_zero_iff] at h
  obtain ⟨⟨F, h0⟩, ⟨S, h1⟩, ⟨T, h2⟩, h3, h4, h5, h6⟩ := h
  refine ⟨F, S, T, Version.ext_filesAt fun level => ?_⟩
  rcases level with _ | _ | _ | _ | _ | _ | _ | level
  · simpa using h0
  · simpa using h1
  · simpa using h2
  · simpa using h3
  · simpa using h4
  · simpa using h5
  · simpa using h6
  · show v.filesAt (level + 7) = (threeLevels [F] [S] [T]).filesAt (level + 7)
    simp [Version.filesAt, numLevels]

/-- The run up to the snapshot leads to such a state. -/
theorem exists_poised :
    let ops : List Op := [.put [1] [], .compact, .compact, .put [1] [], .compact, .put [2] [1],
      .snapshot]
    ∃ s0, opened eager ∅ = some s0 ∧ Along (fun op s => op.Sound s) ops s0 ∧
      ∃ s, opsRun ops s0 = some s ∧ ¬s.db.stalled ∧ s.Room ∧ ∃ F S T, Poised s F S T := by
  intro ops
  have h : (opened eager ∅).any (fun s0 => Along (fun op s => op.Sound s) ops s0 ∧
      (opsRun ops s0).any fun s => ¬s.db.stalled ∧ s.Room ∧
        ((List.range numLevels).map s.db.versionSet.current.numFiles = [1, 1, 1, 0, 0, 0, 0] ∧
        (∀ F ∈ s.db.versionSet.current.filesAt 0,
          s.dir.entries F.number = [(⟨[2], 3, .put⟩, [1])]) ∧
        (∀ S ∈ s.db.versionSet.current.filesAt 1, S.largest.userKey = [1] ∧ 0 < S.fileSize ∧
          S.fileSize ≤ 2 ^ 20) ∧
        ∀ T ∈ s.db.versionSet.current.filesAt 2, T.largest.userKey = [1] ∧
          ∀ S ∈ s.db.versionSet.current.filesAt 1, T.fileSize ≤ S.fileSize) ∧
        s.db.versionSet.compactPointer ⟨1, by decide⟩ = [1] ∧
        s.db.versionSet.snapshots = [3] ∧ s.db.memtable.skiplist = [] ∧
        s.db.versionSet.lastSequence = 3 ∧ s.db.idGen.next < 100 ∧
        s.db.options.memtableFlushEntries = 1) = true := by
    decide +kernel
  obtain ⟨s0, hStart, h⟩ := (Option.any_eq_true _ _).mp h
  obtain ⟨hOps, h⟩ := of_decide_eq_true h
  obtain ⟨s, hRun, h⟩ := (Option.any_eq_true _ _).mp h
  obtain ⟨hFree, hRoom, ⟨hCounts, hF, hS, hT⟩, hRest⟩ := of_decide_eq_true h
  obtain ⟨hPointer, hSnapshots, hMem, hSeq, hNext, hOptions⟩ := hRest
  refine ⟨s0, hStart, hOps, s, hRun, hFree, hRoom, ?_⟩
  obtain ⟨F, S, T, hv⟩ := exists_threeLevels hCounts
  rw [hv] at hF hS hT
  obtain ⟨hSKey, hSizes⟩ := hS S (List.mem_singleton_self S)
  obtain ⟨hTKey, hLe⟩ := hT T (List.mem_singleton_self T)
  exact ⟨F, S, T, hv, hF F (List.mem_singleton_self F), ⟨hSKey, hTKey⟩,
    ⟨hSizes.1, hSizes.2, hLe S (List.mem_singleton_self S)⟩, hPointer, hSnapshots,
    hMem, hSeq, hNext, hOptions⟩

theorem along_append [Crc32c] {C : Op → Running → Prop} {ops ops' : List Op} {s : Running} :
    Along C (ops ++ ops') s ↔
      Along C ops s ∧ ∀ s', opsRun ops s = some s' → Along C ops' s' := by
  induction ops generalizing s with
  | nil => simp [Along, opsRun]
  | cons op ops ih =>
    simp only [List.cons_append, Along, ih, opsRun, List.foldlM_cons, Option.bind_eq_bind,
      Option.bind_eq_some_iff]
    constructor
    · rintro ⟨hOp, hRest⟩
      exact ⟨⟨hOp, fun s' hs' => (hRest s' hs').1⟩, fun s' ⟨s₁, hs₁, hs'⟩ =>
        (hRest s₁ hs₁).2 s' hs'⟩
    · rintro ⟨⟨hOp, hOps⟩, hOps'⟩
      exact ⟨hOp, fun s' hs' => ⟨hOps s' hs', fun s'' hs'' => hOps' s'' ⟨s', hs', hs''⟩⟩⟩

/-- A file is cut off between two versions of a key, and the next compaction takes the newer one
below the older one. -/
theorem newer_version_sinks :
    let ops : List Op := [.put [1] [], .compact, .compact, .put [1] [], .compact, .put [2] [1],
      .snapshot] ++ [.put [2] (List.replicate 2097152 0), .compact, .compact]
    ∃ s0, opened eager ∅ = some s0 ∧ Along (fun op s => op.Sound s) ops s0 ∧
      ∃ s, opsRun ops s0 = some s ∧
        ∃ f ∈ s.db.versionSet.current.filesAt 1, ∃ g ∈ s.db.versionSet.current.filesAt 2,
          ∃ x ∈ s.dir.entries f.number, ∃ y ∈ s.dir.entries g.number,
            x.1.userKey = y.1.userKey ∧ x.1.seq < y.1.seq := by
  obtain ⟨s0, hStart, hOps, s, hRun, hFree, hRoom, F, S, T, hPoised⟩ := exists_poised
  obtain ⟨hOk, -, -⟩ := opened_new hStart
  obtain ⟨s', hRun', ⟨flushed, log, hOk'⟩, -⟩ := hOps.run (P := fun _ _ => True) (fun _ _ h => h)
    (fun _ _ _ _ _ _ _ _ _ _ => trivial) hOk trivial
  obtain rfl : s' = s := Option.some.inj (hRun'.symm.trans hRun)
  have hBig : targetFileSize = (List.replicate 2097152 (0 : UInt8)).length := by
    rw [List.length_replicate]
    rfl
  have hSound : (Op.put [2] (List.replicate 2097152 0)).Sound s' := by
    refine ⟨⟨⟨List.cons_ne_nil _ _, by decide, ?_⟩, hFree⟩, hRoom⟩
    rw [← hBig]
    decide
  obtain ⟨s₁, flushed₁, log₁, G, hRun₁, hOk₁, hLoaded⟩ := hPoised.put hOk' hSound
  obtain ⟨hSound₂, s₂, A, B, hRun₂, hOk₂, hCut⟩ := hLoaded.compact hOk₁ hBig.le hPoised.keys
    ⟨hPoised.sizes.2.1, hPoised.sizes.2.2.trans hPoised.sizes.2.1⟩
  have hMakes : s₂.Makes fun blockTarget bitsPerKey => blockTarget = 64 ∧ bitsPerKey = 1 := by
    have hStarted := opened_makes
      (P := fun blockTarget bitsPerKey => blockTarget = 64 ∧ bitsPerKey = 1)
      ⟨rfl, rfl⟩ faithful_empty hStart
    have hPrepared := opsRun_makes hStarted (by simp) hRun
    have hWritten := Op.run_makes hPrepared (by rintro _ ⟨⟩) hRun₁
    exact Op.run_makes hWritten (by rintro _ ⟨⟩) hRun₂
  obtain ⟨hSound₃, s₃, C, hRun₃, hB, hC, hBEntries, hCEntries⟩ := hCut.compact hOk₂
    hPoised.keys hPoised.sizes hMakes (by rw [← hBig]; decide)
  have hRest : opsRun [.put [2] (List.replicate 2097152 0), .compact, .compact] s' = some s₃ := by
    simp only [opsRun, List.foldlM_cons, hRun₁, hRun₂, hRun₃, Option.bind_eq_bind, Option.bind_some]
    rfl
  refine ⟨s0, hStart, along_append.mpr ⟨hOps, fun s'' hs'' => ?_⟩, s₃, ?_, B, hB, C, hC,
    (⟨[2], 3, .put⟩, [1]), ?_, (⟨[2], 4, .put⟩, List.replicate 2097152 0), ?_, rfl,
    Nat.lt_succ_self 3⟩
  · obtain rfl : s' = s'' := Option.some.inj (hRun.symm.trans hs'')
    refine ⟨hSound, fun s'' hs'' => ?_⟩
    obtain rfl : s₁ = s'' := Option.some.inj (hRun₁.symm.trans hs'')
    refine ⟨hSound₂, fun s'' hs'' => ?_⟩
    obtain rfl : s₂ = s'' := Option.some.inj (hRun₂.symm.trans hs'')
    exact ⟨hSound₃, fun _ _ => trivial⟩
  · rw [opsRun, List.foldlM_append]
    exact Option.bind_eq_some_iff.mpr ⟨s', hRun, hRest⟩
  · rw [hBEntries]
    exact List.mem_singleton_self _
  · rw [hCEntries]
    exact List.mem_singleton_self _

end MulanLsm
