import MulanLsm.Lifetimes

/-! What does not pile up.  Whatever crashes left in the directory, an opening leaves in it what the
database uses, and nothing else.  Between calls the memory table is within its limits, and level 0
has at most as many files as writes wait for, also after openings that add one. -/

namespace MulanLsm

section Litter

variable [Crc32c] {d d' : Dir} {db : Db} {number offset seq : Nat} {state : VersionState}
  {log : List WalEntry} {m : MemTable} {options options₀ : Options} {s s0 : Running}
  {turns : List Turn}

omit [Crc32c] in
theorem Dir.mem_frame {names : Set FileName} {name : FileName} (hFrame : d.Frame names d')
    (hName : name ∉ names) : name ∈ d' ↔ name ∈ d := by
  rw [← AList.lookup_isSome, hFrame _ hName, AList.lookup_isSome]

/-- An opening leaves the files that are in use, and no others. -/
theorem Opened.files (h : Opened d state m (openedSet state number offset seq)
      (fun _ _ d' => .manifest number ∈ d') options d' db) (hCurrent : .current ∈ d)
    (hTables : ∀ level, ∀ f ∈ db.versionSet.current.filesAt level, .sst f.number ∈ d')
    (name : FileName) : name ∈ d' ↔ isObsolete db.versionSet name = false := by
  obtain ⟨edit, d₁, d₂, hReadied, -, hCommitted, hManifest, hFrame, hSwept, hGone, hWal, -⟩ := h
  have hNumber : db.versionSet.manifestNumber = number := by
    obtain ⟨v, pointers, writer, -, -, hvs⟩ := hCommitted
    rw [hvs]
    rfl
  have hCurrent₁ : .current ∈ d₁ := by
    refine (Dir.mem_frame hReadied.1 ?_).mpr hCurrent
    rintro ⟨n, -, hName | hName⟩ <;> cases hName
  have hCurrent₂ : .current ∈ d₂ := (Dir.mem_frame hFrame (by simp)).mpr hCurrent₁
  constructor
  · intro hMem
    by_contra hObsolete
    exact hGone name (by simpa using hObsolete) hMem
  · intro hLive
    cases name with
    | current => exact (Dir.mem_frame hSwept.frame (by simp)).mpr hCurrent₂
    | manifest n =>
      obtain rfl : n = number := by simpa [isObsolete, hNumber] using hLive
      exact (Dir.mem_frame hSwept.frame (by simp [hNumber])).mpr hManifest
    | log n =>
      obtain rfl : n = db.versionSet.logNumber := by simpa [isObsolete] using hLive
      obtain ⟨synced, hHas⟩ := hWal.has
      exact hHas.mem
    | sst n =>
      obtain ⟨level, -, f, hf, rfl⟩ :
          ∃ level < numLevels, ∃ f ∈ db.versionSet.current.filesAt level,
          f.number = n := by
        simpa [isObsolete] using hLive
      exact hTables level f hf
    | currentTmp => simp [isObsolete] at hLive

/-- However often the machine stopped, the next opening returns and leaves the files that the
database uses, and no others.  The conditions on the turns before are those of `Machine.Step`: the
manifest was not torn at any earlier opening. -/
theorem openings_leave_used_files (hStart : opened options₀ ∅ = some s0)
    (hRun : Histories.Runs Machine.Step (.up s0) turns (.down d)) (options : Options) :
    ∃ s, opened options d = some s ∧
      ∀ name, name ∈ s.dir ↔ isObsolete s.db.versionSet name = false := by
  obtain ⟨t, -, hTracks⟩ := (Machine.Tracks.new hStart).run hRun
  cases hTracks with
  | down h =>
    obtain ⟨s, offset, hOpen, hOpened⟩ := h.openable.opened_cut options
    obtain ⟨⟨f, hf, -⟩, -⟩ := h.openable.manifest
    have hScannable := (hOpened.reopened h.openable.numbered).1.scannable h.shape
      h.openable.numbered
    refine ⟨s, hOpen, hOpened.files (Dir.mem_of_lookup hf) fun level f hf => ?_⟩
    obtain ⟨g, hg, -⟩ := (hScannable.tables level f hf).describes.table
    exact Dir.mem_of_lookup hg

end Litter

/-- Two flushes leave two logs behind that nothing reads, and the opening after a crash removes
them. -/
theorem openings_leave_used_files_logs :
    ∃ s0 turns d, opened eager ∅ = some s0 ∧ Histories.Runs Machine.Step (.up s0) turns (.down d) ∧
      .log 2 ∈ d ∧ ∃ s, opened eager d = some s ∧
        ∀ name, name ∈ s.dir ↔ isObsolete s.db.versionSet name = false := by
  have h : (opened eager ∅).any (fun s0 => (Op.put [97] [1]).Fair s0 ∧
      ((Op.put [97] [1]).run s0).any fun s1 => (Op.put [97] [2]).Fair s1 ∧
        ((Op.put [97] [2]).run s1).any fun s2 => s2.Ample ∧
          s2.worst.any fun d => .log 2 ∈ d) = true := by
    decide +kernel
  obtain ⟨s0, hStart, h⟩ := (Option.any_eq_true _ _).mp h
  obtain ⟨hFair, h⟩ := of_decide_eq_true h
  obtain ⟨s1, hPut, h⟩ := (Option.any_eq_true _ _).mp h
  obtain ⟨hFair1, h⟩ := of_decide_eq_true h
  obtain ⟨s2, hPut1, h⟩ := (Option.any_eq_true _ _).mp h
  obtain ⟨hAmple, h⟩ := of_decide_eq_true h
  obtain ⟨d, hWorst, h⟩ := (Option.any_eq_true _ _).mp h
  have hRun : Histories.Runs Machine.Step (.up s0) [.call (.put [97] [1]), .call (.put [97] [2])]
      (.up s2) := .cons (.call hFair hPut) (.cons (.call hFair1 hPut1) (.nil _))
  obtain ⟨t, -, hTracks⟩ := (Machine.Tracks.new hStart).run hRun
  obtain ⟨hStop, -⟩ := hTracks.worst hAmple hWorst
  have hRuns : Histories.Runs Machine.Step (.up s0) [.call (.put [97] [1]), .call (.put [97] [2]),
      .stop none s2.db.options.syncWrites] (.down d) :=
    .cons (.call hFair hPut) (.cons (.call hFair1 hPut1) (.cons hStop (.nil _)))
  exact ⟨s0, _, d, hStart, hRuns, of_decide_eq_true h, openings_leave_used_files hStart hRuns eager⟩

section Limits

variable {v v' : Version} {d d' : Dir} {f : FileMetaData} {low log log₁ : List WalEntry}
  {flushed n n' : Nat}

/-- Level 0 has room for `n` entries, if there are any, as one more file. -/
structure Version.Roomy (v : Version) (n : Nat) : Prop where
  le : v.numFiles 0 ≤ level0StopWritesTrigger
  lt : n ≠ 0 → v.numFiles 0 < level0StopWritesTrigger

theorem Version.Roomy.mono (h : v.Roomy n) (hn : n' ≤ n) : v.Roomy n' :=
  ⟨h.le, fun hNe => h.lt (by omega)⟩

theorem AddsFile.roomy (h : AddsFile v f v') (hRoomy : v.Roomy n) (hn : n ≠ 0) : v'.Roomy 0 := by
  have hFiles : v'.numFiles 0 = v.numFiles 0 + 1 := by
    rw [Version.numFiles, h.1, List.length_append]
    rfl
  have := hRoomy.lt hn
  exact ⟨by omega, fun hNe => absurd rfl hNe⟩

theorem Describes.ne_nil {es : List Entry} (h : Describes d f es) : es ≠ [] := by
  rintro rfl
  have hNone := h.smallest
  contradiction

theorem Version.Roomy.replaces {c : Compaction} {fs : List FileMetaData} (h : v.Roomy n)
    (hReplaces : Replaces v c fs v') : v'.Roomy n := by
  have hFiles : v'.numFiles 0 ≤ v.numFiles 0 := by
    unfold Version.numFiles
    rw [hReplaces 0]
    split
    · exact List.length_filter_le _ _
    · rw [if_neg (Nat.succ_ne_zero _).symm]
  exact ⟨hFiles.trans h.le, fun hNe => hFiles.trans_lt (h.lt hNe)⟩

/-- What comes back has room in level 0, if what was there has. -/
theorem Back.roomy {state : VersionState} {W : Dir → Version → Prop}
    (h : Back v flushed low log W d d' state log₁) (hRoomy : v.Roomy log.length)
    (hW : ∀ d₁ v', W d₁ v' → v'.Roomy log.length) : state.current.Roomy log₁.length := by
  cases h with
  | rest _ hState _ _ hHigh => exact hState ▸ hRoomy.mono hHigh.length_le
  | flushed _ hAdds hDesc _ =>
    refine hAdds.roomy hRoomy fun hNil => hDesc.ne_nil ?_
    rw [List.length_eq_zero_iff.mp hNil]
    rfl
  | compacted hRewrites _ _ _ hHigh => exact (hW _ _ hRewrites).mono hHigh.length_le

variable [Crc32c] {s s' : Running} {op : Op} {db : Db} {state : VersionState} {m : MemTable}
  {options : Options} {number : Nat} {base done : List Op}

omit [Crc32c] in
theorem Reopened.roomy (h : Reopened d state m d' db) (hCount : m.entries = m.skiplist.length)
    (hRoomy : state.current.Roomy m.entries) : db.versionSet.current.Roomy 0 := by
  have hFiles := h.files
  split at hFiles
  · exact hFiles ▸ hRoomy.mono (Nat.zero_le _)
  · next hNe =>
    obtain ⟨f, -, hAdds, -⟩ := hFiles
    exact hAdds.roomy hRoomy (by rwa [hCount, ne_eq, List.length_eq_zero_iff])

theorem Flushes.roomy (h : Flushes s s') (hOk : s.Ok flushed log)
    (hRoomy : s.db.versionSet.current.Roomy s.db.memtable.entries) :
    s'.db.versionSet.current.Roomy s'.db.memtable.entries := by
  obtain ⟨f, -, hAdds, hEntries⟩ := h.flushed.files
  have hNe := (h.flushed.inv.tables 0 f hAdds.mem_self).describes.ne_nil
  rw [hEntries] at hNe
  rw [h.flushed.mem]
  exact hAdds.roomy hRoomy (by rwa [hOk.inv.mem.count, ne_eq, List.length_eq_zero_iff])

/-- Between calls the memory table is within its limits, and level 0 has room for it. -/
structure Running.Limited (s : Running) : Prop where
  auto : s.db.options.disableAutoCompaction = false
  level0 : s.db.versionSet.current.Roomy s.db.memtable.entries
  memtable : s.db.memtable.entries = 0 ∨ s.db.full = false

omit [Crc32c] in
/-- A write that need not wait finds level 0 below the limit. -/
theorem Op.Ready.below (h : op.Ready s) {e : WalEntry} (hEntry : op.entry s.db = some e)
    (hAuto : s.db.options.disableAutoCompaction = false) :
    s.db.versionSet.current.numFiles 0 < level0StopWritesTrigger := by
  have hFree : s.db.stalled = false := by
    cases op with
    | put key value => exact Bool.eq_false_iff.mpr h.2
    | delete key => exact Bool.eq_false_iff.mpr h.2
    | _ => contradiction
  simpa [Db.stalled, hAuto, level0NeedsSlowdown] using hFree

theorem Did.roomy (h : Did s s' flushed log op) (hOk : s.Ok flushed log) (hReady : op.Ready s)
    (hAuto : s.db.options.disableAutoCompaction = false)
    (hRoomy : s.db.versionSet.current.Roomy s.db.memtable.entries) :
    s'.db.versionSet.current.Roomy s'.db.memtable.entries := by
  have hKept : Keeps s s' → s'.db.versionSet.current.Roomy s'.db.memtable.entries := by
    intro hKeeps
    rwa [hKeeps.db]
  cases h with
  | @write _ e s₁ hEntry hWrites hOk₁ hRest =>
    have hLt := hReady.below hEntry hAuto
    have hRoomy₁ : s₁.db.versionSet.current.Roomy s₁.db.memtable.entries := by
      rw [hWrites.applied.version]
      exact ⟨hLt.le, fun _ => hLt⟩
    split at hRest
    · exact hRest.roomy hOk₁ hRoomy₁
    · exact hRest ▸ hRoomy₁
  | flush hFlushes => exact hFlushes.roomy hOk hRoomy
  | compact hCompacts =>
    obtain ⟨fs, -, -, hReplaces⟩ := hCompacts.compacted.files
    rw [hCompacts.compacted.mem]
    exact hRoomy.replaces hReplaces
  | keep _ hKeeps => exact hKept hKeeps
  | snapshot hKeeps => exact hKept hKeeps
  | release _ hKeeps => exact hKept hKeeps
  | reopen hReopens =>
    rw [hReopens.reopened.mem]
    exact hReopens.reopened.roomy hOk.inv.mem.count hRoomy

omit [Crc32c] in
theorem full_congr {db db' : Db} (hMem : db'.memtable = db.memtable)
    (hOptions : db'.options = db.options) : db'.full = db.full := by
  unfold Db.full
  rw [hMem, hOptions]

omit [Crc32c] in
theorem Keeps.full (h : Keeps s s') : s'.db.full = s.db.full :=
  full_congr (by rw [h.db]) (by rw [h.db])

theorem Did.memtable (h : Did s s' flushed log op)
    (hLimit : s.db.memtable.entries = 0 ∨ s.db.full = false) :
    s'.db.memtable.entries = 0 ∨ s'.db.full = false := by
  have hKept : Keeps s s' → s'.db.memtable.entries = 0 ∨ s'.db.full = false := by
    intro hKeeps
    rw [hKeeps.full, hKeeps.db]
    exact hLimit
  cases h with
  | @write _ e s₁ hEntry hWrites hOk₁ hRest =>
    split at hRest
    · rw [hRest.flushed.mem]
      exact .inl rfl
    · next hFull => exact .inr (hRest ▸ Bool.eq_false_iff.mpr hFull)
  | flush hFlushes =>
    rw [hFlushes.flushed.mem]
    exact .inl rfl
  | compact hCompacts =>
    rw [full_congr hCompacts.compacted.mem hCompacts.compacted.options, hCompacts.compacted.mem]
    exact hLimit
  | keep _ hKeeps => exact hKept hKeeps
  | snapshot hKeeps => exact hKept hKeeps
  | release _ hKeeps => exact hKept hKeeps
  | reopen hReopens =>
    rw [hReopens.reopened.mem]
    exact .inl rfl

/-- What a stop leaves has room in level 0 for its log. -/
theorem Left.roomy {next : Option Op} (h : Left next s flushed log d' state log₁)
    (hOk : s.Ok flushed log)
    (hReady : ∀ op ∈ next, op.Ready s) (hAuto : s.db.options.disableAutoCompaction = false)
    (hRoomy : s.db.versionSet.current.Roomy s.db.memtable.entries) :
    state.current.Roomy log₁.length := by
  have hLog : s.db.versionSet.current.Roomy log.length := by
    rwa [hOk.mem, replayed_entries] at hRoomy
  rcases h with hBack | ⟨op, hOp, hBack⟩
  · exact hBack.roomy hLog fun _ _ h => h.elim
  · have hEntry : s.db.versionSet.current.Roomy (log ++ (op.entry s.db).toList).length := by
      cases hEntry : op.entry s.db with
      | none => rwa [Option.toList_none, List.append_nil]
      | some e => exact ⟨hLog.le, fun _ => (hReady op hOp).below hEntry hAuto⟩
    refine hBack.roomy hEntry fun d₁ v' hRewrites => ?_
    obtain ⟨rfl, c, hRewrites⟩ := hRewrites
    obtain ⟨fs, -, hReplaces⟩ := hRewrites.rewrote.files
    exact hEntry.replaces hReplaces

/-- A directory opens in one way. -/
theorem Openable.unique {number' : Nat} {state' : VersionState} {log' : List WalEntry}
    (h : Openable d number state log) (h' : Openable d number' state' log') :
    state = state' ∧ log.length = log'.length := by
  obtain rfl := h.manifest.unique h'.manifest
  refine ⟨rfl, ?_⟩
  by_cases hMem : .log state.logNumber ∈ d
  · obtain ⟨B, synced, hHas, hRead⟩ := h.present hMem
    obtain ⟨B', synced', hHas', hRead'⟩ := h'.present hMem
    obtain ⟨rfl, -⟩ := hHas.unique hHas'
    have hLength := congrArg List.length (hRead.symm.trans hRead')
    rwa [List.length_map, List.length_map] at hLength
  · rw [h.absent hMem, h'.absent hMem]

/-- An opening gives the database that it finds, with its own options. -/
theorem Openable.started (h : Openable d number state log) (hOpen : opened options d = some s) :
    Reopened d state (replayed state.lastSequence log) s.dir s.db ∧ s.db.options = options := by
  obtain ⟨r, offset, hRun, hOpened⟩ := h.opened_cut options
  obtain rfl := Option.some.inj (hRun.symm.trans hOpen)
  exact hOpened.reopened h.numbered

theorem Openable.limited (h : Openable d number state log)
    (hMem : MemOk (replayed state.lastSequence log) flushed)
    (hRoomy : state.current.Roomy log.length) (hOpen : opened options d = some s)
    (hAuto : options.disableAutoCompaction = false) : s.Limited := by
  obtain ⟨hRe, hOptions⟩ := h.started hOpen
  refine ⟨hOptions ▸ hAuto, ?_, .inl ?_⟩ <;> rw [hRe.mem]
  · exact hRe.roomy hMem.count (by rwa [replayed_entries])
  · rfl

/-- The calls and openings leave the background compactions on. -/
def Turn.Auto : Turn → Prop
  | .call (.reopen options) | .start options => options.disableAutoCompaction = false
  | _ => True

theorem Did.auto (h : Did s s' flushed log op) (hAuto : s.db.options.disableAutoCompaction = false)
    (hOp : ∀ options, op ≠ .reopen options) : s'.db.options.disableAutoCompaction = false := by
  have hKept : Keeps s s' → s'.db.options.disableAutoCompaction = false := by
    intro hKeeps
    rwa [hKeeps.db]
  cases h with
  | @write _ e s₁ hEntry hWrites hOk₁ hRest =>
    split at hRest
    · rwa [hRest.flushed.options, hWrites.applied.options]
    · rwa [hRest, hWrites.applied.options]
  | flush hFlushes => rwa [hFlushes.flushed.options]
  | compact hCompacts => rwa [hCompacts.compacted.options]
  | keep _ hKeeps => exact hKept hKeeps
  | snapshot hKeeps => exact hKept hKeeps
  | release _ hKeeps => exact hKept hKeeps
  | reopen => exact absurd rfl (hOp _)

theorem Traced.limited (h : Traced base done s flushed log) (hFair : op.Fair s)
    (hRun : op.run s = some s') (hAuto : (Turn.call op).Auto) (hLimited : s.Limited) :
    s'.Limited := by
  obtain ⟨s₁, hRun', -, hDid⟩ := Op.Sound.run ⟨hFair.1, hFair.2.1.room⟩ h.ok
  obtain rfl := Option.some.inj (hRun.symm.trans hRun')
  have hRoomy := hDid.roomy h.ok hFair.1 hLimited.auto hLimited.level0
  have hMemtable := hDid.memtable hLimited.memtable
  by_cases hReopen : ∃ options, op = .reopen options
  · obtain ⟨options, rfl⟩ := hReopen
    have hBind : (closed s).bind (opened options) = some s' := hRun
    obtain ⟨d₁, hClose, hOpen⟩ := Option.bind_eq_some_iff.mp hBind
    obtain ⟨hInv, -⟩ := closed_same h.ok h.durable hClose
    have hRoom := hFair.2.1.room
    have hNext : s.db.versionSet.nextFileNumber + 2 < 2 ^ 64 := by
      have := hInv.next
      have := hRoom.next
      omega
    obtain ⟨-, hOptions⟩ := (hInv.openable hRoom.seq_lt hNext).started hOpen
    exact ⟨hOptions ▸ hAuto, hRoomy, hMemtable⟩
  · exact ⟨hDid.auto hLimited.auto (not_exists.mp hReopen), hRoomy, hMemtable⟩

/-- The limits hold, or they will once the database is open. -/
def Machine.Limited : Machine → Prop
  | up s => s.Limited
  | down d => ∀ number state log, Openable d number state log → state.current.Roomy log.length

theorem Machine.Step.limited {m m' : Machine} {turn : Turn} {t : Histories.State Op}
    (h : Step m turn m') (hTracks : Tracks m t) (hAuto : turn.Auto) (hLimited : m.Limited) :
    m'.Limited := by
  have hDown : ∀ {d number state log}, Asleep d number state log → state.current.Roomy log.length →
      (Machine.down d).Limited := by
    intro d number state log hAsleep hRoomy number' state' log' hOpen
    obtain ⟨rfl, hLength⟩ := hAsleep.openable.unique hOpen
    exact hLength ▸ hRoomy
  cases h with
  | call hFair hRun =>
    cases hTracks with
    | up hTraced _ => exact hTraced.limited hFair hRun hAuto hLimited
  | stop hAmple hReady hStopped hReboots =>
    cases hTracks with
    | up hTraced _ =>
      obtain ⟨_, _, _, hAsleep, hLeft⟩ := hTraced.stops hAmple hReady hStopped hReboots
      exact hDown hAsleep (hLeft.roomy hTraced.ok hReady hLimited.auto hLimited.level0)
  | start hUntorn hOpen =>
    cases hTracks with
    | down hAsleep _ =>
      exact hAsleep.openable.limited hAsleep.shape.mem (hLimited _ _ _ hAsleep.openable) hOpen hAuto
  | stopStarting hUntorn hRoomy hStops hReboots =>
    cases hTracks with
    | down hAsleep _ =>
      obtain ⟨_, _, _, hAsleep', hBack⟩ := hAsleep.stops hUntorn hRoomy hStops hReboots
      exact hDown hAsleep' (hBack.roomy (hLimited _ _ _ hAsleep.openable) fun _ _ h => h.elim)

/-- In every run that leaves the background compactions on, through any number of crashes, level 0
never has more files than writes wait for, and between calls the memory table is empty or below its
limits.  The conditions on the turns are those of `Machine.Step`: no manifest is torn when it is
opened again. -/
theorem limits_hold {s0 : Running} {turns : List Turn} (hStart : opened options ∅ = some s0)
    (hRun : Histories.Runs Machine.Step (.up s0) turns (.up s))
    (hAuto : options.disableAutoCompaction = false) (hTurns : ∀ turn ∈ turns, turn.Auto) :
    s.db.versionSet.current.numFiles 0 ≤ level0StopWritesTrigger ∧
      (s.db.memtable.entries = 0 ∨
        s.db.memtable.entries < s.db.options.memtableFlushEntries ∧
          (0 < s.db.options.memtableMaxBytes →
            s.db.memtable.approxBytes < s.db.options.memtableMaxBytes)) := by
  have hNew : s0.Limited := by
    obtain ⟨-, hCreated, -⟩ := opened_new hStart
    have hFiles : s0.db.versionSet.current.numFiles 0 = 0 := by
      rw [Version.numFiles, hCreated.filesAt, List.length_nil]
    have hLt : s0.db.versionSet.current.numFiles 0 < level0StopWritesTrigger := by
      rw [hFiles]
      decide
    exact ⟨hCreated.options ▸ hAuto, ⟨hLt.le, fun _ => hLt⟩, .inl (by rw [hCreated.mem]; rfl)⟩
  obtain ⟨-, hLimited⟩ := hRun.kept (J := fun m => (∃ t, Machine.Tracks m t) ∧ m.Limited)
    (fun turn hTurn _ _ hStep hKept => by
      obtain ⟨⟨t, hTracks⟩, hLimited⟩ := hKept
      obtain ⟨t', -, hTracks'⟩ := hStep.tracks hTracks
      exact ⟨⟨t', hTracks'⟩, hStep.limited hTracks (hTurns turn hTurn) hLimited⟩)
    ⟨⟨_, Machine.Tracks.new hStart⟩, hNew⟩
  refine ⟨hLimited.level0.le, hLimited.memtable.imp id fun hFull => ?_⟩
  simpa [Db.full] using hFull

end Limits

/-- A key is put, the machine stops, and another key is put. -/
theorem limits_hold_across :
    let options : Options := { memtableFlushEntries := 2 }
    let turns : List Turn := [.call (.put [97] [1]), .stop none true, .start options,
      .call (.put [98] [2])]
    ∃ s0 s, opened options ∅ = some s0 ∧ Histories.Runs Machine.Step (.up s0) turns (.up s) ∧
      s.db.versionSet.current.numFiles 0 ≤ level0StopWritesTrigger ∧
        (s.db.memtable.entries = 0 ∨
          s.db.memtable.entries < s.db.options.memtableFlushEntries ∧
            (0 < s.db.options.memtableMaxBytes →
              s.db.memtable.approxBytes < s.db.options.memtableMaxBytes)) := by
  intro options turns
  have h : (opened options ∅).any (fun s0 => (Op.put [97] [1]).Fair s0 ∧
      ((Op.put [97] [1]).run s0).any fun s1 => s1.Ample ∧ s1.db.options.syncWrites = true ∧
        s1.worst.any fun d => (opened options d).any fun s2 => (Op.put [98] [2]).Fair s2 ∧
          ((Op.put [98] [2]).run s2).isSome) = true := by
    decide +kernel
  obtain ⟨s0, hStart, h⟩ := (Option.any_eq_true _ _).mp h
  obtain ⟨hFair, h⟩ := of_decide_eq_true h
  obtain ⟨s1, hPut, h⟩ := (Option.any_eq_true _ _).mp h
  obtain ⟨hAmple, hSync, h⟩ := of_decide_eq_true h
  obtain ⟨d, hWorst, h⟩ := (Option.any_eq_true _ _).mp h
  obtain ⟨s2, hOpen, h⟩ := (Option.any_eq_true _ _).mp h
  obtain ⟨hFair2, h⟩ := of_decide_eq_true h
  obtain ⟨s3, hPut2⟩ := Option.isSome_iff_exists.mp h
  have hCall : Machine.Step (.up s0) (.call (.put [97] [1])) (.up s1) := .call hFair hPut
  obtain ⟨t, -, hTracks⟩ := hCall.tracks (Machine.Tracks.new hStart)
  obtain ⟨hStop, hUntorn, -⟩ := hTracks.worst hAmple hWorst
  rw [hSync] at hStop
  have hRun : Histories.Runs Machine.Step (.up s0) turns (.up s3) :=
    .cons hCall (.cons hStop (.cons (.start hUntorn hOpen) (.cons (.call hFair2 hPut2) (.nil _))))
  have hTurns : ∀ turn ∈ turns, turn.Auto := by
    simp only [turns, List.forall_mem_cons, List.not_mem_nil, false_imp_iff, implies_true, and_true]
    exact ⟨trivial, trivial, rfl, trivial⟩
  exact ⟨s0, s3, hStart, hRun, limits_hold hStart hRun rfl hTurns⟩

end MulanLsm
