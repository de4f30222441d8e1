import MulanLsm.Flush

/-! Opening a database.  The manifest is replayed and then the log; what the log holds is flushed to
a new table file, and a commit moves on to a new log.  Then the files that are not live are removed.
A crash on the way leaves the directory as it was, but for new files; or with the commit cut; or,
after the commit, with some of the dead files still there. -/

namespace MulanLsm

section Calls

variable {σ : Type} {A : Outcome → Prop} {x : σ} {d : Dir} {name : FileName}

/-- A call may succeed or be the one the machine stops in, but it does not return an error. -/
def Halts (A : Outcome → Prop) : Prop := ∀ n, ¬A (.fail n)

theorem halts_quiet : Halts Quiet := fun _ h => by cases h

theorem Spec.pathExists {Q : Bool → σ → Dir → Prop} {E : Fault → σ → Dir → Prop} (hA : Halts A)
    (hok : Q (decide (name ∈ d)) x d) (hfail : ∀ f, Fails A f → E f x d) :
    Spec A (pathExists name) Q E x d := by
  intro os hos
  cases os with
  | nil => exact ⟨hok, hos⟩
  | cons o os =>
    have ho : A o := hos o List.mem_cons_self
    have hos' : ∀ o ∈ os, A o := fun o h => hos o (List.mem_cons_of_mem _ h)
    cases o with
    | ok => exact ⟨hok, hos'⟩
    | fail n => exact absurd ho (hA n)
    | crash n => exact ⟨hfail .crash ⟨n, ho⟩, hos'⟩

theorem Spec.tryRemoveFile {Q : Unit → σ → Dir → Prop} {E : Fault → σ → Dir → Prop} (hA : Halts A)
    (hok : Q () x (d.erase name)) (hfail : ∀ f, Fails A f → E f x d) :
    Spec A (tryRemoveFile name) Q E x d := by
  intro os hos
  cases os with
  | nil => exact ⟨hok, hos⟩
  | cons o os =>
    have ho : A o := hos o List.mem_cons_self
    have hos' : ∀ o ∈ os, A o := fun o h => hos o (List.mem_cons_of_mem _ h)
    cases o with
    | ok => exact ⟨hok, hos'⟩
    | fail n => exact absurd ho (hA n)
    | crash n => exact ⟨hfail .crash ⟨n, ho⟩, hos'⟩

/-- `d'` is `d` without some of the files in `names`. -/
def Dir.Trimmed (names : Set FileName) (d d' : Dir) : Prop :=
  ∀ name, d'.lookup name = d.lookup name ∨ name ∈ names ∧ d'.lookup name = none

theorem removeFiles_spec (hA : Halts A) (names : List FileName) :
    Spec A (removeFiles names)
      (fun _ y d' => y = x ∧ d.Trimmed {name | name ∈ names} d' ∧ ∀ name ∈ names, name ∉ d')
      (fun f y d' => y = x ∧ Fails A f ∧ d.Trimmed {name | name ∈ names} d') x d := by
  induction names generalizing d with
  | nil => exact Spec.pure ⟨rfl, fun _ => .inl rfl, by simp⟩
  | cons name names ih =>
    have hTrim : ∀ {d'}, Dir.Trimmed {m | m ∈ names} (d.erase name) d' →
        d.Trimmed {m | m ∈ name :: names} d' := by
      intro d' h m
      by_cases hm : m = name
      · subst hm
        right
        refine ⟨List.mem_cons_self, ?_⟩
        rcases h m with h | h
        · rw [h, AList.lookup_erase]
        · exact h.2
      · rcases h m with h | h
        · exact .inl (h.trans (AList.lookup_erase_ne hm))
        · exact .inr ⟨List.mem_cons_of_mem _ h.1, h.2⟩
    refine Spec.bind (Spec.tryRemoveFile hA (ih.mono ?_ ?_)
      fun f h => ⟨rfl, h, fun _ => .inl rfl⟩)
    · rintro - y d' ⟨rfl, h, hGone⟩
      refine ⟨rfl, hTrim h, fun m hm => ?_⟩
      rcases List.mem_cons.mp hm with rfl | hm
      · rw [← AList.lookup_eq_none]
        rcases h m with h | h
        · rw [h, AList.lookup_erase]
        · exact h.2
      · exact hGone m hm
    · rintro f y d' ⟨rfl, h, hTrimmed⟩
      exact ⟨rfl, h, hTrim hTrimmed⟩

/-- Files that are not live are removed, and no others. -/
theorem removeObsoleteFiles_spec (hA : Halts A) (vs : VersionSet) :
    Spec A (removeObsoleteFiles vs)
      (fun _ y d' => y = x ∧ d.Trimmed {name | isObsolete vs name} d' ∧
        ∀ name, isObsolete vs name → name ∉ d')
      (fun f y d' => y = x ∧ Fails A f ∧ d.Trimmed {name | isObsolete vs name} d') x d := by
  refine Spec.bind (Spec.look (fun names hNames => ?_) (fun h => by simp at h)
    fun n f hB => ⟨rfl, ⟨n, hB⟩, fun _ => .inl rfl⟩)
  obtain rfl : d.keys = names := Option.some.inj hNames
  have hMono : ∀ {d'}, d.Trimmed {name | name ∈ d.keys.filter (isObsolete vs)} d' →
      d.Trimmed {name | isObsolete vs name} d' := fun h name =>
    (h name).imp id fun h => ⟨(List.mem_filter.mp h.1).2, h.2⟩
  refine (removeFiles_spec hA _).mono ?_ ?_
  · rintro - y d' ⟨rfl, h, hGone⟩
    refine ⟨rfl, hMono h, fun name hName => ?_⟩
    by_cases hMem : name ∈ d
    · exact hGone name (List.mem_filter.mpr ⟨hMem, hName⟩)
    · rw [← AList.lookup_eq_none] at hMem ⊢
      exact (h name).elim (fun h => h.trans hMem) fun h => h.2
  · rintro f y d' ⟨rfl, h, hTrimmed⟩
    exact ⟨rfl, h, hMono hTrimmed⟩

end Calls

section Replayed

/-- The memory table that a log's entries give, after the sequence number `seq`. -/
def replayed (seq : Nat) (log : List WalEntry) : MemTable :=
  log.foldl (fun m e => m.apply e.vtype e.seq e.key e.value) (.withInitialSequence seq)

variable {seq : Nat} {log : List WalEntry} {e : WalEntry}

theorem replayed_append (seq : Nat) (log : List WalEntry) (e : WalEntry) :
    replayed seq (log ++ [e]) = (replayed seq log).apply e.vtype e.seq e.key e.value := by
  rw [replayed, List.foldl_append]
  rfl

theorem replayed_perm (seq : Nat) (log : List WalEntry) :
    (replayed seq log).skiplist.Perm (log.map WalEntry.entry) := by
  induction log using List.reverseRecOn with
  | nil => exact List.Perm.nil
  | append_singleton log e ih =>
    rw [replayed_append, List.map_append]
    exact (SkipList.insert_perm _ _ _).trans ((ih.cons _).trans
      (List.perm_append_singleton _ _).symm)

theorem eq_nil_of_replayed (h : (replayed seq log).skiplist = []) : log = [] := by
  have hPerm := replayed_perm seq log
  rw [h] at hPerm
  exact List.map_eq_nil_iff.mp hPerm.nil_eq.symm

theorem replayed_sorted (seq : Nat) (log : List WalEntry) :
    Sorted (replayed seq log).skiplist := by
  induction log using List.reverseRecOn with
  | nil => exact List.Pairwise.nil
  | append_singleton log e ih =>
    rw [replayed_append]
    exact SkipList.insert_sorted ih

theorem replayed_entries (seq : Nat) (log : List WalEntry) :
    (replayed seq log).entries = log.length := by
  induction log using List.reverseRecOn with
  | nil => rfl
  | append_singleton log e ih =>
    rw [replayed_append, List.length_append]
    exact congrArg (· + 1) ih

theorem replayed_seq_append (seq : Nat) (log : List WalEntry) (e : WalEntry) :
    (replayed seq (log ++ [e])).seq = max (replayed seq log).seq e.seq := by
  rw [replayed_append]
  simp only [MemTable.apply]
  split <;> omega

theorem replayed_seq_ge (seq : Nat) (log : List WalEntry) :
    seq ≤ (replayed seq log).seq ∧ ∀ e ∈ log, e.seq ≤ (replayed seq log).seq := by
  induction log using List.reverseRecOn with
  | nil => exact ⟨le_rfl, by simp⟩
  | append_singleton log e ih =>
    rw [replayed_seq_append]
    refine ⟨ih.1.trans (le_max_left _ _), fun e' he' => ?_⟩
    rcases List.mem_append.mp he' with he' | he'
    · exact (ih.2 e' he').trans (le_max_left _ _)
    · rw [List.mem_singleton.mp he']
      exact le_max_right _ _

theorem replayed_seq_le {bound : Nat} (hSeq : seq ≤ bound) (h : ∀ e ∈ log, e.seq ≤ bound) :
    (replayed seq log).seq ≤ bound := by
  induction log using List.reverseRecOn with
  | nil => exact hSeq
  | append_singleton log e ih =>
    rw [replayed_seq_append]
    exact max_le (ih fun e' he' => h e' (List.mem_append_left _ he')) (h e (by simp))

/-- A log's records replay to its entries. -/
theorem replayRecords_encode (h : ∀ e ∈ log, EntryFits e.entry ∧ e.seq < 2 ^ 64) (m : MemTable) :
    replayRecords (log.map WalEntry.encode) m =
      .ok (log.foldl (fun m e => m.apply e.vtype e.seq e.key e.value) m) := by
  induction log generalizing m with
  | nil => rfl
  | cons e log ih =>
    obtain ⟨⟨hKey, hValue⟩, hSeq⟩ := h e List.mem_cons_self
    have hDecode : decodeEntry e.encode = .ok e :=
      decodeEntry_encodeEntry hSeq (by simp only [WalEntry.entry] at hKey; omega) hValue
    rw [List.map_cons, replayRecords, List.foldlM_cons, hDecode]
    exact ih (fun e' he' => h e' (List.mem_cons_of_mem _ he')) _

end Replayed

section Opening

variable [Crc32c]

/-- A directory that opens with the state of its manifest and the entries of its log. -/
structure Openable (d : Dir) (number : Nat) (state : VersionState) (log : List WalEntry) :
    Prop where
  manifest : Says d number state
  present : .log state.logNumber ∈ d → ∃ B synced, d.Has (.log state.logNumber) B synced ∧
    readRecords B = log.map WalEntry.encode
  absent : .log state.logNumber ∉ d → log = []
  fits : ∀ e ∈ log, EntryFits e.entry ∧ e.seq < 2 ^ 64
  below : state.logNumber < state.nextFileNumber
  numbered : Numbered state.current state.nextFileNumber
  spare : SpareLogs d state.nextFileNumber
  room : state.nextFileNumber + 2 < 2 ^ 64
  seq : state.lastSequence < 2 ^ 64

/-- The edit that moves on to a new log. -/
def logEdit (newLog next : Nat) : VersionEdit :=
  { logNumber := some newLog, nextFileNumber := some next }

/-- What an opening commits once the log is replayed to `m`, in the directory `d` of that time. -/
inductive OpeningEdit (d : Dir) (state : VersionState) (m : MemTable) : VersionEdit → Prop
  | flush {f : FileMetaData} : m.skiplist ≠ [] → f.number = state.nextFileNumber →
      Describes d f m.skiplist →
      OpeningEdit d state m
        (flushEdit f (state.nextFileNumber + 1) (state.nextFileNumber + 2) m.seq)
  | empty : m.skiplist = [] →
      OpeningEdit d state m (logEdit state.nextFileNumber (state.nextFileNumber + 1))

/-- The directory in front of the commit of an opening: some new files, and no new log that is not
empty. -/
def Readied (d : Dir) (next : Nat) (d' : Dir) : Prop :=
  d.Frame (filesFrom next) d' ∧ SpareLogs d' next

/-- `d'` is `d` with the new log, empty, and some files removed that are not live. -/
def Swept (vs : VersionSet) (d d' : Dir) : Prop :=
  ∀ name, d'.lookup name = d.lookup name ∨
    name = .log vs.logNumber ∧ (∃ synced, d'.Has name [] synced) ∨
    isObsolete vs name ∧ d'.lookup name = none

variable {A : Outcome → Prop} {σ : Type} {x : σ} {d : Dir} {number : Nat} {state : VersionState}
  {log : List WalEntry} {options : Options}

/-- A commit in an opening returns with `Good`, or fails with `Bad`. -/
def Commits (A : Outcome → Prop) (d : Dir) (state : VersionState) (m : MemTable) (vs : VersionSet)
    (Good : VersionEdit → VersionSet → Dir → Prop)
    (Bad : VersionEdit → Dir → Fault → Dir → Prop) : Prop :=
  ∀ edit d₁, Readied d state.nextFileNumber d₁ → OpeningEdit d₁ state m edit →
    Spec A (VersionSet.writeNewVersion edit)
      (fun _ vs' d' => Committed vs edit vs' ∧ Good edit vs' d' ∧
        d₁.Frame {.manifest vs.manifestNumber} d')
      (fun f _ d' => Bad edit d₁ f d') vs d₁

/-- An opening right after its commit, with the version set, the generator and the new log. -/
def MovedOn (d : Dir) (state : VersionState) (m : MemTable) (vs : VersionSet)
    (Good : VersionEdit → VersionSet → Dir → Prop) (r : VersionSet × IdGenerator × Nat) (d' : Dir) :
    Prop :=
  ∃ edit d₁, Readied d state.nextFileNumber d₁ ∧ OpeningEdit d₁ state m edit ∧
    Committed vs edit r.1 ∧ Good edit r.1 d' ∧ d₁.Frame {.manifest vs.manifestNumber} d' ∧
    r.2.1.next = r.1.nextFileNumber ∧ r.2.2 = r.1.logNumber

/-- An opening that was cut in its commit. -/
def CommitCut (d : Dir) (state : VersionState) (m : MemTable)
    (Bad : VersionEdit → Dir → Fault → Dir → Prop) (f : Fault) (d' : Dir) : Prop :=
  ∃ edit d₁, Readied d state.nextFileNumber d₁ ∧ OpeningEdit d₁ state m edit ∧ Bad edit d₁ f d'

/-- An opening that has returned. -/
def Opened (d : Dir) (state : VersionState) (m : MemTable) (vs : VersionSet)
    (Good : VersionEdit → VersionSet → Dir → Prop) (options : Options) (d' : Dir) (db : Db) :
    Prop :=
  ∃ edit d₁ d₂, Readied d state.nextFileNumber d₁ ∧ OpeningEdit d₁ state m edit ∧
    Committed vs edit db.versionSet ∧ Good edit db.versionSet d₂ ∧
    d₁.Frame {.manifest vs.manifestNumber} d₂ ∧ Swept db.versionSet d₂ d' ∧
    (∀ name, isObsolete db.versionSet name → name ∉ d') ∧
    LogAt db.wal d' (.log db.versionSet.logNumber) [] [] ∧
    db = { versionSet := db.versionSet
           memtable := .withInitialSequence m.seq
           wal := db.wal
           idGen := { next := db.versionSet.nextFileNumber }
           walNumber := db.versionSet.logNumber
           options
           tableCache := .withCapacity options.tableCacheSize }

/-- An opening that was cut: in front of the commit, in the commit, or after it. -/
def OpeningCut (A : Outcome → Prop) (d : Dir) (state : VersionState) (m : MemTable)
    (vs : VersionSet) (Good : VersionEdit → VersionSet → Dir → Prop)
    (Bad : VersionEdit → Dir → Fault → Dir → Prop) (f : Fault) (d' : Dir) : Prop :=
  Fails A f ∧ Readied d state.nextFileNumber d' ∨ CommitCut d state m Bad f d' ∨
    Fails A f ∧ ∃ edit d₁ vs' d₂, Readied d state.nextFileNumber d₁ ∧
      OpeningEdit d₁ state m edit ∧ Committed vs edit vs' ∧ Good edit vs' d₂ ∧
      d₁.Frame {.manifest vs.manifestNumber} d₂ ∧ Swept vs' d₂ d'

/-- The version set of an opening once the log is replayed. -/
def openedSet (state : VersionState) (number : Nat) (offset seq : Nat) : VersionSet :=
  { toVersionState := { state with lastSequence := seq }
    manifestNumber := number
    manifestWriter := { wal := { name := .manifest number, blockOffset := offset } }
    snapshots := [] }

theorem Openable.replayLog_spec (h : Openable d number state log) (hA : Halts A) (offset : Nat) :
    Spec A (Db.replayLog (openedSet state number offset state.lastSequence))
      (fun r y d' => y = x ∧ d' = d ∧ r = (replayed state.lastSequence log,
        openedSet state number offset (replayed state.lastSequence log).seq))
      (fun f y d' => y = x ∧ d' = d ∧ Fails A f) x d := by
  refine Spec.bind (Spec.pathExists hA ?_ fun f hF => ⟨rfl, rfl, hF⟩)
  split
  · next hIn =>
    obtain ⟨B, synced, hHas, hRead⟩ := h.present (of_decide_eq_true hIn)
    have hReplay := replayRecords_encode h.fits (.withInitialSequence state.lastSequence)
    refine Spec.bind (Spec.readFile hHas ?_ fun n f hB => ⟨rfl, rfl, n, hB⟩)
    rw [hRead]
    refine Spec.bind (Spec.ofResult (fun m hm => ?_) fun e he => ?_)
    · obtain rfl := Except.ok.inj (hReplay.symm.trans hm)
      refine Spec.pure ⟨rfl, rfl, ?_⟩
      have hGe := (replayed_seq_ge state.lastSequence log).1
      change (replayed state.lastSequence log, if (replayed state.lastSequence log).seq >
        state.lastSequence then openedSet state number offset (replayed state.lastSequence log).seq
        else openedSet state number offset state.lastSequence) = _
      split
      · rfl
      · next hNot => rw [show (replayed state.lastSequence log).seq = state.lastSequence by omega]
    · exact absurd (hReplay.symm.trans he) (by simp)
  · next hIn =>
    obtain rfl := h.absent fun hMem => hIn (decide_eq_true hMem)
    exact Spec.pure ⟨rfl, rfl, rfl⟩

omit [Crc32c] in
theorem Readied.refl (h : SpareLogs d state.nextFileNumber) : Readied d state.nextFileNumber d :=
  ⟨Dir.Frame.refl _ _, h⟩

omit [Crc32c] in
theorem singleton_subset_filesFrom {n next : Nat} (h : next ≤ n) :
    {FileName.sst n} ⊆ filesFrom next ∧ {FileName.log n} ⊆ filesFrom next := by
  constructor
  · rintro name rfl
    exact ⟨n, h, .inl rfl⟩
  · rintro name rfl
    exact ⟨n, h, .inr rfl⟩

omit [Crc32c] in
/-- The new log of an opening is the first or the second new file. -/
theorem OpeningEdit.numbers {d₁ : Dir} {m : MemTable} {vs vs' : VersionSet} {edit : VersionEdit}
    (h : OpeningEdit d₁ state m edit) (hCommitted : Committed vs edit vs') :
    state.nextFileNumber ≤ vs'.logNumber ∧ vs'.logNumber < vs'.nextFileNumber ∧
      vs'.nextFileNumber ≤ state.nextFileNumber + 2 := by
  obtain ⟨v, pointers, writer, -, -, rfl⟩ := hCommitted
  cases h with
  | flush =>
    change _ ≤ state.nextFileNumber + 1 ∧ state.nextFileNumber + 1 < state.nextFileNumber + 2 ∧
      state.nextFileNumber + 2 ≤ _
    omega
  | empty =>
    change _ ≤ state.nextFileNumber ∧ state.nextFileNumber < state.nextFileNumber + 1 ∧
      state.nextFileNumber + 1 ≤ _
    omega

/-- What the flush of an opening comes to. -/
theorem recoverFlush_spec {m : MemTable} {vs : VersionSet}
    {Good : VersionEdit → VersionSet → Dir → Prop}
    {Bad : VersionEdit → Dir → Fault → Dir → Prop} (hMem : m.skiplist ≠ [])
    (hSpare : SpareLogs d state.nextFileNumber) (hCommit : Commits A d state m vs Good Bad) :
    Spec A (Db.recoverFlush m vs { next := state.nextFileNumber } options)
      (fun r y d' => y = x ∧ MovedOn d state m vs Good r d')
      (fun f y d' => y = x ∧
        (Fails A f ∧ Readied d state.nextFileNumber d' ∨ CommitCut d state m Bad f d')) x d := by
  set n := state.nextFileNumber with hn
  obtain ⟨e, es, hEs⟩ := List.exists_cons_of_ne_nil hMem
  obtain ⟨hSst, -⟩ := singleton_subset_filesFrom (le_refl n)
  obtain ⟨-, hLog⟩ := singleton_subset_filesFrom (Nat.le_succ n)
  refine Spec.bind ((MemTable.flushToSstable_spec _ _ _ _).mono ?_ ?_)
  · rintro r y d₁ ⟨rfl, rfl, hTable, hFrame₁⟩
    replace hFrame₁ : d.Frame {.sst n} d₁ := hFrame₁
    replace hTable : d₁.HasTable n m.skiplist := hTable
    have hSpare₁ : SpareLogs d₁ n := hSpare.frame hFrame₁ (by simp)
    have hReadied₁ : Readied d n d₁ := ⟨hFrame₁.mono hSst, hSpare₁⟩
    obtain ⟨f, hf, hEntries, hSynced⟩ := id hTable
    refine Spec.bind (Spec.fileLen ⟨f, hf, rfl, rfl⟩ ?_ fun k _ hB =>
      ⟨rfl, .inl ⟨⟨k, hB⟩, hReadied₁⟩⟩)
    rw [hEs, bounds_cons]
    have hCreate := hSpare₁ (n + 1) (Nat.le_succ n)
    refine Spec.bind ((create_spec hCreate).mono ?_ ?_)
    · rintro newWal y d₂ ⟨rfl, hNew, hFrame₂⟩
      have hReadied₂ : Readied d n d₂ :=
        ⟨(hFrame₁.mono hSst).trans (hFrame₂.mono hLog), hSpare₁.frame hFrame₂ fun k _ hk _ => by
          obtain rfl : k = n + 1 := by simpa using hk
          exact hNew.has⟩
      have hTable₂ : d₂.HasTable n m.skiplist := hTable.frame hFrame₂ (by simp)
      have hEdit : OpeningEdit d₂ state m (flushEdit (FileMetaData.new n
          (f.bytes.length % 2 ^ 64) e.1 ((e :: es).getLast (by simp)).1)
          (n + 1) (n + 2) m.seq) := by
        refine .flush hMem rfl ⟨by rw [hEs]; rfl, ?_, hTable₂, ?_, rfl⟩
        · rw [hEs, List.getLast?_eq_some_getLast (by simp)]
          rfl
        · exact congrArg (Option.map (·.bytes.length % 2 ^ 64)) ((hFrame₂ _ (by simp)).trans hf)
      refine Spec.bind (Spec.runOn ((hCommit _ _ hReadied₂ hEdit).mono ?_ ?_))
      · rintro - vs' d₃ ⟨hCommitted, hGood, hFrame₃⟩
        refine Spec.pure ⟨rfl, _, d₂, hReadied₂, hEdit, hCommitted, hGood, hFrame₃, ?_, ?_⟩
        · obtain ⟨v, pointers, writer, -, -, rfl⟩ := hCommitted
          rfl
        · obtain ⟨v, pointers, writer, -, -, rfl⟩ := hCommitted
          rfl
      · rintro f' _ d₃ hBad
        exact ⟨rfl, .inr ⟨_, d₂, hReadied₂, hEdit, hBad⟩⟩
    · rintro f' y d₂ ⟨rfl, hFails, hFrame₂, hEmpty⟩
      refine ⟨rfl, .inl ⟨hFails, (hFrame₁.mono hSst).trans (hFrame₂.mono hLog),
        hSpare₁.frame hFrame₂ fun k _ hk hMem => ?_⟩⟩
      obtain rfl : k = n + 1 := by simpa using hk
      rcases hEmpty with rfl | hEmpty
      · exact hCreate hMem
      · exact hEmpty
  · rintro f y d₁ ⟨rfl, hFails, hFrame₁⟩
    exact ⟨rfl, .inl ⟨hFails, hFrame₁.mono hSst, hSpare.frame hFrame₁ (by simp)⟩⟩

/-- Without anything to flush, an opening moves on to a new log. -/
theorem recoverEmpty_spec {m : MemTable} {vs : VersionSet}
    {Good : VersionEdit → VersionSet → Dir → Prop}
    {Bad : VersionEdit → Dir → Fault → Dir → Prop} (hMem : m.skiplist = [])
    (hSpare : SpareLogs d state.nextFileNumber) (hCommit : Commits A d state m vs Good Bad) :
    Spec A (Db.recoverEmpty vs { next := state.nextFileNumber })
      (fun r y d' => y = x ∧ MovedOn d state m vs Good r d')
      (fun f y d' => y = x ∧
        (Fails A f ∧ Readied d state.nextFileNumber d' ∨ CommitCut d state m Bad f d')) x d := by
  have hEdit : OpeningEdit d state m (logEdit state.nextFileNumber (state.nextFileNumber + 1)) :=
    .empty hMem
  refine Spec.bind (Spec.runOn ((hCommit _ d (Readied.refl hSpare) hEdit).mono ?_ ?_))
  · rintro - vs' d₃ ⟨hCommitted, hGood, hFrame₃⟩
    refine Spec.pure ⟨rfl, _, d, Readied.refl hSpare, hEdit, hCommitted, hGood, hFrame₃, ?_, ?_⟩
    · obtain ⟨v, pointers, writer, -, -, rfl⟩ := hCommitted
      rfl
    · obtain ⟨v, pointers, writer, -, -, rfl⟩ := hCommitted
      rfl
  · rintro f' _ d₃ hBad
    exact ⟨rfl, .inr ⟨_, d, Readied.refl hSpare, hEdit, hBad⟩⟩

omit [Crc32c] in
theorem not_obsolete_log (vs : VersionSet) : ¬isObsolete vs (.log vs.logNumber) = true := by
  simp [isObsolete]

omit [Crc32c] in
/-- Removing dead files keeps the new log. -/
theorem Swept.trim {vs : VersionSet} {d' d'' : Dir} (h : Swept vs d d')
    (hTrim : d'.Trimmed {name | isObsolete vs name} d'') : Swept vs d d'' := by
  intro name
  rcases hTrim name with hSame | hGone
  · rcases h name with h | ⟨rfl, synced, f, hf, hB⟩ | ⟨hDead, h⟩
    · exact .inl (hSame.trans h)
    · exact .inr (.inl ⟨rfl, synced, f, hSame.trans hf, hB⟩)
    · exact .inr (.inr ⟨hDead, hSame.trans h⟩)
  · exact .inr (.inr hGone)

/-- What comes after the commit of an opening. -/
theorem finishOpen_spec {m : MemTable} {vs vs' : VersionSet} {idGen : IdGenerator} {walNumber : Nat}
    {d₂ : Dir} {Good : VersionEdit → VersionSet → Dir → Prop}
    {Bad : VersionEdit → Dir → Fault → Dir → Prop} (hA : Halts A)
    (h : MovedOn d state m vs Good (vs', idGen, walNumber) d₂) :
    Spec A (do
        let wal ← WalWriter.create (.log walNumber)
        removeObsoleteFiles vs'
        return ({ versionSet := vs', memtable := .withInitialSequence m.seq, wal, idGen, walNumber
                  options, tableCache := .withCapacity options.tableCacheSize } : Db))
      (fun db y d' => y = x ∧ Opened d state m vs Good options d' db)
      (fun f y d' => y = x ∧ OpeningCut A d state m vs Good Bad f d') x d₂ := by
  obtain ⟨next⟩ := idGen
  obtain ⟨edit, d₁, hReadied, hEdit, hCommitted, hGood, hFrame, hNext, hWal⟩ := h
  simp only at hNext hWal hGood hCommitted
  subst hNext hWal
  obtain ⟨hLow, hBelow, hHigh⟩ := hEdit.numbers hCommitted
  have hEmpty : .log vs'.logNumber ∈ d₂ → ∃ synced, d₂.Has (.log vs'.logNumber) [] synced :=
    hReadied.2.frame hFrame (by simp) _ hLow
  refine Spec.bind ((create_spec hEmpty).mono ?_ ?_)
  · rintro wal y d₃ ⟨rfl, hAt, hFrame₃⟩
    have hSwept : Swept vs' d₂ d₃ := by
      intro name
      by_cases hName : name = .log vs'.logNumber
      · exact .inr (.inl ⟨hName, hName ▸ hAt.has⟩)
      · exact .inl (hFrame₃ name hName)
    refine Spec.bind ((removeObsoleteFiles_spec hA vs').mono ?_ ?_)
    · rintro - y d₄ ⟨rfl, hTrim, hGone⟩
      refine Spec.pure ⟨rfl, edit, d₁, d₂, hReadied, hEdit, hCommitted, hGood, hFrame,
        hSwept.trim hTrim, hGone, ?_, rfl⟩
      obtain ⟨synced, f, hf, hB⟩ := hAt.has
      refine ⟨hAt.writer, ⟨synced, f, ?_, hB⟩, hAt.isLog, hAt.aligned⟩
      rcases hTrim (.log vs'.logNumber) with hSame | ⟨hDead, -⟩
      · exact hSame.trans hf
      · exact absurd hDead (not_obsolete_log vs')
    · rintro f y d₄ ⟨rfl, hFails, hTrim⟩
      exact ⟨rfl, .inr (.inr ⟨hFails, edit, d₁, vs', d₂, hReadied, hEdit, hCommitted, hGood,
        hFrame, hSwept.trim hTrim⟩)⟩
  · rintro f y d₃ ⟨rfl, hFails, hFrame₃, hNew⟩
    refine ⟨rfl, .inr (.inr ⟨hFails, edit, d₁, vs', d₂, hReadied, hEdit, hCommitted, hGood,
      hFrame, fun name => ?_⟩)⟩
    by_cases hName : name = .log vs'.logNumber
    · rcases hNew with rfl | hNew
      · exact .inl rfl
      · exact .inr (.inl ⟨hName, hName ▸ hNew⟩)
    · exact .inl (hFrame₃ name hName)

/-- An opening returns with a database at the new log, or is cut. -/
theorem recoverOpen_spec {Good : VersionEdit → VersionSet → Dir → Prop}
    {Bad : VersionEdit → Dir → Fault → Dir → Prop} {B : Bytes} {synced : Nat}
    (h : Openable d number state log) (hA : Halts A) (hHas : d.Has (.manifest number) B synced)
    (hCommit : Commits A d state (replayed state.lastSequence log)
      (openedSet state number (B.length % blockSize) (replayed state.lastSequence log).seq)
      Good Bad) :
    Spec A (Db.recoverOpen options)
      (fun db y d' => y = x ∧ Opened d state (replayed state.lastSequence log)
        (openedSet state number (B.length % blockSize) (replayed state.lastSequence log).seq)
        Good options d' db)
      (fun f y d' => y = x ∧ OpeningCut A d state (replayed state.lastSequence log)
        (openedSet state number (B.length % blockSize) (replayed state.lastSequence log).seq)
        Good Bad f d') x d := by
  set m := replayed state.lastSequence log with hm
  refine Spec.bind ((h.manifest.recover_spec hHas).mono ?_ ?_)
  · rintro vs y d' ⟨rfl, rfl, rfl⟩
    refine Spec.bind ((h.replayLog_spec hA (B.length % blockSize)).mono ?_ ?_)
    · rintro - y d' ⟨rfl, rfl, rfl⟩
      rw [← hm]
      have hLength : m.skiplist.length = m.entries := by
        rw [hm, (replayed_perm _ _).length_eq, List.length_map, replayed_entries]
      dsimp only
      split
      · next hPos =>
        have hMem : m.skiplist ≠ [] := List.length_pos_iff.mp (hLength ▸ hPos)
        refine Spec.bind ((recoverFlush_spec hMem h.spare hCommit).mono ?_ ?_)
        · rintro ⟨vs', idGen, walNumber⟩ y d₂ ⟨rfl, hMoved⟩
          exact finishOpen_spec hA hMoved
        · rintro f y d₂ ⟨rfl, hE⟩
          exact ⟨rfl, hE.imp id .inl⟩
      · next hZero =>
        have hMem : m.skiplist = [] := List.eq_nil_iff_length_eq_zero.mpr (by omega)
        refine Spec.bind ((recoverEmpty_spec hMem h.spare hCommit).mono ?_ ?_)
        · rintro ⟨vs', idGen, walNumber⟩ y d₂ ⟨rfl, hMoved⟩
          exact finishOpen_spec hA hMoved
        · rintro f y d₂ ⟨rfl, hE⟩
          exact ⟨rfl, hE.imp id .inl⟩
    · rintro f y d' ⟨rfl, rfl, hFails⟩
      exact ⟨rfl, .inl ⟨hFails, Readied.refl h.spare⟩⟩
  · rintro f y d' ⟨rfl, rfl, hFails⟩
    exact ⟨rfl, .inl ⟨hFails, Readied.refl h.spare⟩⟩

end Opening

end MulanLsm
