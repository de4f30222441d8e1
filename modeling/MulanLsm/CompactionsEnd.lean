import Mathlib.Algebra.Order.BigOperators.Group.Finset
import Mathlib.Data.Prod.Lex
import MulanLsm.Crash
import MulanLsm.Faults
import MulanLsm.Library.Steps
import MulanLsm.Scores

/-! Compactions come to an end.  Each takes some entry out of the levels down to its own and puts
none back, so that the entries in the levels down to each, summed up, get fewer.  After a failed
commit the numbers of new files may be those of files of the version; that ends as well, because
every new file uses up a number. -/

namespace MulanLsm

section Reaching

variable [Crc32c]

/-- A program on `x` that runs in `d` may end with `y` in `d'`, with or without a value. -/
def Ends {σ α : Type} (m : St σ α) (x : σ) (d : Dir) (y : σ) (d' : Dir) : Prop :=
  ∃ os w, w.dir = d' ∧ ((∃ a, m (x, ⟨d, os⟩) = .ok a (y, w)) ∨
    ∃ f, m (x, ⟨d, os⟩) = .error f (y, w))

/-- The databases that are open, or none, and their directories, after calls that succeed or fail
and file-system calls that go any way, closings and openings that do as well, and crashes. -/
inductive Reached : Option Db → Dir → Prop
  | start : Reached none ∅
  | opened {d : Dir} {options : Options} {os : List Outcome} {db : Db} {w : World} :
      Reached none d →
      (Db.open options : St Unit Db) ((), ⟨d, os⟩) = .ok db ((), w) → Reached (some db) w.dir
  | refused {d d' : Dir} {options : Options} : Reached none d →
      Ends (Db.open options : St Unit Db) () d () d' → Reached none d'
  | called {d d' : Dir} {db db' : Db} {c : Call} : Reached (some db) d → Ends c.run db d db' d' →
      Reached (some db') d'
  | read {d d' : Dir} {db db' : Db} {seq : Nat} {key : Bytes} : Reached (some db) d →
      Ends (Db.getAt seq key) db d db' d' → Reached (some db') d'
  | closed {d d' : Dir} {db : Db} : Reached (some db) d →
      Ends (Db.close db : St Unit Unit) () d () d' → Reached none d'
  | stopped {x : Option Db} {d d' : Dir} : Reached x d → Survives d d' → Reached none d'

omit [Crc32c] in
theorem Ends.of_spec {σ α : Type} {m : St σ α} {x y : σ} {d d' : Dir} {P : σ → Dir → Prop}
    (hEnds : Ends m x d y d') (h : Spec Any m (fun _ => P) (fun _ => P) x d) : P y d' := by
  obtain ⟨os, w, rfl, ⟨a, hRun⟩ | ⟨f, hRun⟩⟩ := hEnds
  · exact ((Effects.wp_ok hRun).mp (h os fun _ _ => trivial)).1
  · exact ((Effects.wp_error hRun).mp (h os fun _ _ => trivial)).1

omit [Crc32c] in
theorem Filled.survives {d d' : Dir} (hd : Filled d) (h : Survives d d') : Filled d' := by
  intro name f hf
  rcases h name with ⟨-, hNone⟩ | ⟨g, n, hg, -, hCut⟩
  · rw [hNone] at hf
    contradiction
  · rw [hCut] at hf
    obtain rfl := Option.some.inj hf
    unfold File.cut
    dsimp only
    split
    · exact hd name g hg
    · simp

/-- Whatever has happened, no finished table is without an entry. -/
theorem Reached.filled {x : Option Db} {d : Dir} (h : Reached x d) :
    Filled d ∧ ∀ db ∈ x, db.Confined 0 := by
  induction h with
  | start => exact ⟨fun name f hf => by simp at hf, by simp⟩
  | @opened d options os db w _ hOpen ih =>
    obtain ⟨hConfined, hd⟩ := Spec.returned (A := Any) hOpen
      (open_db_keeping filled_closed options _ ih.1) fun _ _ => trivial
    exact ⟨hd, fun _ h => Option.some.inj h ▸ hConfined⟩
  | refused _ hEnds ih =>
    exact ⟨hEnds.of_spec (P := fun _ => Filled) ((open_db_keeping filled_closed _ _ ih.1).mono
      (fun _ _ _ h => h.2) fun _ _ _ h => h.2), by simp⟩
  | @called d d' db db' c _ hEnds ih =>
    obtain ⟨hAdvances, hd⟩ := hEnds.of_spec (P := fun db' d' => db.Advances 0 db' d' ∧ Filled d')
      (c.run_kept filled_closed ih.1 (ih.2 db rfl))
    exact ⟨hd, fun _ h => Option.some.inj h ▸ hAdvances.confined⟩
  | @read d d' db db' seq key _ hEnds ih =>
    obtain ⟨⟨cache, rfl⟩, hd⟩ := hEnds.of_spec
      (P := fun db' d' => (∃ tableCache, db' = { db with tableCache }) ∧ Filled d')
      (getAt_keeping seq key d ih.1)
    exact ⟨hd, fun _ h => Option.some.inj h ▸ { ih.2 db rfl with }⟩
  | @closed d d' db _ hEnds ih =>
    exact ⟨hEnds.of_spec (P := fun _ => Filled) ((close_keeping filled_closed (ih.2 db rfl).wal _
      ih.1).mono (fun _ _ _ h => h.2) fun _ _ _ h => h.2), by simp⟩
  | stopped _ hSurvives ih => exact ⟨ih.1.survives hSurvives, by simp⟩

end Reaching

section Calm

variable [Crc32c] {d : Dir}

/-- A program that fails with a call only. -/
def Sturdy {σ α : Type} (m : St σ α) (x : σ) : Prop :=
  ∀ d, Spec Quiet m (fun _ _ _ => True) Never x d

omit [Crc32c] in
theorem padTrailer_sturdy (w : WalWriter) : Sturdy WalWriter.padTrailer w := by
  intro d
  have hReset : ∀ d, Spec Quiet (update fun w : WalWriter => { w with blockOffset := 0 })
      (fun _ _ _ => True) Never w d := fun d => Spec.update trivial
  refine Spec.bind (Spec.self ?_)
  dsimp only
  split
  · split
    · exact Spec.bind (Spec.call (hReset _) fun _ _ h => not_broken_quiet h)
    · exact Spec.bind (Spec.pure (hReset d))
  · exact Spec.pure trivial

theorem addRecordLoop_sturdy (fuel : Nat) (w : WalWriter) (remaining : Bytes) (first : Bool) :
    Sturdy (WalWriter.addRecordLoop fuel remaining first) w := by
  intro d
  induction fuel generalizing w remaining first d with
  | zero => exact Spec.pure trivial
  | succ fuel ih =>
    refine Spec.bind ((padTrailer_sturdy w d).mono (fun _ w₁ d₁ _ => ?_) fun _ _ _ h => h)
    refine Spec.bind (Spec.self (Spec.bind (Spec.call ?_ fun _ _ h => not_broken_quiet h)))
    refine Spec.bind (Spec.update ?_)
    dsimp only
    split
    · exact Spec.pure trivial
    · exact ih _ _ _ _

theorem append_sturdy (edit : VersionEdit) (w : ManifestWriter) :
    Sturdy (ManifestWriter.append edit) w := fun d =>
  Spec.bind (Spec.onField ((addRecordLoop_sturdy _ _ _ _ d).mono (fun _ _ _ _ =>
    Spec.onField (Spec.bind (Spec.self (Spec.call trivial fun _ _ h => not_broken_quiet h))))
    fun _ _ _ h => h))

/-- A commit of an edit whose levels are there returns if no call fails. -/
theorem writeNewVersion_sturdy {edit : VersionEdit} (hRange : edit.InRange) (vs : VersionSet) :
    Sturdy (VersionSet.writeNewVersion edit) vs := by
  intro d
  refine Spec.bind (Spec.onField ((append_sturdy edit _ d).mono (fun _ w d₁ _ => ?_)
    fun _ _ _ h => h))
  refine Spec.bind (Spec.self (Spec.bind (Spec.ofResult (fun v hv => ?_) fun e he => ?_)))
  · refine Spec.bind (Spec.update (Spec.bind ((VersionSet.setPointers_spec _).mono ?_ ?_)))
    · exact fun _ _ _ _ => Spec.bind (Spec.self (Spec.pure trivial))
    · rintro f vs' d' ⟨-, -, hNot, -⟩
      exact hNot hRange.2.2
  · obtain ⟨v, hv⟩ := hRange.applyEdit vs.current
    exact absurd (he.symm.trans hv) (by simp)

end Calm

section Deepening

variable [Crc32c] {d : Dir} {db : Db}

/-- `s'` is `s` after the compaction `c`, which replaced its input files by `fs` at the next
level. -/
structure Deepens (s s' : Db × Dir) (c : Compaction) (fs : List FileMetaData) : Prop where
  picked : pickCompaction s.1.versionSet = some c
  tables : ∀ f ∈ c.inputFiles, s.2.table f.number = some (s.2.entries f.number)
  entries : (entriesIn s'.2 fs).Subperm (entriesIn s.2 c.inputFiles)
  numbers : fs.map (·.number) = List.range' s.1.idGen.next fs.length
  version : ∃ edit : VersionEdit, edit.deletedFiles = c.inputFileNumbers ∧
    edit.newFiles = fs.map (fun f => { level := c.level + 1, fileMeta := f }) ∧
    s.1.versionSet.current.applyEdit edit = .ok s'.1.versionSet.current
  next : s'.1.idGen.next = s.1.idGen.next + fs.length
  kept : KeptTables s.2 s.1.idGen.next s'.2

omit [Crc32c] in
theorem outputFiles_subperm {Q : EntryQueue} {c : Compaction} {version : Version}
    {oldest blockTarget bitsPerKey next : Nat} (t : Nat → List Entry) :
    (outputFiles Q c version oldest blockTarget bitsPerKey next t).flatten.Subperm
      (c.inputFiles.map fun f => t f.number).flatten := by
  rw [outputFiles, flatten_cutFiles]
  exact (keep_sublist none 0 _).subperm.trans (Merge.Merging.drain_subperm _)

/-- If no call fails, a compaction is made, or nothing changes. -/
theorem runOneCompaction_calm (hName : IsLogName db.versionSet.manifestWriter.wal.name) :
    Spec Quiet Db.runOneCompaction
      (fun b db' d' => b = true ∧ (∃ c fs, Deepens (db, d) (db', d') c fs) ∨
        b = false ∧ db' = db ∧ d' = d)
      (fun _ db' d' => db' = db ∧ d' = d) db d := by
  refine Spec.bind (Spec.self ?_)
  cases hPick : pickCompaction db.versionSet with
  | none => exact Spec.pure (.inr ⟨rfl, rfl, rfl⟩)
  | some c =>
  by_cases hTables : ∀ f ∈ c.inputFiles, d.table f.number = some (d.entries f.number)
  · refine Spec.bind (((doCompaction_spec hTables).quiet fun _ _ _ h => h.2.1).mono ?_
      fun _ _ _ h => h.elim)
    rintro ⟨output, idGen⟩ db₁ d₁ ⟨hdb₁, hFrame, hDeleted, hFiles, hNumbers, hNext⟩
    subst hdb₁
    have hRange := compactionEdit_inRange (pickCompaction_picked hPick) hDeleted idGen.next
    have hLen := hFiles.length_eq
    have hLe : db₁.idGen.next ≤ idGen.next := by
      dsimp only at hNext
      omega
    have hBelow : ∀ f ∈ output.newFiles, f.number < idGen.next := by
      intro f hf
      have hMem := List.mem_map_of_mem (f := FileMetaData.number) hf
      rw [hNumbers, List.mem_range'_1, ← hNext] at hMem
      exact hMem.2
    refine Spec.bind (Spec.onField (((writeNewVersion_sturdy hRange _ d₁).and
      (writeNewVersion_keeping (keptTables_closed d₁ idGen.next) hName hRange.2.2 d₁
        (.refl _ _))).mono ?_ fun _ _ _ h => h.1.elim))
    rintro v vs d₂ ⟨-, ⟨hVersion, -⟩, hKept⟩
    refine Spec.bind (Spec.update (Spec.pure (.inl ⟨rfl, c, output.newFiles, hPick, hTables, ?_,
      ?_, ⟨_, hDeleted, rfl, hVersion⟩, ?_, ?_⟩)))
    · rw [hKept.entriesIn hBelow, entriesIn_of_describes hFiles]
      exact outputFiles_subperm d.entries
    · rw [hNumbers, hLen]
    · rw [hLen, ← hNext]
      exact bumpTo_next hLe
    · intro n hn
      rw [hKept n (hn.trans_le hLe)]
      apply hFrame _
      rintro ⟨m, hm, hEq⟩
      cases hEq
      exact absurd hn (not_lt.mpr hm)
  · refine Spec.bind (Spec.bind ((openAll_tables c.inputFiles).mono
      (fun _ _ _ h => absurd h.1 hTables)
      fun _ _ _ h => h))

end Deepening

section Weighing

open Finset (range)

/-- How many entries the files have, each file's counted as often as it is in the list. -/
def load (d : Dir) (files : List FileMetaData) : Nat :=
  (files.map fun f => (d.entries f.number).length).sum

/-- The entries in the levels down to each, summed up. -/
def weight (d : Dir) (v : Version) : Nat :=
  ∑ k ∈ range numLevels, ∑ level ∈ range (k + 1), load d (v.filesAt level)

def fileCount (v : Version) : Nat := ∑ level ∈ range numLevels, v.numFiles level

theorem load_append (d : Dir) (fs gs : List FileMetaData) :
    load d (fs ++ gs) = load d fs + load d gs := by
  simp [load]

theorem length_entriesIn (d : Dir) (files : List FileMetaData) :
    (entriesIn d files).length = load d files := by
  simp [entriesIn, load, List.length_flatten, List.map_map, Function.comp_def]

theorem load_sublist {d : Dir} {fs gs : List FileMetaData} (h : fs.Sublist gs) :
    load d fs ≤ load d gs := (h.map _).sum_le_sum fun _ _ => Nat.zero_le _

/-- What is taken out of a level and what stays there. -/
theorem load_filter {d : Dir} {fs gs : List FileMetaData} {p : FileMetaData → Bool}
    (h : fs.Sublist gs) (hp : ∀ f ∈ fs, p f = false) :
    load d (gs.filter p) + load d fs ≤ load d gs := by
  have hOut : fs.Sublist (gs.filter fun f => !p f) := by
    have hSub := h.filter fun f => !p f
    rwa [List.filter_eq_self.mpr fun f hf => by rw [hp f hf]; rfl] at hSub
  have hSplit : load d gs = load d (gs.filter p) + load d (gs.filter fun f => !p f) := by
    rw [← load_append]
    exact ((List.filter_append_perm p gs).map _).sum_eq.symm
  rw [hSplit]
  exact Nat.add_le_add_left (load_sublist hOut) _

/-- The sums down to each level do not grow if level `l` loses `a` and the next gains that at
most. -/
theorem sums_le {g g' : Nat → Nat} {l a : Nat} (hSame : ∀ k, k ≠ l → k ≠ l + 1 → g' k ≤ g k)
    (hLoss : g' l + a ≤ g l) (hGain : g' (l + 1) ≤ g (l + 1) + a) (n : Nat) :
    (∑ k ∈ range n, g' k) + (if n = l + 1 then a else 0) ≤ ∑ k ∈ range n, g k := by
  induction n with
  | zero => simp
  | succ n ih =>
    rw [Finset.sum_range_succ, Finset.sum_range_succ]
    by_cases hl : n = l
    · subst hl
      rw [if_pos rfl]
      rw [if_neg (by omega)] at ih
      omega
    · rw [if_neg (by omega)]
      by_cases hNext : n = l + 1
      · subst hNext
        rw [if_pos rfl] at ih
        omega
      · have := hSame n hl hNext
        omega

theorem sums_lt {g g' : Nat → Nat} {l a : Nat} (hl : l < numLevels) (ha : 0 < a)
    (hSame : ∀ k, k ≠ l → k ≠ l + 1 → g' k ≤ g k) (hLoss : g' l + a ≤ g l)
    (hGain : g' (l + 1) ≤ g (l + 1) + a) :
    ∑ k ∈ range numLevels, ∑ j ∈ range (k + 1), g' j <
      ∑ k ∈ range numLevels, ∑ j ∈ range (k + 1), g j := by
  refine Finset.sum_lt_sum (fun k _ => ?_) ⟨l, Finset.mem_range.mpr hl, ?_⟩
  · exact (Nat.le_add_right _ _).trans (sums_le hSame hLoss hGain (k + 1))
  · have h := sums_le hSame hLoss hGain (l + 1)
    rw [if_pos rfl] at h
    omega

end Weighing

section Ending

open Finset (range)

variable {s s' : Db × Dir} {c : Compaction} {fs : List FileMetaData} {vs : VersionSet}

/-- A compaction that is picked has files of its level. -/
theorem pickCompaction_nonempty (h : pickCompaction vs = some c) : c.inputs.1 ≠ [] := by
  have hc := pickCompaction_picked h
  by_cases hZero : c.level = 0
  · unfold pickCompaction at h
    simp only [Option.bind_eq_bind, Option.bind_eq_some_iff, Prod.exists] at h
    obtain ⟨level, q, hScore, h⟩ := h
    have hLevel : c.level = level := by
      split at h
      · simp only [Option.bind_eq_some_iff] at h
        obtain ⟨first, -, h⟩ := h
        rw [← Option.some.inj h]
      · contradiction
    obtain ⟨-, hq, hPos, -⟩ := compactionScore_eq_some.mp hScore
    rw [hc.zero hZero, ← hZero, hLevel]
    exact levelScore_pos hq hPos
  · obtain ⟨f, -, hEq⟩ := hc.deeper hZero
    rw [hEq]
    exact List.cons_ne_nil f []

theorem Picked.first_sublist (h : Picked vs c) :
    c.inputs.1.Sublist (vs.current.filesAt c.level) := by
  by_cases hZero : c.level = 0
  · rw [h.zero hZero, hZero]
  · obtain ⟨f, hf, hEq⟩ := h.deeper hZero
    rw [hEq]
    exact List.singleton_sublist.mpr hf

theorem Picked.second_sublist (h : Picked vs c) :
    c.inputs.2.Sublist (vs.current.filesAt (c.level + 1)) := by
  rw [h.second]
  split
  · exact List.nil_sublist _
  · exact List.filter_sublist

/-- The file is not among those that the compaction replaces. -/
def Compaction.leaves (c : Compaction) (level : Nat) (f : FileMetaData) : Bool :=
  decide (∀ d ∈ c.inputFileNumbers, d.level = level → f.number ≠ d.number)

theorem leaves_first {f : FileMetaData} (hf : f ∈ c.inputs.1) : c.leaves c.level f = false := by
  refine decide_eq_false fun h => h ⟨c.level, f.number⟩ ?_ rfl rfl
  exact List.mem_append_left _ (List.mem_map_of_mem hf)

theorem leaves_second {f : FileMetaData} (hf : f ∈ c.inputs.2) :
    c.leaves (c.level + 1) f = false := by
  refine decide_eq_false fun h => h ⟨c.level + 1, f.number⟩ ?_ rfl rfl
  exact List.mem_append_right _ (List.mem_map_of_mem hf)

theorem Deepens.filesAt (h : Deepens s s' c fs) (level : Nat) :
    s'.1.versionSet.current.filesAt level =
      (s.1.versionSet.current.filesAt level).filter (c.leaves level) ++
        if level = c.level + 1 then fs else [] := by
  obtain ⟨edit, hDeleted, hNew, hVersion⟩ := h.version
  rw [Version.filesAt_applyEdit hVersion, hDeleted, hNew]
  congr 1
  split
  · next hLevel => simp [hLevel, List.filter_map, Function.comp_def]
  · next hLevel => simp [Ne.symm hLevel, List.filter_map, Function.comp_def]

/-- The files that stay, and those of a compaction, have numbers below `max limit next`. -/
def NumbersBelow (limit : Nat) (s : Db × Dir) : Prop :=
  ∀ level, ∀ f ∈ s.1.versionSet.current.filesAt level, f.number < max limit s.1.idGen.next

theorem Deepens.number_lt (h : Deepens s s' c fs) {f : FileMetaData} (hf : f ∈ fs) :
    f.number < s'.1.idGen.next := by
  have hMem := List.mem_map_of_mem (f := FileMetaData.number) hf
  rw [h.numbers, List.mem_range'_1, ← h.next] at hMem
  exact hMem.2

theorem Deepens.numbersBelow (h : Deepens s s' c fs) {limit : Nat} (hBelow : NumbersBelow limit s) :
    NumbersBelow limit s' := by
  intro level f hf
  rw [h.filesAt, List.mem_append] at hf
  have hNext := h.next
  rcases hf with hf | hf
  · have := hBelow level f (List.mem_of_mem_filter hf)
    omega
  · split at hf
    · have := h.number_lt hf
      omega
    · contradiction

/-- The entries of the input files at the compaction's level. -/
theorem Deepens.load_pos (h : Deepens s s' c fs) (hFilled : Filled s.2) :
    0 < load s.2 c.inputs.1 := by
  obtain ⟨f, rest, hInputs⟩ := List.exists_cons_of_ne_nil (pickCompaction_nonempty h.picked)
  have hf : f ∈ c.inputFiles := List.mem_append_left _ (hInputs ▸ List.mem_cons_self)
  have hTable := h.tables f hf
  have hne : s.2.entries f.number ≠ [] := by
    intro hNil
    obtain ⟨file, hFile, hft⟩ := Option.bind_eq_some_iff.mp hTable
    exact hFilled _ file hFile (hNil ▸ hft)
  rw [hInputs, load, List.map_cons, List.sum_cons]
  exact Nat.add_pos_left (List.length_pos_iff.mpr hne) _

/-- While all numbers of files have been used, the entries in the levels down to each get fewer. -/
theorem Deepens.weight_lt (h : Deepens s s' c fs) (hFilled : Filled s.2)
    (hBelow : ∀ level, ∀ f ∈ s.1.versionSet.current.filesAt level, f.number < s.1.idGen.next) :
    weight s'.2 s'.1.versionSet.current < weight s.2 s.1.versionSet.current := by
  have hc := pickCompaction_picked h.picked
  have hLevel := hc.level
  have hOld : ∀ level, load s'.2 ((s.1.versionSet.current.filesAt level).filter (c.leaves level)) =
      load s.2 ((s.1.versionSet.current.filesAt level).filter (c.leaves level)) := by
    intro level
    rw [← length_entriesIn, ← length_entriesIn, h.kept.entriesIn]
    exact fun f hf => hBelow level f (List.mem_of_mem_filter hf)
  refine sums_lt (l := c.level) (a := load s.2 c.inputs.1) (by omega) (h.load_pos hFilled) ?_ ?_ ?_
  · intro level _ hNext
    rw [h.filesAt, if_neg hNext, List.append_nil, hOld]
    exact load_sublist List.filter_sublist
  · rw [h.filesAt, if_neg (Nat.succ_ne_self c.level).symm, List.append_nil, hOld]
    exact load_filter hc.first_sublist fun f hf => leaves_first hf
  · have hKept := load_filter (d := s.2) (p := c.leaves (c.level + 1)) hc.second_sublist
      fun f hf => leaves_second hf
    have hNew : load s'.2 fs ≤ load s.2 c.inputs.1 + load s.2 c.inputs.2 := by
      rw [← length_entriesIn, ← load_append, ← length_entriesIn]
      exact h.entries.length_le
    rw [h.filesAt, if_pos rfl, load_append, hOld]
    omega

/-- A compaction that writes no file leaves fewer files. -/
theorem Deepens.fileCount_lt (h : Deepens s s' c []) :
    fileCount s'.1.versionSet.current < fileCount s.1.versionSet.current := by
  have hc := pickCompaction_picked h.picked
  have hLevel := hc.level
  have hFiles : ∀ level, s'.1.versionSet.current.numFiles level =
      ((s.1.versionSet.current.filesAt level).filter (c.leaves level)).length := by
    intro level
    rw [Version.numFiles, h.filesAt, ite_self, List.append_nil]
  refine Finset.sum_lt_sum (fun level _ => ?_) ⟨c.level, Finset.mem_range.mpr (by omega), ?_⟩
  · rw [hFiles]
    exact List.length_filter_le _ _
  · rw [hFiles]
    obtain ⟨f, rest, hInputs⟩ := List.exists_cons_of_ne_nil (pickCompaction_nonempty h.picked)
    have hf : f ∈ c.inputs.1 := hInputs ▸ List.mem_cons_self
    refine List.length_filter_lt_length_iff_exists.mpr ⟨f, hc.mem_first hf, ?_⟩
    rw [leaves_first hf]
    exact Bool.false_ne_true

/-- How far the numbers are from being used, and then the files or the entries. -/
def distance (limit : Nat) (s : Db × Dir) : ℕ ×ₗ ℕ :=
  toLex (limit - s.1.idGen.next,
    if s.1.idGen.next < limit then fileCount s.1.versionSet.current
    else weight s.2 s.1.versionSet.current)

theorem Deepens.distance_lt (h : Deepens s s' c fs) (hFilled : Filled s.2) {limit : Nat}
    (hBelow : NumbersBelow limit s) : distance limit s' < distance limit s := by
  have hNext := h.next
  rw [distance, distance, Prod.Lex.toLex_lt_toLex]
  by_cases hLimit : s.1.idGen.next < limit
  · cases fs with
    | nil =>
      rw [List.length_nil, Nat.add_zero] at hNext
      rw [hNext, if_pos hLimit, if_pos hLimit]
      exact .inr ⟨rfl, h.fileCount_lt⟩
    | cons f fs =>
      rw [List.length_cons] at hNext
      exact .inl (by omega)
  · rw [if_neg hLimit, if_neg (by omega)]
    refine .inr ⟨by omega, h.weight_lt hFilled fun level f hf => ?_⟩
    have := hBelow level f hf
    omega

end Ending

section Compacting

variable [Crc32c]

/-- A call of `run_one_compaction` when no file-system call fails: what it returns, and the database
and its directory then. -/
def compactOnce (s : Db × Dir) : Except Fault Bool × (Db × Dir) :=
  match Db.runOneCompaction (s.1, ⟨s.2, []⟩) with
  | .ok b (db, w) => (.ok b, db, w.dir)
  | .error f (db, w) => (.error f, db, w.dir)

/-- The database and its directory after `n` such calls in a row. -/
def afterCompactions (n : Nat) (s : Db × Dir) : Db × Dir := (fun s => (compactOnce s).2)^[n] s

/-- `s'` is `s` after a compaction that took an entry at least out of its level, and put entries of
its input files, each at most once, in files at the next level. -/
def MovesDeeper (s s' : Db × Dir) : Prop :=
  ∃ c fs, Deepens s s' c fs ∧ entriesIn s.2 c.inputs.1 ≠ []

theorem compactOnce_cases (s : Db × Dir) (h : IsLogName s.1.versionSet.manifestWriter.wal.name) :
    (compactOnce s).1 = .ok true ∧ (∃ c fs, Deepens s (compactOnce s).2 c fs) ∨
      (compactOnce s).1 ≠ .ok true ∧ (compactOnce s).2 = s := by
  obtain ⟨db, d⟩ := s
  unfold compactOnce
  rcases (runOneCompaction_calm (d := d) h).result (List.forall_mem_nil _) with
    ⟨b, db', w, hRun, hCase⟩ | ⟨f, db', w, hRun, rfl, hdir⟩
  · simp only [hRun]
    rcases hCase with ⟨rfl, c, fs, hDeepens⟩ | ⟨rfl, rfl, hdir⟩
    · exact .inl ⟨rfl, c, fs, hDeepens⟩
    · exact .inr ⟨by simp, by rw [hdir]⟩
  · simp only [hRun]
    exact .inr ⟨by simp, by rw [hdir]⟩

theorem compactOnce_kept {s : Db × Dir} (h : s.1.Confined 0) (hFilled : Filled s.2) :
    (compactOnce s).2.1.Confined 0 ∧ Filled (compactOnce s).2.2 := by
  obtain ⟨db, d⟩ := s
  unfold compactOnce
  rcases (runOneCompaction_kept (A := Quiet) filled_closed hFilled h).result
    (List.forall_mem_nil _) with
    ⟨b, db', w, hRun, hAdvances, hd⟩ | ⟨f, db', w, hRun, hAdvances, hd⟩ <;>
  · simp only [hRun]
    exact ⟨hAdvances.confined, hd⟩

theorem afterCompactions_succ (n : Nat) (s : Db × Dir) :
    afterCompactions (n + 1) s = (compactOnce (afterCompactions n s)).2 :=
  Function.iterate_succ_apply' _ n s

theorem afterCompactions_kept {s : Db × Dir} (h : s.1.Confined 0) (hFilled : Filled s.2) (n : Nat) :
    (afterCompactions n s).1.Confined 0 ∧ Filled (afterCompactions n s).2 := by
  induction n with
  | zero => exact ⟨h, hFilled⟩
  | succ n ih =>
    rw [afterCompactions_succ]
    exact compactOnce_kept ih.1 ih.2

omit [Crc32c] in
/-- A number past those of all files of a version. -/
theorem exists_limit (v : Version) : ∃ limit, ∀ level, ∀ f ∈ v.filesAt level, f.number < limit := by
  refine ⟨((List.range numLevels).flatMap v.filesAt).foldr (fun f n => max (f.number + 1) n) 0, ?_⟩
  have hAll : ∀ (files : List FileMetaData), ∀ f ∈ files,
      f.number < files.foldr (fun f n => max (f.number + 1) n) 0 := by
    intro files
    induction files with
    | nil => simp
    | cons g files ih =>
      intro f hf
      rw [List.foldr_cons]
      rcases List.mem_cons.mp hf with rfl | hf
      · omega
      · have := ih f hf
        omega
  intro level f hf
  refine hAll _ f (List.mem_flatMap.mpr ⟨level, ?_, hf⟩)
  by_contra hLevel
  rw [Version.filesAt_of_le (by simpa using hLevel)] at hf
  contradiction

/-- When no file-system call fails any more, calls in a row make finitely many compactions, each of
which moves entries deeper; and every table has entries. -/
theorem compactions_end {db : Db} {d : Dir} (h : Reached (some db) d) :
    {n | (compactOnce (afterCompactions n (db, d))).1 = .ok true}.Finite ∧
      (∀ n, (compactOnce (afterCompactions n (db, d))).1 = .ok true →
        MovesDeeper (afterCompactions n (db, d)) (afterCompactions (n + 1) (db, d))) ∧
      ∀ n es, d.table n = some es → es ≠ [] := by
  obtain ⟨hFilled, hConfined⟩ := h.filled
  replace hConfined := hConfined db rfl
  refine ⟨?_, fun n hn => ?_, fun n es hTable hes => ?_⟩
  · obtain ⟨limit, hLimit⟩ := exists_limit db.versionSet.current
    have hBelow : NumbersBelow limit (db, d) := fun level f hf =>
      (hLimit level f hf).trans_le (le_max_left _ _)
    refine Steps.finite_turns (fun s => (compactOnce s).1 = .ok true)
      (fun s => s.1.Confined 0 ∧ Filled s.2 ∧ NumbersBelow limit s) (distance limit)
      ?_ ?_ ?_ ⟨hConfined, hFilled, hBelow⟩
    · rintro s ⟨hs, hs', hBelow⟩ hMore
      obtain ⟨hNext, hNext'⟩ := compactOnce_kept hs hs'
      rcases compactOnce_cases s hs.manifest with ⟨-, c, fs, hDeepens⟩ | ⟨hNot, -⟩
      · exact ⟨hNext, hNext', hDeepens.numbersBelow hBelow⟩
      · exact absurd hMore hNot
    · rintro s ⟨hs, hs', hBelow⟩ hMore
      rcases compactOnce_cases s hs.manifest with ⟨-, c, fs, hDeepens⟩ | ⟨hNot, -⟩
      · exact hDeepens.distance_lt hs' hBelow
      · exact absurd hMore hNot
    · rintro s ⟨hs, -, -⟩ hMore
      rcases compactOnce_cases s hs.manifest with ⟨hOk, -⟩ | ⟨-, hSame⟩
      · exact absurd hOk hMore
      · exact hSame
  · obtain ⟨hConfined', hFilled'⟩ := afterCompactions_kept (s := (db, d)) hConfined hFilled n
    rw [afterCompactions_succ]
    rcases compactOnce_cases _ hConfined'.manifest with ⟨-, c, fs, hDeepens⟩ | ⟨hNot, -⟩
    · refine ⟨c, fs, hDeepens, fun hNil => ?_⟩
      have hPos := hDeepens.load_pos hFilled'
      rw [← length_entriesIn, hNil] at hPos
      exact absurd hPos (Nat.lt_irrefl 0)
    · exact absurd hn hNot
  · obtain ⟨file, hFile, hft⟩ := Option.bind_eq_some_iff.mp hTable
    exact hFilled _ file hFile (hes ▸ hft)

end Compacting

/-- A key is put and flushed, and the first compaction of it fails. -/
theorem compactions_end_flushed :
    ∃ db d, Reached (some db) d ∧ (compactOnce (db, d)).1 = .ok true ∧
      {n | (compactOnce (afterCompactions n (db, d))).1 = .ok true}.Finite := by
  have h : (Effects.returned ((Db.open eager : St Unit Db) ((), ⟨∅, []⟩))).any (fun p =>
      (Effects.returned ((Call.put [97] [1]).run (p.1, ⟨p.2.2.dir, []⟩))).any fun q =>
        (Effects.raised (Call.compact.run (q.2.1, ⟨q.2.2.dir, [.ok, .fail 0]⟩))).any fun r =>
          (compactOnce (r.2.1, r.2.2.dir)).1.toOption = some true) = true := by
    decide +kernel
  obtain ⟨⟨db₀, y, w₀⟩, hOpen, h⟩ := (Option.any_eq_true _ _).mp h
  obtain ⟨⟨a, db₁, w₁⟩, hPut, h⟩ := (Option.any_eq_true _ _).mp h
  obtain ⟨⟨f, db, w⟩, hFail, h⟩ := (Option.any_eq_true _ _).mp h
  have hReached : Reached (some db) w.dir :=
    ((Reached.start.opened (Effects.returned_eq_some.mp hOpen)).called
      ⟨_, _, rfl, .inl ⟨_, Effects.returned_eq_some.mp hPut⟩⟩).called
        ⟨_, _, rfl, .inr ⟨_, Effects.raised_eq_some.mp hFail⟩⟩
  have hTrue : (compactOnce (db, w.dir)).1 = .ok true := eq_ok_of_toOption (of_decide_eq_true h)
  exact ⟨db, w.dir, hReached, hTrue, (compactions_end hReached).1⟩

end MulanLsm
