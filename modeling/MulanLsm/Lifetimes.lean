import MulanLsm.Library.Histories
import MulanLsm.Recovery
import MulanLsm.Scanners

/-! Lifetimes of a database.  The machine stops, in a call or between two, comes up again with what
the disk kept, and the database is opened, where the machine may stop again.  What a database in
order has, the directory has that it leaves, and the next opening hands it on.  So after any number
of crashes the database shows what is left of its history: between two crashes the calls up to some
call. -/

namespace MulanLsm

open Versioned (Newer Distinct Reads)

section Shapes

variable {d d' : Dir} {v v' : Version} {flushed : Nat} {log log₁ : List WalEntry}

/-- The tables of a version are in order, and so is the memory table that the entries of the log
give behind the sequence number `flushed`. -/
structure Shape (d : Dir) (v : Version) (flushed : Nat) (log : List WalEntry) : Prop where
  tables : TablesOk d flushed v
  distinct : DistinctTables d v
  recent : Recent d v
  apart : Apart d v
  mem : MemOk (replayed flushed log) flushed
  last : (replayed flushed log).seq ≤ maxSequence

theorem MemOk.isPrefix (h : MemOk (replayed flushed log) flushed) (hLog : log₁ <+: log) :
    MemOk (replayed flushed log₁) flushed := by
  have hPerm := replayed_perm flushed log
  have hPerm₁ := replayed_perm flushed log₁
  have hEntries : log₁.map WalEntry.entry <+: log.map WalEntry.entry := hLog.map _
  have hMem : ∀ e ∈ (replayed flushed log₁).skiplist, e ∈ (replayed flushed log).skiplist :=
    fun e he => hPerm.mem_iff.mpr (hEntries.subset (hPerm₁.mem_iff.mp he))
  have hNodup : (log.map WalEntry.entry).Nodup := hPerm.nodup_iff.mp h.ascending.nodup
  constructor
  · apply (replayed_sorted flushed log₁).ascending
    · exact hPerm₁.nodup_iff.mpr (hNodup.sublist hEntries.sublist)
    · exact fun x hx y hy => h.ascending.distinct x (hMem x hx) y (hMem y hy)
  · rw [replayed_entries, hPerm₁.length_eq, List.length_map]
  · exact fun e he => h.fits e (hMem e he)
  · intro e he
    obtain ⟨w, hw, rfl⟩ := List.mem_map.mp (hPerm₁.mem_iff.mp he)
    exact ⟨(h.seqs _ (hMem _ he)).1, (replayed_seq_ge flushed log₁).2 w hw⟩

theorem replayed_seq_mono (hLog : log₁ <+: log) :
    (replayed flushed log₁).seq ≤ (replayed flushed log).seq :=
  replayed_seq_le (replayed_seq_ge flushed log).1 fun e he =>
    (replayed_seq_ge flushed log).2 e (hLog.subset he)

theorem SameFiles.frame (h : SameFiles v d d') {level : Nat} {f : FileMetaData}
    (hf : f ∈ v.filesAt level) : d.Frame {.sst f.number}ᶜ d' :=
  Dir.frame_of_lookup (h level f hf)

theorem SameFiles.tablesOk {last : Nat} (h : SameFiles v d d') (hTables : TablesOk d last v) :
    TablesOk d' last v := fun level f hf => (hTables level f hf).frame (h.frame hf) (by simp)

theorem SameFiles.distinct (h : SameFiles v d d') (hDistinct : DistinctTables d v) :
    DistinctTables d' v := by
  intro level level' f hf g hg
  rw [h.tables level f hf, h.tables level' g hg]
  exact hDistinct level level' f hf g hg

theorem Shape.same (h : Shape d v flushed log) (hSame : SameFiles v d d') (hLog : log₁ <+: log) :
    Shape d' v flushed log₁ where
  tables := hSame.tablesOk h.tables
  distinct := hSame.distinct h.distinct
  recent := h.recent.congr hSame.tables
  apart := h.apart.congr hSame.tables
  mem := h.mem.isPrefix hLog
  last := (replayed_seq_mono hLog).trans h.last

theorem Shape.newer (h : Shape d v flushed log) :
    Newer (versions (replayed flushed log).skiplist) (stored d v) := by
  intro x hx y ⟨level, f, hf, hy⟩ _
  exact ((h.tables level f hf).seqs y hy).trans_lt (h.mem.seqs x hx).1

theorem AddsFile.cases {f g : FileMetaData} (h : AddsFile v f v') {level : Nat}
    (hg : g ∈ v'.filesAt level) : g ∈ v.filesAt level ∨ g = f := by
  by_cases hLevel : level = 0
  · subst hLevel
    rw [h.1] at hg
    exact (List.mem_append.mp hg).imp id List.mem_singleton.mp
  · exact .inl (h.2 level hLevel ▸ hg)

/-- The log as one more table file. -/
theorem Shape.addFile {f : FileMetaData} (h : Shape d v flushed log) (hSame : SameFiles v d d')
    (hAdds : AddsFile v f v') (hDesc : Describes d' f (replayed flushed log).skiplist) :
    Shape d' v' (replayed flushed log).seq [] := by
  have hOld := h.same hSame List.prefix_rfl
  have hTable : TableOk d' (replayed flushed log).seq f := h.mem.tableOk hDesc
  have hGrown : Grown d v (replayed flushed log).skiplist d' v' :=
    ⟨.inr ⟨f, hAdds, hDesc.entries⟩, hSame.tables⟩
  have hApart : ∀ level, ∀ g ∈ v.filesAt level, ∀ x ∈ d'.entries f.number,
      ∀ y ∈ d'.entries g.number, x.1.seq ≠ y.1.seq := by
    intro level g hg x hx y hy
    rw [hDesc.entries] at hx
    exact h.mem.seq_ne (hOld.tables level g hg) hx hy
  constructor
  · intro level g hg
    rcases hAdds.cases hg with hg | rfl
    · exact (hOld.tables level g hg).mono (replayed_seq_ge flushed log).1
    · exact hTable
  · intro level level' g hg g' hg' hne x hx y hy hk
    rcases hAdds.cases hg with hg | rfl <;> rcases hAdds.cases hg' with hg' | rfl
    · exact hOld.distinct level level' g hg g' hg' hne x hx y hy hk
    · exact (hApart level g hg y hy x hx).symm
    · exact hApart level' g' hg' x hx y hy
    · exact absurd rfl hne
  · exact hGrown.recent h.recent h.newer
  · exact hGrown.apart h.apart
  · exact MemOk.empty
  · exact h.last

theorem AddsFile.numbered {f : FileMetaData} {next : Nat} (h : AddsFile v f v')
    (hNumbered : Numbered v next) (hf : f.number = next) : Numbered v' (next + 1) := by
  have hNew : ∀ level, ∀ g ∈ v.filesAt level, g.number ≠ f.number := fun level g hg => by
    have := hNumbered.below level g hg
    omega
  constructor
  · intro level g hg
    rcases h.cases hg with hg | rfl
    · exact (hNumbered.below level g hg).trans (Nat.lt_succ_self next)
    · omega
  · intro level
    by_cases hLevel : level = 0
    · subst hLevel
      rw [h.1, List.pairwise_append]
      refine ⟨hNumbered.distinct 0, List.pairwise_singleton _ _, fun g hg g' hg' => ?_⟩
      exact List.mem_singleton.mp hg' ▸ hNew 0 g hg
    · exact h.2 level hLevel ▸ hNumbered.distinct level
  · intro level level' hne g hg g' hg'
    have hOnly : ∀ {level}, f ∈ v'.filesAt level → level = 0 := by
      intro level hf
      by_contra hLevel
      exact hNew level f (h.2 level hLevel ▸ hf) rfl
    rcases h.cases hg with hOld | rfl <;> rcases h.cases hg' with hOld' | rfl
    · exact hNumbered.apart level level' hne g hOld g' hOld'
    · exact hNew level g hOld
    · exact (hNew level' g' hOld').symm
    · exact absurd ((hOnly hg).trans (hOnly hg').symm) hne

/-- The database that an opening gives, also behind a manifest that is cut, is in order. -/
theorem Reopened.scannable {state : VersionState} {db : Db}
    (h : Reopened d state (replayed state.lastSequence log) d' db)
    (hShape : Shape d state.current state.lastSequence log)
    (hNumbered : Numbered state.current state.nextFileNumber) :
    Scannable d' db (replayed state.lastSequence log).seq := by
  have hFiles := h.files
  split at hFiles
  · next hNil =>
    obtain rfl := eq_nil_of_replayed hNil
    have hSame : Shape d' state.current state.lastSequence [] :=
      hShape.same h.tables List.prefix_rfl
    refine ⟨?_, ?_, ?_, h.mem ▸ MemOk.empty, by rw [h.mem]; rfl⟩ <;> rw [hFiles]
    · exact Version.allFiles_numbers hNumbered
    · exact hSame.tables
    · exact hSame.distinct
  · obtain ⟨f, hNumber, hAdds, hDesc⟩ := hFiles
    have hAdded := hShape.addFile h.tables hAdds hDesc
    exact ⟨Version.allFiles_numbers (hAdds.numbered hNumbered hNumber), hAdded.tables,
      hAdded.distinct, h.mem ▸ MemOk.empty, by rw [h.mem]; rfl⟩

theorem Back.same {low : List WalEntry} {state : VersionState} {W : Dir → Version → Prop} {d₁ : Dir}
    (h : Back v flushed low log W d d₁ state log₁) (hSame : SameFiles state.current d₁ d') :
    Back v flushed low log W d d' state log₁ := by
  cases h with
  | rest hFiles hState hSeq hLow hHigh =>
    exact .rest (hFiles.trans (hState ▸ hSame)) hState hSeq hLow hHigh
  | flushed hFiles hAdds hDesc hSeq =>
    exact .flushed (hFiles.trans (hSame.subset fun _ _ hf => hAdds.mem hf)) hAdds
      (hSame.describes hAdds.mem_self hDesc) hSeq
  | compacted hRewrites hFiles hSeq hLow hHigh =>
    exact .compacted hRewrites (hFiles.trans hSame) hSeq hLow hHigh

/-- What comes back is in order, if what was there is. -/
theorem Back.shape {low : List WalEntry} {state : VersionState} {W : Dir → Version → Prop}
    (h : Back v flushed low log W d d' state log₁) (hShape : Shape d v flushed log)
    (hW : ∀ d₁ v', W d₁ v' → Shape d₁ v' flushed log) :
    Shape d' state.current state.lastSequence log₁ := by
  cases h with
  | rest hSame hState hSeq _ hHigh =>
    rw [hState, hSeq]
    exact hShape.same hSame hHigh
  | flushed hSame hAdds hDesc hSeq =>
    rw [hSeq]
    exact hShape.addFile hSame hAdds hDesc
  | compacted hRewrites hSame hSeq _ hHigh =>
    rw [hSeq]
    exact (hW _ _ hRewrites).same hSame hHigh

end Shapes

/-- The file with all its bytes on the disk. -/
def File.rested (f : File) : File := { f with synced := f.bytes.length }

/-- `d'` is `d` with all that there is on the disk. -/
def Rests (d d' : Dir) : Prop := ∀ name, d'.lookup name = (d.lookup name).map File.rested

/-- The machine may come up with `d'` after it stopped with `d`: with what the disk kept. -/
def Reboots (d d' : Dir) : Prop := ∃ d₁, Survives d d₁ ∧ Rests d₁ d'

section Resting

variable {d d' : Dir} {name : FileName} {B : Bytes} {synced n : Nat}

theorem Rests.has (h : Rests d d') (hHas : d.Has name B synced) : d'.Has name B B.length := by
  obtain ⟨f, hf, rfl, rfl⟩ := hHas
  exact ⟨f.rested, by rw [h, hf]; rfl, rfl, rfl⟩

theorem Rests.mem_iff (h : Rests d d') : name ∈ d' ↔ name ∈ d := by
  rw [← AList.lookup_isSome, ← AList.lookup_isSome, h, Option.isSome_map]

theorem Rests.onDisk (h : Rests d d') (hName : name ∈ d') : d'.OnDisk name := by
  obtain ⟨f, hf⟩ := Option.isSome_iff_exists.mp (AList.lookup_isSome.mpr (h.mem_iff.mp hName))
  exact ⟨f.rested, by rw [h, hf]; rfl, le_rfl⟩

/-- A second stop right away takes nothing more. -/
theorem Reboots.again (h : Reboots d d') : Reboots d' d' := by
  obtain ⟨d₁, -, hRests⟩ := h
  refine ⟨d', Survives.refl d', fun name => ?_⟩
  rw [hRests, Option.map_map]
  rfl

theorem Rests.lookup_table (h : Rests d d') (hTable : d.TableOnDisk n) :
    d'.lookup (.sst n) = d.lookup (.sst n) := by
  obtain ⟨es, f, hf, -, hSynced⟩ := hTable
  rw [h, hf, Option.map_some, File.rested, ← hSynced]

variable [Crc32c] {number : Nat} {state : VersionState} {log : List WalEntry}

/-- A directory says one thing at most. -/
theorem Says.unique {number' : Nat} {state' : VersionState} (h : Says d number state)
    (h' : Says d number' state') : state = state' := by
  obtain ⟨⟨f, hf, hName⟩, B, synced, edits, hHas, hDecode, hReplay⟩ := h
  obtain ⟨⟨g, hg, hName'⟩, B', synced', edits', hHas', hDecode', hReplay'⟩ := h'
  obtain rfl := Option.some.inj (hf.symm.trans hg)
  obtain rfl := Except.ok.inj (hName.symm.trans hName')
  obtain ⟨rfl, -⟩ := hHas.unique hHas'
  obtain rfl := Except.ok.inj (hDecode.symm.trans hDecode')
  exact Except.ok.inj (hReplay.symm.trans hReplay')

theorem Rests.says (h : Rests d d') (hSays : Says d number state) : Says d' number state := by
  obtain ⟨⟨f, hf, hName⟩, B, synced, edits, hHas, hRead⟩ := hSays
  exact ⟨⟨f.rested, by rw [h, hf]; rfl, hName⟩, B, B.length, edits, h.has hHas, hRead⟩

theorem Rests.openable (h : Rests d d') (hOpen : Openable d number state log) :
    Openable d' number state log := by
  refine { hOpen with
    manifest := h.says hOpen.manifest
    present := fun hMem => ?_
    absent := fun hNot => hOpen.absent fun hMem => hNot (h.mem_iff.mpr hMem)
    spare := fun n hn hMem => ?_ }
  · obtain ⟨B, synced, hHas, hRead⟩ := hOpen.present (h.mem_iff.mp hMem)
    exact ⟨B, B.length, h.has hHas, hRead⟩
  · obtain ⟨synced, hHas⟩ := hOpen.spare n hn (h.mem_iff.mp hMem)
    exact ⟨0, h.has hHas⟩

end Resting

section Sleeping

variable [Crc32c] {d d' d₀ d₁ : Dir} {number flushed : Nat} {state : VersionState}
  {low log : List WalEntry} {v : Version} {W : Dir → Version → Prop} {options : Options}
  {s : Running} {done : List Op}

/-- A directory at rest, with a database in order that opens with the entries `log`. -/
structure Asleep (d : Dir) (number : Nat) (state : VersionState) (log : List WalEntry) : Prop where
  openable : Openable d number state log
  tables : ∀ level, ∀ f ∈ state.current.filesAt level, d.TableOnDisk f.number
  onDisk : ∀ name ∈ d, d.OnDisk name
  shape : Shape d state.current state.lastSequence log

/-- What comes back is asleep after the reboot. -/
theorem ComesBack.asleep (h : ComesBack d (Back v flushed low log W d₀))
    (hShape : Shape d₀ v flushed log)
    (hW : ∀ d₁ v', W d₁ v' → Shape d₁ v' flushed log) (hReboots : Reboots d d') :
    ∃ number state log₁, Asleep d' number state log₁ ∧
      Back v flushed low log W d₀ d' state log₁ := by
  obtain ⟨d₁, hSurvives, hRests⟩ := hReboots
  obtain ⟨number, state, log₁, hOpen, hTables, hBack⟩ := h d₁ hSurvives
  have hSame : SameFiles state.current d₁ d' := fun level f hf =>
    hRests.lookup_table (hTables level f hf)
  have hBack' := hBack.same hSame
  exact ⟨number, state, log₁, ⟨hRests.openable hOpen, fun level f hf =>
    (hTables level f hf).of_lookup (hSame level f hf), fun name => hRests.onDisk,
    hBack'.shape hShape hW⟩, hBack'⟩

/-- The manifest that `CURRENT` names is a log of whole pieces. -/
def Dir.Untorn (d : Dir) : Prop := ∀ number, d.Names number → d.Whole number

/-- The counter of files that the manifest says has room for openings. -/
def Dir.Roomy (d : Dir) : Prop :=
  ∀ number state, Says d number state → state.nextFileNumber + 4 < 2 ^ 64

omit [Crc32c] in
/-- With all of the log on the disk, what comes back shows what was there. -/
theorem Back.represents {state' : VersionState} {log' : List WalEntry} {w : Bytes → Option Bytes}
    (h : Back v flushed log log (fun _ _ => False) d d' state' log')
    (hContents : Represents (stored d v ∪ logVersions log) w) :
    Represents (stored d' state'.current ∪ logVersions log') w := by
  refine h.meets (Q := fun S => Represents S w) List.prefix_rfl (fun log₁ hLow hHigh => ?_)
    fun _ _ h => h.elim
  rwa [hHigh.eq_of_length (le_antisymm hHigh.length_le hLow.length_le)]

/-- An opening goes on with what was asleep. -/
theorem Asleep.starts (h : Asleep d number state log) (hUntorn : d.Untorn)
    (hReads : Represents (stored d state.current ∪ logVersions log) (written done))
    (hOpen : opened options d = some s) :
    ∃ flushed, Traced done done s flushed [] ∧ s.last ≤ maxSequence := by
  obtain ⟨offset, hSpec⟩ := h.openable.opened_spec (A := Quiet) (x := ())
    (hUntorn number h.openable.manifest.1) options halts_quiet
  unfold opened at hOpen
  rcases hSpec.result (List.forall_mem_nil _) with ⟨db, y, w, hRun, -, hOpened⟩ | ⟨_, _, _, hRun, -⟩
  swap
  · rw [hRun] at hOpen
    contradiction
  rw [hRun, Option.some.injEq] at hOpen
  subst hOpen
  obtain ⟨hRe, -⟩ := hOpened.reopened h.openable.numbered
  have hInv := hOpened.inv h.openable h.shape.tables h.shape.distinct h.shape.mem
  have hStored := hRe.grown.stored
  rw [replayed_versions, Set.union_comm] at hStored
  have hCurrent : d.OnDisk .current := by
    obtain ⟨f, hf, -⟩ := h.openable.manifest.1
    exact h.onDisk _ (Dir.mem_of_lookup hf)
  refine ⟨_, ⟨⟨hInv, hRe.mem⟩, hOpened.durable hCurrent, fun log₁ hLog => ?_, ?_, ?_,
    hRe.snapshots⟩, ?_⟩
  · refine ⟨done, List.prefix_rfl, List.prefix_rfl, fun _ => rfl, fun k => ?_⟩
    rw [List.prefix_nil.mp hLog, logVersions_nil, Set.union_empty, hStored]
    exact (hReads k _).mpr rfl
  · exact hRe.grown.recent h.shape.recent h.shape.newer
  · exact hRe.grown.apart h.shape.apart
  · exact hRe.lastSequence.trans_le h.shape.last

/-- What an opening that is cut leaves is asleep as before, or with its log in a table file. -/
theorem Asleep.stops (h : Asleep d number state log) (hUntorn : d.Untorn) (hRoomy : d.Roomy)
    (hStops : StopsIn (Db.open options : St Unit Db) () d d₁) (hReboots : Reboots d₁ d') :
    ∃ number' state' log', Asleep d' number' state' log' ∧
      Back state.current state.lastSequence log log (fun _ _ => False) d d' state' log' := by
  obtain ⟨⟨f, hf, -⟩, B, synced, edits, hHas, -⟩ := h.openable.manifest
  obtain ⟨-, hBack⟩ := hStops.of_spec (h.openable.open_comesBack (W := fun _ _ => False)
    (hUntorn number h.openable.manifest.1) h.tables (h.onDisk _ (Dir.mem_of_lookup hf))
    (h.onDisk _ hHas.mem) (h.onDisk _) (hRoomy number state h.openable.manifest) halts_stops)
  exact ComesBack.asleep hBack h.shape (fun _ _ h => h.elim) hReboots

end Sleeping

section Waking

variable [Crc32c] {s s' : Running} {d d' : Dir} {flushed : Nat} {log : List WalEntry} {op : Op}
  {base done : List Op} {next : Option Op}

/-- Calls that leave nothing in the log. -/
def Op.saves : Op → Bool
  | flush | reopen _ => true
  | _ => false

theorem Op.Fair.last_le (h : op.Fair s) (hOk : s.Ok flushed log) (hRun : op.run s = some s') :
    s'.last ≤ maxSequence := by
  obtain ⟨s₁, hRun', -, hDid⟩ := Op.Sound.run ⟨h.1, h.2.1.room⟩ hOk
  obtain rfl := Option.some.inj (hRun.symm.trans hRun')
  exact hDid.last_le_max hOk h.2.1.room

/-- With an empty log nothing can be lost. -/
theorem Traced.saved (h : Traced base done s flushed log) (hEntries : s.db.memtable.entries = 0) :
    Traced done done s flushed log := by
  obtain rfl : log = [] := by
    rw [h.ok.mem, replayed_entries] at hEntries
    exact List.length_eq_zero_iff.mp hEntries
  refine { h with viewed := fun log₁ hLog => ?_ }
  obtain rfl := List.prefix_nil.mp hLog
  obtain ⟨done', -, -, hAll, hReads⟩ := h.viewed [] List.prefix_rfl
  obtain rfl := hAll rfl
  exact ⟨done', List.prefix_rfl, List.prefix_rfl, fun _ => rfl, hReads⟩

theorem Op.saves_empties (hSaves : op.saves) (hOk : s.Ok flushed log) (hFair : op.Fair s)
    (hRun : op.run s = some s') : s'.db.memtable.entries = 0 := by
  have hRoom := hFair.2.1.room
  cases op with
  | flush =>
    obtain ⟨s₁, hRun', hCase⟩ := hOk.inv.flush_run hRoom
    obtain rfl := Option.some.inj (hRun.symm.trans hRun')
    rcases hCase with ⟨hEntries, rfl⟩ | hFlushes
    · exact hEntries
    · rw [hFlushes.flushed.mem]
      rfl
  | reopen options =>
    obtain ⟨s₁, hRun', hReopens, -⟩ := reopen_run hOk hRoom options
    obtain rfl := Option.some.inj (hRun.symm.trans hRun')
    rw [hReopens.reopened.mem]
    rfl
  | _ => cases hSaves

theorem Traced.step_saves (h : Traced base done s flushed log) (hFair : op.Fair s)
    (hRun : op.run s = some s') :
    ∃ base' flushed' log', base <+: base' ∧ (op.saves → base' = done ++ [op]) ∧
      Traced base' (done ++ [op]) s' flushed' log' := by
  obtain ⟨base', flushed', log', hBase, h'⟩ := h.step hFair hRun
  by_cases hSaves : op.saves
  · obtain ⟨done', hBase', hDone', -⟩ := h.viewed [] List.nil_prefix
    exact ⟨done ++ [op], flushed', log', (hBase'.trans hDone').trans (List.prefix_append _ _),
      fun _ => rfl, h'.saved (op.saves_empties hSaves h.ok hFair hRun)⟩
  · exact ⟨base', flushed', log', hBase, fun hSaves' => absurd hSaves' hSaves, h'⟩

/-- A database that is open is in order, with its log. -/
theorem Traced.shape (h : Traced base done s flushed log) (hLast : s.last ≤ maxSequence) :
    Shape s.dir s.db.versionSet.current flushed log := by
  refine ⟨h.ok.inv.tables, h.ok.inv.distinct, h.recent, h.apart, ?_, ?_⟩ <;> rw [← h.ok.mem]
  · exact h.ok.inv.mem
  · exact h.ok.inv.seq.trans_le hLast

/-- It still is with the entry of a call that can be made. -/
theorem Traced.shape_entry (h : Traced base done s flushed log) (hReady : op.Ready s)
    (hAmple : s.Ample) :
    Shape s.dir s.db.versionSet.current flushed (log ++ (op.entry s.db).toList) := by
  have hShape := h.shape hAmple.seq.le
  cases hEntry : op.entry s.db with
  | none => rwa [Option.toList_none, List.append_nil]
  | some e =>
    obtain ⟨vtype, key, value, rfl, hFits⟩ : ∃ vtype key value,
        e = nextEntry s.db vtype key value ∧ EntryFits (nextEntry s.db vtype key value).entry := by
      cases op <;> cases hEntry <;> exact ⟨_, _, _, rfl, hReady.1.2⟩
    have hSeq : (replayed flushed log).seq = s.db.versionSet.lastSequence := by
      rw [← h.ok.mem, h.ok.inv.seq]
    refine { hShape with mem := ?_, last := ?_ } <;>
      rw [Option.toList_some, replayed_append, ← h.ok.mem]
    · refine h.ok.inv.mem.apply ?_ (Nat.lt_succ_self _) hFits
      rw [h.ok.inv.seq]
      exact h.ok.inv.flushedLe
    · have := hAmple.seq
      have := h.ok.inv.seq
      simp only [MemTable.apply, nextEntry, Nat.lt_succ_self, if_true]
      omega

theorem Traced.shape_rewrites (h : Traced base done s flushed log) (hAmple : s.Ample) {v : Version}
    (hRewrites : op.Rewrites s flushed d v) :
    Shape d v flushed (log ++ (op.entry s.db).toList) := by
  obtain ⟨rfl, c, hPicked, hRewrote, hTables, hDistinct⟩ := hRewrites
  have hShape := h.shape hAmple.seq.le
  have hCuts : ¬CutsBetweenVersions s.dir s.db c := by
    apply h.ok.inv.not_cuts hPicked
    rw [VersionSet.oldestSnapshotSeq, h.unregistered]
    exact h.ok.inv.flushedLe.trans hAmple.seq.le
  rw [show (Op.compact.entry s.db).toList = [] from rfl, List.append_nil]
  exact { hShape with
    tables := hTables
    distinct := hDistinct
    recent := hRewrote.recent h.ok.inv hPicked h.recent h.apart
    apart := hRewrote.apart h.ok.inv hPicked h.apart hCuts }

/-- What may come back after the machine stopped in front of the call `next` or in it. -/
def Left (next : Option Op) (s : Running) (flushed : Nat) (log : List WalEntry) (d' : Dir)
    (state : VersionState) (log₁ : List WalEntry) : Prop :=
  Back s.db.versionSet.current flushed (s.db.syncedLog log) log (fun _ _ => False) s.dir d'
    state log₁ ∨
    ∃ op ∈ next, op.Back s flushed log d' state log₁

/-- Where the machine stops, it leaves a database that is asleep. -/
theorem Traced.stops (h : Traced base done s flushed log) (hAmple : s.Ample)
    (hReady : ∀ op ∈ next, op.Ready s) (hStopped : Stopped next s d) (hReboots : Reboots d d') :
    ∃ number state log₁, Asleep d' number state log₁ ∧ Left next s flushed log d' state log₁ := by
  rcases hStopped with rfl | ⟨op, hOp, hStops⟩
  · obtain ⟨number, state, log₁, hAsleep, hBack⟩ := ComesBack.asleep
      (h.ok.comesBack (W := fun _ _ => False) h.durable hAmple) (h.shape hAmple.seq.le)
      (fun _ _ h => h.elim) hReboots
    exact ⟨number, state, log₁, hAsleep, .inl hBack⟩
  · obtain ⟨number, state, log₁, hAsleep, hBack⟩ := ComesBack.asleep
      ((Op.comesBack h.ok h.durable (hReady op hOp) hAmple).2 d hStops)
      (h.shape_entry (hReady op hOp) hAmple) (fun _ _ => h.shape_rewrites hAmple) hReboots
    exact ⟨number, state, log₁, hAsleep, .inr ⟨op, hOp, hBack⟩⟩

/-- What comes back is what some first calls wrote. -/
theorem Traced.recovers {state : VersionState} {log₁ : List WalEntry}
    (h : Traced base done s flushed log) (hAmple : s.Ample)
    (hLeft : Left next s flushed log d' state log₁) :
    Recovers base done next s (stored d' state.current ∪ logVersions log₁) := by
  rcases hLeft with hBack | ⟨op, rfl, hBack⟩
  · exact hBack.meets (s.db.syncedLog_prefix log) (fun _ hLow hHigh => h.rest next hLow hHigh)
      fun _ _ h => h.elim
  · exact (h.covers hAmple).meets hBack

end Waking

/-- A scan at the last sequence number gives out, in ascending order, what `m` says. -/
def Running.Scans (s : Running) (m : Bytes → Option Bytes) : Prop :=
  ∃ it, iteratorAt s.last s.db s.dir = some it ∧ it.items.Pairwise (fun a b => a.1 < b.1) ∧
    ∀ k v, (k, v) ∈ it.items ↔ m k = some v

/-- The machine has the database open, or it is down with a directory. -/
inductive Machine
  | up (s : Running)
  | down (d : Dir)

/-- A call returns, or the machine stops, perhaps in the call `next`, where writes are synced or
not; an opening returns, or the machine stops in it. -/
inductive Turn
  | call (op : Op)
  | stop (next : Option Op) (synced : Bool)
  | start (options : Options)
  | stopStarting (options : Options)

/-- What a turn is in the history of the calls.  An opening neither adds a call nor loses one. -/
def Turn.event : Turn → Histories.Event Op
  | call op => .did op op.saves
  | stop next synced => .cut next synced
  | start _ | stopStarting _ => .cut none true

theorem Turn.keeps {turns : List Turn} (hSynced : ∀ next, Turn.stop next false ∉ turns) :
    ∀ e ∈ turns.map Turn.event, e.loses = false := by
  intro e he
  obtain ⟨turn, hTurn, rfl⟩ := List.mem_map.mp he
  match turn, hTurn with
  | .call _, _ | .start _, _ | .stopStarting _, _ | .stop _ true, _ => rfl
  | .stop next false, hTurn => exact absurd hTurn (hSynced next)

/-- The call that a turn begins. -/
def Turn.begun (turn : Turn) : List Op := turn.event.begun

/-- The call that returns in a turn. -/
def Turn.returned (turn : Turn) : List Op := turn.event.returned

namespace Machine

variable [Crc32c]

/-- What the machine may do.  The calls are `Fair`: nothing fails in them, they take no snapshots,
their keys and values fit, and the counters have room.  A directory is opened only if it is
`Untorn`, which it need not be after a stop in an append to the manifest; the machine stops only
where the counters have room for the next opening. -/
inductive Step : Machine → Turn → Machine → Prop
  | call {s s' : Running} {op : Op} : op.Fair s → op.run s = some s' →
      Step (up s) (.call op) (up s')
  | stop {s : Running} {next : Option Op} {d d' : Dir} : s.Ample → (∀ op ∈ next, op.Ready s) →
      Stopped next s d → Reboots d d' → Step (up s) (.stop next s.db.options.syncWrites) (down d')
  | start {d : Dir} {s : Running} {options : Options} : d.Untorn → opened options d = some s →
      Step (down d) (.start options) (up s)
  | stopStarting {d d₁ d' : Dir} {options : Options} : d.Untorn → d.Roomy →
      StopsIn (Db.open options : St Unit Db) () d d₁ → Reboots d₁ d' →
      Step (down d) (.stopStarting options) (down d')

/-- A scan gives out what `m` says, once the database is open. -/
def Shows : Machine → (Bytes → Option Bytes) → Prop
  | up s, m => s.Scans m
  | down d, m => ∀ options, ∃ s, opened options d = some s ∧ s.Scans m

/-- The database is what is left of its history. -/
inductive Tracks : Machine → Histories.State Op → Prop
  | up {s : Running} {t : Histories.State Op} {flushed : Nat} {log : List WalEntry} :
      Traced t.safe t.done s flushed log → s.last ≤ maxSequence → Tracks (up s) t
  | down {d : Dir} {done : List Op} {number : Nat} {state : VersionState} {log : List WalEntry} :
      Asleep d number state log →
      Represents (stored d state.current ∪ logVersions log) (written done) →
      Tracks (down d) ⟨done, done⟩

end Machine

section Histories

variable [Crc32c] {s s0 : Running} {d : Dir} {number flushed : Nat} {state : VersionState}
  {log : List WalEntry} {base done : List Op} {m m' : Machine} {turn : Turn} {turns : List Turn}
  {t : Histories.State Op} {w : Bytes → Option Bytes} {options : Options}

omit [Crc32c] in
theorem Scannable.scans (h : Scannable s.dir s.db flushed) (hSeq : s.db.memtable.seq = s.last)
    (hLast : s.last ≤ maxSequence) (hContents : Represents s.contents w) : s.Scans w := by
  have hBound : s.db.memtable.seq < 2 ^ 64 := by
    rw [hSeq]
    exact hLast.trans_lt (by decide)
  obtain ⟨it, hIt, hOrder, hItems⟩ := h.iteratorAt hBound s.last
  refine ⟨it, hIt, hOrder, fun k v => (hItems k v).trans ?_⟩
  have hLe : ∀ x ∈ s.contents, Versioned.Version.key x = k → Versioned.Version.seq x ≤ s.last :=
    fun x hx _ => hSeq ▸ h.contents_le x hx
  exact (Reads.congr_seq hLe hLast).trans ((hContents k _).trans eq_comm)

theorem Traced.scans (h : Traced base done s flushed log) (hLast : s.last ≤ maxSequence) :
    s.Scans (written done) := by
  refine h.ok.inv.scannable.scans h.ok.inv.seq hLast ?_
  obtain ⟨done', -, -, hAll, hReads⟩ := h.viewed log List.prefix_rfl
  obtain rfl := hAll rfl
  rw [← h.ok.contents_eq]
  exact represents_of_reads (h.ok.contents_eq ▸ h.ok.inv.distinct_contents) hReads

/-- What is asleep opens, also behind a manifest that is cut. -/
theorem Asleep.opens (h : Asleep d number state log)
    (hContents : Represents (stored d state.current ∪ logVersions log) w) (options : Options) :
    ∃ s, opened options d = some s ∧ s.Scans w := by
  obtain ⟨s, hOpen, hRe⟩ := h.openable.reopens options
  have hSeq : s.db.memtable.seq = s.last := by
    rw [hRe.mem]
    exact hRe.lastSequence.symm
  refine ⟨s, hOpen, (hRe.scannable h.shape h.openable.numbered).scans hSeq ?_ ?_⟩
  · exact hRe.lastSequence.trans_le h.shape.last
  · rwa [Running.contents, hRe.contents]

theorem Machine.Tracks.shows (h : Tracks m t) : m.Shows (written t.done) := by
  cases h with
  | up hTraced hLast => exact hTraced.scans hLast
  | down hAsleep hContents => exact hAsleep.opens hContents

/-- Every turn does to the history what it stands for. -/
theorem Machine.Step.tracks (h : Step m turn m') (hTracks : Tracks m t) :
    ∃ t', Histories.Step t turn.event t' ∧ Tracks m' t' := by
  cases h with
  | call hFair hRun =>
    cases hTracks with
    | up hTraced _ =>
      obtain ⟨base', _, _, hBase, hSaves, h'⟩ := hTraced.step_saves hFair hRun
      obtain ⟨_, hPrefix, hSub, -⟩ := h'.viewed [] List.nil_prefix
      exact ⟨⟨base', _⟩, .did hBase (hPrefix.trans hSub) hSaves,
        .up h' (hFair.last_le hTraced.ok hRun)⟩
  | stop hAmple hReady hStopped hReboots =>
    cases hTracks with
    | up hTraced _ =>
      obtain ⟨_, _, _, hAsleep, hLeft⟩ := hTraced.stops hAmple hReady hStopped hReboots
      obtain ⟨done, hBase, hSub, hSync, hContents⟩ := hTraced.recovers hAmple hLeft
      exact ⟨⟨done, done⟩, .cut hBase hSub hSync, .down hAsleep hContents⟩
  | start hUntorn hOpen =>
    cases hTracks with
    | @down _ done _ _ _ hAsleep hContents =>
      obtain ⟨flushed, hTraced, hLast⟩ := hAsleep.starts hUntorn hContents hOpen
      refine ⟨⟨done, done⟩,
        .cut List.prefix_rfl (List.prefix_append _ _) fun _ => List.prefix_rfl, ?_⟩
      exact .up hTraced hLast
  | stopStarting hUntorn hRoomy hStops hReboots =>
    cases hTracks with
    | @down _ done _ _ _ hAsleep hContents =>
      obtain ⟨_, _, _, hAsleep', hBack⟩ := hAsleep.stops hUntorn hRoomy hStops hReboots
      have hContents' := hBack.represents hContents
      refine ⟨⟨done, done⟩,
        .cut List.prefix_rfl (List.prefix_append _ _) fun _ => List.prefix_rfl, ?_⟩
      exact .down hAsleep' hContents'

theorem Machine.Tracks.run (hTracks : Tracks m t) (h : Histories.Runs Machine.Step m turns m') :
    ∃ t', Histories.Runs Histories.Step t (turns.map Turn.event) t' ∧ Tracks m' t' :=
  h.simulates (fun hStep hTracks => hStep.tracks hTracks) hTracks

theorem Machine.Tracks.new (h : opened options ∅ = some s0) : Tracks (.up s0) ⟨[], []⟩ := by
  refine .up (Traced.start h) ?_
  rw [Running.last, (opened_new h).2.1.state]
  exact Nat.zero_le _

/-- However often the machine stops, in calls, between them or in openings, the database shows what
is left of the history of its calls: at each stop some first calls, among them those that were safe,
and all that returned if writes are synced.  The conditions are those of `Machine.Step`: no manifest
is torn when it is opened again, and the calls take no snapshots, fit and have room. -/
theorem restarts_follow_history (hStart : opened options ∅ = some s0)
    (hRun : Histories.Runs Machine.Step (.up s0) turns m) :
    ∃ t, Histories.Runs Histories.Step ⟨[], []⟩ (turns.map Turn.event) t ∧
    m.Shows (written t.done) := by
  obtain ⟨t, hRuns, hTracks⟩ := (Machine.Tracks.new hStart).run hRun
  exact ⟨t, hRuns, hTracks.shows⟩

/-- With synced writes no call that returned is lost, however often the machine stops, under the
conditions of `Machine.Step`. -/
theorem synced_calls_survive (hStart : opened options ∅ = some s0)
    (hRun : Histories.Runs Machine.Step (.up s0) turns m)
    (hSynced : ∀ next, Turn.stop next false ∉ turns) :
    ∃ done, (turns.flatMap Turn.returned).Sublist done ∧ done.Sublist (turns.flatMap Turn.begun) ∧
      m.Shows (written done) := by
  obtain ⟨t, hRuns, hTracks⟩ := (Machine.Tracks.new hStart).run hRun
  have hReturned := Histories.returned_sublist hRuns (Turn.keeps hSynced)
  have hBegun := Histories.done_sublist hRuns
  rw [List.nil_append, List.flatMap_map] at hReturned hBegun
  exact ⟨t.done, hReturned, hBegun, hTracks.shows⟩

/-- What the database shows after a flush, a reopening or a stop of the machine it shows for ever,
with some of the calls begun since, in their order, under the conditions of `Machine.Step`. -/
theorem saved_calls_stay (hStart : opened options ∅ = some s0)
    (hRun : Histories.Runs Machine.Step (.up s0) (turns ++ [turn]) m) (hSaves : turn.event.saves)
    {later : List Turn} (hLater : Histories.Runs Machine.Step m later m') :
    ∃ done rest, m.Shows (written done) ∧ rest.Sublist (later.flatMap Turn.begun) ∧
      m'.Shows (written (done ++ rest)) := by
  obtain ⟨m₁, hFirst, hStep⟩ := hRun.last_step
  obtain ⟨t₁, -, hTracks₁⟩ := (Machine.Tracks.new hStart).run hFirst
  obtain ⟨t, hStep, hTracks⟩ := hStep.tracks hTracks₁
  obtain ⟨t', hRuns, hTracks'⟩ := hTracks.run hLater
  obtain ⟨rest, hDone, hRest⟩ := Histories.exists_rest hRuns (hStep.saved hSaves)
  rw [List.flatMap_map] at hRest
  exact ⟨t.done, rest, hTracks.shows, hRest, hDone ▸ hTracks'.shows⟩

end Histories

section Losing

variable [Crc32c] {s : Running} {d : Dir} {vs : VersionSet} {t : Histories.State Op}

/-- The directory with what is certainly on the disk when the machine stops, if of the other files
all is. -/
def Running.worst (s : Running) : Option Dir :=
  if ∀ e ∈ AList.entries s.dir, e.1 ≠ .log s.db.walNumber → e.2.synced = e.2.bytes.length then
    (s.dir.lookup (.log s.db.walNumber)).map fun f =>
      s.dir.insert (.log s.db.walNumber) (f.cut f.synced).rested
  else none

theorem InStep.untorn (h : InStep (vs, d)) : d.Untorn := by
  intro number ⟨f, hf, hName⟩
  obtain ⟨g, hg, hName'⟩ := h.said.1
  obtain rfl := Option.some.inj (hf.symm.trans hg)
  obtain rfl := Except.ok.inj (hName.symm.trans hName')
  exact h.whole

theorem InStep.roomy (h : InStep (vs, d)) (hRoom : vs.nextFileNumber + 4 < 2 ^ 64) : d.Roomy := by
  intro number state hSays
  rw [hSays.unique h.said]
  exact hRoom

theorem Machine.Tracks.worst (h : Tracks (.up s) t) (hAmple : s.Ample) (hWorst : s.worst = some d) :
    Step (.up s) (.stop none s.db.options.syncWrites) (.down d) ∧ d.Untorn ∧ d.Roomy := by
  unfold Running.worst at hWorst
  split at hWorst
  swap
  · contradiction
  next hRested =>
  obtain ⟨f, hf, rfl⟩ := Option.map_eq_some_iff.mp hWorst
  cases h with
  | up hTraced _ =>
    have hFrame : s.dir.Frame {.log s.db.walNumber}
        (s.dir.insert (.log s.db.walNumber) (f.cut f.synced).rested) :=
      fun name hName => AList.lookup_insert_ne (by simpa using hName)
    have hInStep := hTraced.ok.inv.manifest.frame hFrame (by simp) (by simp)
    refine ⟨.stop hAmple (by simp) (.inl rfl) ⟨s.dir.insert (.log s.db.walNumber) (f.cut f.synced),
      Survives.cut hf le_rfl, fun name => ?_⟩, hInStep.untorn, hInStep.roomy ?_⟩
    · by_cases hName : name = .log s.db.walNumber
      · subst hName
        rw [AList.lookup_insert, AList.lookup_insert]
        rfl
      · rw [AList.lookup_insert_ne hName, AList.lookup_insert_ne hName]
        cases hg : s.dir.lookup name with
        | none => rfl
        | some g =>
          rw [Option.map_some, File.rested, ← hRested ⟨name, g⟩ (AList.mem_lookup_iff.mp hg) hName]
    · change s.db.versionSet.nextFileNumber + 4 < 2 ^ 64
      have := hTraced.ok.inv.next
      have := hAmple.next
      omega

/-- The machine may stop in an opening before that has done anything. -/
theorem stops_at_once (options : Options) (d : Dir) :
    StopsIn (Db.open options : St Unit Db) () d d :=
  ⟨[.crash 0], by simp [Stops], (), ⟨d, []⟩, rfl, rfl⟩

end Losing

/-- A put that is in the log is lost when the machine stops. -/
theorem restarts_follow_history_lost :
    let options : Options := { disableAutoCompaction := true, syncWrites := false }
    let turns : List Turn := [.call (.put [97] [1]), .stop none false, .start options]
    ∃ s0 m, opened options ∅ = some s0 ∧ Histories.Runs Machine.Step (.up s0) turns m ∧
      ∃ t, Histories.Runs Histories.Step ⟨[], []⟩ (turns.map Turn.event) t ∧
        m.Shows (written t.done) := by
  intro options turns
  have h : (opened options ∅).any (fun s0 => (Op.put [97] [1]).Fair s0 ∧
      ((Op.put [97] [1]).run s0).any fun s1 => s1.Ample ∧ s1.db.options.syncWrites = false ∧
        s1.worst.any fun d => (opened options d).isSome) = true := by
    decide +kernel
  obtain ⟨s0, hStart, h⟩ := (Option.any_eq_true _ _).mp h
  obtain ⟨hFair, h⟩ := of_decide_eq_true h
  obtain ⟨s1, hPut, h⟩ := (Option.any_eq_true _ _).mp h
  obtain ⟨hAmple, hSync, h⟩ := of_decide_eq_true h
  obtain ⟨d, hWorst, h⟩ := (Option.any_eq_true _ _).mp h
  obtain ⟨s2, hOpen⟩ := Option.isSome_iff_exists.mp h
  have hCall : Machine.Step (.up s0) (.call (.put [97] [1])) (.up s1) := .call hFair hPut
  obtain ⟨t, -, hTracks⟩ := hCall.tracks (Machine.Tracks.new hStart)
  obtain ⟨hStop, hUntorn, -⟩ := hTracks.worst hAmple hWorst
  rw [hSync] at hStop
  have hRun : Histories.Runs Machine.Step (.up s0) turns (.up s2) :=
    .cons hCall (.cons hStop (.cons (.start hUntorn hOpen) (.nil _)))
  exact ⟨s0, .up s2, hStart, hRun, restarts_follow_history hStart hRun⟩

/-- The machine stops between two calls, in the opening after that, and once more. -/
theorem synced_calls_survive_thrice :
    let turns : List Turn := [.call (.put [97] [1]), .stop none true,
      .stopStarting eager, .start eager, .call (.delete [97]), .stop none true]
    ∃ s0 m, opened eager ∅ = some s0 ∧ Histories.Runs Machine.Step (.up s0) turns m ∧
      ∃ done, (turns.flatMap Turn.returned).Sublist done ∧ done.Sublist (turns.flatMap Turn.begun) ∧
        m.Shows (written done) := by
  intro turns
  have h : (opened eager ∅).any (fun s0 => (Op.put [97] [1]).Fair s0 ∧
      ((Op.put [97] [1]).run s0).any fun s1 => s1.Ample ∧ s1.db.options.syncWrites = true ∧
        s1.worst.any fun d1 => (opened eager d1).any fun s2 => (Op.delete [97]).Fair s2 ∧
          ((Op.delete [97]).run s2).any fun s3 => s3.Ample ∧ s3.db.options.syncWrites = true ∧
            s3.worst.isSome) = true := by
    decide +kernel
  obtain ⟨s0, hStart, h⟩ := (Option.any_eq_true _ _).mp h
  obtain ⟨hFair, h⟩ := of_decide_eq_true h
  obtain ⟨s1, hPut, h⟩ := (Option.any_eq_true _ _).mp h
  obtain ⟨hAmple, hSync, h⟩ := of_decide_eq_true h
  obtain ⟨d1, hWorst, h⟩ := (Option.any_eq_true _ _).mp h
  obtain ⟨s2, hOpen, h⟩ := (Option.any_eq_true _ _).mp h
  obtain ⟨hFair2, h⟩ := of_decide_eq_true h
  obtain ⟨s3, hDelete, h⟩ := (Option.any_eq_true _ _).mp h
  obtain ⟨hAmple3, hSync3, h⟩ := of_decide_eq_true h
  obtain ⟨d3, hWorst3⟩ := Option.isSome_iff_exists.mp h
  have hCall : Machine.Step (.up s0) (.call (.put [97] [1])) (.up s1) := .call hFair hPut
  obtain ⟨t1, -, hTracks1⟩ := hCall.tracks (Machine.Tracks.new hStart)
  obtain ⟨hStop, hUntorn, hRoomy⟩ := hTracks1.worst hAmple hWorst
  have hAgain : Reboots d1 d1 := by
    cases hStop with
    | stop _ _ _ hReboots => exact hReboots.again
  have hStart2 : Machine.Step (.down d1) (.start eager) (.up s2) := .start hUntorn hOpen
  have hCall2 : Machine.Step (.up s2) (.call (.delete [97])) (.up s3) := .call hFair2 hDelete
  obtain ⟨t2, -, hTracks2⟩ := hStop.tracks hTracks1
  obtain ⟨t3, -, hTracks3⟩ := hStart2.tracks hTracks2
  obtain ⟨t4, -, hTracks4⟩ := hCall2.tracks hTracks3
  obtain ⟨hStop2, -⟩ := hTracks4.worst hAmple3 hWorst3
  rw [hSync] at hStop
  rw [hSync3] at hStop2
  have hRun : Histories.Runs Machine.Step (.up s0) turns (.down d3) :=
    .cons hCall <| .cons hStop <|
      .cons (.stopStarting hUntorn hRoomy (stops_at_once eager d1) hAgain) <|
      .cons hStart2 <| .cons hCall2 <| .cons hStop2 (.nil _)
  exact ⟨s0, .down d3, hStart, hRun, synced_calls_survive hStart hRun (by simp [turns])⟩

/-- A put that was flushed is there after the machine has stopped. -/
theorem saved_calls_stay_flushed :
    let options : Options := { disableAutoCompaction := true, syncWrites := false }
    let turns : List Turn := [.call (.put [97] [1])]
    let later : List Turn := [.call (.delete [97]), .stop none false, .start options]
    ∃ s0 m m', opened options ∅ = some s0 ∧
      Histories.Runs Machine.Step (.up s0) (turns ++ [.call .flush]) m ∧
      Histories.Runs Machine.Step m later m' ∧
      ∃ done rest, m.Shows (written done) ∧ rest.Sublist (later.flatMap Turn.begun) ∧
        m'.Shows (written (done ++ rest)) := by
  intro options turns later
  have h : (opened options ∅).any (fun s0 => (Op.put [97] [1]).Fair s0 ∧
      ((Op.put [97] [1]).run s0).any fun s1 => Op.flush.Fair s1 ∧ (Op.flush.run s1).any fun s2 =>
        (Op.delete [97]).Fair s2 ∧ ((Op.delete [97]).run s2).any fun s3 => s3.Ample ∧
          s3.db.options.syncWrites = false ∧
            s3.worst.any fun d => (opened options d).isSome) = true := by
    decide +kernel
  obtain ⟨s0, hStart, h⟩ := (Option.any_eq_true _ _).mp h
  obtain ⟨hFair, h⟩ := of_decide_eq_true h
  obtain ⟨s1, hPut, h⟩ := (Option.any_eq_true _ _).mp h
  obtain ⟨hFair1, h⟩ := of_decide_eq_true h
  obtain ⟨s2, hFlush, h⟩ := (Option.any_eq_true _ _).mp h
  obtain ⟨hFair2, h⟩ := of_decide_eq_true h
  obtain ⟨s3, hDelete, h⟩ := (Option.any_eq_true _ _).mp h
  obtain ⟨hAmple, hSync, h⟩ := of_decide_eq_true h
  obtain ⟨d, hWorst, h⟩ := (Option.any_eq_true _ _).mp h
  obtain ⟨s4, hOpen⟩ := Option.isSome_iff_exists.mp h
  have hRun : Histories.Runs Machine.Step (.up s0) (turns ++ [.call .flush]) (.up s2) :=
    .cons (.call hFair hPut) (.cons (.call hFair1 hFlush) (.nil _))
  obtain ⟨t2, -, hTracks2⟩ := (Machine.Tracks.new hStart).run hRun
  have hCall : Machine.Step (.up s2) (.call (.delete [97])) (.up s3) := .call hFair2 hDelete
  obtain ⟨t3, -, hTracks3⟩ := hCall.tracks hTracks2
  obtain ⟨hStop, hUntorn, -⟩ := hTracks3.worst hAmple hWorst
  rw [hSync] at hStop
  have hLater : Histories.Runs Machine.Step (.up s2) later (.up s4) :=
    .cons hCall (.cons hStop (.cons (.start hUntorn hOpen) (.nil _)))
  exact ⟨s0, .up s2, .up s4, hStart, hRun, hLater, saved_calls_stay hStart hRun rfl hLater⟩

end MulanLsm
