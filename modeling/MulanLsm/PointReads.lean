import MulanLsm.TableBytes
import MulanLsm.Views

/-! Point reads of a running database.  Its tables are as builders make them; as long as their sizes
are such that readers can do with them, `get` and `get_at` give what the map that the database
stands for says. -/

namespace MulanLsm

open Sstable (tableBytes)

/-- The file has sizes that readers can do with, if it is a table. -/
def File.Sized (f : File) : Prop :=
  ∀ blockTarget bitsPerKey es, f.bytes = tableBytes blockTarget bitsPerKey es →
    Sstable.Sized blockTarget bitsPerKey es

/-- The tables of the current version have sizes that readers can do with. -/
def Running.Sized (s : Running) : Prop :=
  ∀ level, ∀ f ∈ s.db.versionSet.current.filesAt level,
    ∀ file ∈ s.dir.lookup (.sst f.number), file.Sized

/-- The tables of the current version are below 512 MiB. -/
def Running.Short (s : Running) : Prop :=
  ∀ f ∈ s.db.versionSet.current.allFiles,
    ∀ file ∈ s.dir.lookup (.sst f.number), file.bytes.length < 2 ^ 29

instance (s : Running) : Decidable s.Short := by unfold Running.Short; infer_instance

/-- The call leaves tables that have sizes that readers can do with. -/
def Op.Sized [Crc32c] (op : Op) (s : Running) : Prop := ∀ s', op.run s = some s' → s'.Sized

theorem Running.Short.sized {s : Running} (h : s.Short) : s.Sized := by
  intro level f hf file hFile blockTarget bitsPerKey es hBytes
  apply Sstable.sized_of_length
  rw [← hBytes]
  exact h f (mem_allFiles.mpr ⟨level, hf⟩) file hFile

section Building

variable [Crc32c] {s s' : Running} {options : Options} {op : Op}

omit [Crc32c] in
/-- The bytes of tables with such sizes give what the entries do. -/
theorem Running.Built.serves (h : s.Built)
    (hSeqs : ∀ level, ∀ f ∈ s.db.versionSet.current.filesAt level,
      ∀ e ∈ s.dir.entries f.number, e.1.seq < 2 ^ 64)
    (hSized : s.Sized) : s.Serves := by
  intro level f hf r hReader key q hq
  obtain ⟨file, hFile, hr⟩ := Option.bind_eq_some_iff.mp hReader
  obtain ⟨es, hTable, rfl⟩ := Option.map_eq_some_iff.mp hr
  obtain ⟨hOrder, blockTarget, bitsPerKey, -, hBytes⟩ := h.faithful f.number file hFile es hTable
  have hEntries : s.dir.entries f.number = es := by
    rw [Dir.entries, Dir.table_of_reader hReader]
    rfl
  obtain ⟨table, -, hOpen, hReads, -⟩ := (hSized level f hf file hFile _ _ _ hBytes).readsAs hOrder
    (hEntries ▸ hSeqs level f hf)
  rw [TableReader.getEntry, hBytes, hOpen]
  exact hReads key q hq

theorem Inv.serves {flushed : Nat} {log : List WalEntry} (h : Inv s.dir s.db flushed log)
    (hBuilt : s.Built) (hLast : s.last < 2 ^ 64) (hSized : s.Sized) : s.Serves :=
  hBuilt.serves (fun level f hf e he =>
    (((h.tables level f hf).seqs e he).trans h.flushedLe).trans_lt hLast) hSized

end Building

section Runs

variable [Crc32c] {s s' s0 : Running} {options : Options} {op : Op} {ops : List Op}

/-- A condition on calls may use what holds of every state that they lead to. -/
theorem Along.under {C C' : Op → Running → Prop} {I : Running → Prop}
    (hStep : ∀ op s s', C op s → I s → op.run s = some s' → I s')
    (hC : ∀ op s, I s → C op s → C' op s) (h : Along C ops s) (hI : I s) : Along C' ops s := by
  induction ops generalizing s with
  | nil => trivial
  | cons op ops ih =>
    exact ⟨hC op s hI h.1, fun s' hRun => ih (h.2 s' hRun) (hStep op s s' h.1 hI hRun)⟩

/-- The database is in step with its directory, its tables are as builders make them, and its
sequence numbers fit their type. -/
def Running.Stands (s : Running) : Prop :=
  (∃ flushed log, s.Ok flushed log) ∧ s.Built ∧ s.last < 2 ^ 64

theorem Running.Stands.serves (h : s.Stands) (hSized : s.Sized) : s.Serves := by
  obtain ⟨⟨flushed, log, hOk⟩, hBuilt, hLast⟩ := h
  exact hOk.inv.serves hBuilt hLast hSized

theorem Running.Stands.step (h : s.Stands) (hSound : op.Sound s) (hRun : op.run s = some s') :
    s'.Stands := by
  obtain ⟨⟨flushed, log, hOk⟩, hBuilt, -⟩ := h
  obtain ⟨s₁, hRun₁, hOk₁, hDid⟩ := hSound.run hOk
  obtain rfl := Option.some.inj (hRun₁.symm.trans hRun)
  exact ⟨hOk₁, Op.run_built hBuilt hRun, hDid.last_lt hOk hSound.2⟩

theorem opened_stands (hStart : opened options ∅ = some s0) : s0.Stands := by
  obtain ⟨hOk, hCreated, -⟩ := opened_new hStart
  exact ⟨⟨_, _, hOk⟩, opened_built faithful_empty hStart, hCreated.last_lt⟩

/-- As long as every compaction appends its files in order, and the tables have sizes that readers
can do with, a reader gets what was written last, wherever the flushes, the compactions and the
reopenings are. -/
theorem get_returns_last_write (hStart : opened options ∅ = some s0)
    (hOps : Along (fun op s => op.Sound s ∧ op.Plain ∧ op.InOrder s ∧ s.Sized) ops s0) :
    ∃ s, opsRun ops s0 = some s ∧
      (s.Sized → ∀ k, readNow k s.db s.dir = some (written ops k)) := by
  have hOrder : Along (fun op s => op.Sound s ∧ op.Plain ∧ op.InOrder s) ops s0 :=
    hOps.under (I := fun _ => True) (fun _ _ _ _ _ _ => trivial)
      (fun _ _ _ hC => ⟨hC.1, hC.2.1, hC.2.2.1⟩) trivial
  obtain ⟨s, flushed, log, hRun, hOk, hView, hLast⟩ := hOrder.refines hStart
  have hBuilt := opsRun_built (opened_built faithful_empty hStart) hRun
  exact ⟨s, hRun, fun hSized => hOk.readNow hView (hOk.inv.serves hBuilt hLast hSized) hLast⟩

end Runs

theorem get_returns_last_write_between :
    let ops : List Op := [.put [97] [1], .compact, .put [98] [2], .compact, .reopen eager,
      .delete [98], .compact]
    ∃ s0, opened eager ∅ = some s0 ∧
      Along (fun op s => op.Sound s ∧ op.Plain ∧ op.InOrder s ∧ s.Sized) ops s0 ∧
      ∃ s, opsRun ops s0 = some s ∧ ∀ k, readNow k s.db s.dir = some (written ops k) := by
  intro ops
  have h : (opened eager ∅).any (fun s0 =>
      Along (fun op s => op.Sound s ∧ op.Plain ∧ op.InOrder s ∧ s.Short) ops s0 ∧
      ∀ s ∈ opsRun ops s0, s.Short) = true := by
    decide +kernel
  obtain ⟨s0, hStart, h⟩ := (Option.any_eq_true _ _).mp h
  obtain ⟨hAll, hShort⟩ := of_decide_eq_true h
  have hOps : Along (fun op s => op.Sound s ∧ op.Plain ∧ op.InOrder s ∧ s.Sized) ops s0 :=
    hAll.under (I := fun _ => True) (fun _ _ _ _ _ _ => trivial)
      (fun _ _ _ hC => ⟨hC.1, hC.2.1, hC.2.2.1, hC.2.2.2.sized⟩) trivial
  obtain ⟨s, hRun, hReads⟩ := get_returns_last_write hStart hOps
  exact ⟨s0, hStart, hOps, s, hRun, hReads (hShort s hRun).sized⟩

/-- A file that a compaction appends behind one with larger keys hides it from the search. -/
theorem last_write_not_found :
    let ops : List Op := [.put [109] [1], .compact, .put [97] [2], .compact]
    ∃ s0, opened eager ∅ = some s0 ∧ Along (fun op s => op.Sound s ∧ op.Plain) ops s0 ∧
      ∃ s, opsRun ops s0 = some s ∧ s.Sized ∧ written ops [109] = some [1] ∧
        readNow [109] s.db s.dir = some none := by
  intro ops
  have h : (opened eager ∅).any (fun s0 => Along (fun op s => op.Sound s ∧ op.Plain) ops s0 ∧
      ((opsRun ops s0).any fun s => s.Short ∧ written ops [109] = some [1] ∧
        readNow [109] s.db s.dir = some none)) = true := by
    decide +kernel
  obtain ⟨s0, hStart, h⟩ := (Option.any_eq_true _ _).mp h
  obtain ⟨hOps, h⟩ := of_decide_eq_true h
  obtain ⟨s, hRun, hs⟩ := (Option.any_eq_true _ _).mp h
  obtain ⟨hShort, hRest⟩ := of_decide_eq_true hs
  exact ⟨s0, hStart, hOps, s, hRun, hShort.sized, hRest⟩

section Snapshots

variable [Crc32c] {s0 : Running} {options : Options} {ops : List Op}

/-- As long as every compaction appends its files in order and cuts off none between two versions of
a key, a snapshot that is released shares its sequence number with no other, and the tables have
sizes that readers can do with, a snapshot shows what it showed when it was taken. -/
theorem snapshots_stay (hStart : opened options ∅ = some s0)
    (hOps : Along (fun op s => op.Sound s ∧ op.InOrder s ∧ op.Whole s ∧ op.Unshared s ∧ s.Sized)
      ops s0) :
    ∃ s, opsRun ops s0 = some s ∧ (s.Sized →
      ∀ g ∈ s.guards, ∀ k, (g.seen k).isSome ∧ readAt g.seq k s.db s.dir = g.seen k) := by
  have hServed : Along (fun op s => op.Sound s ∧ op.InOrder s ∧ op.Whole s ∧ op.Unshared s ∧
      (op = .snapshot → s.Serves)) ops s0 := by
    refine hOps.under (I := Running.Stands) (fun _ _ _ hC hI hRun => hI.step hC.1 hRun) ?_
      (opened_stands hStart)
    rintro op s hI ⟨hSound, hOrder, hWhole, hShared, hSized⟩
    exact ⟨hSound, hOrder, hWhole, hShared, fun _ => hI.serves hSized⟩
  obtain ⟨s, flushed, log, hRun, hOk, hView, hLast, hHolds⟩ := hServed.holds hStart
  have hBuilt := opsRun_built (opened_built faithful_empty hStart) hRun
  refine ⟨s, hRun, fun hSized g hg k => ?_⟩
  obtain ⟨-, hLe, hReads⟩ := hHolds g hg
  obtain ⟨r, hr, hReads⟩ := hReads k
  rw [hr, hOk.readAt hView (hOk.inv.serves hBuilt hLast hSized) (hLe.trans_lt hLast) hReads]
  exact ⟨rfl, rfl⟩

end Snapshots

theorem snapshots_stay_overwritten :
    let ops : List Op := [.put [97] [1], .snapshot, .put [97] [2], .compact,
      .snapshot, .delete [97], .release 1, .compact]
    ∃ s0, opened eager ∅ = some s0 ∧
      Along (fun op s => op.Sound s ∧ op.InOrder s ∧ op.Whole s ∧ op.Unshared s ∧ s.Sized) ops s0 ∧
      ∃ s, opsRun ops s0 = some s ∧
        ∀ g ∈ s.guards, ∀ k, (g.seen k).isSome ∧ readAt g.seq k s.db s.dir = g.seen k := by
  intro ops
  have h : (opened eager ∅).any (fun s0 =>
      Along (fun op s => op.Sound s ∧ op.InOrder s ∧ op.Whole s ∧ op.Unshared s ∧ s.Short) ops s0 ∧
      ∀ s ∈ opsRun ops s0, s.Short) = true := by
    decide +kernel
  obtain ⟨s0, hStart, h⟩ := (Option.any_eq_true _ _).mp h
  obtain ⟨hAll, hShort⟩ := of_decide_eq_true h
  have hOps : Along (fun op s => op.Sound s ∧ op.InOrder s ∧ op.Whole s ∧ op.Unshared s ∧ s.Sized)
      ops s0 :=
    hAll.under (I := fun _ => True) (fun _ _ _ _ _ _ => trivial)
      (fun _ _ _ hC => ⟨hC.1, hC.2.1, hC.2.2.1, hC.2.2.2.1, hC.2.2.2.2.sized⟩) trivial
  obtain ⟨s, hRun, hStays⟩ := snapshots_stay hStart hOps
  exact ⟨s0, hStart, hOps, s, hRun, hStays (hShort s hRun).sized⟩

/-- Of two snapshots at one sequence number, the release of one lets a compaction drop what the
other shows. -/
theorem snapshot_lost :
    let ops : List Op := [.put [97] [1], .snapshot, .snapshot, .release 0, .put [97] [2], .compact]
    ∃ s0, opened eager ∅ = some s0 ∧ Along (fun op s => op.Sound s) ops s0 ∧
      ∃ s, opsRun ops s0 = some s ∧ s.Sized ∧ ∃ g ∈ s.guards,
        g.seen [97] = some (some [1]) ∧ readAt g.seq [97] s.db s.dir = some none := by
  intro ops
  have h : (opened eager ∅).any (fun s0 => Along (fun op s => op.Sound s) ops s0 ∧
      ((opsRun ops s0).any fun s => s.Short ∧ ∃ g ∈ s.guards, g.seen [97] = some (some [1]) ∧
        readAt g.seq [97] s.db s.dir = some none)) = true := by
    decide +kernel
  obtain ⟨s0, hStart, h⟩ := (Option.any_eq_true _ _).mp h
  obtain ⟨hOps, h⟩ := of_decide_eq_true h
  obtain ⟨s, hRun, hs⟩ := (Option.any_eq_true _ _).mp h
  obtain ⟨hShort, hRest⟩ := of_decide_eq_true hs
  exact ⟨s0, hStart, hOps, s, hRun, hShort.sized, hRest⟩

end MulanLsm
