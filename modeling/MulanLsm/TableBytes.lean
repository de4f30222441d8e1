import MulanLsm.CompactionsEnd
import MulanLsm.TableFiles

/-! The table files of a database whatever has happened to it: calls that fail anywhere, machine
stops that leave a part of what was written, and openings. -/

namespace MulanLsm

open Sstable (ReadsAs)

theorem File.Faithful.cut {P : Nat → Nat → Prop} {f : File} (h : f.Faithful P) (n : Nat) :
    (f.cut n).Faithful P := by
  intro es hTable
  unfold File.cut at hTable ⊢
  dsimp only at hTable ⊢
  split at hTable
  · next hLength =>
    rw [List.take_of_length_le hLength]
    exact h es hTable
  · cases hTable

section Reaching

variable [Crc32c] {P : Nat → Nat → Prop} {x : Option Db} {d d' : Dir}

omit [Crc32c] in
theorem Dir.Faithful.survives (hd : d.Faithful P) (h : Survives d d') : d'.Faithful P := by
  intro n f hf
  rcases h (.sst n) with ⟨-, hNone⟩ | ⟨g, k, hg, -, hCut⟩
  · rw [hNone] at hf
    contradiction
  · rw [hCut] at hf
    obtain rfl := Option.some.inj hf
    exact (hd n g hg).cut k

/-- Whatever has happened, the tables are as builders make them, and the memory table is in
order. -/
theorem Reached.faithful (h : Reached x d) :
    d.Faithful (fun _ _ => True) ∧ ∀ db ∈ x, db.Tidy fun _ _ => True := by
  induction h with
  | start => exact ⟨fun n f hf => by simp at hf, by simp⟩
  | @opened d options os db w _ hOpen ih =>
    obtain ⟨hTidy, hd⟩ := Spec.returned (A := Any) hOpen (open_faithful trivial _ ih.1)
      fun _ _ => trivial
    exact ⟨hd, fun _ h => Option.some.inj h ▸ hTidy⟩
  | refused _ hEnds ih =>
    exact ⟨hEnds.of_spec (P := fun _ => Dir.Faithful fun _ _ => True)
      ((open_faithful trivial _ ih.1).mono
      (fun _ _ _ h => h.2) fun _ _ _ h => h.2), by simp⟩
  | @called d d' db db' c _ hEnds ih =>
    obtain ⟨hTidy, hd⟩ := hEnds.of_spec
      (P := fun db' d' => db'.Tidy (fun _ _ => True) ∧ d'.Faithful fun _ _ => True)
      (c.run_faithful (ih.2 db rfl) _ ih.1)
    exact ⟨hd, fun _ h => Option.some.inj h ▸ hTidy⟩
  | @read d d' db db' seq key _ hEnds ih =>
    obtain ⟨⟨cache, rfl⟩, hd⟩ := hEnds.of_spec
      (P := fun db' d' => (∃ tableCache, db' = { db with tableCache }) ∧
        d'.Faithful fun _ _ => True)
      (getAt_keeping seq key d ih.1)
    exact ⟨hd, fun _ h => Option.some.inj h ▸ ⟨(ih.2 db rfl).wal, (ih.2 db rfl).manifest,
      (ih.2 db rfl).sorted, trivial⟩⟩
  | @closed d d' db _ hEnds ih =>
    exact ⟨hEnds.of_spec (P := fun _ => Dir.Faithful fun _ _ => True)
      ((close_faithful (ih.2 db rfl).wal _ ih.1).mono
      (fun _ _ _ h => h.2) fun _ _ _ h => h.2), by simp⟩
  | stopped _ hSurvives ih => exact ⟨ih.1.survives hSurvives, by simp⟩

/-- Whatever has happened, a file below 512 MiB that counts as a table of the entries `es` is read
as they are: every lookup in its bytes finds what the entries have, and a scan gives them in
order. -/
theorem tables_read_as_entries (h : Reached x d) {n : Nat} {f : File} {es : List Entry}
    (hFile : d.lookup (.sst n) = some f) (hTable : f.table = some es)
    (hSeq : ∀ e ∈ es, e.1.seq < 2 ^ 64) (hShort : f.bytes.length < 2 ^ 29) :
    ReadsAs f.bytes es := by
  obtain ⟨hOrder, blockTarget, bitsPerKey, -, hBytes⟩ := h.faithful.1 n f hFile es hTable
  rw [hBytes] at hShort ⊢
  exact (Sstable.sized_of_length hShort).readsAs hOrder hSeq

end Reaching

/-- A key is put and flushed. -/
theorem tables_read_as_entries_flushed :
    ∃ db d n f es, Reached (some db) d ∧ d.lookup (.sst n) = some f ∧ f.table = some es ∧ es ≠ [] ∧
      ReadsAs f.bytes es := by
  have h : (Effects.returned ((Db.open eager : St Unit Db) ((), ⟨∅, []⟩))).any (fun p =>
      (Effects.returned ((Call.put [97] [1]).run (p.1, ⟨p.2.2.dir, []⟩))).any fun q =>
        (q.2.2.dir.lookup (.sst 3)).any fun f => f.table.any fun es =>
          es ≠ [] ∧ (∀ e ∈ es, e.1.seq < 2 ^ 64) ∧ f.bytes.length < 2 ^ 29) = true := by
    decide +kernel
  obtain ⟨⟨db₀, y, w₀⟩, hOpen, h⟩ := (Option.any_eq_true _ _).mp h
  obtain ⟨⟨a, db, w⟩, hPut, h⟩ := (Option.any_eq_true _ _).mp h
  obtain ⟨f, hFile, h⟩ := (Option.any_eq_true _ _).mp h
  obtain ⟨es, hTable, h⟩ := (Option.any_eq_true _ _).mp h
  obtain ⟨hSome, hSeq, hShort⟩ := of_decide_eq_true h
  have hReached : Reached (some db) w.dir :=
    (Reached.start.opened (Effects.returned_eq_some.mp hOpen)).called
      ⟨_, _, rfl, .inl ⟨_, Effects.returned_eq_some.mp hPut⟩⟩
  exact ⟨db, w.dir, 3, f, es, hReached, hFile, hTable, hSome,
    tables_read_as_entries hReached hFile hTable hSeq hShort⟩

end MulanLsm
