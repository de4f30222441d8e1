import MulanLsm.Faults
import MulanLsm.Scores
import MulanLsm.SstableReading

/-! The bytes of the table files in a directory.  Whatever a program of the database does, a file
that counts as a table of some entries has the bytes that a builder makes of them, and the entries
are in order.  So reading the bytes, block by block, gives what reading the entries does. -/

namespace MulanLsm

namespace Sstable

section Lengths

variable {b : TableBuilder}

/-- How long the file is once the data block is written. -/
def TableBuilder.reach (b : TableBuilder) : Nat :=
  b.file.length + if b.dataBlock.isEmpty then 0 else b.dataBlock.finish.length

theorem BlockBuilder.finish_length_le (b : BlockBuilder) (key value : Bytes) :
    b.finish.length ≤ (b.add key value).finish.length := by
  have hRestarts : b.restarts.length ≤ (b.add key value).restarts.length := by
    unfold BlockBuilder.add
    dsimp only
    split
    · rw [List.length_append]
      exact Nat.le_add_right _ _
    · exact le_rfl
  rw [Block.finish_length, Block.finish_length, BlockBuilder.add_buf, List.length_append]
  omega

theorem isEmpty_add (b : BlockBuilder) (key value : Bytes) : (b.add key value).isEmpty = false := by
  have hPos := BlockBuilder.entryBytes_length_pos b key value
  rw [BlockBuilder.isEmpty, BlockBuilder.add_buf, List.isEmpty_eq_false_iff]
  exact List.append_ne_nil_of_right_ne_nil _ (List.ne_nil_of_length_pos hPos)

theorem reach_flushDataBlock (b : TableBuilder) : b.flushDataBlock.reach = b.reach := by
  unfold TableBuilder.flushDataBlock
  split
  · rfl
  · next hSome =>
    show (b.file ++ b.dataBlock.finish).length + 0 = b.reach
    rw [TableBuilder.reach, if_neg hSome, List.length_append, Nat.add_zero]

theorem reach_addEntry (b : TableBuilder) (userKey key value : Bytes) :
    b.reach ≤ (b.addEntry userKey key value).reach ∧
      (b.addEntry userKey key value).dataBlock.finish.length ≤
      (b.addEntry userKey key value).reach := by
  obtain ⟨-, hFile, -, hData, -⟩ := indexPending_spec b
  have hGrows := BlockBuilder.finish_length_le b.dataBlock key value
  have hSome := isEmpty_add b.dataBlock key value
  have hFile' : (b.addEntry userKey key value).file = b.file := hFile
  have hData' : (b.addEntry userKey key value).dataBlock = b.dataBlock.add key value := by
    rw [← hData]
    rfl
  unfold TableBuilder.reach
  rw [hFile', hData', hSome, if_neg Bool.false_ne_true]
  constructor
  · split <;> omega
  · omega

theorem reach_add (b : TableBuilder) (userKey key value : Bytes) :
    (b.add userKey key value).reach = (b.addEntry userKey key value).reach := by
  unfold TableBuilder.add
  dsimp only
  split
  · exact reach_flushDataBlock _
  · rfl

/-- A finished file holds all that its builder had, and its index and filter. -/
theorem le_finish_length (b : TableBuilder) : b.reach ≤ b.finish.length ∧
    b.flushRest.indexBlock.finish.length ≤ b.finish.length ∧
    b.bloom.bits.length ≤ b.finish.length := by
  obtain ⟨-, hFile, -, -, hBloom, -⟩ := indexPending_spec b.flushDataBlock
  have hReach : b.reach = b.flushRest.file.length := by
    rw [TableBuilder.flushRest, hFile, ← reach_flushDataBlock, TableBuilder.reach]
    unfold TableBuilder.flushDataBlock
    split <;> rfl
  have hFilter : b.flushRest.bloom = b.bloom := by
    rw [TableBuilder.flushRest, hBloom]
    unfold TableBuilder.flushDataBlock
    split <;> rfl
  rw [hReach, ← hFilter]
  simp only [TableBuilder.finish, TableBuilder.writeRaw, List.length_append, BloomFilter.finish]
  omega

theorem reach_addAll (b : TableBuilder) (es : List (Bytes × Bytes × Bytes)) :
    b.reach ≤ (b.addAll es).reach := by
  induction es generalizing b with
  | nil => exact le_rfl
  | cons e es ih =>
    refine le_trans ?_ (ih (b.add e.1 e.2.1 e.2.2))
    rw [reach_add]
    exact (reach_addEntry b _ _ _).1

/-- No block is larger than its file. -/
theorem blocksSmall_of_length (b : TableBuilder) (es : List (Bytes × Bytes × Bytes))
    (h : (b.addAll es).finish.length < 2 ^ 32) : BlocksSmall b es := by
  induction es generalizing b with
  | nil => exact (le_finish_length b).2.1.trans_lt h
  | cons e es ih =>
    refine ⟨?_, ih (b.add e.1 e.2.1 e.2.2) h⟩
    have hAdded := (reach_addEntry b e.1 e.2.1 e.2.2).2
    rw [← reach_add] at hAdded
    have hAll := reach_addAll (b.add e.1 e.2.1 e.2.2) es
    have hFile := (le_finish_length ((b.add e.1 e.2.1 e.2.2).addAll es)).1
    exact (hAdded.trans (hAll.trans hFile)).trans_lt h

end Lengths

/-- The sizes that the readers of a table can do with: its data blocks and its index are below 4
GiB, and the number of bits of its filter, as a `u32`, is not 0. -/
structure Sized (blockTarget bitsPerKey : Nat) (es : List Entry) : Prop where
  blocks : BlocksSmall (TableBuilder.withOptions blockTarget bitsPerKey) (es.map keyed)
  filter : asU32 ((TableBuilder.withOptions blockTarget bitsPerKey).bloom.bits.length * 8) ≠ 0

/-- Reading `data` gives what reading the entries `es` does: every lookup, and a scan of the
table. -/
def ReadsAs (data : Bytes) (es : List Entry) : Prop :=
  ∃ r it, TableReader.open data = .ok r ∧
    (∀ k s, s < 2 ^ 64 → r.getEntry k s = .ok ((seek es k s).map typed)) ∧
    r.intoTableIter = .ok it ∧ it.items = es.map Entry.encode

section Sizes

variable {blockTarget bitsPerKey : Nat} {es : List Entry}

/-- A table below 512 MiB has such sizes. -/
theorem sized_of_length (h : (tableBytes blockTarget bitsPerKey es).length < 2 ^ 29) :
    Sized blockTarget bitsPerKey es := by
  refine ⟨blocksSmall_of_length _ _ (h.trans (by decide)), ?_⟩
  have hBits := (le_finish_length ((TableBuilder.withOptions blockTarget bitsPerKey).addAll
    (es.map keyed))).2.2.trans_lt h
  rw [addAll_bloom, BloomFilter.foldl_insert_length] at hBits
  have hPos : 8 ≤ (TableBuilder.withOptions blockTarget bitsPerKey).bloom.bits.length := by
    simp only [TableBuilder.withOptions, BloomFilter.ensureCapacity, List.length_replicate]
    omega
  rw [asU32, Nat.mod_eq_of_lt (by omega)]
  omega

/-- The most that a table of one entry takes. -/
theorem one_tableBytes_length (e : Entry) : (tableBytes blockTarget bitsPerKey [e]).length ≤
    (TableBuilder.withOptions blockTarget bitsPerKey).bloom.bits.length + 2 * e.1.userKey.length +
      e.2.length + 2 ^ 11 := by
  set b := (TableBuilder.withOptions blockTarget bitsPerKey).add e.1.userKey e.1.encode e.2 with hb
  have hParts {blocks : List Entries} {rest : Entries} (h : Built b blocks rest)
      (hAll : (if rest = [] then blocks else blocks ++ [rest]) = [[(e.1.encode, e.2)]]) :
      b.finish.length ≤ b.bloom.bits.length + 2 * e.1.userKey.length + e.2.length + 2 ^ 11 := by
    rw [finish_eq h, hAll]
    have hData := one_finish_length e.1.encode e.2
    have hIndex := one_finish_length e.1.encode
      (BlockHandle.encode ⟨0, (BlockBuilder.of [(e.1.encode, e.2)]).finish.length⟩)
    have hMeta := metaindex_small ⟨(dataBytes [[(e.1.encode, e.2)]]).length, b.bloom.finish.length⟩
    have hHandle := (handle_length ⟨0, (BlockBuilder.of [(e.1.encode, e.2)]).finish.length⟩).2
    have hKey := InternalKey.encode_length e.1
    have hLast : (BlockBuilder.of [(e.1.encode, e.2)]).lastKey = e.1.encode := rfl
    simp only [List.length_append, footer_length, dataBytes, List.flatMap_cons, List.flatMap_nil,
      List.append_nil, place, List.map_cons, List.map_nil, indexEntry, hLast, BloomFilter.finish,
      List.length_singleton, footerLen] at hMeta ⊢
    rw [keyFooterLen] at hKey
    omega
  have hBloom : b.bloom.bits.length =
      (TableBuilder.withOptions blockTarget bitsPerKey).bloom.bits.length := by
    rw [hb, add_bloom, BloomFilter.insert_length]
  rw [← hBloom]
  rcases (built_withOptions blockTarget bitsPerKey).1.add e.1.userKey e.1.encode e.2 with h | h
  · exact hParts h rfl
  · exact hParts h rfl

/-- Its filter lets the user keys of its entries through. -/
theorem Sized.mayContain (h : Sized blockTarget bitsPerKey es) {e : Entry} (he : e ∈ es) :
    ((TableBuilder.withOptions blockTarget bitsPerKey).addAll
      (es.map keyed)).bloom.mayContain e.1.userKey = true := by
  rw [addAll_bloom, List.map_map]
  exact BloomFilter.mayContain_foldl h.filter (List.mem_map_of_mem he)

/-- A table with such sizes whose entries are in order is read as they are. -/
theorem Sized.readsAs (h : Sized blockTarget bitsPerKey es) (hOrder : InOrder es)
    (hSeq : ∀ e ∈ es, e.1.seq < 2 ^ 64) : ReadsAs (tableBytes blockTarget bitsPerKey es) es := by
  obtain ⟨blocks, filterHandle, metaindexHandle, indexHandle, hFlat, hFilled, hTable, hk⟩ :=
    finish_addAll blockTarget bitsPerKey (es.map keyed) h.blocks
  rw [List.map_map] at hFlat
  replace hFlat : blocks.flatten = es.map Entry.encode := hFlat
  obtain ⟨it, hIter, hItems⟩ := intoTableIter_eq (r := ⟨_, indexHandle, some _⟩) hTable rfl rfl
  refine ⟨_, it, open_eq hTable hk, fun k s hs => ?_, hIter, hItems.trans hFlat⟩
  cases hMay : ((TableBuilder.withOptions blockTarget bitsPerKey).addAll
      (es.map keyed)).bloom.mayContain k with
  | true => exact getEntry_of_inOrder hTable hFilled hFlat hSeq hOrder hs hMay
  | false =>
    have hNone : seek es k s = none := by
      unfold seek
      rw [Option.filter_eq_none_iff]
      intro e he
      have hMem : e ∈ es := List.mem_of_find?_eq_some he
      intro hKey
      rw [← of_decide_eq_true hKey, h.mayContain hMem] at hMay
      cases hMay
    rw [TableReader.getEntry, if_pos (by simp [hMay]), hNone]
    rfl

end Sizes

end Sstable

open Sstable (tableBytes ReadsAs)

/-- A file that counts as a table has the bytes of a builder with such a block size and number of
bits for each key, of entries in order. -/
def File.Faithful (P : Nat → Nat → Prop) (f : File) : Prop :=
  ∀ es, f.table = some es → InOrder es ∧
    ∃ blockTarget bitsPerKey, P blockTarget bitsPerKey ∧
    f.bytes = tableBytes blockTarget bitsPerKey es

def Dir.Faithful (P : Nat → Nat → Prop) (d : Dir) : Prop :=
  ∀ n f, d.lookup (.sst n) = some f → f.Faithful P

section Files

variable {P : Nat → Nat → Prop}

theorem File.Faithful.append {f : File} (h : f.Faithful P) (bs : Bytes) :
    (f.append bs).Faithful P := by
  intro es hTable
  unfold File.append at hTable ⊢
  dsimp only at hTable ⊢
  split at hTable
  · next hNil =>
    rw [hNil, List.append_nil]
    exact h es hTable
  · cases hTable

end Files

section Builders

variable {b : TableBuilder} {file : Bytes} {e : Entry}

/-- The builder, and what it has written. -/
def TableBuilder.onBytes (b : TableBuilder) (file : Bytes) : Sstable.TableBuilder :=
  { file, dataBlock := b.dataBlock, indexBlock := b.indexBlock, fileOffset := b.fileOffset
    lastKey := b.lastKey, pendingIndexKey := b.pending.map (·.1),
    pendingHandle := b.pending.map (·.2)
    numEntries := b.entries.length, blockTarget := b.blockTarget, bloom := b.bloom }

theorem onBytes_indexPending (b : TableBuilder) (file : Bytes) :
    b.indexPending.onBytes file = (b.onBytes file).indexPending := by
  rcases b with ⟨_, _, _, _, _, _ | ⟨key, handle⟩, _, _, _⟩ <;> rfl

theorem onBytes_addEntry (b : TableBuilder) (file : Bytes) (e : Entry) :
    (b.addEntry e.1 e.2).onBytes file =
      (b.onBytes file).addEntry e.1.userKey e.1.encode e.2 := by
  rw [Sstable.TableBuilder.addEntry, ← onBytes_indexPending]
  simp [TableBuilder.addEntry, TableBuilder.onBytes]

/-- What `flushDataBlock` writes. -/
def TableBuilder.flushes (b : TableBuilder) : Bytes :=
  if b.dataBlock.isEmpty then [] else b.dataBlock.finish

theorem onBytes_flushed (b : TableBuilder) (file : Bytes) :
    b.flushed.onBytes (file ++ b.flushes) = (b.onBytes file).flushDataBlock := by
  unfold TableBuilder.flushed TableBuilder.flushes Sstable.TableBuilder.flushDataBlock
  by_cases hEmpty : b.dataBlock.isEmpty
  · have hEmpty' : (b.onBytes file).dataBlock.isEmpty := hEmpty
    rw [if_pos hEmpty, if_pos hEmpty, if_pos hEmpty', List.append_nil]
  · have hEmpty' : ¬(b.onBytes file).dataBlock.isEmpty := hEmpty
    rw [if_neg hEmpty, if_neg hEmpty, if_neg hEmpty']
    rfl

/-- What `add` writes. -/
def TableBuilder.adds (b : TableBuilder) (e : Entry) : Bytes :=
  let b := b.addEntry e.1 e.2
  if b.dataBlock.currentSizeEstimate ≥ b.blockTarget then b.flushes else []

theorem onBytes_added (b : TableBuilder) (file : Bytes) (e : Entry) :
    (b.added e).onBytes (file ++ b.adds e) =
      (b.onBytes file).add e.1.userKey e.1.encode e.2 := by
  unfold TableBuilder.added TableBuilder.adds Sstable.TableBuilder.add
  rw [← onBytes_addEntry]
  dsimp only
  by_cases hFull : (b.addEntry e.1 e.2).dataBlock.currentSizeEstimate ≥
      (b.addEntry e.1 e.2).blockTarget
  · rw [if_pos hFull, if_pos hFull, onBytes_flushed]
    exact (if_pos hFull).symm
  · rw [if_neg hFull, if_neg hFull, List.append_nil]
    exact (if_neg hFull).symm

end Builders

section Writing

variable {A : Outcome → Prop} {P : Nat → Nat → Prop} {σ : Type} {x : σ} {d : Dir} {b : TableBuilder}
  {n : Nat} {file : Bytes}

def Dir.Holds (d : Dir) (n : Nat) (bytes : Bytes) : Prop :=
  ∃ f, d.lookup (.sst n) = some f ∧ f.bytes = bytes

theorem Dir.Faithful.insert (hd : d.Faithful P) {f : File} (hf : f.Faithful P) (name : FileName) :
    (Dir.Faithful P) (d.insert name f) := by
  intro m g hg
  by_cases hName : .sst m = name
  · rw [hName, AList.lookup_insert] at hg
    exact Option.some.inj hg ▸ hf
  · rw [AList.lookup_insert_ne hName] at hg
    exact hd m g hg

theorem Dir.Faithful.change (hd : d.Faithful P) (name : FileName) {g : File → File}
    (hg : ∀ f, f.Faithful P → (g f).Faithful P) : (d.change name g).Faithful P := by
  intro m f hf
  by_cases hName : .sst m = name
  · subst hName
    unfold Dir.change at hf
    split at hf
    · next f₀ hf₀ =>
      rw [AList.lookup_insert] at hf
      exact Option.some.inj hf ▸ hg f₀ (hd m f₀ hf₀)
    · exact hd m f hf
  · rw [Dir.lookup_change_ne hName] at hf
    exact hd m f hf

theorem writeAll_faithful (hd : d.Faithful P) (h : d.Holds n file) (bytes : Bytes) :
    Spec A (writeAll (.sst n) bytes)
      (fun _ y d' => y = x ∧ d'.Faithful P ∧ d'.Holds n (file ++ bytes))
      (fun _ _ d' => d'.Faithful P) x d := by
  obtain ⟨f, hf, rfl⟩ := h
  refine Spec.call ⟨rfl, hd.change _ fun _ hf => hf.append _, f.append bytes, ?_, rfl⟩
    fun k _ _ => hd.change _ fun _ hf => hf.append _
  rw [Dir.change_eq hf, AList.lookup_insert]

theorem writeRaw_faithful (hd : d.Faithful P) (h : d.Holds b.number file) (bytes : Bytes) :
    Spec A (TableBuilder.writeRaw bytes)
      (fun r b' d' => r = { offset := b.fileOffset, size := bytes.length } ∧
        b' = { b with fileOffset := b.fileOffset + bytes.length } ∧ d'.Faithful P ∧
        d'.Holds b.number (file ++ bytes))
      (fun _ _ d' => d'.Faithful P) b d := by
  refine Spec.bind (Spec.self (Spec.bind ((writeAll_faithful hd h bytes).mono ?_ fun _ _ _ h => h)))
  rintro - y d' ⟨rfl, hd', hHolds⟩
  exact Spec.bind (Spec.update (Spec.pure ⟨rfl, rfl, hd', hHolds⟩))

theorem flushDataBlock_faithful (hd : d.Faithful P) (h : d.Holds b.number file) :
    Spec A TableBuilder.flushDataBlock
      (fun _ b' d' => b' = b.flushed ∧ d'.Faithful P ∧ d'.Holds b.number (file ++ b.flushes))
      (fun _ _ d' => d'.Faithful P) b d := by
  refine Spec.bind (Spec.self ?_)
  unfold TableBuilder.flushed TableBuilder.flushes
  split
  · exact Spec.pure ⟨rfl, hd, (List.append_nil file).symm ▸ h⟩
  · refine Spec.bind (Spec.update (Spec.bind ((writeRaw_faithful (b := { b with dataBlock := {} })
      hd h _).mono ?_ fun _ _ _ h => h)))
    rintro - - d' ⟨rfl, rfl, hd', hHolds⟩
    exact Spec.update ⟨rfl, hd', hHolds⟩

/-- The file of a builder has the bytes of what the builder was given. -/
structure Drafted (P : Nat → Nat → Prop) (d : Dir) (b : TableBuilder) : Prop where
  faithful : d.Faithful P
  bytes : ∃ blockTarget bitsPerKey file, P blockTarget bitsPerKey ∧ d.Holds b.number file ∧
    b.onBytes file = (Sstable.TableBuilder.withOptions blockTarget bitsPerKey).addAll
      (b.entries.map Sstable.keyed)

theorem add_drafted (h : Drafted P d b) (e : Entry) :
    Spec A (TableBuilder.add e.1 e.2) (fun _ b' d' => b' = b.added e ∧ Drafted P d' b')
      (fun _ _ d' => d'.Faithful P) b d := by
  obtain ⟨hd, blockTarget, bitsPerKey, file, hP, hHolds, hBytes⟩ := h
  have hAdded := onBytes_added b file e
  rw [hBytes] at hAdded
  have hNumber : (b.addEntry e.1 e.2).number = b.number := addEntry_number b e
  have hDraft {d' : Dir} (hd' : d'.Faithful P) (hHolds' : d'.Holds b.number (file ++ b.adds e)) :
      Drafted P d' (b.added e) := by
    refine ⟨hd', blockTarget, bitsPerKey, _, hP, (added_number b e).symm ▸ hHolds', hAdded.trans ?_⟩
    rw [added_entries, List.map_append, Sstable.TableBuilder.addAll, Sstable.TableBuilder.addAll,
      List.foldl_append]
    rfl
  refine Spec.bind (Spec.update (Spec.bind (Spec.self ?_)))
  by_cases hFull : (b.addEntry e.1 e.2).dataBlock.currentSizeEstimate ≥
      (b.addEntry e.1 e.2).blockTarget
  · have hAdds : b.adds e = (b.addEntry e.1 e.2).flushes := if_pos hFull
    rw [if_pos hFull]
    refine (flushDataBlock_faithful hd (hNumber.symm ▸ hHolds)).mono ?_ fun _ _ _ h => h
    rintro - - d' ⟨rfl, hd', hHolds'⟩
    have hEq : b.added e = (b.addEntry e.1 e.2).flushed := if_pos hFull
    exact hEq ▸ ⟨rfl, hDraft hd' (hAdds ▸ hNumber ▸ hHolds')⟩
  · have hAdds : b.adds e = [] := if_neg hFull
    rw [if_neg hFull]
    have hEq : b.added e = b.addEntry e.1 e.2 := if_neg hFull
    exact Spec.pure (hEq ▸ ⟨rfl, hDraft hd (by rwa [hAdds, List.append_nil])⟩)

theorem syncAll_faithful (hd : d.Faithful P) (name : FileName) :
    Spec A (syncAll name) (fun _ y d' => y = x ∧ d'.Faithful P) (fun _ _ d' => d'.Faithful P) x d :=
  Spec.call ⟨rfl, hd.change _ fun _ hf => hf⟩ fun _ _ _ => hd

theorem writeFooter_faithful (hd : d.Faithful P) (h : d.Holds n file) {footer : Bytes}
    {es : List Entry}
    (hOrder : InOrder es)
    (hBytes : ∃ blockTarget bitsPerKey, P blockTarget bitsPerKey ∧
      file ++ footer = tableBytes blockTarget bitsPerKey es) :
    Spec A (writeFooter (.sst n) footer es) (fun _ y d' => y = x ∧ d'.Faithful P)
      (fun _ _ d' => d'.Faithful P) x d := by
  obtain ⟨f, hf, rfl⟩ := h
  refine Spec.call ⟨rfl, ?_⟩ fun k _ _ => hd.change _ fun _ hf => hf.append _
  rw [Dir.change_eq hf]
  refine hd.insert (fun es' hTable => ?_) _
  obtain rfl := Option.some.inj hTable
  exact ⟨hOrder, hBytes⟩

/-- Finishing a table of entries in order leaves a table with a builder's bytes. -/
theorem finish_faithful (h : Drafted P d b) (hOrder : InOrder b.entries) :
    Spec A TableBuilder.finish (fun _ _ d' => d'.Faithful P) (fun _ _ d' => d'.Faithful P) b d := by
  obtain ⟨hd, blockTarget, bitsPerKey, file, hP, hHolds, hBytes⟩ := h
  refine Spec.bind ((flushDataBlock_faithful hd hHolds).mono ?_ fun _ _ _ h => h)
  rintro - - d₁ ⟨rfl, hd₁, hHolds₁⟩
  refine Spec.bind (Spec.update_eq fun b₁ hb₁ => Spec.bind (Spec.self ?_))
  have hNumber : b₁.number = b.number := by simp [hb₁]
  have hEntries : b₁.entries = b.entries := by simp [hb₁]
  have hRest : ((Sstable.TableBuilder.withOptions blockTarget bitsPerKey).addAll
      (b.entries.map Sstable.keyed)).flushRest = b₁.onBytes (file ++ b.flushes) := by
    rw [← hBytes, hb₁, onBytes_indexPending, onBytes_flushed]
    rfl
  rw [← hNumber] at hHolds₁
  refine Spec.bind ((writeRaw_faithful hd₁ hHolds₁ _).mono ?_ fun _ _ _ h => h)
  rintro - - d₂ ⟨rfl, rfl, hd₂, hHolds₂⟩
  refine Spec.bind ((writeRaw_faithful hd₂ (by exact hHolds₂) _).mono ?_ fun _ _ _ h => h)
  rintro - - d₃ ⟨rfl, rfl, hd₃, hHolds₃⟩
  refine Spec.bind ((writeRaw_faithful hd₃ (by exact hHolds₃) _).mono ?_ fun _ _ _ h => h)
  rintro - - d₄ ⟨rfl, rfl, hd₄, hHolds₄⟩
  refine Spec.bind ((writeFooter_faithful hd₄ hHolds₄ (hEntries ▸ hOrder)
    ⟨blockTarget, bitsPerKey, hP, ?_⟩).mono (fun _ _ d₅ h => (syncAll_faithful h.2 _).mono
      (fun _ _ _ h => h.2) fun _ _ _ h => h) fun _ _ _ h => h)
  rw [tableBytes, hEntries, Sstable.TableBuilder.finish, hRest]
  rfl

theorem createFile_faithful (hd : d.Faithful P) (n : Nat) :
    Spec A (createFile (.sst n)) (fun _ y d' => y = x ∧ d'.Faithful P ∧ d'.Holds n [])
      (fun _ y d' => y = x ∧ d'.Faithful P) x d :=
  Spec.call ⟨rfl, hd.insert (fun _ h => by cases h) _, _, AList.lookup_insert _, rfl⟩
    fun _ _ _ => ⟨rfl, hd⟩

theorem drafted_withOptions {blockTarget bitsPerKey : Nat} (hP : P blockTarget bitsPerKey)
    (hd : d.Faithful P) (h : d.Holds n []) :
    Drafted P d (TableBuilder.withOptions n blockTarget bitsPerKey) :=
  ⟨hd, blockTarget, bitsPerKey, [], hP, h, rfl⟩

theorem flushLoop_drafted (h : Drafted P d b) (es : List Entry) (r : FlushResult) :
    Spec A (MemTable.flushLoop es r) (fun _ b' d' => Drafted P d' b' ∧ b'.entries = b.entries ++ es)
      (fun _ _ d' => d'.Faithful P) b d := by
  induction es generalizing d b r with
  | nil => exact Spec.pure ⟨h, (List.append_nil _).symm⟩
  | cons e es ih =>
    refine Spec.bind ((add_drafted h e).mono ?_ fun _ _ _ h => h)
    rintro - - d' ⟨rfl, h'⟩
    refine (ih h' _).mono (fun _ b' d'' hDone => ⟨hDone.1, hDone.2.trans ?_⟩) fun _ _ _ h => h
    rw [added_entries, List.append_assoc, List.singleton_append]

/-- A flush of a memory table in order keeps the tables as builders make them. -/
theorem flushToSstable_faithful {m : MemTable} {blockTarget bitsPerKey : Nat}
    (hP : P blockTarget bitsPerKey) (hm : Sorted m.skiplist) (n : Nat) :
    Keeping A (Dir.Faithful P) (m.flushToSstable n blockTarget bitsPerKey) x
      (fun _ y => y = x) (· = x) := by
  intro d hd
  refine Spec.bind ((createFile_faithful hd n).mono ?_ fun _ _ _ h => h)
  rintro - y d₁ ⟨rfl, hd₁, hHolds⟩
  refine Spec.bind (Spec.runOn (Spec.bind ((flushLoop_drafted (drafted_withOptions hP hd₁ hHolds)
    m.skiplist _).mono ?_ fun _ _ _ h => ⟨rfl, h⟩)))
  rintro r b d₂ ⟨hDrafted, hEntries⟩
  have hOrder : InOrder b.entries := by
    rw [hEntries]
    exact hm.inOrder
  exact Spec.bind ((finish_faithful hDrafted hOrder).mono
    (fun _ _ _ h => Spec.pure (Spec.pure ⟨rfl, h⟩)) fun _ _ _ h => ⟨rfl, h⟩)

end Writing

section Cutting

variable {A : Outcome → Prop} {P : Nat → Nat → Prop} {σ : Type} {x : σ} {d : Dir} {s : Outputting}
  {c : Compaction} {version : Version} {oldest blockTarget bitsPerKey : Nat} {e : Entry}
  {es : List Entry}

/-- A compaction that has the entries `es` before it. -/
structure Cutting (P : Nat → Nat → Prop) (d : Dir) (s : Outputting) (es : List Entry) : Prop where
  faithful : d.Faithful P
  order : InOrder es
  builder : ∀ b, s.builder = some b → Drafted P d b ∧ InOrder (b.entries ++ es)

theorem continueWithEntry_cutting (h : Cutting P d s (e :: es)) :
    Spec A (continueWithEntry e) (fun _ s' d' => Cutting P d' s' es)
      (fun _ _ d' => d'.Faithful P) s d := by
  refine Spec.bind (Spec.self ?_)
  split
  · exact Spec.throw h.faithful
  · next b hb =>
    obtain ⟨hDrafted, hOrder⟩ := h.builder b hb
    refine Spec.bind (Spec.onField ((add_drafted hDrafted e).mono ?_ fun _ _ _ h => h))
    rintro - - d' ⟨rfl, hDrafted'⟩
    refine Spec.update ⟨hDrafted'.faithful, (List.pairwise_cons.mp h.order).2, fun b' hb' => ?_⟩
    obtain rfl := Option.some.inj hb'
    rw [added_entries, List.append_assoc, List.singleton_append]
    exact ⟨hDrafted', hOrder⟩

theorem openOutput_cutting (hP : P blockTarget bitsPerKey) (hd : d.Faithful P) (hOrder : InOrder es)
    (ik : InternalKey) :
    Spec A (openOutput blockTarget bitsPerKey ik) (fun _ s' d' => Cutting P d' s' es)
      (fun _ _ d' => d'.Faithful P) s d := by
  refine Spec.bind (Spec.self (Spec.bind (Spec.update (Spec.bind ((createFile_faithful hd _).mono ?_
    fun _ _ _ h => h.2)))))
  rintro - - d' ⟨rfl, hd', hHolds⟩
  refine Spec.update ⟨hd', hOrder, fun b hb => ?_⟩
  obtain rfl := Option.some.inj hb
  exact ⟨drafted_withOptions hP hd' hHolds, hOrder⟩

theorem finishCurrent_cutting (h : Cutting P d s es) :
    Spec A finishCurrent (fun _ s' d' => Cutting P d' s' es) (fun _ _ d' => d'.Faithful P) s d := by
  refine Spec.bind (Spec.self ?_)
  split
  · exact Spec.throw h.faithful
  · next b hb =>
    obtain ⟨hDrafted, hOrder⟩ := h.builder b hb
    refine Spec.bind (Spec.update (Spec.bind (Spec.runOn ((finish_faithful hDrafted
      (List.pairwise_append.mp hOrder).1).mono ?_ fun _ _ _ h => h))))
    rintro - - d' hd'
    split
    · exact Spec.throw hd'
    · refine Spec.bind (Spec.look (fun _ _ => ?_) (fun _ => hd') fun _ _ _ => hd')
      split
      · exact Spec.update ⟨hd', h.order, nofun⟩
      · exact Spec.throw hd'
      · exact Spec.throw hd'

theorem outputEntry_cutting (hP : P blockTarget bitsPerKey) (h : Cutting P d s (e :: es)) :
    Spec A (outputEntry c blockTarget bitsPerKey e) (fun _ s' d' => Cutting P d' s' es)
      (fun _ _ d' => d'.Faithful P) s d := by
  refine Spec.bind (Spec.self ?_)
  split
  · exact Spec.bind ((openOutput_cutting hP h.faithful h.order e.1).mono
      (fun _ _ _ h' => continueWithEntry_cutting h') fun _ _ _ h => h)
  · split
    · refine Spec.bind ((finishCurrent_cutting h).mono (fun _ s₁ d₁ h₁ => ?_) fun _ _ _ h => h)
      refine Spec.bind ((openOutput_cutting hP h₁.faithful h₁.order e.1).mono (fun _ s₂ d₂ h₂ => ?_)
        fun _ _ _ h => h)
      exact Spec.bind (Spec.update (Spec.bind (Spec.update
        (continueWithEntry_cutting ⟨h₂.faithful, h₂.order, h₂.builder⟩))))
    · exact Spec.bind (Spec.update (continueWithEntry_cutting ⟨h.faithful, h.order, h.builder⟩))

theorem compactLoop_cutting (hP : P blockTarget bitsPerKey) (h : Cutting P d s es) :
    Spec A (compactLoop c version oldest blockTarget bitsPerKey es)
      (fun _ s' d' => Cutting P d' s' []) (fun _ _ d' => d'.Faithful P) s d := by
  induction es generalizing d s with
  | nil => exact Spec.pure h
  | cons e es ih =>
    refine Spec.bind (Spec.self (Spec.bind (Spec.update_eq fun s₁ hs₁ => ?_)))
    have h₁ : Cutting P d s₁ (e :: es) := by
      subst hs₁
      exact ⟨h.faithful, h.order, h.builder⟩
    split
    · refine ih ⟨h₁.faithful, (List.pairwise_cons.mp h₁.order).2, fun b hb => ?_⟩
      obtain ⟨hDrafted, hOrder⟩ := h₁.builder b hb
      exact ⟨hDrafted, hOrder.sublist ((List.Sublist.refl _).append (List.sublist_cons_self e es))⟩
    · exact Spec.bind ((outputEntry_cutting hP h₁).mono (fun _ _ _ h₂ => ih h₂) fun _ _ _ h => h)

theorem Dir.Faithful.inOrder (hd : d.Faithful P) {n : Nat} {r : TableReader}
    (h : d.reader n = some r) : InOrder r.entries := by
  obtain ⟨f, hf, hr⟩ := Option.bind_eq_some_iff.mp h
  obtain ⟨es, hTable, rfl⟩ := Option.map_eq_some_iff.mp hr
  exact (hd n f hf es hTable).1

theorem openAll_inOrder (hd : d.Faithful P) (files : List FileMetaData) :
    Spec A (openAll files) (fun r y d' => y = x ∧ d'.Faithful P ∧ ∀ es ∈ r, InOrder es)
      (fun _ y d' => y = x ∧ d'.Faithful P) x d := by
  induction files with
  | nil => exact Spec.pure ⟨rfl, hd, by simp⟩
  | cons f files ih =>
    refine Spec.bind ((open_reader f.number).mono ?_ ?_)
    · rintro reader y d' ⟨hReader, rfl, rfl⟩
      refine Spec.bind (ih.mono (fun r y d' ⟨hy, hd', hr⟩ => ?_) fun _ _ _ h => h)
      exact Spec.pure ⟨hy, hd', List.forall_mem_cons.mpr ⟨hd.inOrder hReader, hr⟩⟩
    · rintro _ y d' ⟨-, rfl, rfl⟩
      exact ⟨rfl, hd⟩

theorem mergeTables_inOrder {Q : EntryQueue} {tables : List (List Entry)}
    (h : ∀ es ∈ tables, InOrder es) :
    InOrder (mergeTables Q tables) := by
  refine (Merge.Merging.drain_spec (Q := Q) internalKeyCmp_weak fun es hes =>
    (h es hes).imp fun {a b} hba => ?_).2.imp
    fun {a b} hba => ?_
  · exact decide_eq_false (internalKeyCmp_lt.not.mpr hba)
  · exact internalKeyCmp_lt.not.mp (of_decide_eq_false hba)

/-- A compaction keeps the tables as builders make them. -/
theorem doCompaction_faithful {Q : EntryQueue} (hP : P blockTarget bitsPerKey)
    (idGen : IdGenerator) :
    Keeping A (Dir.Faithful P) (doCompaction Q c version oldest blockTarget bitsPerKey idGen) x
      (fun _ y => y = x) (· = x) := by
  intro d hd
  refine Spec.bind ((openAll_inOrder hd c.inputFiles).mono ?_ fun _ _ _ h => h)
  rintro tables y d₁ ⟨rfl, hd₁, hTables⟩
  refine Spec.bind (Spec.runOn (Spec.bind ((compactLoop_cutting hP
    ⟨hd₁, mergeTables_inOrder hTables, fun b hb => by cases hb⟩).mono ?_ fun _ _ _ h => ⟨rfl, h⟩)))
  rintro - s d₂ h₂
  refine Spec.bind (Spec.self ?_)
  split
  · exact (finishCurrent_cutting h₂).mono (fun _ _ _ h => Spec.pure ⟨rfl, h.faithful⟩)
      fun _ _ _ h => ⟨rfl, h⟩
  · exact Spec.pure (Spec.pure ⟨rfl, h₂.faithful⟩)

end Cutting

section Logging

variable {A : Outcome → Prop} {P : Nat → Nat → Prop} {σ α : Type} {x : σ} {name : FileName}

/-- A program that leaves the tables alone keeps them as builders make them. -/
theorem Keeping.faithful {m : St σ α} {Q : α → σ → Prop} {E : σ → Prop}
    (h : ∀ d next, Keeping A (KeptTables d next) m x Q E) : Keeping A (Dir.Faithful P) m x Q E := by
  intro d hd os hos
  have hKept {d' : Dir} (h : ∀ next, KeptTables d next d') : d'.Faithful P := fun n f hf =>
    hd n f ((h (n + 1) n (Nat.lt_succ_self n)).symm.trans hf)
  have hAll := fun next => h d next d (.refl _ _) os hos
  unfold Effects.wp at hAll ⊢
  cases hm : m (x, ⟨d, os⟩) with
  | ok a s =>
    simp only [hm] at hAll
    exact ⟨⟨(hAll 0).1.1, hKept fun next => (hAll next).1.2⟩, (hAll 0).2⟩
  | error f s =>
    simp only [hm] at hAll
    exact ⟨⟨(hAll 0).1.1, hKept fun next => (hAll next).1.2⟩, (hAll 0).2⟩

theorem create_faithful (hName : IsLogName name) :
    Keeping A (Dir.Faithful P) (WalWriter.create name) x (fun w y => w.name = name ∧ y = x)
      (· = x) :=
  .faithful fun d next => create_keeping (keptTables_closed d next) hName

theorem sync_faithful {w : WalWriter} (hName : IsLogName w.name) :
    Keeping A (Dir.Faithful P) WalWriter.sync w (fun _ w' => w'.name = w.name)
      fun w' => w'.name = w.name :=
  .faithful fun d next => sync_keeping (keptTables_closed d next) hName

theorem addRecord_faithful [Crc32c] {w : WalWriter} (hName : IsLogName w.name) (payload : Bytes) :
    Keeping A (Dir.Faithful P) (WalWriter.addRecord payload) w (fun _ w' => w'.name = w.name)
      fun w' => w'.name = w.name :=
  .faithful fun d next => addRecord_keeping (keptTables_closed d next) hName payload

theorem writeNewVersion_faithful [Crc32c] {vs : VersionSet}
    (hName : IsLogName vs.manifestWriter.wal.name) {edit : VersionEdit}
    (hPointers : ∀ p ∈ edit.compactPointers, p.1 < numLevels) :
    Keeping A (Dir.Faithful P) (VersionSet.writeNewVersion edit) vs
      (fun _ vs' => IsLogName vs'.manifestWriter.wal.name)
      fun vs' => IsLogName vs'.manifestWriter.wal.name :=
  .faithful fun d next => (writeNewVersion_keeping (keptTables_closed d next) hName hPointers).mono
    (fun _ _ h => h.2) fun _ h => h.2

end Logging

/-- A database that writes to its logs, has its memory table in order, and builds tables with such
options. -/
structure Db.Tidy (P : Nat → Nat → Prop) (db : Db) : Prop where
  wal : IsLogName db.wal.name
  manifest : IsLogName db.versionSet.manifestWriter.wal.name
  sorted : Sorted db.memtable.skiplist
  options : P db.options.blockSize db.options.bloomBitsPerKey

section Databases

variable {A : Outcome → Prop} {P : Nat → Nat → Prop} {db : Db}

theorem prepareFlush_faithful (h : db.Tidy P) {frozen : MemTable}
    (hFrozen : Sorted frozen.skiplist) :
    Keeping A (Dir.Faithful P) (Db.prepareFlush frozen) db
      (fun r db' => db'.Tidy P ∧ IsLogName r.2.2.name) (Db.Tidy P) := by
  have hEmpty : Sorted (MemTable.withInitialSequence frozen.seq).skiplist := .nil
  refine .bind (.update (.bind (newFileNumber_keeping (.bind (.self ?_)))))
  refine .bind ((flushToSstable_faithful h.options hFrozen _).mono ?_ ?_)
  · rintro r db₁ rfl
    refine .bind (.look (fun size => ?_) ⟨h.wal, h.manifest, hEmpty, h.options⟩)
    split
    · refine .bind (newFileNumber_keeping (.bind ((create_faithful (isLogName_log _)).mono ?_ ?_)))
      · rintro w db₂ ⟨hw, rfl⟩
        refine .bind (.onField ((sync_faithful h.wal).mono (fun _ w' hw' => ?_) fun w' hw' => ?_))
        · exact .pure ⟨⟨hw' ▸ h.wal, h.manifest, hEmpty, h.options⟩, hw ▸ isLogName_log _⟩
        · exact ⟨hw' ▸ h.wal, h.manifest, hEmpty, h.options⟩
      · rintro _ rfl
        exact ⟨h.wal, h.manifest, hEmpty, h.options⟩
    · exact .throw ⟨h.wal, h.manifest, hEmpty, h.options⟩
  · rintro _ rfl
    exact ⟨h.wal, h.manifest, hEmpty, h.options⟩

variable [Crc32c]

theorem flushMemtable_faithful (h : db.Tidy P) :
    Keeping A (Dir.Faithful P) Db.flushMemtable db (fun _ => Db.Tidy P) (Db.Tidy P) := by
  refine .bind (.self ?_)
  dsimp only
  split
  · exact .pure h
  · refine .bind ((prepareFlush_faithful h h.sorted).mono ?_ fun _ h => h)
    rintro ⟨f, newLog, newWal⟩ db₁ ⟨h₁, hWal⟩
    refine .bind (.self
      (.bind (.onField ((writeNewVersion_faithful h₁.manifest (by simp)).mono ?_ ?_))))
    · exact fun v vs hvs => .update ⟨hWal, hvs, h₁.sorted, h₁.options⟩
    · exact fun vs hvs => ⟨h₁.wal, hvs, h₁.sorted, h₁.options⟩

theorem logAndApply_faithful (h : db.Tidy P) (key value : Bytes) (vtype : ValueType) :
    Keeping A (Dir.Faithful P) (Db.logAndApply vtype key value) db (fun _ => Db.Tidy P)
      (Db.Tidy P) := by
  have hLog :
      Keeping A (Dir.Faithful P) (Db.logWrite vtype key value) db (fun _ => Db.Tidy P)
        (Db.Tidy P) := by
    refine .bind (.self (.bind (.onField ((addRecord_faithful h.wal _).mono (fun _ w hw => ?_)
      fun w hw => ⟨hw ▸ h.wal, h.manifest, h.sorted, h.options⟩))))
    have hw' : IsLogName w.name := hw ▸ h.wal
    split
    · exact .onField ((sync_faithful hw').mono
        (fun _ w' hw₁ => ⟨hw₁ ▸ hw', h.manifest, h.sorted, h.options⟩)
        fun w' hw₁ => ⟨hw₁ ▸ hw', h.manifest, h.sorted, h.options⟩)
    · exact .pure ⟨hw', h.manifest, h.sorted, h.options⟩
  refine .bind (hLog.mono (fun _ db₁ h₁ => .update ?_) fun _ h => h)
  exact ⟨h₁.wal, h₁.manifest, SkipList.insert_sorted h₁.sorted, h₁.options⟩

theorem write_faithful (h : db.Tidy P) (key value : Bytes) (vtype : ValueType) :
    Keeping A (Dir.Faithful P) (Db.write key value vtype) db (fun _ => Db.Tidy P) (Db.Tidy P) := by
  rw [Db.write_eq]
  refine .bind ((logAndApply_faithful h key value vtype).mono (fun _ db₁ h₁ => .bind (.self ?_))
    fun _ h => h)
  split
  · exact flushMemtable_faithful h₁
  · exact .pure h₁

theorem runOneCompaction_faithful (h : db.Tidy P) :
    Keeping A (Dir.Faithful P) Db.runOneCompaction db (fun _ => Db.Tidy P) (Db.Tidy P) := by
  refine .bind (.self ?_)
  cases hPick : pickCompaction db.versionSet with
  | none => exact .pure h
  | some c =>
    have hLevel := (pickCompaction_picked hPick).level
    refine .bind ((doCompaction_faithful h.options _).mono ?_ fun _ hy => hy ▸ h)
    rintro ⟨output, idGen⟩ db₁ hdb₁
    subst hdb₁
    have hPointers : ∀ p ∈ (Db.compactionEdit c.level output idGen.next).compactPointers,
        p.1 < numLevels := by
      intro p hp
      obtain ⟨f, -, rfl⟩ := Option.map_eq_some_iff.mp (Option.mem_toList.mp hp)
      exact (Nat.lt_succ_self _).trans hLevel
    refine .bind (.onField ((writeNewVersion_faithful h.manifest hPointers).mono
      (fun v vs hvs => ?_)
      fun vs hvs => ⟨h.wal, hvs, h.sorted, h.options⟩))
    exact .bind (.update (.pure ⟨h.wal, hvs, h.sorted, h.options⟩))

theorem Call.run_faithful (h : db.Tidy P) (c : Call) :
    Keeping A (Dir.Faithful P) c.run db (fun _ => Db.Tidy P) (Db.Tidy P) := by
  cases c with
  | put key value =>
    show Keeping A (Dir.Faithful P) (Db.put key value) db _ _
    unfold Db.put
    split
    · exact .throw h
    · exact write_faithful h key value .put
  | delete key =>
    show Keeping A (Dir.Faithful P) (Db.delete key) db _ _
    unfold Db.delete
    split
    · exact .throw h
    · exact write_faithful h key [] .delete
  | flush => exact flushMemtable_faithful h
  | compact => exact .bind ((runOneCompaction_faithful h).mono (fun _ _ h => .pure h) fun _ h => h)
  | snapshot => exact .bind (.bind (.self
      (.bind (.update (.pure (.pure ⟨h.wal, h.manifest, h.sorted, h.options⟩))))))
  | release seq =>
    show Keeping A (Dir.Faithful P) (Db.dropSnapshot seq) db _ _
    exact .update ⟨h.wal, h.manifest, h.sorted, h.options⟩

end Databases

section Opening

variable [Crc32c] {A : Outcome → Prop} {P : Nat → Nat → Prop} {σ : Type} {x : σ} {vs : VersionSet}

omit [Crc32c] in
theorem sorted_replayRecords {records : List Bytes} {m m' : MemTable}
    (h : replayRecords records m = .ok m') (hm : Sorted m.skiplist) : Sorted m'.skiplist := by
  induction records generalizing m with
  | nil =>
    obtain rfl := Except.ok.inj h
    exact hm
  | cons record records ih =>
    rw [replayRecords, List.foldlM_cons] at h
    cases hDecode : decodeEntry record with
    | error e => simp [hDecode, bind, Except.bind] at h
    | ok e =>
      simp only [hDecode, bind, Except.bind, pure, Except.pure] at h
      exact ih h (SkipList.insert_sorted hm)

theorem replayLog_faithful (hName : IsLogName vs.manifestWriter.wal.name) :
    Keeping A (Dir.Faithful P) (Db.replayLog vs) x
      (fun r _ => Sorted r.1.skiplist ∧ IsLogName r.2.manifestWriter.wal.name) fun _ => True := by
  refine .bind (.pathExists (fun b => ?_) trivial)
  split
  · refine .bind (.look (fun bytes => ?_) trivial)
    refine .bind (.ofResult (fun m hm => .pure ⟨sorted_replayRecords hm .nil, ?_⟩)
      fun _ _ => trivial)
    dsimp only
    split <;> exact hName
  · exact .pure ⟨.nil, hName⟩

theorem recoverFlush_faithful {options : Options}
    (hOptions : P options.blockSize options.bloomBitsPerKey)
    (hName : IsLogName vs.manifestWriter.wal.name) {m : MemTable}
    (hm : Sorted m.skiplist) (idGen : IdGenerator) :
    Keeping A (Dir.Faithful P) (Db.recoverFlush m vs idGen options) x
      (fun r _ => IsLogName r.1.manifestWriter.wal.name) fun _ => True := by
  refine .bind ((flushToSstable_faithful hOptions hm _).mono ?_ fun _ _ => trivial)
  rintro r y -
  refine .bind (.look (fun size => ?_) trivial)
  split
  · refine .bind ((create_faithful (isLogName_log _)).mono ?_ fun _ _ => trivial)
    rintro w y -
    exact .bind (.runOn ((writeNewVersion_faithful hName (by simp)).mono
      (fun _ _ hName' => .pure hName')
      fun _ _ => trivial))
  · exact .throw trivial

theorem recoverOpen_faithful {options : Options}
    (hOptions : P options.blockSize options.bloomBitsPerKey) :
    Keeping A (Dir.Faithful P) (Db.recoverOpen options) x (fun db _ => db.Tidy P)
      fun _ => True := by
  refine .bind ((Keeping.faithful fun d next => recover_keeping (keptTables_closed d next)).mono
    (fun vs y hName => ?_) fun _ h => h)
  refine .bind ((replayLog_faithful hName).mono ?_ fun _ h => h)
  rintro ⟨m, vs⟩ y ⟨hm, hName⟩
  have hRest (vs : VersionSet) (idGen : IdGenerator) (walNumber : Nat) (y : σ)
      (hName : IsLogName vs.manifestWriter.wal.name) : Keeping A (Dir.Faithful P) (do
        let wal ← WalWriter.create (.log walNumber)
        removeObsoleteFiles vs
        return ({
          versionSet := vs
          memtable := .withInitialSequence m.seq
          wal, idGen, walNumber, options
          tableCache := .withCapacity options.tableCacheSize } : Db)) y
        (fun db _ => db.Tidy P) fun _ => True := by
    refine .bind ((create_faithful (isLogName_log _)).mono ?_ fun _ _ => trivial)
    rintro wal y ⟨hWal, -⟩
    refine .bind (.bind (.look (fun names => ?_) trivial))
    refine (removeFiles_keeping (fun {d name} hd n f hf => ?_) _).mono (fun _ _ _ => .pure ?_)
      fun _ h => h
    · by_cases hErased : .sst n = name
      · rw [hErased, AList.lookup_erase] at hf
        cases hf
      · exact hd n f ((AList.lookup_erase_ne hErased).symm.trans hf)
    · exact ⟨hWal ▸ isLogName_log _, hName, .nil, hOptions⟩
  dsimp only
  split
  · exact .bind ((recoverFlush_faithful hOptions hName hm _).mono
      (fun r y hName => hRest _ _ _ y hName)
      fun _ h => h)
  · refine .bind ((Keeping.faithful fun d next => recoverEmpty_keeping (keptTables_closed d next)
      hName _).mono (fun r y hName => hRest _ _ _ y hName) fun _ h => h)

theorem open_faithful {options : Options}
    (hOptions : P options.blockSize options.bloomBitsPerKey) :
    Keeping A (Dir.Faithful P) (Db.open options) x (fun db _ => db.Tidy P) fun _ => True := by
  refine .bind (.pathExists (fun b => ?_) trivial)
  split
  · exact recoverOpen_faithful hOptions
  · refine .bind (.look (fun names => ?_) trivial)
    split
    · exact .throw trivial
    · refine (Keeping.faithful fun d next =>
        createNew_keeping (keptTables_closed d next) options).mono
        (fun db y h => ?_) fun _ h => h
      exact ⟨h.1.wal, h.1.manifest, by rw [h.2.1]; exact .nil, h.2.2.symm ▸ hOptions⟩

omit [Crc32c] in
theorem close_faithful {db : Db} (h : IsLogName db.wal.name) :
    Keeping A (Dir.Faithful P) (Db.close db) x (fun _ _ => True) fun _ => True :=
  .faithful fun d next => close_keeping (keptTables_closed d next) h

end Opening

/-- The tables in the directory are as builders with such options make them, and so are those to
come. -/
structure Running.Makes (P : Nat → Nat → Prop) (s : Running) : Prop where
  faithful : s.dir.Faithful P
  tidy : s.db.Tidy P

/-- The tables are as builders make them. -/
abbrev Running.Built (s : Running) : Prop := s.Makes fun _ _ => True

section Running

variable [Crc32c] {P : Nat → Nat → Prop} {s s' : Running} {options : Options} {op : Op}

omit [Crc32c] in
theorem Running.Makes.call {α : Type} {m : St Db α}
    (h : Keeping Quiet (Dir.Faithful P) m s.db (fun _ => Db.Tidy P) (Db.Tidy P))
    (hd : s.dir.Faithful P)
    (hCall : s.call m = some s') : s'.Makes P := by
  unfold Running.call at hCall
  split at hCall
  · next a db w hRun =>
    obtain rfl := Option.some.inj hCall
    obtain ⟨hTidy, hFaithful⟩ := Spec.returned hRun (h s.dir hd) (List.forall_mem_nil _)
    exact ⟨hFaithful, hTidy⟩
  · contradiction

theorem opened_makes {d : Dir} (hOptions : P options.blockSize options.bloomBitsPerKey)
    (hd : d.Faithful P) (hOpen : opened options d = some s) : s.Makes P := by
  unfold opened at hOpen
  split at hOpen
  · next db y w hRun =>
    obtain rfl := Option.some.inj hOpen
    obtain ⟨hTidy, hFaithful⟩ := Spec.returned (A := Quiet) hRun (open_faithful hOptions d hd)
      (List.forall_mem_nil _)
    exact ⟨hFaithful, hTidy⟩
  · contradiction

omit [Crc32c] in
theorem faithful_empty : Dir.Faithful P ∅ := fun n f hf => by simp at hf

omit [Crc32c] in
theorem closed_faithful {d : Dir} (h : s.Makes P) (hClose : closed s = some d) : d.Faithful P := by
  unfold closed at hClose
  split at hClose
  · next y w hRun =>
    obtain rfl := Option.some.inj hClose
    exact (Spec.returned (A := Quiet) hRun (close_faithful h.tidy.wal s.dir h.faithful)
      (List.forall_mem_nil _)).2
  · contradiction

/-- A call leaves the tables as builders with such options make them, if an opening has such
options. -/
theorem Op.run_makes (h : s.Makes P)
    (hOp : ∀ options, op = .reopen options → P options.blockSize options.bloomBitsPerKey)
    (hRun : op.run s = some s') : s'.Makes P := by
  cases op with
  | put key value =>
    rw [Op.run] at hRun
    split at hRun
    · contradiction
    · exact .call (Call.run_faithful h.tidy (.put key value)) h.faithful hRun
  | delete key =>
    rw [Op.run] at hRun
    split at hRun
    · contradiction
    · exact .call (Call.run_faithful h.tidy (.delete key)) h.faithful hRun
  | flush => exact .call (Call.run_faithful h.tidy .flush) h.faithful hRun
  | compact => exact .call (runOneCompaction_faithful h.tidy) h.faithful hRun
  | read seq key =>
    have hSpec : Keeping Quiet (Dir.Faithful P) (Db.getAt seq key) s.db
        (fun _ db' => ∃ tableCache, db' = { s.db with tableCache })
        fun db' => ∃ tableCache, db' = { s.db with tableCache } :=
      getAt_keeping seq key
    rw [Op.run, Running.ended] at hRun
    split at hRun
    · next a db w hGet =>
      obtain rfl := Option.some.inj hRun
      obtain ⟨⟨cache, rfl⟩, hFaithful⟩ := Spec.returned hGet (hSpec s.dir h.faithful)
        (List.forall_mem_nil _)
      exact ⟨hFaithful, h.tidy.wal, h.tidy.manifest, h.tidy.sorted, h.tidy.options⟩
    · next e db w hGet =>
      obtain rfl := Option.some.inj hRun
      obtain ⟨⟨⟨cache, rfl⟩, hFaithful⟩, -⟩ :=
        (Effects.wp_error hGet).mp (hSpec s.dir h.faithful [] (List.forall_mem_nil _))
      exact ⟨hFaithful, h.tidy.wal, h.tidy.manifest, h.tidy.sorted, h.tidy.options⟩
    · contradiction
  | snapshot =>
    obtain rfl := Option.some.inj hRun
    exact ⟨h.faithful, h.tidy.wal, h.tidy.manifest, h.tidy.sorted, h.tidy.options⟩
  | release i =>
    obtain ⟨g, -, hRun⟩ := Option.bind_eq_some_iff.mp hRun
    obtain rfl := Option.some.inj hRun
    exact ⟨h.faithful, h.tidy.wal, h.tidy.manifest, h.tidy.sorted, h.tidy.options⟩
  | reopen options =>
    rw [Op.run] at hRun
    obtain ⟨d, hClose, hOpen⟩ := Option.bind_eq_some_iff.mp hRun
    exact opened_makes (hOp options rfl) (closed_faithful h hClose) hOpen

theorem opsRun_makes {ops : List Op} (h : s.Makes P)
    (hOps : ∀ options, .reopen options ∈ ops → P options.blockSize options.bloomBitsPerKey)
    (hRun : opsRun ops s = some s') : s'.Makes P := by
  induction ops generalizing s with
  | nil => exact Option.some.inj hRun ▸ h
  | cons op ops ih =>
    obtain ⟨s₁, hStep, hRest⟩ := Option.bind_eq_some_iff.mp hRun
    apply ih (Op.run_makes h (fun options hOp => hOps options (hOp ▸ List.mem_cons_self)) hStep)
      (fun options hOp => hOps options (List.mem_cons_of_mem op hOp)) hRest

theorem opened_built {d : Dir} (hd : d.Faithful fun _ _ => True)
    (hOpen : opened options d = some s) :
    s.Built :=
  opened_makes trivial hd hOpen

theorem Op.run_built (h : s.Built) (hRun : op.run s = some s') : s'.Built :=
  Op.run_makes h (fun _ _ => trivial) hRun

theorem opsRun_built {ops : List Op} (h : s.Built) (hRun : opsRun ops s = some s') : s'.Built :=
  opsRun_makes h (fun _ _ => trivial) hRun

end Running

end MulanLsm
