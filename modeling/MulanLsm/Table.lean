import MulanLsm.Fs
import MulanLsm.Varint

/-! Table files.  A builder cuts entries into data blocks and writes them with a bloom filter, the
block that finds it, the index of the data blocks and a footer.  A file that a builder has finished
holds the entries that were added to it, which is what a reader finds there. -/

namespace MulanLsm

/-- Every so many entries a block holds a whole key. -/
def restartInterval : Nat := 16

/-- The length of the prefix that two byte strings share. -/
def commonPrefixLen : Bytes → Bytes → Nat
  | a :: as, b :: bs => if a = b then commonPrefixLen as bs + 1 else 0
  | _, _ => 0

structure BlockBuilder where
  buf : Bytes := []
  restarts : List Nat := [0]
  lastKey : Bytes := []
  countSinceRestart : Nat := 0

namespace BlockBuilder

/-- One entry more: the length of the prefix it shares with the last key, the lengths of the rest
and of the value, the rest, and the value. -/
def add (b : BlockBuilder) (key value : Bytes) : BlockBuilder :=
  let restart := !decide (b.countSinceRestart < restartInterval)
  let shared := if restart then 0 else commonPrefixLen b.lastKey key
  let nonShared := key.length - shared
  { buf := b.buf ++ encodeVarint32 (asU32 shared) ++ encodeVarint32 (asU32 nonShared) ++
      encodeVarint32 (asU32 value.length) ++ key.drop shared ++ value
    restarts := if restart then b.restarts ++ [asU32 b.buf.length] else b.restarts
    lastKey := key
    countSinceRestart := (if restart then 0 else b.countSinceRestart) + 1 }

def finish (b : BlockBuilder) : Bytes :=
  b.buf ++ b.restarts.flatMap (toLeBytes 4) ++ toLeBytes 4 (asU32 b.restarts.length)

def currentSizeEstimate (b : BlockBuilder) : Nat := b.buf.length + 4 * b.restarts.length + 4

def isEmpty (b : BlockBuilder) : Bool := b.buf.isEmpty

end BlockBuilder

structure BloomFilter where
  bits : Bytes
  k : Nat

namespace BloomFilter

/-- An empty filter of `round (bitsPerKey * ln 2)` hash functions, at least 1 and at most 30. -/
def new (bitsPerKey : Nat) : BloomFilter :=
  { bits := [], k := min (max ((bitsPerKey * 693147 + 500000) / 1000000) 1) 30 }

def ensureCapacity (f : BloomFilter) (numKeys bitsPerKey : Nat) : BloomFilter :=
  { f with bits := List.replicate ((max (asUsize (numKeys * bitsPerKey)) 64 + 7) / 8) 0 }

def bloomHash (data : Bytes) : UInt32 :=
  data.foldl (fun h b => h * 0x00019360 ^^^ b.toUInt32) (UInt32.ofNat data.length) * 0x9E3779B1

/-- The bits of a key, `h`, `h + delta` and so on, are set. -/
def setBits (nbits : Nat) (delta : UInt32) : Nat → UInt32 → Bytes → Bytes
  | 0, _, bits => bits
  | k + 1, h, bits =>
    let bitpos := h.toNat % nbits
    setBits nbits delta k (h + delta)
      (bits.modify (bitpos / 8) fun b => b ||| UInt8.ofNat (2 ^ (bitpos % 8)))

def insert (f : BloomFilter) (key : Bytes) : BloomFilter :=
  let nbits := asU32 (f.bits.length * 8)
  if nbits = 0 then f
  else
    let h := bloomHash key
    { f with bits := setBits nbits (max (h >>> 17) 1) f.k h f.bits }

def finish (f : BloomFilter) : Bytes := f.bits ++ [UInt8.ofNat f.k]

end BloomFilter

/-- Where a block is in a file. -/
structure BlockHandle where
  offset : Nat
  size : Nat

def BlockHandle.encode (h : BlockHandle) : Bytes := encodeVarint64 h.offset ++ encodeVarint64 h.size

def footerLen : Nat := 48

def tableMagic : Nat := 0xdb4775248b80fb57

/-- `filter.mulan.BloomFilter` -/
def filterMetaKey : Bytes :=
  [0x66, 0x69, 0x6C, 0x74, 0x65, 0x72, 0x2E, 0x6D, 0x75, 0x6C, 0x61, 0x6E, 0x2E, 0x42, 0x6C, 0x6F,
    0x6F, 0x6D, 0x46, 0x69, 0x6C, 0x74, 0x65, 0x72]

/-- A builder of the table file `number`, with the entries added so far. -/
structure TableBuilder where
  number : Nat
  dataBlock : BlockBuilder
  indexBlock : BlockBuilder
  fileOffset : Nat
  lastKey : Bytes
  pending : Option (Bytes × BlockHandle)
  blockTarget : Nat
  bloom : BloomFilter
  entries : List Entry

namespace TableBuilder

def withOptions (number blockTarget bitsPerKey : Nat) : TableBuilder :=
  let estimatedKeys := max (asUsize (50 * blockTarget) / 32) 1000
  { number, dataBlock := {}, indexBlock := {}, fileOffset := 0, lastKey := [], pending := none
    blockTarget, bloom := (BloomFilter.new bitsPerKey).ensureCapacity estimatedKeys bitsPerKey
    entries := [] }

/-- Record the last block that was written in the index. -/
def indexPending (b : TableBuilder) : TableBuilder :=
  match b.pending with
  | some (key, handle) =>
    { b with indexBlock := b.indexBlock.add key handle.encode, pending := none }
  | none => b

/-- Take one more entry into the data block. -/
def addEntry (b : TableBuilder) (ik : InternalKey) (value : Bytes) : TableBuilder :=
  let b := b.indexPending
  { b with
    dataBlock := b.dataBlock.add ik.encode value
    lastKey := ik.encode
    bloom := b.bloom.insert ik.userKey
    entries := b.entries ++ [(ik, value)] }

def currentSizeEstimate (b : TableBuilder) : Nat :=
  b.fileOffset + b.dataBlock.currentSizeEstimate

/-- Write `bytes` and return where they are. -/
def writeRaw (bytes : Bytes) : St TableBuilder BlockHandle := do
  let b ← self
  writeAll (.sst b.number) bytes
  update fun b => { b with fileOffset := b.fileOffset + bytes.length }
  return { offset := b.fileOffset, size := bytes.length }

def flushDataBlock : St TableBuilder Unit := do
  let b ← self
  if b.dataBlock.isEmpty then pure ()
  else do
    update fun b => { b with dataBlock := {} }
    let handle ← writeRaw b.dataBlock.finish
    update fun b => { b with pending := some (b.lastKey, handle) }

def add (ik : InternalKey) (value : Bytes) : St TableBuilder Unit := do
  update fun b => b.addEntry ik value
  let b ← self
  if b.dataBlock.currentSizeEstimate ≥ b.blockTarget then flushDataBlock else pure ()

/-- The builder once `flushDataBlock` has returned. -/
def flushed (b : TableBuilder) : TableBuilder :=
  if b.dataBlock.isEmpty then b
  else
    let size := b.dataBlock.finish.length
    { b with
      dataBlock := {}
      fileOffset := b.fileOffset + size
      pending := some (b.lastKey, { offset := b.fileOffset, size }) }

/-- The builder once `add` has returned. -/
def added (b : TableBuilder) (e : Entry) : TableBuilder :=
  let b := b.addEntry e.1 e.2
  if b.dataBlock.currentSizeEstimate ≥ b.blockTarget then b.flushed else b

/-- The two handles, zeros, and the magic number. -/
def footer (metaindex index : BlockHandle) : Bytes :=
  let handles := metaindex.encode ++ index.encode
  handles ++ List.replicate (footerLen - 8 - handles.length) 0 ++ toLeBytes 8 tableMagic

/-- Write what is left and the blocks that lead to the entries; the table is on the disk once this
returns. -/
def finish : St TableBuilder Unit := do
  flushDataBlock
  update indexPending
  let b ← self
  let filterHandle ← writeRaw b.bloom.finish
  let metaindexHandle ← writeRaw (({} : BlockBuilder).add filterMetaKey filterHandle.encode).finish
  let indexHandle ← writeRaw b.indexBlock.finish
  writeFooter (.sst b.number) (footer metaindexHandle indexHandle) b.entries
  syncAll (.sst b.number)

end TableBuilder

/-- The entries of a table file that a builder has finished. -/
def Dir.table (d : Dir) (number : Nat) : Option (List Entry) :=
  (d.lookup (.sst number)).bind (·.table)

@[simp] theorem flushed_number (b : TableBuilder) : b.flushed.number = b.number := by
  unfold TableBuilder.flushed
  split <;> rfl

@[simp] theorem flushed_entries (b : TableBuilder) : b.flushed.entries = b.entries := by
  unfold TableBuilder.flushed
  split <;> rfl

@[simp] theorem indexPending_number (b : TableBuilder) : b.indexPending.number = b.number := by
  unfold TableBuilder.indexPending
  split <;> rfl

@[simp] theorem indexPending_entries (b : TableBuilder) : b.indexPending.entries = b.entries := by
  unfold TableBuilder.indexPending
  split <;> rfl

@[simp] theorem addEntry_number (b : TableBuilder) (e : Entry) :
    (b.addEntry e.1 e.2).number = b.number := by
  simp [TableBuilder.addEntry]

@[simp] theorem added_number (b : TableBuilder) (e : Entry) : (b.added e).number = b.number := by
  unfold TableBuilder.added
  simp only
  split <;> simp

@[simp] theorem added_entries (b : TableBuilder) (e : Entry) :
    (b.added e).entries = b.entries ++ [e] := by
  unfold TableBuilder.added TableBuilder.addEntry
  simp only
  split <;> simp

/-- The size of a builder counts the value of its first entry. -/
theorem le_currentSizeEstimate (n t b : Nat) (e : Entry) :
    e.2.length ≤ ((TableBuilder.withOptions n t b).added e).currentSizeEstimate := by
  have hBuf : ∀ (b : BlockBuilder) key, e.2.length ≤ (b.add key e.2).buf.length := by
    intro b key
    simp only [BlockBuilder.add, List.length_append]
    omega
  have hBuf := hBuf (TableBuilder.withOptions n t b).indexPending.dataBlock e.1.encode
  unfold TableBuilder.added
  simp only
  split
  · unfold TableBuilder.flushed TableBuilder.currentSizeEstimate
    split
    · simp only [TableBuilder.addEntry, BlockBuilder.currentSizeEstimate]
      omega
    · simp only [TableBuilder.addEntry, BlockBuilder.finish, List.length_append]
      omega
  · simp only [TableBuilder.currentSizeEstimate, TableBuilder.addEntry,
      BlockBuilder.currentSizeEstimate]
    omega

/-- A file whose bytes are all on the disk and whose table has the entries `es`. -/
def Dir.HasTable (d : Dir) (number : Nat) (es : List Entry) : Prop :=
  ∃ f, d.lookup (.sst number) = some f ∧ f.table = some es ∧ f.synced = f.bytes.length

section Building

variable {A : Outcome → Prop} {α β : Type} {d : Dir} {b b' : TableBuilder} {n : Nat}

/-- A program that changes the table file `n` at most, returns `a` and leaves the builder as
`b'`. -/
def BuildsTo (A : Outcome → Prop) (n : Nat) (m : St TableBuilder α) (b : TableBuilder) (d : Dir)
    (a : α) (b' : TableBuilder) : Prop :=
  Spec A m (fun r y d' => (r = a ∧ y = b') ∧ .sst n ∈ d' ∧ d.Frame {.sst n} d')
    (fun f _ d' => Fails A f ∧ d.Frame {.sst n} d') b d

theorem BuildsTo.bind {m : St TableBuilder α} {f : α → St TableBuilder β} {a : α}
    {Q : β → TableBuilder → Dir → Prop} {E : Fault → TableBuilder → Dir → Prop}
    (h : BuildsTo A n m b d a b') (hErr : ∀ f y d', Fails A f ∧ d.Frame {.sst n} d' → E f y d')
    (hNext : ∀ d', .sst n ∈ d' → d.Frame {.sst n} d' → Spec A (f a) Q E b' d') :
    Spec A (m >>= f) Q E b d := by
  refine Spec.bind (Spec.mono h ?_ hErr)
  rintro r y d' ⟨⟨rfl, rfl⟩, hMem, hFrame⟩
  exact hNext d' hMem hFrame

theorem writeAll_frame {σ : Type} {x : σ} {name : FileName} (hMem : name ∈ d) (bytes : Bytes) :
    Spec A (writeAll name bytes) (fun _ y d' => y = x ∧ name ∈ d' ∧ d.Frame {name} d')
      (fun f _ d' => Fails A f ∧ d.Frame {name} d') x d := by
  obtain ⟨f, hf⟩ := Option.isSome_iff_exists.mp (AList.lookup_isSome.mpr hMem)
  have hHas : d.Has name f.bytes f.synced := ⟨f, hf, rfl, rfl⟩
  exact Spec.writeAll hHas (fun d' hHas' hFrame => ⟨rfl, hHas'.mem, hFrame⟩)
    fun n f d' hBroken _ hFrame => ⟨⟨n, hBroken⟩, hFrame⟩

theorem writeRaw_spec (hn : b.number = n) (hMem : .sst n ∈ d) (bytes : Bytes) :
    BuildsTo A n (TableBuilder.writeRaw bytes) b d
      { offset := b.fileOffset, size := bytes.length }
      { b with fileOffset := b.fileOffset + bytes.length } := by
  subst hn
  refine Spec.bind (Spec.self (Spec.bind ((writeAll_frame hMem bytes).mono ?_ fun _ _ _ h => h)))
  rintro - y d' ⟨rfl, hMem', hFrame⟩
  exact Spec.bind (Spec.update (Spec.pure ⟨⟨rfl, rfl⟩, hMem', hFrame⟩))

theorem flushDataBlock_spec (hn : b.number = n) (hMem : .sst n ∈ d) :
    BuildsTo A n TableBuilder.flushDataBlock b d () b.flushed := by
  refine Spec.bind (Spec.self ?_)
  unfold TableBuilder.flushed
  split
  · exact Spec.pure ⟨⟨rfl, rfl⟩, hMem, Dir.Frame.refl _ _⟩
  · refine Spec.bind (Spec.update ?_)
    exact BuildsTo.bind (writeRaw_spec (b := { b with dataBlock := {} }) hn hMem _)
      (fun _ _ _ h => h) fun d' hMem' hFrame => Spec.update ⟨⟨rfl, rfl⟩, hMem', hFrame⟩

theorem add_spec (hn : b.number = n) (hMem : .sst n ∈ d) (e : Entry) :
    BuildsTo A n (TableBuilder.add e.1 e.2) b d () (b.added e) := by
  have hNumber : (b.addEntry e.1 e.2).number = n := (addEntry_number b e).trans hn
  refine Spec.bind (Spec.update (Spec.bind (Spec.self ?_)))
  by_cases hFull : (b.addEntry e.1 e.2).dataBlock.currentSizeEstimate ≥
      (b.addEntry e.1 e.2).blockTarget
  · rw [if_pos hFull, show b.added e = (b.addEntry e.1 e.2).flushed from if_pos hFull]
    exact flushDataBlock_spec hNumber hMem
  · rw [if_neg hFull, show b.added e = b.addEntry e.1 e.2 from if_neg hFull]
    exact Spec.pure ⟨⟨rfl, rfl⟩, hMem, Dir.Frame.refl _ _⟩

/-- Once `finish` returns, the file is a table of the entries that were added. -/
theorem finish_spec (hn : b.number = n) (hMem : .sst n ∈ d) :
    Spec A TableBuilder.finish
      (fun _ _ d' => d'.HasTable n b.entries ∧ d.Frame {.sst n} d')
      (fun f _ d' => Fails A f ∧ d.Frame {.sst n} d') b d := by
  have hNumber : b.flushed.indexPending.number = n := by simp [hn]
  have hEntries : b.flushed.indexPending.entries = b.entries := by simp
  refine (flushDataBlock_spec hn hMem).bind (fun _ _ _ h => h) fun d₁ hMem₁ hF₁ => ?_
  refine Spec.bind (Spec.update (Spec.bind (Spec.self ?_)))
  refine (writeRaw_spec hNumber hMem₁ _).bind (fun _ _ _ h => ⟨h.1, hF₁.trans h.2⟩)
    fun d₂ hMem₂ hF₂ => ?_
  replace hF₂ := hF₁.trans hF₂
  refine (writeRaw_spec (by exact hNumber) hMem₂ _).bind (fun _ _ _ h => ⟨h.1, hF₂.trans h.2⟩)
    fun d₃ hMem₃ hF₃ => ?_
  replace hF₃ := hF₂.trans hF₃
  refine (writeRaw_spec (by exact hNumber) hMem₃ _).bind (fun _ _ _ h => ⟨h.1, hF₃.trans h.2⟩)
    fun d₄ hMem₄ hF₄ => ?_
  replace hF₄ := hF₃.trans hF₄
  rw [hNumber, hEntries]
  obtain ⟨f, hf⟩ := Option.isSome_iff_exists.mp (AList.lookup_isSome.mpr hMem₄)
  refine Spec.bind (Spec.call ?_ fun n _ hBroken => ⟨⟨n, hBroken⟩, ?_⟩)
  · rw [Dir.change_eq hf]
    refine Spec.call ?_ fun n _ hBroken => ⟨⟨n, hBroken⟩, hF₄.trans
      (Dir.Frame.insert (Set.mem_singleton _) _ _)⟩
    rw [Dir.change_eq (AList.lookup_insert _)]
    refine ⟨⟨_, AList.lookup_insert _, rfl, rfl⟩, hF₄.trans (Dir.Frame.trans
      (Dir.Frame.insert (Set.mem_singleton _) _ _) (Dir.Frame.insert (Set.mem_singleton _) _ _))⟩
  · rw [Dir.change_eq hf]
    exact hF₄.trans (Dir.Frame.insert (Set.mem_singleton _) _ _)

end Building

theorem Dir.HasTable.table {d : Dir} {number : Nat} {es : List Entry} (h : d.HasTable number es) :
    d.table number = some es := by
  obtain ⟨f, hf, hTable, -⟩ := h
  simp only [Dir.table, hf, Option.bind_some, hTable]

theorem Dir.HasTable.frame {d d' : Dir} {number : Nat} {es : List Entry} {names : Set FileName}
    (h : d.HasTable number es) (hFrame : d.Frame names d') (hName : .sst number ∉ names) :
    d'.HasTable number es := by
  obtain ⟨f, hf, hTable⟩ := h
  exact ⟨f, (hFrame _ hName).trans hf, hTable⟩

end MulanLsm
