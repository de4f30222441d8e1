import MulanLsm.Block
import MulanLsm.Bloom
import MulanLsm.KeyBytes
import MulanLsm.MemTable

/-! The bytes of table files.  A builder that was given entries writes their data blocks, the
filter, the block that leads to the filter, the index and the footer; a reader finds its way back
from the footer to an entry, or to all of them. -/

namespace MulanLsm

open Slice

def BlockHandle.decode (buf : Bytes) : Result (BlockHandle × Nat) := do
  let (offset, n1) ← decodeVarint64 buf
  let (size, n2) ← decodeVarint64 (buf.drop n1)
  return ({ offset, size }, n1 + n2)

namespace Sstable

/-- A builder of a table file, and what it has written to the file. -/
structure TableBuilder where
  file : Bytes
  dataBlock : BlockBuilder
  indexBlock : BlockBuilder
  fileOffset : Nat
  lastKey : Bytes
  pendingIndexKey : Option Bytes
  pendingHandle : Option BlockHandle
  numEntries : Nat
  blockTarget : Nat
  bloom : BloomFilter

namespace TableBuilder

def withOptions (blockTarget bitsPerKey : Nat) : TableBuilder :=
  let estimatedKeys := max (asUsize (50 * blockTarget) / 32) 1000
  { file := [], dataBlock := {}, indexBlock := {}, fileOffset := 0, lastKey := []
    pendingIndexKey := none, pendingHandle := none, numEntries := 0, blockTarget
    bloom := (BloomFilter.new bitsPerKey).ensureCapacity estimatedKeys bitsPerKey }

/-- Record the last block that was written in the index. -/
def indexPending (b : TableBuilder) : TableBuilder :=
  match b.pendingIndexKey with
  | none => b
  | some key =>
    match b.pendingHandle with
    | none => { b with pendingIndexKey := none }
    | some handle =>
      { b with
        indexBlock := b.indexBlock.add key handle.encode
        pendingIndexKey := none
        pendingHandle := none }

def writeRaw (b : TableBuilder) (bytes : Bytes) : BlockHandle × TableBuilder :=
  ({ offset := b.fileOffset, size := bytes.length },
    { b with file := b.file ++ bytes, fileOffset := b.fileOffset + bytes.length })

def flushDataBlock (b : TableBuilder) : TableBuilder :=
  if b.dataBlock.isEmpty then b
  else
    let (handle, b) := { b with dataBlock := {} }.writeRaw b.dataBlock.finish
    { b with pendingIndexKey := some b.lastKey, pendingHandle := some handle }

/-- Take one more entry into the data block. -/
def addEntry (b : TableBuilder) (userKey internalKey value : Bytes) : TableBuilder :=
  let b := b.indexPending
  { b with
    dataBlock := b.dataBlock.add internalKey value
    lastKey := internalKey
    bloom := b.bloom.insert userKey
    numEntries := b.numEntries + 1 }

def add (b : TableBuilder) (userKey internalKey value : Bytes) : TableBuilder :=
  let b := b.addEntry userKey internalKey value
  if b.dataBlock.currentSizeEstimate ≥ b.blockTarget then b.flushDataBlock else b

/-- The last data block and its place in the index. -/
def flushRest (b : TableBuilder) : TableBuilder := b.flushDataBlock.indexPending

/-- The bytes of the finished file. -/
def finish (b : TableBuilder) : Bytes :=
  let b := b.flushRest
  let (filterHandle, b) := b.writeRaw b.bloom.finish
  let (metaindexHandle, b) :=
    b.writeRaw (({} : BlockBuilder).add filterMetaKey filterHandle.encode).finish
  let (indexHandle, b) := b.writeRaw b.indexBlock.finish
  b.file ++ MulanLsm.TableBuilder.footer metaindexHandle indexHandle

end TableBuilder

structure TableReader where
  data : Bytes
  indexHandle : BlockHandle
  bloom : Option BloomFilter

/-- An iterator over a table: the handles of its data blocks, the index of the next one, the entries
of the current one, and the position in these. -/
structure TableIter where
  data : Bytes
  handles : List BlockHandle
  handleIdx : Nat
  current : List (Bytes × Bytes)
  currentPos : Nat

/-- The bytes that a handle points at. -/
def rangeOf (data : Bytes) (handle : BlockHandle) : Option Bytes :=
  getRange data handle.offset (handle.offset + handle.size)

namespace TableReader

/-- The filter that the metaindex block leads to. -/
def readBloom (data : Bytes) (metaindexHandle : BlockHandle) : Option BloomFilter := do
  let metaBlock ← (Block.new (← rangeOf data metaindexHandle)).toOption
  let filterHandleBytes ← metaBlock.get filterMetaKey cmp
  let (filterHandle, _) ← (BlockHandle.decode filterHandleBytes).toOption
  BloomFilter.fromBytes (← rangeOf data filterHandle)

def hex (n : Nat) : String := String.ofList (Nat.toDigits 16 n)

/-- Open a table of the bytes `data`. -/
def «open» (data : Bytes) : Result TableReader :=
  if data.length < footerLen then
    .error (.corrupted s!"file too short for footer: {data.length} bytes")
  else do
    let footer := data.drop (data.length - footerLen)
    if fromLeBytes (footer.drop (footerLen - 8)) ≠ tableMagic then
      .error (.corrupted (s!"bad magic: 0x{hex (fromLeBytes (footer.drop (footerLen - 8)))}, " ++
        s!"expected 0x{hex tableMagic}"))
    else
      let (metaindexHandle, n1) ← BlockHandle.decode footer
      let (indexHandle, _) ← BlockHandle.decode (footer.drop n1)
      return { data, indexHandle, bloom := readBloom data metaindexHandle }

def blockBytes (r : TableReader) (handle : BlockHandle) : Result Bytes :=
  match rangeOf r.data handle with
  | some bytes => .ok bytes
  | none => .error (.corrupted (s!"block handle out of bounds: offset={handle.offset} " ++
      s!"size={handle.size} file_len={r.data.length}"))

/-- The newest version of `userKey` up to `snapshotSeq`: its type and its value. -/
def getEntry (r : TableReader) (userKey : Bytes) (snapshotSeq : Nat) :
    Result (Option (ValueType × Bytes)) :=
  if r.bloom.any fun bloom => !bloom.mayContain userKey then .ok none
  else do
    let lookup := lookupKey userKey snapshotSeq
    let indexBlock ← Block.new (← r.blockBytes r.indexHandle)
    match indexBlock.lowerBound lookup internalKeyBytesCmp with
    | none => .ok none
    | some dataHandleBytes =>
      let (dataHandle, _) ← BlockHandle.decode dataHandleBytes
      let dataBlock ← Block.new (← r.blockBytes dataHandle)
      match dataBlock.lowerBoundKv lookup internalKeyBytesCmp with
      | none => .ok none
      | some (foundKey, value) =>
        if userKeyOfInternalKey foundKey = userKey then
          match vtypeOfInternalKey foundKey with
          | none => .error (.corrupted "invalid vtype in sstable")
          | some vtype => .ok (some (vtype, value))
        else .ok none

end TableReader

namespace TableIter

def parseDataHandles (data : Bytes) (indexHandle : BlockHandle) : Result (List BlockHandle) :=
  match rangeOf data indexHandle with
  | none => .error (.corrupted
    s!"index handle out of bounds: offset={indexHandle.offset} size={indexHandle.size}")
  | some indexBytes => do
    let indexBlock ← Block.new indexBytes
    indexBlock.iter.mapM fun e => (BlockHandle.decode e.2).map (·.1)

def new (data : Bytes) (indexHandle : BlockHandle) : Result TableIter := do
  let handles ← parseDataHandles data indexHandle
  return { data, handles, handleIdx := 0, current := [], currentPos := 0 }

/-- The block that a handle points at, if there is one. -/
def blockOf (data : Bytes) (handle : BlockHandle) : Option Block :=
  (rangeOf data handle).bind fun bytes => (Block.new bytes).toOption

/-- Go to the next data block that can be read. -/
def advanceToNextBlock (it : TableIter) : Bool × TableIter :=
  if h : it.handleIdx < it.handles.length then
    match blockOf it.data it.handles[it.handleIdx] with
    | some block =>
      (true, { it with handleIdx := it.handleIdx + 1, current := block.iter, currentPos := 0 })
    | none => advanceToNextBlock { it with handleIdx := it.handleIdx + 1 }
  else (false, { it with current := [] })
termination_by it.handles.length - it.handleIdx

theorem handleIdx_lt {it it' : TableIter} (h : it.advanceToNextBlock = (true, it')) :
    it'.handles = it.handles ∧ it.handleIdx < it'.handleIdx ∧
      it'.handleIdx ≤ it'.handles.length := by
  fun_induction advanceToNextBlock it with
  | case1 it hlt block hBlock =>
    obtain rfl := (Prod.mk.inj h).2
    exact ⟨rfl, Nat.lt_succ_self _, hlt⟩
  | case2 it hlt hBlock ih =>
    obtain ⟨hHandles, hIdx, hle⟩ := ih h
    exact ⟨hHandles, Nat.lt_of_succ_lt hIdx, hle⟩
  | case3 it hge => simp at h

/-- The next entry, and the iterator after it. -/
def nextEntry (it : TableIter) : Option (Bytes × Bytes) × TableIter :=
  if h : it.currentPos < it.current.length then
    (some it.current[it.currentPos], { it with currentPos := it.currentPos + 1 })
  else
    match _h : it.advanceToNextBlock with
    | (true, it) => nextEntry it
    | (false, it) => (none, it)
termination_by it.handles.length - it.handleIdx
decreasing_by
  obtain ⟨hHandles, hIdx, hle⟩ := handleIdx_lt _h
  rw [← hHandles]
  omega

end TableIter

/-- Iterate over the whole table. -/
def TableReader.intoTableIter (r : TableReader) : Result TableIter :=
  TableIter.new r.data r.indexHandle

open BlockBuilder

/-- The entries of a data block. -/
abbrev Entries := List (Bytes × Bytes)

/-- Data blocks and their places when they stand in a row from `offset` on. -/
def place : Nat → List Entries → List (Entries × BlockHandle)
  | _, [] => []
  | offset, es :: blocks =>
    (es, { offset, size := (of es).finish.length }) :: place (offset + (of es).finish.length) blocks

/-- What the index has for a data block: its last key and its place. -/
def indexEntry (q : Entries × BlockHandle) : Bytes × Bytes := ((of q.1).lastKey, q.2.encode)

/-- The bytes of data blocks in a row. -/
def dataBytes (blocks : List Entries) : Bytes := blocks.flatMap fun es => (of es).finish

/-- A builder that has written `blocks` and has the entries `rest` for the next one. -/
structure Built (b : TableBuilder) (blocks : List Entries) (rest : Entries) : Prop where
  file : b.file = dataBytes blocks
  offset : b.fileOffset = b.file.length
  data : b.dataBlock = of rest
  index : b.indexPending.indexBlock = of ((place 0 blocks).map indexEntry)
  lastKey : rest ≠ [] → b.lastKey = (of rest).lastKey
  pending : rest ≠ [] → b.pendingIndexKey = none
  filled : ∀ es ∈ blocks, es ≠ []

section Building

variable {b : TableBuilder} {blocks : List Entries} {rest es : Entries} {userKey key value : Bytes}
  {offset : Nat}

theorem dataBytes_cons (es : Entries) (blocks : List Entries) :
    dataBytes (es :: blocks) = (of es).finish ++ dataBytes blocks := List.flatMap_cons

theorem place_append (offset : Nat) (blocks : List Entries) (es : Entries) :
    place offset (blocks ++ [es]) = place offset blocks ++
      [(es, { offset := offset + (dataBytes blocks).length, size := (of es).finish.length })] := by
  induction blocks generalizing offset with
  | nil => rfl
  | cons es' blocks ih =>
    rw [List.cons_append, place, ih, place, List.cons_append, dataBytes_cons, List.length_append,
      Nat.add_assoc]

theorem indexPending_of_none (h : b.pendingIndexKey = none) : b.indexPending = b := by
  rw [TableBuilder.indexPending, h]

/-- Recording the last block leaves nothing to record, and all else as it was. -/
theorem indexPending_spec (b : TableBuilder) : b.indexPending.pendingIndexKey = none ∧
    b.indexPending.file = b.file ∧ b.indexPending.fileOffset = b.fileOffset ∧
    b.indexPending.dataBlock = b.dataBlock ∧ b.indexPending.bloom = b.bloom ∧
    b.indexPending.blockTarget = b.blockTarget ∧ b.indexPending.lastKey = b.lastKey := by
  unfold TableBuilder.indexPending
  cases hKey : b.pendingIndexKey with
  | none => exact ⟨hKey, rfl, rfl, rfl, rfl, rfl, rfl⟩
  | some key =>
    cases b.pendingHandle with
    | none => exact ⟨rfl, rfl, rfl, rfl, rfl, rfl, rfl⟩
    | some handle => exact ⟨rfl, rfl, rfl, rfl, rfl, rfl, rfl⟩

theorem of_ne_nil_buf (h : es ≠ []) : (of es).buf ≠ [] := by
  obtain ⟨es', e, rfl⟩ := List.eq_nil_or_concat' es |>.resolve_left h
  rw [of_append, add_buf]
  exact List.append_ne_nil_of_right_ne_nil _
    (List.ne_nil_of_length_pos (entryBytes_length_pos (of es') e.1 e.2))

theorem Built.addEntry (h : Built b blocks rest) (userKey key value : Bytes) :
    Built (b.addEntry userKey key value) blocks (rest ++ [(key, value)]) := by
  obtain ⟨hKey, hFile, hOffset, hData, -⟩ := indexPending_spec b
  refine ⟨hFile.trans h.file, ?_, ?_, ?_, fun _ => ?_, fun _ => hKey, h.filled⟩
  · exact hOffset.trans (h.offset.trans (congrArg _ hFile.symm))
  · rw [of_append, ← h.data, ← hData]
    rfl
  · rw [indexPending_of_none (b := b.addEntry userKey key value) hKey]
    exact h.index
  · rw [of_append]
    rfl

theorem Built.flushDataBlock (h : Built b blocks rest) :
    Built b.flushDataBlock (if rest = [] then blocks else blocks ++ [rest]) [] := by
  rw [TableBuilder.flushDataBlock, BlockBuilder.isEmpty, h.data]
  by_cases hNil : rest = []
  · rw [if_pos (by simp [hNil, of]), if_pos hNil]
    exact hNil ▸ h
  · have hBuf := of_ne_nil_buf hNil
    rw [if_neg (by simpa using hBuf), if_neg hNil]
    have hIndex := h.index
    rw [indexPending_of_none (h.pending hNil)] at hIndex
    refine ⟨?_, ?_, rfl, ?_, fun h => absurd rfl h, fun h => absurd rfl h, ?_⟩
    · simp [TableBuilder.writeRaw, h.file, dataBytes]
    · simp [TableBuilder.writeRaw, h.offset]
    · rw [place_append, List.map_append, List.map_singleton, of_append, ← hIndex, indexEntry,
        ← h.lastKey hNil, Nat.zero_add, ← h.file, ← h.offset]
      rfl
    · intro es hes
      rcases List.mem_append.mp hes with hes | hes
      · exact h.filled es hes
      · exact List.mem_singleton.mp hes ▸ hNil

theorem Built.flushRest (h : Built b blocks rest) :
    b.flushRest.file = dataBytes (if rest = [] then blocks else blocks ++ [rest]) ∧
    b.flushRest.fileOffset = b.flushRest.file.length ∧ b.flushRest.indexBlock =
      of ((place 0 (if rest = [] then blocks else blocks ++ [rest])).map indexEntry) := by
  obtain ⟨-, hFile, hOffset, -⟩ := indexPending_spec b.flushDataBlock
  have hBuilt := h.flushDataBlock
  refine ⟨hFile.trans hBuilt.file, hOffset.trans (hBuilt.offset.trans (congrArg _ hFile.symm)), ?_⟩
  exact hBuilt.index

/-- A block of these entries is below 4 GiB. -/
def Small (es : Entries) : Prop := (of es).finish.length < 2 ^ 32

instance (es : Entries) : Decidable (Small es) := by unfold Small; infer_instance

/-- The builder once the entries `es` were added, each with its user key. -/
def TableBuilder.addAll (b : TableBuilder) (es : List (Bytes × Bytes × Bytes)) : TableBuilder :=
  es.foldl (fun b e => b.add e.1 e.2.1 e.2.2) b

/-- An entry as a builder takes it, with its user key. -/
def keyed (e : Entry) : Bytes × Bytes × Bytes := (e.1.userKey, e.1.encode, e.2)

/-- The bytes of a table of the entries `es`. -/
def tableBytes (blockTarget bitsPerKey : Nat) (es : List Entry) : Bytes :=
  ((TableBuilder.withOptions blockTarget bitsPerKey).addAll (es.map keyed)).finish

/-- The data blocks of a builder that is given `es` are below 4 GiB, and so is its index. -/
def BlocksSmall : TableBuilder → List (Bytes × Bytes × Bytes) → Prop
  | b, [] => b.flushRest.indexBlock.finish.length < 2 ^ 32
  | b, e :: es => (b.addEntry e.1 e.2.1 e.2.2).dataBlock.finish.length < 2 ^ 32 ∧
      BlocksSmall (b.add e.1 e.2.1 e.2.2) es

instance decidableBlocksSmall (b : TableBuilder) (es : List (Bytes × Bytes × Bytes)) :
    Decidable (BlocksSmall b es) :=
  match es with
  | [] => inferInstanceAs (Decidable (_ < _))
  | e :: es => @instDecidableAnd _ _ _ (decidableBlocksSmall (b.add e.1 e.2.1 e.2.2) es)

theorem add_bloom (b : TableBuilder) (userKey key value : Bytes) :
    (b.add userKey key value).bloom = b.bloom.insert userKey := by
  have hEntry : (b.addEntry userKey key value).bloom = b.bloom.insert userKey := by
    obtain ⟨-, -, -, -, hBloom, -⟩ := indexPending_spec b
    rw [← hBloom]
    rfl
  unfold TableBuilder.add TableBuilder.flushDataBlock
  simp only
  split
  · split
    · exact hEntry
    · exact hEntry
  · exact hEntry

theorem addAll_bloom (b : TableBuilder) (es : List (Bytes × Bytes × Bytes)) :
    (b.addAll es).bloom = (es.map (·.1)).foldl BloomFilter.insert b.bloom := by
  induction es generalizing b with
  | nil => rfl
  | cons e es ih => exact (ih _).trans (by rw [add_bloom]; rfl)

/-- What `add` does to what was written and to what is left. -/
theorem Built.add (h : Built b blocks rest) (userKey key value : Bytes) :
    Built (b.add userKey key value) blocks (rest ++ [(key, value)]) ∨
    Built (b.add userKey key value) (blocks ++ [rest ++ [(key, value)]]) [] := by
  have hAdded := h.addEntry userKey key value
  unfold TableBuilder.add
  simp only
  split
  · have hFlushed := hAdded.flushDataBlock
    rw [if_neg (by simp)] at hFlushed
    exact .inr hFlushed
  · exact .inl hAdded

theorem Built.addAll {es : List (Bytes × Bytes × Bytes)} (h : Built b blocks rest)
    (hSmall : BlocksSmall b es) (hBlocks : ∀ blk ∈ blocks, Small blk) (hRest : Small rest) :
    ∃ blocks' rest', Built (b.addAll es) blocks' rest' ∧
      blocks'.flatten ++ rest' = blocks.flatten ++ rest ++ es.map (·.2) ∧
      (∀ blk ∈ blocks', Small blk) ∧ Small rest' ∧
      (b.addAll es).flushRest.indexBlock.finish.length < 2 ^ 32 := by
  induction es generalizing b blocks rest with
  | nil => exact ⟨blocks, rest, h, (List.append_nil _).symm, hBlocks, hRest, hSmall⟩
  | cons e es ih =>
    obtain ⟨hMore, hSmall⟩ := hSmall
    rw [(h.addEntry e.1 e.2.1 e.2.2).data] at hMore
    rcases h.add e.1 e.2.1 e.2.2 with hAdded | hFlushed
    · obtain ⟨blocks', rest', hBuilt, hAll, hSmalls⟩ := ih hAdded hSmall hBlocks hMore
      exact ⟨blocks', rest', hBuilt, by simpa using hAll, hSmalls⟩
    · obtain ⟨blocks', rest', hBuilt, hAll, hSmalls⟩ := ih hFlushed hSmall (fun blk hblk => by
        rcases List.mem_append.mp hblk with hblk | hblk
        · exact hBlocks blk hblk
        · exact List.mem_singleton.mp hblk ▸ hMore) (by decide)
      exact ⟨blocks', rest', hBuilt, by simpa using hAll, hSmalls⟩

end Building

/-- The handle points at `bytes` in `data`. -/
structure PointsAt (data : Bytes) (handle : BlockHandle) (bytes : Bytes) : Prop where
  stands : At data handle.offset bytes
  size : handle.size = bytes.length

/-- The block that leads to the filter. -/
def metaindexBlock (filterHandle : BlockHandle) : Entries := [(filterMetaKey, filterHandle.encode)]

/-- `data` is a table of the data blocks `blocks` with the filter `bloom`. -/
structure IsTable (data : Bytes) (blocks : List Entries) (bloom : BloomFilter)
    (filterHandle metaindexHandle indexHandle : BlockHandle) : Prop where
  placed : ∀ q ∈ place 0 blocks, PointsAt data q.2 (of q.1).finish
  filter : PointsAt data filterHandle bloom.finish
  metaindex : PointsAt data metaindexHandle (of (metaindexBlock filterHandle)).finish
  index : PointsAt data indexHandle (of ((place 0 blocks).map indexEntry)).finish
  footer : ∃ pre, data = pre ++ MulanLsm.TableBuilder.footer metaindexHandle indexHandle
  small : ∀ es ∈ blocks, Small es
  indexSmall : Small ((place 0 blocks).map indexEntry)
  short : data.length < 2 ^ 64

section Layout

variable {data bytes : Bytes} {blocks : List Entries} {handle : BlockHandle}

theorem PointsAt.rangeOf (h : PointsAt data handle bytes) : rangeOf data handle = some bytes := by
  rw [Sstable.rangeOf, h.size]
  exact h.stands.getRange rfl

theorem handle_length (h : BlockHandle) : 2 ≤ h.encode.length ∧ h.encode.length ≤ 20 := by
  have := encodeVarintLoop_length_pos (maxVarint64Len - 1) h.offset
  have := encodeVarintLoop_length_pos (maxVarint64Len - 1) h.size
  have := encodeVarintLoop_length_le (maxVarint64Len - 1) h.offset
  have := encodeVarintLoop_length_le (maxVarint64Len - 1) h.size
  simp only [BlockHandle.encode, List.length_append, encodeVarint64, maxVarint64Len] at *
  omega

theorem decode_handle {h : BlockHandle} (hOffset : h.offset < 2 ^ 64) (hSize : h.size < 2 ^ 64)
    (rest : Bytes) : BlockHandle.decode (h.encode ++ rest) = .ok (h, h.encode.length) := by
  rw [BlockHandle.decode, BlockHandle.encode, List.append_assoc, decodeVarint64_encode hOffset]
  simp only [bind, Except.bind, List.drop_left']
  rw [decodeVarint64_encode hSize, List.length_append]
  rfl

theorem PointsAt.decode (h : PointsAt data handle bytes) (hShort : data.length < 2 ^ 64)
    (rest : Bytes) :
    BlockHandle.decode (handle.encode ++ rest) = .ok (handle, handle.encode.length) := by
  have := h.stands.le
  have := h.size
  exact decode_handle (by omega) (by omega) rest

theorem place_pointsAt (pre post : Bytes) {q : Entries × BlockHandle}
    (h : q ∈ place pre.length blocks) :
    PointsAt (pre ++ dataBytes blocks ++ post) q.2 (of q.1).finish := by
  induction blocks generalizing pre with
  | nil => contradiction
  | cons es blocks ih =>
    rw [place] at h
    rcases List.mem_cons.mp h with rfl | h
    · refine ⟨⟨pre, dataBytes blocks ++ post, ?_, rfl⟩, rfl⟩
      simp [dataBytes_cons]
    · rw [← List.length_append] at h
      have := ih (pre ++ (of es).finish) h
      rwa [List.append_assoc pre, ← dataBytes_cons] at this

/-- An index below 4 GiB has few enough entries that the blocks fit a file. -/
theorem dataBytes_length (hSmall : ∀ es ∈ blocks, Small es) :
    (dataBytes blocks).length ≤ blocks.length * 2 ^ 32 := by
  induction blocks with
  | nil => exact Nat.zero_le _
  | cons es blocks ih =>
    have hThis : (of es).finish.length < 2 ^ 32 := hSmall es List.mem_cons_self
    have := ih fun es hes => hSmall es (List.mem_cons_of_mem _ hes)
    rw [dataBytes_cons, List.length_append, List.length_cons, Nat.succ_mul]
    omega

theorem le_buf_length (es : Entries) (n : Nat) (h : ∀ e ∈ es, n ≤ e.2.length) :
    es.length * (n + 3) ≤ (of es).buf.length := by
  induction es using List.reverseRecOn with
  | nil => exact Nat.le_of_eq (Nat.zero_mul _)
  | append_singleton es e ih =>
    have hOld := ih fun e he => h e (List.mem_append_left _ he)
    have hNew := h e (by simp)
    have hPos := fun v => encodeVarintLoop_length_pos (maxVarint32Len - 1) (asU32 v)
    have h₁ := hPos ((of es).shared e.1)
    have h₂ := hPos (e.1.length - (of es).shared e.1)
    have h₃ := hPos e.2.length
    rw [of_append, add_buf, List.length_append, entryBytes, List.length_append, Nat.add_mul]
    simp only [List.length_append, encodeVarint32, List.length_singleton] at *
    omega

theorem place_fst (offset : Nat) (blocks : List Entries) :
    (place offset blocks).map (·.1) = blocks := by
  induction blocks generalizing offset with
  | nil => rfl
  | cons es blocks ih => rw [place, List.map_cons, ih]

theorem length_place (offset : Nat) (blocks : List Entries) :
    (place offset blocks).length = blocks.length := by
  induction blocks generalizing offset with
  | nil => rfl
  | cons es blocks ih => rw [place, List.length_cons, ih, List.length_cons]

theorem footer_length (metaindex index : BlockHandle) :
    (MulanLsm.TableBuilder.footer metaindex index).length = footerLen := by
  have := (handle_length metaindex).2
  have := (handle_length index).2
  simp only [MulanLsm.TableBuilder.footer, List.length_append, List.length_replicate,
    toLeBytes_length, footerLen]
  omega

/-- The most that a block of one entry takes. -/
theorem one_finish_length (key value : Bytes) :
    (of [(key, value)]).finish.length ≤ key.length + value.length + 23 := by
  have hLe := fun v => encodeVarintLoop_length_le (maxVarint32Len - 1) (asU32 v)
  have h₁ := hLe (BlockBuilder.shared {} key)
  have h₂ := hLe (key.length - BlockBuilder.shared {} key)
  have h₃ := hLe value.length
  have hBuf : (of [(key, value)]).buf = BlockBuilder.entryBytes {} key value := add_buf {} key value
  have hRestarts : (of [(key, value)]).restarts.length = 1 := by
    rw [Block.restarts_length, List.length_singleton, BlockBuilder.numRestarts]
  rw [Block.finish_length, hBuf, hRestarts, entryBytes]
  simp only [List.length_append, List.length_drop, encodeVarint32, maxVarint32Len] at *
  omega

theorem metaindex_small (handle : BlockHandle) :
    (of (metaindexBlock handle)).finish.length < 2 ^ 10 := by
  have hOne := one_finish_length filterMetaKey handle.encode
  have hHandle := (handle_length handle).2
  have hKey : filterMetaKey.length = 24 := rfl
  rw [metaindexBlock]
  omega

/-- The parts of a finished file. -/
theorem finish_eq {b : TableBuilder} {rest : Entries} (h : Built b blocks rest) :
    let all := if rest = [] then blocks else blocks ++ [rest]
    let filterHandle : BlockHandle := ⟨(dataBytes all).length, b.bloom.finish.length⟩
    let toFilter := dataBytes all ++ b.bloom.finish
    let metaindex := (of (metaindexBlock filterHandle)).finish
    let index := (of ((place 0 all).map indexEntry)).finish
    b.finish = toFilter ++ metaindex ++ index ++ MulanLsm.TableBuilder.footer
      ⟨toFilter.length, metaindex.length⟩ ⟨(toFilter ++ metaindex).length, index.length⟩ := by
  obtain ⟨hFile, hOffset, hIndex⟩ := h.flushRest
  have hBloom : b.flushRest.bloom = b.bloom := by
    obtain ⟨-, -, -, -, hBloom, -⟩ := indexPending_spec b.flushDataBlock
    refine hBloom.trans ?_
    unfold TableBuilder.flushDataBlock
    split <;> rfl
  simp only [TableBuilder.finish, TableBuilder.writeRaw, hOffset, hFile, hIndex, hBloom,
    List.length_append]
  rfl

theorem finish_isTable {b : TableBuilder} {rest : Entries} (h : Built b blocks rest)
    (hSmall : ∀ es ∈ blocks, Small es) (hRest : Small rest)
    (hIndex : b.flushRest.indexBlock.finish.length < 2 ^ 32)
    (hBloom : b.bloom.bits.length < 2 ^ 62) :
    ∃ filterHandle metaindexHandle indexHandle,
      IsTable b.finish (if rest = [] then blocks else blocks ++ [rest]) b.bloom filterHandle
        metaindexHandle indexHandle := by
  have hEq := finish_eq h
  rw [h.flushRest.2.2] at hIndex
  have hAll : ∀ es ∈ if rest = [] then blocks else blocks ++ [rest], Small es := by
    intro es hes
    split at hes
    · exact hSmall es hes
    · rcases List.mem_append.mp hes with hes | hes
      · exact hSmall es hes
      · exact List.mem_singleton.mp hes ▸ hRest
  generalize (if rest = [] then blocks else blocks ++ [rest]) = all at hEq hIndex hAll ⊢
  have hCount := le_buf_length ((place 0 all).map indexEntry) 2 (by
    intro e he
    obtain ⟨q, -, rfl⟩ := List.mem_map.mp he
    exact (handle_length q.2).1)
  rw [List.length_map, length_place] at hCount
  have hData := dataBytes_length hAll
  have hMeta := metaindex_small ⟨(dataBytes all).length, b.bloom.finish.length⟩
  have hIndexLength := Block.finish_length (of ((place 0 all).map indexEntry))
  have hFilter : b.bloom.finish.length = b.bloom.bits.length + 1 := by
    simp [BloomFilter.finish]
  simp only at hEq
  refine ⟨⟨(dataBytes all).length, b.bloom.finish.length⟩, _, _, ?_, ?_, ?_, ?_, ⟨_, hEq⟩, hAll,
    hIndex, ?_⟩
  · intro q hq
    rw [hEq, List.append_assoc, List.append_assoc, List.append_assoc]
    exact place_pointsAt [] _ hq
  · refine ⟨?_, rfl⟩
    rw [hEq, List.append_assoc, List.append_assoc]
    exact at_append _ _ _
  · refine ⟨?_, rfl⟩
    rw [hEq, List.append_assoc]
    exact at_append _ _ _
  · refine ⟨?_, rfl⟩
    rw [hEq]
    exact at_append _ _ _
  · rw [hEq]
    simp only [List.length_append, footer_length, footerLen] at hIndex ⊢
    omega

end Layout

end Sstable

/-- A table that was opened: the bytes of its file, and the entries that an iterator over them
gives. -/
structure TableReader where
  data : Bytes
  entries : List Entry
  deriving DecidableEq

/-- What opening the table file `number` gives, if a builder has finished it. -/
def Dir.reader (d : Dir) (number : Nat) : Option TableReader :=
  (d.lookup (.sst number)).bind fun f => f.table.map fun entries => { data := f.bytes, entries }

namespace TableReader

/-- Open the table file `number`.  A file that no builder has finished is corrupted. -/
def «open» {σ : Type} (number : Nat) : St σ TableReader := do
  let file ← look fun d => d.lookup (.sst number)
  match file.table with
  | some entries => return { data := file.bytes, entries }
  | none => throw (.error (.corrupted "bad magic"))

/-- The newest version of `userKey` up to `snapshotSeq` in the bytes of the file: its type and its
value. -/
def getEntry (r : TableReader) (userKey : Bytes) (snapshotSeq : Nat) :
    Result (Option (ValueType × Bytes)) := do
  let table ← Sstable.TableReader.open r.data
  table.getEntry userKey snapshotSeq

end TableReader

section Opening

variable {A : Outcome → Prop} {σ : Type} {x : σ} {d : Dir} {n : Nat} {r : TableReader}
  {es : List Entry}

theorem Dir.table_of_reader (h : d.reader n = some r) : d.table n = some r.entries := by
  obtain ⟨f, hf, hr⟩ := Option.bind_eq_some_iff.mp h
  obtain ⟨es, hTable, rfl⟩ := Option.map_eq_some_iff.mp hr
  rw [Dir.table, hf]
  exact hTable

theorem Dir.reader_of_table (h : d.table n = some es) :
    ∃ r, d.reader n = some r ∧ r.entries = es := by
  obtain ⟨f, hf, hTable⟩ := Option.bind_eq_some_iff.mp h
  refine ⟨{ data := f.bytes, entries := es }, ?_, rfl⟩
  rw [Dir.reader, hf, Option.bind_some, hTable]
  rfl

/-- Opening a table gives what a builder has finished, or nothing. -/
theorem open_reader (n : Nat) :
    Spec A (TableReader.open n) (fun r y d' => d.reader n = some r ∧ y = x ∧ d' = d)
      (fun f y d' => (d.reader n = none ∨ Fails A f) ∧ y = x ∧ d' = d) x d := by
  refine Spec.bind (Spec.look (fun f hf => ?_) (fun hNone => ?_) fun n _ h =>
    ⟨.inr ⟨n, h⟩, rfl, rfl⟩)
  · cases hTable : f.table with
    | none =>
      exact Spec.throw ⟨.inl (by rw [Dir.reader, hf, Option.bind_some, hTable]; rfl), rfl, rfl⟩
    | some es => exact Spec.pure ⟨by rw [Dir.reader, hf, Option.bind_some, hTable]; rfl, rfl, rfl⟩
  · exact ⟨.inl (by rw [Dir.reader, hNone]; rfl), rfl, rfl⟩

/-- A table that a builder has finished is opened, unless the call fails. -/
theorem open_spec (h : d.reader n = some r) :
    Spec A (TableReader.open n) (fun r' y d' => r' = r ∧ y = x ∧ d' = d)
      (fun f y d' => y = x ∧ Fails A f ∧ d' = d) x d := by
  refine (open_reader n).mono ?_ ?_
  · rintro r' y d' ⟨hr, hy, hd⟩
    exact ⟨Option.some.inj (hr.symm.trans h), hy, hd⟩
  · rintro f y d' ⟨hNone | hFails, hy, hd⟩
    · rw [h] at hNone
      contradiction
    · exact ⟨hy, hFails, hd⟩

end Opening

end MulanLsm
