import MulanLsm.CheckedBlocks
import MulanLsm.SstableReading

/-! Table files, read with the checks that the language makes. -/

namespace MulanLsm

open Slice

/-- The end of the handle's block fits a word. -/
def BlockHandle.Fits (h : BlockHandle) : Prop := h.offset + h.size < 2 ^ 64

namespace Sstable

/-- The handles of the metaindex and of the index, if the file has a footer. -/
def footerHandles (data : Bytes) : Option (BlockHandle × BlockHandle) :=
  if data.length < footerLen then none
  else
    let footer := data.drop (data.length - footerLen)
    if fromLeBytes (footer.drop (footerLen - 8)) ≠ tableMagic then none
    else do
      let (metaindexHandle, n1) ← (BlockHandle.decode footer).toOption
      let (indexHandle, _) ← (BlockHandle.decode (footer.drop n1)).toOption
      return (metaindexHandle, indexHandle)

/-- The handle of the filter, if the metaindex block leads to one. -/
def filterHandle (data : Bytes) (metaindexHandle : BlockHandle) : Option BlockHandle := do
  let metaBlock ← TableIter.blockOf data metaindexHandle
  let bytes ← metaBlock.get filterMetaKey cmp
  let (handle, _) ← (BlockHandle.decode bytes).toOption
  return handle

/-- The handle of the data block that the index leads to, if it leads to one. -/
def dataHandle (data : Bytes) (indexHandle : BlockHandle) (lookup : Bytes) :
    Option BlockHandle := do
  let index ← TableIter.blockOf data indexHandle
  let bytes ← index.lowerBound lookup internalKeyBytesCmp
  let (handle, _) ← (BlockHandle.decode bytes).toOption
  return handle

/-- The handles of the data blocks, if all that the index lists are handles. -/
def dataHandles (data : Bytes) (indexHandle : BlockHandle) : Option (List BlockHandle) := do
  let index ← TableIter.blockOf data indexHandle
  (index.iter.mapM fun e => (BlockHandle.decode e.2).map (·.1)).toOption

/-- A lower bound can be searched for in the block at a handle, if one is there. -/
structure Searchable (data : Bytes) (h : BlockHandle) : Prop where
  fits : h.Fits
  restarts : ∀ b, TableIter.blockOf data h = some b → 0 < b.numRestarts

/-- A lookup of `userKey` at `seq` in a table with the filter `bloom`: the bits of the filter can be
counted, and where the filter lets the key pass, the blocks that are searched can be. -/
structure SearchFits (data : Bytes) (indexHandle : BlockHandle) (bloom : Option BloomFilter)
    (userKey : Bytes) (seq : Nat) : Prop where
  filter : ∀ f, bloom = some f → f.bits.length * 8 < 2 ^ 64
  index : (∀ f, bloom = some f → f.mayContain userKey) → Searchable data indexHandle
  block : (∀ f, bloom = some f → f.mayContain userKey) →
    ∀ h, dataHandle data indexHandle (lookupKey userKey seq) = some h → Searchable data h

/-- What the calls on a table follow is in place: the handles in its footer and the one of its
filter, what a lookup of `userKey` searches, at `seq` or at the newest version, and the handles that
its index lists. -/
structure InPlace (data userKey : Bytes) (seq : Nat) : Prop where
  opened : ∀ m i, footerHandles data = some (m, i) →
    m.Fits ∧ ∀ f, filterHandle data m = some f → f.Fits
  searched : ∀ m i, footerHandles data = some (m, i) → ∀ s ∈ [seq, maxSequence],
    SearchFits data i (TableReader.readBloom data m) userKey s
  listed : ∀ m i, footerHandles data = some (m, i) →
    i.Fits ∧ ∀ hs, dataHandles data i = some hs → ∀ h ∈ hs, h.Fits

end Sstable

namespace Checks

open Checked Sstable

namespace TableReader

open Sstable.TableReader (hex)

/-- The filter that the metaindex block leads to. -/
def readBloom (data : Bytes) (metaindexHandle : BlockHandle) : Checked Unit BloomFilter := do
  let metaEnd ← add 64 metaindexHandle.offset metaindexHandle.size
  let metaBlock ← ok (Block.new (← ofOption (getRange data metaindexHandle.offset metaEnd)))
  let filterHandleBytes ← Block.get metaBlock filterMetaKey fun a b => return cmp a b
  let (filterHandle, _) ← ok (BlockHandle.decode filterHandleBytes)
  let fbEnd ← add 64 filterHandle.offset filterHandle.size
  BloomFilter.fromBytes (← ofOption (getRange data filterHandle.offset fbEnd))

def «open» (data : Bytes) : Checked MulanError Sstable.TableReader := do
  if data.length < footerLen then
    throw (.corrupted s!"file too short for footer: {data.length} bytes")
  else
    let footer ← sliceFrom data (← sub data.length footerLen)
    let magic := fromLeBytes (← sliceFrom footer (footerLen - 8))
    if magic ≠ tableMagic then
      throw (.corrupted s!"bad magic: 0x{hex magic}, expected 0x{hex tableMagic}")
    else
      let (metaindexHandle, n1) ← BlockHandle.decode footer
      let (indexHandle, _) ← BlockHandle.decode (← sliceFrom footer n1)
      let bloom := (← attempt (readBloom data metaindexHandle)).toOption
      return { data, indexHandle, bloom }

def blockBytes (r : Sstable.TableReader) (handle : BlockHandle) : Checked MulanError Bytes := do
  let last ← add 64 handle.offset handle.size
  if last > r.data.length then
    throw (.corrupted (s!"block handle out of bounds: offset={handle.offset} " ++
      s!"size={handle.size} file_len={r.data.length}"))
  else slice r.data handle.offset last

/-- What `get_entry` makes of the entry that its last search finds. -/
def foundEntry (userKey : Bytes) :
    Except Unit (Bytes × Bytes) → Checked MulanError (Option (ValueType × Bytes))
  | .error _ => return none
  | .ok (foundKey, value) => do
    if (← userKeyOfInternalKey foundKey) = userKey then
      match ← attempt (vtypeOfInternalKey foundKey) with
      | .error _ => throw (.corrupted "invalid vtype in sstable")
      | .ok vtype => return some (vtype, value)
    else return none

/-- What `get_entry` does once the filter is passed. -/
def search (r : Sstable.TableReader) (userKey : Bytes) (snapshotSeq : Nat) :
    Checked MulanError (Option (ValueType × Bytes)) := do
  let lookup ← lookupKey userKey snapshotSeq
  let indexBlock ← Block.new (← blockBytes r r.indexHandle)
  match ← attempt (Block.lowerBound indexBlock lookup internalKeyCmp) with
  | .error _ => return none
  | .ok dataHandleBytes =>
    let (dataHandle, _) ← BlockHandle.decode dataHandleBytes
    let dataBlock ← Block.new (← blockBytes r dataHandle)
    foundEntry userKey (← attempt (Block.lowerBoundKv dataBlock lookup internalKeyCmp))

def getEntry (r : Sstable.TableReader) (userKey : Bytes) (snapshotSeq : Nat) :
    Checked MulanError (Option (ValueType × Bytes)) :=
  match r.bloom with
  | none => search r userKey snapshotSeq
  | some bloom => do
    if !(← BloomFilter.mayContain bloom userKey) then return none
    else search r userKey snapshotSeq

def get (r : Sstable.TableReader) (userKey : Bytes) : Checked MulanError (Option Bytes) := do
  match ← getEntry r userKey maxSequence with
  | some (.put, value) => return some value
  | some (.delete, _) => return none
  | none => return none

end TableReader

namespace TableIter

def parseDataHandles (data : Bytes) (indexHandle : BlockHandle) :
    Checked MulanError (List BlockHandle) := do
  let last ← add 64 indexHandle.offset indexHandle.size
  let indexBytes ← Block.corrupted
    s!"index handle out of bounds: offset={indexHandle.offset} size={indexHandle.size}"
    (getRange data indexHandle.offset last)
  let indexBlock ← Block.new indexBytes
  let entries ← Block.iter indexBlock
  entries.mapM fun e => do return (← BlockHandle.decode e.2).1

def new (data : Bytes) (indexHandle : BlockHandle) : Checked MulanError Sstable.TableIter := do
  let handles ← parseDataHandles data indexHandle
  return { data, handles, handleIdx := 0, current := [], currentPos := 0 }

/-- The block at a handle. -/
def blockOf (data : Bytes) (handle : BlockHandle) : Checked Unit Block := do
  let last ← add 64 handle.offset handle.size
  ok (Block.new (← ofOption (getRange data handle.offset last)))

/-- The loop of `advance_to_next_block`, for at most `fuel` turns. -/
def advanceToNextBlock {ε : Type} : Nat → Sstable.TableIter → Checked ε (Bool × Sstable.TableIter)
  | 0, _ => fail
  | fuel + 1, it => do
    if it.handleIdx < it.handles.length then
      let handle ← index it.handles it.handleIdx
      let it := { it with handleIdx := ← add 64 it.handleIdx 1 }
      match ← attempt (blockOf it.data handle) with
      | .ok block => return (true, { it with current := ← Block.iter block, currentPos := 0 })
      | .error _ => advanceToNextBlock fuel it
    else return (false, { it with current := [] })

/-- The loop of `next_entry`, for at most `fuel` turns. -/
def nextEntry {ε : Type} : Nat → Sstable.TableIter →
    Checked ε (Option (Bytes × Bytes) × Sstable.TableIter)
  | 0, _ => fail
  | fuel + 1, it => do
    if it.currentPos < it.current.length then
      let item ← index it.current it.currentPos
      return (some item, { it with currentPos := ← add 64 it.currentPos 1 })
    else
      let (more, it) ← advanceToNextBlock (it.handles.length - it.handleIdx + 1) it
      if more then nextEntry fuel it else return (none, it)

/-- All entries to the end of the iteration, for at most `fuel` of them. -/
def collect {ε : Type} : Nat → Sstable.TableIter → Checked ε (List (Bytes × Bytes))
  | 0, _ => fail
  | fuel + 1, it => do
    match ← nextEntry (it.handles.length - it.handleIdx + 1) it with
    | (some item, it) => return item :: (← collect fuel it)
    | (none, _) => return []

end TableIter

def TableReader.intoTableIter (r : Sstable.TableReader) : Checked MulanError Sstable.TableIter :=
  TableIter.new r.data r.indexHandle

section Opening

variable {data : Bytes} {m i f : BlockHandle}

/-- The filter, once its handle is found. -/
theorem readBloom_split (hLen : data.length < 2 ^ 63) (hm : m.Fits) :
    TableReader.readBloom data m = ofOption (filterHandle data m) >>= fun f =>
      add 64 f.offset f.size >>= fun last => ofOption (getRange data f.offset last) >>=
        BloomFilter.fromBytes := by
  rw [TableReader.readBloom, add_of_lt hm, pure_eq_lift, lift_ok_bind, filterHandle,
    Sstable.TableIter.blockOf, rangeOf]
  cases hRange : getRange data m.offset (m.offset + m.size) with
  | none => rfl
  | some bytes =>
    have hBytes : bytes.length < 2 ^ 63 := Nat.lt_of_le_of_lt (Block.getRange_length hRange) hLen
    rw [ofOption_some, lift_ok_bind, Block.new_eq hBytes, ok_lift, Option.bind_some]
    cases hNew : MulanLsm.Block.new bytes with
    | error e => rfl
    | ok metaBlock =>
      have hGet : Block.get metaBlock filterMetaKey (fun a b => return cmp a b) =
          ofOption (metaBlock.get filterMetaKey cmp) :=
        Block.get_eq (fun _ _ => rfl) (Block.new_parsed hBytes hNew)
      rw [Except.toOption, ofOption_some, lift_ok_bind, hGet, Option.bind_eq_bind,
        Option.bind_some]
      cases metaBlock.get filterMetaKey cmp with
      | none => rfl
      | some handleBytes =>
        simp only [ofOption_some, lift_ok_bind, BlockHandle.decode_eq, ok_lift,
          Option.bind_eq_bind, Option.bind_some]
        cases MulanLsm.BlockHandle.decode handleBytes <;> rfl

theorem readBloom_eq (hLen : data.length < 2 ^ 63) (hm : m.Fits)
    (hf : ∀ f, filterHandle data m = some f → f.Fits) :
    TableReader.readBloom data m = ofOption (Sstable.TableReader.readBloom data m) := by
  have hRead : Sstable.TableReader.readBloom data m =
      (filterHandle data m).bind fun f => (rangeOf data f).bind MulanLsm.BloomFilter.fromBytes := by
    rw [Sstable.TableReader.readBloom, filterHandle, Sstable.TableIter.blockOf]
    cases rangeOf data m with
    | none => rfl
    | some bytes =>
      rw [Option.bind_eq_bind, Option.bind_some, Option.bind_some]
      cases (MulanLsm.Block.new bytes).toOption with
      | none => rfl
      | some metaBlock =>
        refine .trans ?_ (Option.bind_assoc (metaBlock.get filterMetaKey cmp) _ _).symm
        refine congrArg (metaBlock.get filterMetaKey cmp).bind (funext fun handleBytes => ?_)
        cases MulanLsm.BlockHandle.decode handleBytes <;> rfl
  rw [readBloom_split hLen hm, hRead]
  refine ofOption_bind fun f hFilter => ?_
  rw [add_of_lt (hf f hFilter), pure_eq_lift, lift_ok_bind]
  exact ofOption_bind fun bytes _ => BloomFilter.fromBytes_eq bytes

theorem readBloom_fail (hLen : data.length < 2 ^ 63)
    (h : ¬(m.Fits ∧ ∀ f, filterHandle data m = some f → f.Fits)) :
    TableReader.readBloom data m = fail := by
  by_cases hm : m.Fits
  · obtain ⟨f, hFilter, hf⟩ : ∃ f, filterHandle data m = some f ∧ ¬f.Fits := by
      by_contra hNone
      exact h ⟨hm, fun f hFilter => by_contra fun hf => hNone ⟨f, hFilter, hf⟩⟩
    rw [readBloom_split hLen hm, hFilter, ofOption_some, lift_ok_bind, add_of_not_lt hf, fail_bind]
  · rw [TableReader.readBloom, add_of_not_lt hm, fail_bind]

theorem decode_le {buf : Bytes} {h : BlockHandle} {n : Nat}
    (hDecode : MulanLsm.BlockHandle.decode buf = .ok (h, n)) : n ≤ buf.length := by
  obtain ⟨⟨offset, n1⟩, hOffset, hRest⟩ := bind_eq_ok.mp hDecode
  obtain ⟨⟨size, n2⟩, hSize, hEnd⟩ := bind_eq_ok.mp hRest
  obtain ⟨-, rfl⟩ := Prod.mk.inj (Except.ok.inj hEnd)
  have h₁ := (decodeVarint64_le hOffset).2
  have h₂ := (decodeVarint64_le hSize).2
  rw [List.length_drop] at h₂
  omega

/-- A file is opened if it has a footer, once its filter is read. -/
theorem open_split (data : Bytes) :
    footerHandles data = none ∧ (∃ e, TableReader.open data = lift (.error e)) ∨
      ∃ m i, footerHandles data = some (m, i) ∧
        TableReader.open data = attempt (TableReader.readBloom data m) >>= fun bloom =>
          lift (.ok { data, indexHandle := i, bloom := bloom.toOption }) := by
  rw [footerHandles, TableReader.open]
  by_cases hShort : data.length < footerLen
  · rw [if_pos hShort, if_pos hShort]
    exact .inl ⟨rfl, _, rfl⟩
  · rw [if_neg hShort, if_neg hShort, sub_of_le (Nat.not_lt.mp hShort), pure_eq_lift, lift_ok_bind,
      sliceFrom_of_le (Nat.sub_le _ _), pure_eq_lift, lift_ok_bind]
    have hLen : (data.drop (data.length - footerLen)).length = footerLen := by
      rw [List.length_drop]
      omega
    generalize data.drop (data.length - footerLen) = footer at hLen
    simp only [sliceFrom_of_le (show footerLen - 8 ≤ footer.length by rw [hLen]; decide),
      pure_eq_lift, lift_ok_bind]
    by_cases hMagic : fromLeBytes (footer.drop (footerLen - 8)) ≠ tableMagic
    · rw [if_pos hMagic, if_pos hMagic]
      exact .inl ⟨rfl, _, rfl⟩
    · rw [if_neg hMagic, if_neg hMagic, BlockHandle.decode_eq]
      cases hMeta : MulanLsm.BlockHandle.decode footer with
      | error e => exact .inl ⟨rfl, _, rfl⟩
      | ok p =>
        obtain ⟨m, n1⟩ := p
        simp only [lift_ok_bind, sliceFrom_of_le (decode_le hMeta), pure_eq_lift,
          BlockHandle.decode_eq, Except.toOption, Option.bind_eq_bind, Option.bind_some]
        cases MulanLsm.BlockHandle.decode (footer.drop n1) with
        | error e => exact .inl ⟨rfl, _, rfl⟩
        | ok q => exact .inr ⟨m, q.1, rfl, rfl⟩

end Opening

section Searching

variable {r : Sstable.TableReader} {h : BlockHandle} {userKey : Bytes} {seq : Nat}

theorem blockOf_eq (hLen : data.length < 2 ^ 63) (hFits : h.Fits) :
    TableIter.blockOf data h = ofOption (Sstable.TableIter.blockOf data h) := by
  rw [TableIter.blockOf, add_of_lt hFits, pure_eq_lift, lift_ok_bind, Sstable.TableIter.blockOf,
    rangeOf]
  refine ofOption_bind fun bytes hRange => ?_
  rw [Block.new_eq (Nat.lt_of_le_of_lt (Block.getRange_length hRange) hLen), ok_lift]

theorem blockOf_parsed {b : Block} (hLen : data.length < 2 ^ 63)
    (hBlock : Sstable.TableIter.blockOf data h = some b) : Block.Parsed b := by
  obtain ⟨bytes, hRange, hNew⟩ := Option.bind_eq_some_iff.mp hBlock
  exact Block.new_parsed (Nat.lt_of_le_of_lt (Block.getRange_length hRange) hLen)
    (eq_ok_of_toOption hNew)

theorem blockBytes_eq (r : Sstable.TableReader) (hFits : h.Fits) :
    TableReader.blockBytes r h = lift (r.blockBytes h) := by
  rw [TableReader.blockBytes, add_of_lt hFits, pure_eq_lift, lift_ok_bind,
    Sstable.TableReader.blockBytes, rangeOf, getRange]
  by_cases hEnd : h.offset + h.size > r.data.length
  · rw [if_pos hEnd, if_neg (by omega)]
    rfl
  · rw [if_neg hEnd, if_pos ⟨Nat.le_add_right _ _, Nat.le_of_not_gt hEnd⟩,
      slice_of_le (Nat.le_add_right _ _) (Nat.le_of_not_gt hEnd)]
    rfl

/-- The block at a handle whose end fits is read, or it is an error. -/
theorem block_eq (hLen : r.data.length < 2 ^ 63) (hFits : h.Fits) :
    ∃ e, (TableReader.blockBytes r h >>= Block.new) =
      lift ((Sstable.TableIter.blockOf r.data h).elim (.error e) .ok) := by
  rw [blockBytes_eq r hFits, Sstable.TableReader.blockBytes, Sstable.TableIter.blockOf]
  cases hRange : rangeOf r.data h with
  | none => exact ⟨_, rfl⟩
  | some bytes =>
    have hBytes : bytes.length < 2 ^ 63 := Nat.lt_of_le_of_lt (Block.getRange_length hRange) hLen
    rw [lift_ok_bind, Block.new_eq hBytes, Option.bind_some]
    cases MulanLsm.Block.new bytes with
    | error e => exact ⟨e, rfl⟩
    | ok b => exact ⟨.notFound, rfl⟩

/-- A search in the block at a handle does not stop at a failed check if the block can be
searched. -/
theorem total_search_iff {β γ : Type} (hLen : r.data.length < 2 ^ 63) {s : Block → Checked Unit γ}
    {s' : Block → Option γ}
    (hs : ∀ b, Block.Parsed b → s b = if 0 < b.numRestarts then ofOption (s' b) else fail)
    {k : Except Unit γ → Checked MulanError β} :
    Total ((TableReader.blockBytes r h >>= Block.new) >>= fun b => attempt (s b) >>= k) ↔
      Searchable r.data h ∧ ∀ b, Sstable.TableIter.blockOf r.data h = some b →
        Total (k ((s' b).elim (.error ()) .ok)) := by
  by_cases hFits : h.Fits
  · obtain ⟨e, hBlock⟩ := block_eq hLen hFits
    rw [hBlock, total_lift_bind]
    cases hAt : Sstable.TableIter.blockOf r.data h with
    | none =>
      refine ⟨fun _ => ⟨⟨hFits, fun b hb => ?_⟩, fun b hb => ?_⟩, fun _ b hb => ?_⟩
      · rw [hAt] at hb
        cases hb
      · cases hb
      · cases hb
    | some b =>
      have hs := hs b (blockOf_parsed hLen hAt)
      simp only [Option.elim_some, Except.ok.injEq, forall_eq', Option.some.injEq, hs]
      by_cases hPos : 0 < b.numRestarts
      · rw [if_pos hPos]
        refine ⟨fun hk => ⟨⟨hFits, fun b' hb' => ?_⟩, hk⟩, fun hBoth => hBoth.2⟩
        obtain rfl := Option.some.inj (hAt.symm.trans hb')
        exact hPos
      · rw [if_neg hPos]
        refine ⟨fun hk => absurd hk not_total_fail, fun hBoth => ?_⟩
        exact absurd (hBoth.1.restarts b hAt) hPos
  · rw [TableReader.blockBytes, add_of_not_lt hFits]
    simp only [fail_bind, not_total_fail, false_iff]
    exact fun hBoth => hFits hBoth.1.fits

theorem lowerBound_eq {b : Block} {target : Bytes} (h : Block.Parsed b)
    (hTarget : target.length < 2 ^ 64) :
    Block.lowerBound b target internalKeyCmp =
      if 0 < b.numRestarts then ofOption (b.lowerBound target internalKeyBytesCmp) else fail := by
  rw [Block.lowerBound, Block.lowerBoundEntry_eq (fun _ hKey => internalKeyCmp_eq hTarget hKey) h,
    MulanLsm.Block.lowerBound]
  split
  · cases b.lowerBoundEntry target internalKeyBytesCmp <;> rfl
  · rfl

theorem lowerBoundKv_eq {b : Block} {target : Bytes} (h : Block.Parsed b)
    (hTarget : target.length < 2 ^ 64) :
    Block.lowerBoundKv b target internalKeyCmp =
      if 0 < b.numRestarts then ofOption (b.lowerBoundKv target internalKeyBytesCmp) else fail := by
  rw [Block.lowerBoundKv, Block.lowerBoundEntry_eq (fun _ hKey => internalKeyCmp_eq hTarget hKey) h,
    MulanLsm.Block.lowerBoundKv]
  split
  · cases b.lowerBoundEntry target internalKeyBytesCmp <;> rfl
  · rfl

theorem total_foundEntry (userKey : Bytes) (found : Except Unit (Bytes × Bytes)) :
    Total (TableReader.foundEntry userKey found) := by
  cases found with
  | error _ => exact total_lift _
  | ok e =>
    obtain ⟨foundKey, value⟩ := e
    rw [TableReader.foundEntry, userKeyOfInternalKey_eq, lift_ok_bind, vtypeOfInternalKey_eq]
    split
    · cases MulanLsm.vtypeOfInternalKey foundKey with
      | none => exact total_lift _
      | some vtype => exact total_lift _
    · exact total_lift _

theorem search_iff (hLen : r.data.length < 2 ^ 63) (hKey : userKey.length < 2 ^ 63) :
    Total (TableReader.search r userKey seq) ↔ Searchable r.data r.indexHandle ∧
      ∀ h, dataHandle r.data r.indexHandle (MulanLsm.lookupKey userKey seq) = some h →
        Searchable r.data h := by
  have hLookup : (MulanLsm.lookupKey userKey seq).length < 2 ^ 64 := by
    rw [MulanLsm.lookupKey, InternalKey.encode_length, keyFooterLen]
    show userKey.length + 9 < 2 ^ 64
    omega
  have hCapacity : userKey.length + keyFooterLen < 2 ^ 64 := by
    rw [keyFooterLen]
    omega
  rw [TableReader.search, lookupKey, add_of_lt hCapacity]
  simp only [pure_eq_lift, lift_ok_bind]
  rw [← bind_assoc, total_search_iff hLen fun b hb => lowerBound_eq hb hLookup]
  refine and_congr_right fun hIndex => ?_
  rw [dataHandle]
  cases hBlock : Sstable.TableIter.blockOf r.data r.indexHandle with
  | none => simp
  | some index =>
    simp only [Option.some.injEq, forall_eq', Option.bind_eq_bind, Option.bind_some]
    cases index.lowerBound (MulanLsm.lookupKey userKey seq) internalKeyBytesCmp with
    | none => simp
    | some handleBytes =>
      simp only [Option.elim_some, BlockHandle.decode_eq, Option.bind_some]
      cases MulanLsm.BlockHandle.decode handleBytes with
      | error e => simp [Except.toOption]
      | ok p =>
        simp only [lift_ok_bind]
        rw [← bind_assoc, total_search_iff hLen fun b hb => lowerBoundKv_eq hb hLookup]
        simp only [total_foundEntry, implies_true, and_true, Except.toOption, Option.bind_some,
          pure, Option.some.injEq, forall_eq']

theorem getEntry_iff (hLen : r.data.length < 2 ^ 63) (hKey : userKey.length < 2 ^ 63) :
    Total (TableReader.getEntry r userKey seq) ↔
      SearchFits r.data r.indexHandle r.bloom userKey seq := by
  have hSearch : Total (TableReader.search r userKey seq) ↔ _ := search_iff hLen hKey
  have hFits : SearchFits r.data r.indexHandle r.bloom userKey seq ↔
      (∀ f, r.bloom = some f → f.bits.length * 8 < 2 ^ 64) ∧
        ((∀ f, r.bloom = some f → f.mayContain userKey) →
          Total (TableReader.search r userKey seq)) := by
    rw [hSearch]
    exact ⟨fun h => ⟨h.filter, fun hPass => ⟨h.index hPass, h.block hPass⟩⟩,
      fun h => ⟨h.1, fun hPass => (h.2 hPass).1, fun hPass => (h.2 hPass).2⟩⟩
  rw [hFits, TableReader.getEntry]
  cases r.bloom with
  | none => simp
  | some f =>
    simp only [BloomFilter.mayContain_eq, Option.some.injEq, forall_eq']
    by_cases hCount : f.bits.length * 8 < 2 ^ 64
    · rw [if_pos hCount, lift_ok_bind]
      cases f.mayContain userKey with
      | false => exact ⟨fun _ => ⟨hCount, fun hPass => by cases hPass⟩, fun _ => total_lift _⟩
      | true => exact ⟨fun hTotal => ⟨hCount, fun _ => hTotal⟩, fun hBoth => hBoth.2 rfl⟩
    · rw [if_neg hCount, fail_bind]
      exact ⟨fun hTotal => absurd hTotal not_total_fail, fun hBoth => absurd hBoth.1 hCount⟩

theorem get_iff (hLen : r.data.length < 2 ^ 63) (hKey : userKey.length < 2 ^ 63) :
    Total (TableReader.get r userKey) ↔
      SearchFits r.data r.indexHandle r.bloom userKey maxSequence := by
  rw [TableReader.get, total_bind_iff, getEntry_iff hLen hKey]
  rintro (_ | ⟨_ | _, value⟩) <;> exact total_lift _

end Searching

section Iterating

variable {i : BlockHandle} {it : Sstable.TableIter}

theorem parseDataHandles_eq (hLen : data.length < 2 ^ 63) (hFits : i.Fits) :
    TableIter.parseDataHandles data i = lift (Sstable.TableIter.parseDataHandles data i) := by
  rw [TableIter.parseDataHandles, add_of_lt hFits, pure_eq_lift, lift_ok_bind, Block.corrupted_eq,
    Sstable.TableIter.parseDataHandles, rangeOf]
  cases hRange : getRange data i.offset (i.offset + i.size) with
  | none => rfl
  | some bytes =>
    have hBytes : bytes.length < 2 ^ 63 := Nat.lt_of_le_of_lt (Block.getRange_length hRange) hLen
    simp only [Option.elim_some, lift_ok_bind, Block.new_eq hBytes]
    refine lift_bind fun index hNew => ?_
    rw [Block.iter_eq (Block.new_parsed hBytes hNew), lift_ok_bind]
    refine mapM_lift fun e _ => ?_
    rw [BlockHandle.decode_eq]
    cases MulanLsm.BlockHandle.decode e.2 <;> rfl

/-- The handles are those that the index lists. -/
theorem toOption_parseDataHandles (data : Bytes) (i : BlockHandle) :
    (Sstable.TableIter.parseDataHandles data i).toOption = dataHandles data i := by
  rw [Sstable.TableIter.parseDataHandles, dataHandles, Sstable.TableIter.blockOf]
  cases rangeOf data i with
  | none => rfl
  | some bytes =>
    simp only [Option.bind_eq_bind, Option.bind_some]
    cases MulanLsm.Block.new bytes <;> rfl

theorem Block.iterFrom_length {b : Block} {offset : Nat} {lastKey : Bytes} (h : Block.Parsed b) :
    (b.iterFrom offset lastKey).length ≤ b.restartsOffset - offset := by
  fun_induction MulanLsm.Block.iterFrom b offset lastKey with
  | case1 => exact Nat.zero_le _
  | case2 => exact Nat.zero_le _
  | case3 offset lastKey hPast entry hParse ih =>
    have hNext := (Block.parseEntry_bounds h.length_lt hParse).2
    have hLt := MulanLsm.Block.lt_of_parseEntry hParse
    rw [List.length_cons]
    omega

/-- What an iterator counts fits a word. -/
structure Small (it : Sstable.TableIter) : Prop where
  data : it.data.length < 2 ^ 63
  handles : it.handles.length < 2 ^ 63
  current : it.current.length < 2 ^ 63

/-- The ends of the handles that are left fit a word. -/
def AllFit (it : Sstable.TableIter) : Prop := ∀ h ∈ it.handles.drop it.handleIdx, h.Fits

theorem iter_length {b : Block} (h : Block.Parsed b) : b.iter.length < 2 ^ 63 := by
  have hIter : b.iter.length ≤ b.restartsOffset - 0 := Block.iterFrom_length h
  have hLen := h.length_lt
  have hRestarts := h.restarts
  omega

/-- With handles that fit, the iterator goes to the next block as it does without checks. -/
theorem advanceToNextBlock_eq {E : Type} (hSmall : Small it) (hFit : AllFit it) {fuel : Nat}
    (hFuel : it.handles.length - it.handleIdx < fuel) :
    (TableIter.advanceToNextBlock fuel it : Checked E (Bool × Sstable.TableIter)) =
        lift (.ok it.advanceToNextBlock) ∧
      Small it.advanceToNextBlock.2 ∧ AllFit it.advanceToNextBlock.2 := by
  induction fuel generalizing it with
  | zero => omega
  | succ fuel ih =>
    rw [TableIter.advanceToNextBlock, Sstable.TableIter.advanceToNextBlock]
    by_cases hMore : it.handleIdx < it.handles.length
    · have hHandles := hSmall.handles
      have hDrop : it.handles.drop it.handleIdx =
          it.handles[it.handleIdx] :: it.handles.drop (it.handleIdx + 1) :=
        List.drop_eq_getElem_cons hMore
      have hHere : it.handles[it.handleIdx].Fits := hFit _ (hDrop ▸ List.mem_cons_self)
      have hRest : ∀ h ∈ it.handles.drop (it.handleIdx + 1), h.Fits :=
        fun h hh => hFit h (hDrop ▸ List.mem_cons_of_mem _ hh)
      have hIndex : (index it.handles it.handleIdx : Checked E BlockHandle) =
          lift (.ok it.handles[it.handleIdx]) := by
        rw [index, List.getElem?_eq_getElem hMore]
        rfl
      rw [if_pos hMore, dif_pos hMore, hIndex, lift_ok_bind, add_of_lt (by omega), pure_eq_lift,
        lift_ok_bind]
      simp only [blockOf_eq hSmall.data hHere]
      cases hBlock : Sstable.TableIter.blockOf it.data it.handles[it.handleIdx] with
      | none =>
        have hFuel' : it.handles.length - (it.handleIdx + 1) < fuel := by omega
        exact ih ⟨hSmall.data, hSmall.handles, hSmall.current⟩ hRest hFuel'
      | some block =>
        have hParsed := blockOf_parsed hSmall.data hBlock
        simp only [ofOption_some, attempt_lift, lift_ok_bind, Block.iter_eq hParsed]
        exact ⟨rfl, ⟨hSmall.data, hSmall.handles, iter_length hParsed⟩, hRest⟩
    · rw [if_neg hMore, dif_neg hMore]
      exact ⟨rfl, ⟨hSmall.data, hSmall.handles, Nat.two_pow_pos 63⟩, hFit⟩

theorem nextEntry_of_advance {it' : Sstable.TableIter} {more : Bool}
    (h : ¬it.currentPos < it.current.length) (hAdvance : it.advanceToNextBlock = (more, it')) :
    it.nextEntry = if more then it'.nextEntry else (none, it') := by
  rw [Sstable.TableIter.nextEntry, dif_neg h]
  split
  · next it'' hNext =>
    obtain ⟨rfl, rfl⟩ := Prod.mk.inj (hAdvance.symm.trans hNext)
    rfl
  · next it'' hNext =>
    obtain ⟨rfl, rfl⟩ := Prod.mk.inj (hAdvance.symm.trans hNext)
    rfl

/-- With handles that fit, the iterator gives out what it does without checks. -/
theorem nextEntry_eq {E : Type} (hSmall : Small it) (hFit : AllFit it) {fuel : Nat}
    (hFuel : it.handles.length - it.handleIdx < fuel) :
    (TableIter.nextEntry fuel it : Checked E (Option (Bytes × Bytes) × Sstable.TableIter)) =
        lift (.ok it.nextEntry) ∧
      Small it.nextEntry.2 ∧ AllFit it.nextEntry.2 := by
  induction fuel generalizing it with
  | zero => omega
  | succ fuel ih =>
    rw [TableIter.nextEntry]
    by_cases hMore : it.currentPos < it.current.length
    · have hCurrent := hSmall.current
      have hIndex : (index it.current it.currentPos : Checked E (Bytes × Bytes)) =
          lift (.ok it.current[it.currentPos]) := by
        rw [index, List.getElem?_eq_getElem hMore]
        rfl
      rw [Sstable.TableIter.nextEntry, if_pos hMore, dif_pos hMore, hIndex, lift_ok_bind,
        add_of_lt (by omega)]
      exact ⟨rfl, ⟨hSmall.data, hSmall.handles, hSmall.current⟩, hFit⟩
    · obtain ⟨hAdvance, hSmall', hFit'⟩ := advanceToNextBlock_eq (E := E) hSmall hFit
        (Nat.lt_succ_self (it.handles.length - it.handleIdx))
      rw [if_neg hMore, hAdvance, lift_ok_bind]
      rcases hNext : it.advanceToNextBlock with ⟨_ | _, it'⟩ <;> rw [hNext] at hSmall' hFit'
      · rw [nextEntry_of_advance hMore hNext]
        exact ⟨rfl, hSmall', hFit'⟩
      · obtain ⟨hHandles, hIdx, hLe⟩ := Sstable.TableIter.handleIdx_lt hNext
        have hLen := congrArg List.length hHandles
        rw [nextEntry_of_advance hMore hNext]
        exact ih hSmall' hFit' (by omega)

/-- With handles that fit, the iteration comes to its end. -/
theorem collect_eq {E : Type} (hSmall : Small it) (hFit : AllFit it) {fuel : Nat}
    (hFuel : it.rest.length < fuel) :
    (TableIter.collect fuel it : Checked E (List (Bytes × Bytes))) = lift (.ok it.items) := by
  induction fuel generalizing it with
  | zero => omega
  | succ fuel ih =>
    obtain ⟨hNext, hSmall', hFit'⟩ := nextEntry_eq (E := E) hSmall hFit
      (Nat.lt_succ_self (it.handles.length - it.handleIdx))
    have hSpec := nextEntry_spec it
    rw [TableIter.collect, hNext, lift_ok_bind, items_eq, hSpec]
    rcases hItem : it.nextEntry with ⟨_ | item, it'⟩ <;> rw [hItem] at hSpec hSmall' hFit'
    · rfl
    · simp only [Option.elim_some] at hSpec
      rw [hSpec, List.length_cons] at hFuel
      have hRest : (TableIter.collect fuel it' : Checked E (List (Bytes × Bytes))) =
          lift (.ok it'.items) := ih hSmall' hFit' (by omega)
      simp only [hRest, items_eq]
      rfl

/-- Before a handle that does not fit, the iterator stops at a failed check or stays before it. -/
theorem advanceToNextBlock_stuck {E : Type} (hSmall : Small it) (hStuck : ¬AllFit it) (fuel : Nat) :
    (TableIter.advanceToNextBlock fuel it : Checked E (Bool × Sstable.TableIter)) = fail ∨
      ∃ it', TableIter.advanceToNextBlock fuel it = (lift (.ok (true, it')) : Checked E _) ∧
        Small it' ∧ ¬AllFit it' := by
  induction fuel generalizing it with
  | zero => exact .inl rfl
  | succ fuel ih =>
    have hMore : it.handleIdx < it.handles.length := by
      by_contra hEnd
      refine hStuck fun h hh => ?_
      rw [List.drop_eq_nil_of_le (Nat.not_lt.mp hEnd)] at hh
      cases hh
    have hHandles := hSmall.handles
    have hDrop : it.handles.drop it.handleIdx =
        it.handles[it.handleIdx] :: it.handles.drop (it.handleIdx + 1) :=
      List.drop_eq_getElem_cons hMore
    have hIndex : (index it.handles it.handleIdx : Checked E BlockHandle) =
        lift (.ok it.handles[it.handleIdx]) := by
      rw [index, List.getElem?_eq_getElem hMore]
      rfl
    rw [TableIter.advanceToNextBlock, if_pos hMore, hIndex, lift_ok_bind, add_of_lt (by omega),
      pure_eq_lift, lift_ok_bind]
    by_cases hHere : it.handles[it.handleIdx].Fits
    · have hRest : ¬∀ h ∈ it.handles.drop (it.handleIdx + 1), h.Fits := by
        refine fun hAll => hStuck fun h hh => ?_
        rw [hDrop] at hh
        rcases List.mem_cons.mp hh with rfl | hh
        · exact hHere
        · exact hAll h hh
      simp only [blockOf_eq hSmall.data hHere]
      cases hBlock : Sstable.TableIter.blockOf it.data it.handles[it.handleIdx] with
      | none => exact ih ⟨hSmall.data, hSmall.handles, hSmall.current⟩ hRest
      | some block =>
        have hParsed := blockOf_parsed hSmall.data hBlock
        simp only [ofOption_some, attempt_lift, lift_ok_bind, Block.iter_eq hParsed]
        exact .inr ⟨_, rfl, ⟨hSmall.data, hSmall.handles, iter_length hParsed⟩, hRest⟩
    · simp only [TableIter.blockOf, add_of_not_lt hHere, fail_bind]
      exact .inl rfl

theorem nextEntry_stuck {E : Type} (hSmall : Small it) (hStuck : ¬AllFit it) (fuel : Nat) :
    (TableIter.nextEntry fuel it : Checked E (Option (Bytes × Bytes) × Sstable.TableIter)) = fail ∨
      ∃ item it', TableIter.nextEntry fuel it = (lift (.ok (some item, it')) : Checked E _) ∧
        Small it' ∧ ¬AllFit it' := by
  induction fuel generalizing it with
  | zero => exact .inl rfl
  | succ fuel ih =>
    rw [TableIter.nextEntry]
    by_cases hMore : it.currentPos < it.current.length
    · have hCurrent := hSmall.current
      rw [if_pos hMore, index, List.getElem?_eq_getElem hMore, unwrap_some, pure_eq_lift,
        lift_ok_bind, add_of_lt (by omega)]
      exact .inr ⟨_, _, rfl, ⟨hSmall.data, hSmall.handles, hSmall.current⟩, hStuck⟩
    · rw [if_neg hMore]
      obtain hFail | ⟨it', hAdvance, hSmall', hStuck'⟩ := advanceToNextBlock_stuck (E := E) hSmall
        hStuck (it.handles.length - it.handleIdx + 1)
      · rw [hFail, fail_bind]
        exact .inl rfl
      · rw [hAdvance, lift_ok_bind]
        exact ih hSmall' hStuck'

/-- The iteration does not get past a handle that does not fit. -/
theorem collect_stuck {E : Type} (hSmall : Small it) (hStuck : ¬AllFit it) (fuel : Nat) :
    (TableIter.collect fuel it : Checked E (List (Bytes × Bytes))) = fail := by
  induction fuel generalizing it with
  | zero => rfl
  | succ fuel ih =>
    rw [TableIter.collect]
    obtain hFail | ⟨item, it', hNext, hSmall', hStuck'⟩ := nextEntry_stuck (E := E) hSmall hStuck
      (it.handles.length - it.handleIdx + 1)
    · rw [hFail, fail_bind]
    · rw [hNext, lift_ok_bind]
      simp only [ih hSmall' hStuck', fail_bind]

theorem mapM_length {α β : Type} {f : α → Result β} {xs : List α} {ys : List β}
    (h : xs.mapM f = .ok ys) : ys.length = xs.length := by
  induction xs generalizing ys with
  | nil =>
    obtain rfl := Except.ok.inj h
    rfl
  | cons x xs ih =>
    rw [List.mapM_cons] at h
    obtain ⟨y, -, h⟩ := bind_eq_ok.mp h
    obtain ⟨ys', hys, h⟩ := bind_eq_ok.mp h
    obtain rfl := Except.ok.inj h
    rw [List.length_cons, List.length_cons, ih hys]

theorem dataHandles_length {hs : List BlockHandle} (hLen : data.length < 2 ^ 63)
    (h : dataHandles data i = some hs) : hs.length < 2 ^ 63 := by
  obtain ⟨index, hBlock, hDecode⟩ := Option.bind_eq_some_iff.mp h
  rw [mapM_length (eq_ok_of_toOption hDecode)]
  exact iter_length (blockOf_parsed hLen hBlock)

theorem iterate_iff {r : Sstable.TableReader} (hLen : r.data.length < 2 ^ 63) :
    Total (TableReader.intoTableIter r) ∧ (∀ it, TableReader.intoTableIter r = lift (.ok it) →
        ∃ fuel, Total (TableIter.collect fuel it : Checked MulanError (List (Bytes × Bytes)))) ↔
      r.indexHandle.Fits ∧ ∀ hs, dataHandles r.data r.indexHandle = some hs → ∀ h ∈ hs, h.Fits := by
  rw [TableReader.intoTableIter, TableIter.new]
  by_cases hFits : r.indexHandle.Fits
  · rw [parseDataHandles_eq hLen hFits, ← toOption_parseDataHandles]
    cases hParse : Sstable.TableIter.parseDataHandles r.data r.indexHandle with
    | error e =>
      refine ⟨fun _ => ⟨hFits, fun hs h => by cases h⟩, fun _ => ⟨total_lift _, fun it h => ?_⟩⟩
      cases h
    | ok hs =>
      have hHandles := toOption_parseDataHandles r.data r.indexHandle
      rw [hParse] at hHandles
      set it : Sstable.TableIter := ⟨r.data, hs, 0, [], 0⟩
      have hSmall : Small it := ⟨hLen, dataHandles_length hLen hHandles.symm, Nat.two_pow_pos 63⟩
      simp only [lift_ok_bind, pure_eq_lift, total_lift, true_and, Except.toOption,
        Option.some.injEq, forall_eq']
      refine ⟨fun h => ⟨hFits, fun h' hh' => ?_⟩, fun h it' hit => ?_⟩
      · obtain ⟨fuel, hTotal⟩ := h it rfl
        by_contra hNot
        rw [collect_stuck hSmall (fun hAll : AllFit it => hNot (hAll h' hh'))] at hTotal
        exact not_total_fail hTotal
      · obtain rfl : it = it' := Except.ok.inj (Option.some.inj hit)
        exact ⟨it.rest.length + 1, _, collect_eq hSmall h.2 (Nat.lt_succ_self _)⟩
  · rw [TableIter.parseDataHandles, add_of_not_lt hFits]
    simp only [fail_bind, not_total_fail, false_and, false_iff]
    exact fun h => hFits h.1

end Iterating

/-- No call on the table file `file` stops at a failed check: opening it, lookups of `userKey` at
`seq` and at the newest version, and an iteration to its end. -/
structure NeverPanics (file userKey : Bytes) (seq : Nat) : Prop where
  «open» : Total (TableReader.open file)
  getEntry : ∀ r, TableReader.open file = lift (.ok r) → Total (TableReader.getEntry r userKey seq)
  get : ∀ r, TableReader.open file = lift (.ok r) → Total (TableReader.get r userKey)
  intoTableIter : ∀ r, TableReader.open file = lift (.ok r) → Total (TableReader.intoTableIter r)
  iterate : ∀ r it, TableReader.open file = lift (.ok r) →
    TableReader.intoTableIter r = lift (.ok it) →
      ∃ fuel, Total (TableIter.collect fuel it : Checked MulanError (List (Bytes × Bytes)))

/-- Opening and iterating, once the filter's handles fit. -/
theorem opened_iff {data userKey : Bytes} {m i : BlockHandle} {seq : Nat}
    (hLen : data.length < 2 ^ 63) (hKey : userKey.length < 2 ^ 63)
    (hOpen : TableReader.open data =
      lift (.ok ⟨data, i, Sstable.TableReader.readBloom data m⟩)) :
    NeverPanics data userKey seq ↔
      (∀ s ∈ [seq, maxSequence],
        SearchFits data i (Sstable.TableReader.readBloom data m) userKey s) ∧
      i.Fits ∧ ∀ hs, dataHandles data i = some hs → ∀ h ∈ hs, h.Fits := by
  set r : Sstable.TableReader := ⟨data, i, Sstable.TableReader.readBloom data m⟩
  have hOnly : ∀ r', TableReader.open data = lift (.ok r') → r' = r := by
    intro r' hr'
    rw [hOpen] at hr'
    exact (Except.ok.inj (Option.some.inj hr')).symm
  have hSearch : ∀ s, Total (TableReader.getEntry r userKey s) ↔
      SearchFits data i (Sstable.TableReader.readBloom data m) userKey s :=
    fun s => getEntry_iff hLen hKey
  have hNew : Total (TableReader.get r userKey) ↔ SearchFits data i
      (Sstable.TableReader.readBloom data m) userKey maxSequence := get_iff hLen hKey
  have hList := iterate_iff (r := r) hLen
  constructor
  · intro h
    refine ⟨fun s hs => ?_, hList.mp ⟨h.intoTableIter r hOpen, fun it => h.iterate r it hOpen⟩⟩
    rcases List.mem_pair.mp hs with rfl | rfl
    · exact (hSearch s).mp (h.getEntry r hOpen)
    · exact hNew.mp (h.get r hOpen)
  · rintro ⟨hFits, hHandles⟩
    have hIter := hList.mpr hHandles
    refine ⟨⟨_, hOpen⟩, fun r' hr => ?_, fun r' hr => ?_, fun r' hr => ?_, fun r' it hr => ?_⟩ <;>
      obtain rfl := hOnly r' hr
    · exact (hSearch seq).mpr (hFits seq (by simp))
    · exact hNew.mpr (hFits maxSequence (by simp))
    · exact hIter.1
    · exact hIter.2 it

/-- The calls on a table never stop at a failed check exactly if what they follow is in place. -/
theorem tables_never_panic_iff (file userKey : Vec) (seq : Nat) :
    NeverPanics file.bytes userKey.bytes seq ↔ InPlace file.bytes userKey.bytes seq := by
  obtain ⟨data, hLen⟩ := file
  obtain ⟨userKey, hKey⟩ := userKey
  simp only
  obtain ⟨hNone, e, hOpen⟩ | ⟨m, i, hSome, hOpen⟩ := open_split data
  · have hNot : ∀ r, TableReader.open data ≠ lift (.ok r) := by
      intro r hr
      rw [hOpen] at hr
      cases hr
    have hNoFooter : ∀ m i, footerHandles data ≠ some (m, i) := by simp [hNone]
    exact ⟨fun _ => ⟨fun m i h => absurd h (hNoFooter m i), fun m i h => absurd h (hNoFooter m i),
        fun m i h => absurd h (hNoFooter m i)⟩,
      fun _ => ⟨⟨_, hOpen⟩, fun r h => absurd h (hNot r), fun r h => absurd h (hNot r),
        fun r h => absurd h (hNot r), fun r _ h => absurd h (hNot r)⟩⟩
  · by_cases hFits : m.Fits ∧ ∀ f, filterHandle data m = some f → f.Fits
    · have hBloom : ∀ x : Option BloomFilter,
          (x.elim (.error ()) Except.ok : Except Unit BloomFilter).toOption = x := by
        intro x
        cases x <;> rfl
      rw [readBloom_eq hLen hFits.1 hFits.2, ofOption, attempt_lift, lift_ok_bind, hBloom] at hOpen
      rw [opened_iff hLen hKey hOpen]
      constructor
      · rintro ⟨hSearch, hIndex, hList⟩
        refine ⟨fun m' i' h => ?_, fun m' i' h => ?_, fun m' i' h => ?_⟩ <;>
          obtain ⟨rfl, rfl⟩ := Prod.mk.inj (Option.some.inj (hSome.symm.trans h))
        · exact hFits
        · exact hSearch
        · exact ⟨hIndex, hList⟩
      · exact fun h => ⟨h.searched m i hSome, h.listed m i hSome⟩
    · refine ⟨fun h => ?_, fun h => absurd (h.opened m i hSome) hFits⟩
      have hTotal := h.open
      rw [hOpen, readBloom_fail hLen hFits] at hTotal
      exact absurd hTotal not_total_fail

/-- A footer whose index handle ends past the largest word. -/
def wrappedIndex : Bytes :=
  [0, 0] ++ List.replicate 9 0xff ++ [1, 1] ++ List.replicate 27 0 ++ toLeBytes 8 tableMagic

theorem lookup_panics :
    ¬∀ (file userKey : Vec) (seq : Nat), NeverPanics file.bytes userKey.bytes seq := by
  intro h
  have hLookup := (h ⟨wrappedIndex, by decide⟩ ⟨[], by decide⟩ 0).getEntry
    { data := wrappedIndex, indexHandle := { offset := 2 ^ 64 - 1, size := 1 }, bloom := none } rfl
  exact not_total_fail hLookup

end Checks

end MulanLsm
