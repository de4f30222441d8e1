import MulanLsm.Library.Checked
import MulanLsm.Version

/-! The decoders that recovery runs, with the checks that the language makes: each sum on its
machine word, each index and each slice, and each loop with as many turns as its input can need.
They go by places in their input, as the source does.  On input that fits in memory no check fails,
and they decode what the decoders without checks do. -/

namespace MulanLsm

/-- A `Vec<u8>`: it holds at most `isize::MAX` bytes. -/
structure Vec where
  bytes : Bytes
  length_lt : bytes.length < 2 ^ 63

namespace Checks

open Checked

/-- The loop of `decode_varint`.  The shift is an `i32`. -/
def decodeVarintLoop (maxLen : Nat) :
    Nat → Bytes → Nat → Nat → Nat → Checked MulanError (Nat × Nat)
  | n + 1, byte :: buf, result, shift, i => do
    let result := result ||| (← shl 64 (byte.toNat % 128) shift)
    if byte.toNat < 0x80 then return (result, ← add 64 i 1)
    else decodeVarintLoop maxLen n buf result (← add 31 shift 7) (← add 64 i 1)
  | _, _, _, _, _ =>
    throw (.corrupted s!"varint too long or unterminated (max {maxLen} bytes)")

def decodeVarint (buf : Bytes) (maxLen : Nat) : Checked MulanError (Nat × Nat) :=
  decodeVarintLoop maxLen maxLen buf 0 0 0

def decodeVarint32 (buf : Bytes) : Checked MulanError (Nat × Nat) := do
  let (v, n) ← decodeVarint buf maxVarint32Len
  return (asU32 v, n)

def decodeVarint64 (buf : Bytes) : Checked MulanError (Nat × Nat) :=
  decodeVarint buf maxVarint64Len

def decodeHeader (buf : Bytes) : Checked MulanError RecordHeader := do
  let checksum := fromLeBytes [← index buf 0, ← index buf 1, ← index buf 2, ← index buf 3]
  let length := fromLeBytes [← index buf 4, ← index buf 5]
  match RecordType.fromU8 (← index buf 6) with
  | none => throw (.corrupted s!"unknown record type: {← index buf 6}")
  | some rtype => return { checksum := UInt32.ofNat checksum, length, rtype }

/-- The state machine of `read_records`, for one more piece. -/
def assembleStep (s : Assembly) (rtype : RecordType) (data : Bytes) :
    Checked MulanError Assembly :=
  match s.1.isSome, rtype with
  | false, .full => return (s.1, s.2 ++ [data])
  | false, .first => return (some data, s.2)
  | false, .middle => return s
  | false, .last => return s
  | true, .middle => return (some ((← unwrap s.1) ++ data), s.2)
  | true, .last => return (none, s.2 ++ [(← unwrap s.1) ++ data])
  | true, .full => return (none, s.2 ++ [data])
  | true, .first => return (some data, s.2)

section Log

variable [Crc32c]

/-- One turn of the loop of `read_records`. -/
def readStep (bytes : Bytes) (pos : Nat) (s : Assembly) :
    Checked MulanError (Option (Nat × Assembly)) := do
  if (← add 64 pos headerSize) ≤ bytes.length then
    let blockStart ← mul 64 (pos / blockSize) blockSize
    let blockRemaining ← sub blockSize (← sub pos blockStart)
    if blockRemaining < headerSize then return some (← add 64 blockStart blockSize, s)
    else
      let header ← slice bytes pos (← add 64 pos headerSize)
      if (← index header 6) = 0 then return some (← add 64 blockStart blockSize, s)
      else
        match ← attempt (decodeHeader header) with
        | .error _ => return none
        | .ok h =>
          let dataStart ← add 64 pos headerSize
          let dataEnd ← add 64 dataStart h.length
          if dataEnd > bytes.length then return none
          else
            let data ← slice bytes dataStart dataEnd
            if verifyChecksum h.rtype data h.checksum then
              return some (dataEnd, ← assembleStep s h.rtype data)
            else return none
  else return none

/-- The loop of `read_records`, for at most `fuel` turns. -/
def readRecordsLoop (bytes : Bytes) : Nat → Nat → Assembly → Checked MulanError (List Bytes)
  | 0, _, _ => fail
  | fuel + 1, pos, s => do
    match ← readStep bytes pos s with
    | some (pos, s) => readRecordsLoop bytes fuel pos s
    | none => return s.2

def readRecords (bytes : Bytes) : Checked MulanError (List Bytes) :=
  readRecordsLoop bytes (bytes.length + 1) 0 (none, [])

end Log

def decodeEntry (data : Bytes) : Checked MulanError WalEntry := do
  if data.length < 9 then throw (.corrupted s!"entry too short: {data.length} bytes")
  else
    match ValueType.fromU8 (← index data 0) with
    | none => throw (.corrupted s!"unknown value type: {← index data 0}")
    | some vtype =>
      let seq := fromLeBytes (← slice data 1 9)
      let (keyLen, consumedKl) ← decodeVarint32 (← sliceFrom data 9)
      let keyEnd ← add 64 (← add 64 9 consumedKl) keyLen
      if keyEnd > data.length then throw (.corrupted "entry key out of bounds")
      else
        let key ← slice data (← add 64 9 consumedKl) keyEnd
        let (valLen, consumedVl) ← decodeVarint32 (← sliceFrom data keyEnd)
        let valStart ← add 64 keyEnd consumedVl
        let valEnd ← add 64 valStart valLen
        if valEnd > data.length then throw (.corrupted "entry value out of bounds")
        else return { vtype, seq, key, value := ← slice data valStart valEnd }

def InternalKey.decode (bytes : Bytes) : Checked MulanError InternalKey := do
  if bytes.length < keyFooterLen then
    throw (.corrupted s!"internal key too short: {bytes.length} bytes")
  else
    let start ← sub bytes.length keyFooterLen
    let userKey ← slice bytes 0 start
    let seqBytes ← slice bytes start (← sub bytes.length 1)
    let vtypeByte ← index bytes (← sub bytes.length 1)
    match ValueType.fromU8 vtypeByte with
    | none => throw (.corrupted s!"unknown value type byte: {vtypeByte}")
    | some vtype => return { userKey, seq := fromLeBytes seqBytes, vtype }

/-- A varint at `i`, and where it ends. -/
def readVarint32 (buf : Bytes) (i : Nat) : Checked MulanError (Nat × Nat) := do
  let (v, n) ← decodeVarint32 (← sliceFrom buf i)
  return (v, ← add 64 i n)

def readVarint64 (buf : Bytes) (i : Nat) : Checked MulanError (Nat × Nat) := do
  let (v, n) ← decodeVarint64 (← sliceFrom buf i)
  return (v, ← add 64 i n)

/-- Bytes after their length at `i`, and where they end. -/
def readSlice (msg : String) (buf : Bytes) (i : Nat) : Checked MulanError (Bytes × Nat) := do
  let (len, i) ← readVarint32 buf i
  let last ← add 64 i len
  if last > buf.length then throw (corrupt msg) else return (← slice buf i last, last)

/-- What follows `tag` at `i`, and where it ends. -/
def decodeField (tag : UInt8) (buf : Bytes) (i : Nat) : Checked MulanError (EditField × Nat) :=
  match tag with
  | 1 => do
    let (c, i) ← readSlice "comparator length out of bounds" buf i
    match fromUtf8 c with
    | .ok c => return (.comparator c, i)
    | .error e => throw (corrupt s!"comparator not utf-8: {e}")
  | 2 => do
    let (n, i) ← readVarint64 buf i
    return (.logNumber n, i)
  | 9 => do
    let (n, i) ← readVarint64 buf i
    return (.prevLogNumber n, i)
  | 3 => do
    let (n, i) ← readVarint64 buf i
    return (.nextFileNumber n, i)
  | 4 => do
    let (s, i) ← readVarint64 buf i
    return (.lastSequence s, i)
  | 6 => do
    let (level, i) ← readVarint32 buf i
    let (number, i) ← readVarint64 buf i
    return (.deletedFile { level, number }, i)
  | 7 => do
    let (level, i) ← readVarint32 buf i
    let (number, i) ← readVarint64 buf i
    let (size, i) ← readVarint64 buf i
    let (s, i) ← readSlice "smallest key length out of bounds" buf i
    let smallest ← InternalKey.decode s
    let (l, i) ← readSlice "largest key length out of bounds" buf i
    let largest ← InternalKey.decode l
    return (.newFile { level, fileMeta := .new number size smallest largest }, i)
  | 5 => do
    let (level, i) ← readVarint32 buf i
    let (key, i) ← readSlice "compact pointer key out of bounds" buf i
    return (.compactPointer level key, i)
  | tag => throw (corrupt s!"unknown version edit tag: {tag}")

/-- The loop of `VersionEdit::decode`, for at most `fuel` turns. -/
def decodeLoop (buf : Bytes) : Nat → Nat → VersionEdit → Checked MulanError VersionEdit
  | 0, _, _ => fail
  | fuel + 1, i, edit => do
    if i < buf.length then
      let tag ← index buf i
      let (field, i) ← decodeField tag buf (← add 64 i 1)
      decodeLoop buf fuel i (field.apply edit)
    else return edit

def VersionEdit.decode (buf : Bytes) : Checked MulanError VersionEdit :=
  decodeLoop buf (buf.length + 1) 0 {}

/-- The place of a level in an array of levels. -/
def levelIndex (level : Nat) : Checked MulanError (Fin numLevels) :=
  if h : level < numLevels then pure ⟨level, h⟩ else fail

def deleteFiles (v : Version) : List DeletedFile → Checked MulanError Version
  | [] => pure v
  | d :: ds => do
    if d.level ≥ numLevels then
      throw (.corrupted s!"deleted file level {d.level} out of range")
    else
      deleteFiles (v.change (← levelIndex d.level) fun files =>
        files.filter (·.number ≠ d.number)) ds

def addFiles (v : Version) : List NewFile → Checked MulanError Version
  | [] => pure v
  | f :: fs => do
    if f.level ≥ numLevels then throw (.corrupted s!"new file level {f.level} out of range")
    else addFiles (v.change (← levelIndex f.level) fun files => files ++ [f.fileMeta]) fs

def applyEdit (base : Version) (edit : VersionEdit) : Checked MulanError Version := do
  let files ← deleteFiles base edit.deletedFiles
  addFiles files edit.newFiles

/-- The loop of `recover` over the compaction pointers of an edit. -/
def setPointers (s : VersionState) : List (Nat × Bytes) → Checked MulanError VersionState
  | [] => pure s
  | (level, key) :: ps => do
    if level < numLevels then
      let pointer := Function.update s.compactPointer (← levelIndex level) key
      setPointers { s with compactPointer := pointer } ps
    else setPointers s ps

/-- One turn of the loop of `recover`. -/
def replayEdit (s : VersionState) (edit : VersionEdit) : Checked MulanError VersionState := do
  let version ← applyEdit s.current edit
  setPointers (s.setNumbers version edit) edit.compactPointers

/-- The loop of `recover`. -/
def replay (s : VersionState) (edits : List VersionEdit) : Checked MulanError VersionState :=
  edits.foldlM replayEdit s

/-- The state that `recover` comes to from the records of a manifest. -/
def recoverState (records : List Bytes) : Checked MulanError VersionState := do
  let edits ← records.mapM VersionEdit.decode
  replay .empty edits

section Varints

variable {buf : Bytes} {maxLen n result shift i : Nat}

/-- Seven bits a byte: the shift stays below 64 on the at most ten bytes of a varint. -/
theorem decodeVarintLoop_eq (h : i + n ≤ 10) (hShift : shift = 7 * i) :
    decodeVarintLoop maxLen n buf result shift i =
      lift (MulanLsm.decodeVarintLoop maxLen n buf result shift i) := by
  induction n generalizing buf result shift i with
  | zero => rfl
  | succ n ih =>
    cases buf with
    | nil => rfl
    | cons byte buf =>
      rw [decodeVarintLoop, MulanLsm.decodeVarintLoop, shl_of_lt (by omega), add_of_lt (by omega)]
      simp only [pure_eq_lift, lift_ok_bind]
      by_cases hLast : byte.toNat < 0x80
      · rw [if_pos hLast, if_pos hLast]
      · rw [if_neg hLast, if_neg hLast, add_of_lt (by omega), pure_eq_lift, lift_ok_bind]
        exact ih (by omega) (by omega)

theorem decodeVarint_eq (h : maxLen ≤ 10) :
    decodeVarint buf maxLen = lift (MulanLsm.decodeVarint buf maxLen) :=
  decodeVarintLoop_eq (by omega) rfl

@[simp] theorem decodeVarint32_eq (buf : Bytes) :
    decodeVarint32 buf = lift (MulanLsm.decodeVarint32 buf) := by
  rw [decodeVarint32, MulanLsm.decodeVarint32, decodeVarint_eq (by decide)]
  cases MulanLsm.decodeVarint buf maxVarint32Len <;> rfl

@[simp] theorem decodeVarint64_eq (buf : Bytes) :
    decodeVarint64 buf = lift (MulanLsm.decodeVarint64 buf) := decodeVarint_eq (by decide)

end Varints

section Records

variable {bytes data : Bytes} {pos fuel : Nat} {s : Assembly}

theorem decodeHeader_eq {buf : Bytes} (h : buf.length = headerSize) :
    decodeHeader buf = lift (MulanLsm.decodeHeader buf) := by
  obtain ⟨a, b, c, d, e, f, g, rfl⟩ : ∃ a b c d e f g, buf = [a, b, c, d, e, f, g] := by
    match buf, h with
    | [a, b, c, d, e, f, g], _ => exact ⟨a, b, c, d, e, f, g, rfl⟩
  show (match RecordType.fromU8 g with | none => _ | some _ => _) =
    lift (match RecordType.fromU8 g with | none => _ | some _ => _)
  cases RecordType.fromU8 g <;> rfl

theorem decodeHeader_length_lt {buf : Bytes} {h : RecordHeader}
    (hDecode : MulanLsm.decodeHeader buf = .ok h) : h.length < 2 ^ 16 := by
  rw [MulanLsm.decodeHeader] at hDecode
  split at hDecode
  · cases hDecode
  · obtain rfl := Except.ok.inj hDecode
    calc fromLeBytes ((buf.drop 4).take 2) < 256 ^ ((buf.drop 4).take 2).length := fromLeBytes_lt _
      _ ≤ 256 ^ 2 := Nat.pow_le_pow_right (by decide) (List.length_take_le _ _)

theorem assembleStep_eq (s : Assembly) (rtype : RecordType) (data : Bytes) :
    assembleStep s rtype data = lift (.ok (MulanLsm.assembleStep s rtype data)) := by
  obtain ⟨_ | fragment, records⟩ := s <;> cases rtype <;> rfl

variable [Crc32c]

/-- The place of a header and what its data ends at fit a word. -/
theorem readStep_eq (h : bytes.length < 2 ^ 63) (hPos : pos ≤ bytes.length + blockSize) :
    readStep bytes pos s = lift (.ok (MulanLsm.readStep bytes pos s)) := by
  have hBlock : blockSize = 32768 := rfl
  have hHeader : headerSize = 7 := rfl
  have hStart : pos / blockSize * blockSize ≤ pos := Nat.div_mul_le_self pos blockSize
  have hRest : pos - pos / blockSize * blockSize ≤ blockSize := by
    rw [← Nat.mod_eq_sub_div_mul]
    exact Nat.le_of_lt (Nat.mod_lt _ (by decide))
  rw [readStep, MulanLsm.readStep]
  simp only [add_of_lt (show pos + headerSize < 2 ^ 64 by omega),
    mul_of_lt (show pos / blockSize * blockSize < 2 ^ 64 by omega), sub_of_le hStart,
    sub_of_le hRest, add_of_lt (show pos / blockSize * blockSize + blockSize < 2 ^ 64 by omega),
    pure_eq_lift, lift_ok_bind]
  by_cases hMore : pos + headerSize ≤ bytes.length
  · rw [if_pos hMore, if_pos hMore]
    by_cases hTrailer : blockSize - (pos - pos / blockSize * blockSize) < headerSize
    · rw [if_pos hTrailer, if_pos hTrailer]
    · rw [if_neg hTrailer, if_neg hTrailer, slice_add hMore]
      set header := (bytes.drop pos).take headerSize with hEq
      have hLen : header.length = headerSize := by
        rw [hEq, List.length_take, List.length_drop]
        omega
      have hType : 6 < header.length := by rw [hLen]; decide
      simp only [pure_eq_lift, lift_ok_bind, index_of_lt hType 0, decodeHeader_eq hLen,
        attempt_lift]
      by_cases hZero : header.getD 6 0 = 0
      · rw [if_pos hZero, if_pos hZero]
      · rw [if_neg hZero, if_neg hZero]
        cases hDecode : MulanLsm.decodeHeader header with
        | error e => rfl
        | ok rec =>
          have hLength := decodeHeader_length_lt hDecode
          simp only [add_of_lt (show pos + headerSize + rec.length < 2 ^ 64 by omega),
            pure_eq_lift, lift_ok_bind]
          by_cases hEnd : pos + headerSize + rec.length > bytes.length
          · rw [if_pos hEnd, if_pos hEnd]
          · rw [if_neg hEnd, if_neg hEnd, slice_add (Nat.le_of_not_gt hEnd), pure_eq_lift,
              lift_ok_bind, assembleStep_eq]
            split <;> rfl
  · rw [if_neg hMore, if_neg hMore]

/-- A turn of the loop that goes on skips the rest of a block or takes one more piece. -/
theorem readStep_cases {pos' : Nat} {s' : Assembly}
    (h : MulanLsm.readStep bytes pos s = some (pos', s')) :
    pos + headerSize ≤ bytes.length ∧
      (pos' ≤ pos + blockSize ∧ s' = s ∨
        ∃ rtype data, pos + headerSize + data.length = pos' ∧ pos' ≤ bytes.length ∧
          s' = MulanLsm.assembleStep s rtype data) := by
  have hStart : pos / blockSize * blockSize ≤ pos := Nat.div_mul_le_self pos blockSize
  rw [MulanLsm.readStep] at h
  split at h
  case isFalse => cases h
  case isTrue hMore =>
    refine ⟨hMore, ?_⟩
    simp only at h
    split at h
    · obtain ⟨rfl, rfl⟩ := Prod.mk.inj (Option.some.inj h)
      exact .inl ⟨by omega, rfl⟩
    · split at h
      · obtain ⟨rfl, rfl⟩ := Prod.mk.inj (Option.some.inj h)
        exact .inl ⟨by omega, rfl⟩
      · split at h
        · cases h
        · next rec _ =>
          split at h
          · cases h
          · next hEnd =>
            split at h
            · obtain ⟨rfl, rfl⟩ := Prod.mk.inj (Option.some.inj h)
              refine .inr ⟨rec.rtype, (bytes.drop (pos + headerSize)).take rec.length, ?_, by omega,
                rfl⟩
              rw [List.length_take, List.length_drop]
              omega
            · cases h

/-- What the loop holds at `pos`: it was read from the bytes before `pos`. -/
structure ReadBefore (bytes : Bytes) (pos : Nat) (s : Assembly) : Prop where
  place : pos ≤ bytes.length + blockSize
  fragment : ∀ f, s.1 = some f → f.length ≤ pos ∧ f.length ≤ bytes.length
  records : ∀ r ∈ s.2, r.length ≤ bytes.length

omit [Crc32c] in
theorem ReadBefore.start (bytes : Bytes) : ReadBefore bytes 0 (none, []) where
  place := Nat.zero_le _
  fragment _ h := by cases h
  records _ h := by cases h

omit [Crc32c] in
/-- One more piece, from the bytes after `pos`. -/
theorem ReadBefore.assembleStep {pos' : Nat} (h : ReadBefore bytes pos s) (rtype : RecordType)
    (hData : pos + data.length ≤ pos') (hEnd : pos' ≤ bytes.length) :
    ReadBefore bytes pos' (MulanLsm.assembleStep s rtype data) := by
  obtain ⟨fragment, records⟩ := s
  have hFragment : ∀ f, fragment = some f → f.length ≤ pos := fun f hf => (h.fragment f hf).1
  have hRecords := h.records
  refine ⟨by omega, ?_, ?_⟩ <;> cases fragment <;> cases rtype <;>
    simp_all [MulanLsm.assembleStep, or_imp, forall_and] <;> omega

theorem ReadBefore.step {pos' : Nat} {s' : Assembly} (h : ReadBefore bytes pos s)
    (hStep : MulanLsm.readStep bytes pos s = some (pos', s')) : ReadBefore bytes pos' s' := by
  have hGt := readStep_gt hStep
  obtain ⟨hMore, ⟨hPos, rfl⟩ | ⟨rtype, data, hData, hEnd, rfl⟩⟩ := readStep_cases hStep
  · refine ⟨by omega, fun f hf => ?_, h.records⟩
    have := h.fragment f hf
    omega
  · exact h.assembleStep rtype (by omega) hEnd

/-- The turns suffice, and what comes back fits in the input. -/
theorem readRecordsLoop_eq (hLen : bytes.length < 2 ^ 63) (h : ReadBefore bytes pos s)
    (hFuel : bytes.length < pos + fuel) (hPos : 0 < fuel) :
    readRecordsLoop bytes fuel pos s =
        lift (.ok (MulanLsm.readRecordsLoop bytes fuel pos s)) ∧
      ∀ r ∈ MulanLsm.readRecordsLoop bytes fuel pos s, r.length ≤ bytes.length := by
  induction fuel generalizing pos s with
  | zero => omega
  | succ fuel ih =>
    rw [readRecordsLoop, MulanLsm.readRecordsLoop, readStep_eq hLen h.place, lift_ok_bind]
    cases hStep : MulanLsm.readStep bytes pos s with
    | none => exact ⟨rfl, h.records⟩
    | some p =>
      obtain ⟨pos', s'⟩ := p
      have hGt := readStep_gt hStep
      have hMore := (readStep_cases hStep).1
      rw [headerSize] at hMore
      exact ih (h.step hStep) (by omega) (by omega)

theorem readRecords_eq (h : bytes.length < 2 ^ 63) :
    readRecords bytes = lift (.ok (MulanLsm.readRecords bytes)) :=
  (readRecordsLoop_eq h (ReadBefore.start bytes) (by omega) (by omega)).1

/-- A record is no longer than the log. -/
theorem length_le_of_mem_readRecords (h : bytes.length < 2 ^ 63)
    (hData : data ∈ MulanLsm.readRecords bytes) : data.length ≤ bytes.length :=
  (readRecordsLoop_eq h (ReadBefore.start bytes) (by omega) (by omega)).2 data hData

end Records

section Decoding

variable {data buf : Bytes} {i : Nat}

theorem decodeEntry_eq (h : data.length < 2 ^ 63) :
    decodeEntry data = lift (MulanLsm.decodeEntry data) := by
  rw [decodeEntry, MulanLsm.decodeEntry]
  by_cases hShort : data.length < 9
  · rw [if_pos hShort, if_pos hShort]
    rfl
  · rw [if_neg hShort, if_neg hShort, index_of_lt (by omega) 0, pure_eq_lift, lift_ok_bind]
    cases ValueType.fromU8 (data.getD 0 0) with
    | none => rfl
    | some vtype =>
      simp only [slice_of_le (show 1 ≤ 9 by omega) (show 9 ≤ data.length by omega),
        sliceFrom_of_le (show 9 ≤ data.length by omega), pure_eq_lift, lift_ok_bind,
        decodeVarint32_eq]
      apply lift_bind
      rintro ⟨keyLen, n⟩ hKey
      obtain ⟨hKeyLen, hn, -⟩ := decodeVarint32_le hKey
      simp only [add_of_lt (show 9 + n < 2 ^ 64 by omega),
        add_of_lt (show 9 + n + keyLen < 2 ^ 64 by omega), pure_eq_lift, lift_ok_bind]
      by_cases hKeyEnd : 9 + n + keyLen > data.length
      · rw [if_pos hKeyEnd, if_pos hKeyEnd]
        rfl
      · rw [if_neg hKeyEnd, if_neg hKeyEnd, slice_add (Nat.le_of_not_gt hKeyEnd),
          sliceFrom_of_le (Nat.le_of_not_gt hKeyEnd), pure_eq_lift, lift_ok_bind, pure_eq_lift,
          lift_ok_bind]
        apply lift_bind
        rintro ⟨valLen, m⟩ hVal
        obtain ⟨hValLen, hm, -⟩ := decodeVarint32_le hVal
        simp only [add_of_lt (show 9 + n + keyLen + m < 2 ^ 64 by omega),
          add_of_lt (show 9 + n + keyLen + m + valLen < 2 ^ 64 by omega), pure_eq_lift,
          lift_ok_bind]
        by_cases hValEnd : 9 + n + keyLen + m + valLen > data.length
        · rw [if_pos hValEnd, if_pos hValEnd]
          rfl
        · rw [if_neg hValEnd, if_neg hValEnd, slice_add (Nat.le_of_not_gt hValEnd)]
          rfl

theorem InternalKey.decode_eq (bytes : Bytes) :
    InternalKey.decode bytes = lift (MulanLsm.InternalKey.decode bytes) := by
  rw [InternalKey.decode, MulanLsm.InternalKey.decode]
  by_cases hShort : bytes.length < keyFooterLen
  · rw [if_pos hShort, if_pos hShort]
    rfl
  · rw [keyFooterLen] at hShort
    have hSeq : bytes.length - 1 - (bytes.length - 9) = 8 := by omega
    rw [keyFooterLen, if_neg hShort, if_neg hShort]
    simp only [sub_of_le (show 9 ≤ bytes.length by omega),
      sub_of_le (show 1 ≤ bytes.length by omega), pure_eq_lift, lift_ok_bind,
      slice_of_le (Nat.zero_le _) (show bytes.length - 9 ≤ bytes.length by omega),
      slice_of_le (show bytes.length - 9 ≤ bytes.length - 1 by omega)
        (show bytes.length - 1 ≤ bytes.length by omega),
      index_of_lt (show bytes.length - 1 < bytes.length by omega) 0, hSeq, List.drop_zero,
      Nat.sub_zero]
    cases ValueType.fromU8 (bytes.getD (bytes.length - 1) 0) <;> rfl

/-- A varint of `decode` at `i`. -/
theorem follows_varint {decode : Bytes → Result (Nat × Nat)}
    (hDecode : ∀ {b v n}, decode b = .ok (v, n) → n ≤ 10 ∧ n ≤ b.length)
    (h : buf.length < 2 ^ 63) (hi : i ≤ buf.length) :
    Follows buf i (lift (decode (buf.drop i)) >>= fun p => do return (p.1, ← add 64 i p.2))
      ((decode (buf.drop i)).map fun p => (p.1, (buf.drop i).drop p.2)) := by
  cases hRead : decode (buf.drop i) with
  | error e => exact Follows.error e
  | ok p =>
    obtain ⟨v, n⟩ := p
    obtain ⟨hn, hEnd⟩ := hDecode hRead
    rw [List.length_drop] at hEnd
    rw [lift_ok_bind, add_of_lt (by omega), Except.map, List.drop_drop]
    exact Follows.ok (Nat.le_add_right i n) (by omega) v

theorem readVarint32_follows (h : buf.length < 2 ^ 63) (hi : i ≤ buf.length) :
    Follows buf i (readVarint32 buf i) (MulanLsm.readVarint32 (buf.drop i)) := by
  rw [readVarint32, sliceFrom_of_le hi, pure_eq_lift, lift_ok_bind, decodeVarint32_eq]
  refine follows_varint (fun hRead => ?_) h hi
  obtain ⟨-, hn, hEnd⟩ := decodeVarint32_le hRead
  exact ⟨by omega, hEnd⟩

theorem readVarint64_follows (h : buf.length < 2 ^ 63) (hi : i ≤ buf.length) :
    Follows buf i (readVarint64 buf i) (MulanLsm.readVarint64 (buf.drop i)) := by
  rw [readVarint64, sliceFrom_of_le hi, pure_eq_lift, lift_ok_bind, decodeVarint64_eq]
  exact follows_varint decodeVarint64_le h hi

theorem readVarint32_lt {rest : Bytes} {len : Nat}
    (h : MulanLsm.readVarint32 buf = .ok (len, rest)) : len < 2 ^ 32 := by
  rw [MulanLsm.readVarint32] at h
  cases hDecode : MulanLsm.decodeVarint32 buf with
  | error e =>
    rw [hDecode] at h
    cases h
  | ok p =>
    rw [hDecode] at h
    obtain ⟨rfl, -⟩ := Prod.mk.inj (Except.ok.inj h)
    exact (decodeVarint32_le hDecode).1

theorem readSlice_follows (msg : String) (h : buf.length < 2 ^ 63) (hi : i ≤ buf.length) :
    Follows buf i (readSlice msg buf i) (MulanLsm.readSlice msg (buf.drop i)) := by
  rw [readSlice, MulanLsm.readSlice]
  refine (readVarint32_follows h hi).bind fun len j hj hRead => ?_
  have hLen := readVarint32_lt hRead
  simp only [add_of_lt (show j + len < 2 ^ 64 by omega), pure_eq_lift, lift_ok_bind,
    List.length_drop]
  by_cases hEnd : j + len > buf.length
  · rw [if_pos hEnd, if_pos (by omega)]
    rfl
  · rw [if_neg hEnd, if_neg (by omega), slice_add (Nat.le_of_not_gt hEnd), List.drop_drop]
    exact Follows.ok (Nat.le_add_right j len) (Nat.le_of_not_gt hEnd) _

/-- A field of one number. -/
theorem number_follows (f : Nat → EditField) (h : buf.length < 2 ^ 63) (hi : i ≤ buf.length) :
    Follows buf i (do let (n, i) ← readVarint64 buf i; return (f n, i))
      (do let (n, rest) ← MulanLsm.readVarint64 (buf.drop i); return (f n, rest)) :=
  (readVarint64_follows h hi).bind fun n j hj _ => Follows.ok (Nat.le_refl j) hj (f n)

/-- Each field is read by place as it is read by rest. -/
theorem decodeField_follows (tag : UInt8) (h : buf.length < 2 ^ 63) (hi : i ≤ buf.length) :
    Follows buf i (decodeField tag buf i) (MulanLsm.decodeField tag (buf.drop i)) := by
  unfold decodeField
  split
  · -- the comparator
    unfold MulanLsm.decodeField
    refine (readSlice_follows _ h hi).bind fun c j hj _ => ?_
    cases hUtf8 : fromUtf8 c with
    | error e =>
      simp only [hUtf8]
      exact Follows.error _
    | ok c =>
      simp only [hUtf8]
      exact Follows.ok (Nat.le_refl j) hj _
  · exact number_follows .logNumber h hi
  · exact number_follows .prevLogNumber h hi
  · exact number_follows .nextFileNumber h hi
  · exact number_follows .lastSequence h hi
  · -- a deleted file
    refine (readVarint32_follows h hi).bind fun level j hj _ => ?_
    exact (readVarint64_follows h hj).bind fun number j hj _ => Follows.ok (Nat.le_refl j) hj _
  · -- a new file
    refine (readVarint32_follows h hi).bind fun level j hj _ => ?_
    refine (readVarint64_follows h hj).bind fun number j hj _ => ?_
    refine (readVarint64_follows h hj).bind fun size j hj _ => ?_
    refine (readSlice_follows _ h hj).bind fun s j hj _ => ?_
    simp only [InternalKey.decode_eq]
    refine Follows.lift_bind fun smallest _ => ?_
    refine (readSlice_follows _ h hj).bind fun l j hj _ => ?_
    exact Follows.lift_bind fun largest _ => Follows.ok (Nat.le_refl j) hj _
  · -- a compaction pointer
    refine (readVarint32_follows h hi).bind fun level j hj _ => ?_
    exact (readSlice_follows _ h hj).bind fun key j hj _ => Follows.ok (Nat.le_refl j) hj _
  · -- no field has another tag
    rw [MulanLsm.decodeField]
    · exact Follows.error _
    all_goals assumption

/-- The turns suffice: a field takes a byte at least. -/
theorem decodeLoop_eq (h : buf.length < 2 ^ 63) {fuel fuel' : Nat} {edit : MulanLsm.VersionEdit}
    (hi : i ≤ buf.length) (hFuel : buf.length < i + fuel) (hFuel' : buf.length ≤ i + fuel') :
    decodeLoop buf fuel i edit =
      lift (MulanLsm.VersionEdit.decodeLoop fuel' (buf.drop i) edit) := by
  induction fuel generalizing fuel' i edit with
  | zero => omega
  | succ fuel ih =>
    rw [decodeLoop]
    by_cases hMore : i < buf.length
    · obtain ⟨fuel', rfl⟩ : ∃ n, fuel' = n + 1 := ⟨fuel' - 1, by omega⟩
      have hTag : buf.getD i 0 = buf[i] := by
        rw [List.getD_eq_getElem?_getD, List.getElem?_eq_getElem hMore, Option.getD_some]
      have hField := decodeField_follows buf[i] h (Nat.succ_le_of_lt hMore)
      rw [if_pos hMore, index_of_lt hMore 0, add_of_lt (by omega), List.drop_eq_getElem_cons hMore,
        MulanLsm.VersionEdit.decodeLoop, hTag]
      simp only [pure_eq_lift, lift_ok_bind]
      cases hRead : MulanLsm.decodeField buf[i] (buf.drop (i + 1)) with
      | error e =>
        rw [hRead] at hField
        rw [hField]
        rfl
      | ok p =>
        obtain ⟨field, rest⟩ := p
        rw [hRead] at hField
        obtain ⟨j, hGt, hj, rfl, hField⟩ := hField
        rw [hField, lift_ok_bind]
        exact ih hj (by omega) (by omega)
    · obtain rfl : i = buf.length := by omega
      rw [if_neg hMore, List.drop_length]
      cases fuel' <;> rfl

theorem VersionEdit.decode_eq (h : buf.length < 2 ^ 63) :
    VersionEdit.decode buf = lift (MulanLsm.VersionEdit.decode buf) :=
  decodeLoop_eq h (Nat.zero_le _) (by omega) (by omega)

end Decoding

section Folding

theorem levelIndex_of_lt {level : Nat} (h : level < numLevels) :
    levelIndex level = lift (.ok ⟨level, h⟩) := dif_pos h

theorem deleteFiles_eq (v : Version) (ds : List DeletedFile) :
    deleteFiles v ds = lift (v.deleteFiles ds) := by
  induction ds generalizing v with
  | nil => rfl
  | cons d ds ih =>
    rw [deleteFiles, Version.deleteFiles]
    by_cases h : d.level < numLevels
    · rw [if_neg (Nat.not_le.mpr h), dif_pos h, levelIndex_of_lt h, lift_ok_bind]
      exact ih _
    · rw [if_pos (Nat.not_lt.mp h), dif_neg h]
      rfl

theorem addFiles_eq (v : Version) (fs : List NewFile) : addFiles v fs = lift (v.addFiles fs) := by
  induction fs generalizing v with
  | nil => rfl
  | cons f fs ih =>
    rw [addFiles, Version.addFiles]
    by_cases h : f.level < numLevels
    · rw [if_neg (Nat.not_le.mpr h), dif_pos h, levelIndex_of_lt h, lift_ok_bind]
      exact ih _
    · rw [if_pos (Nat.not_lt.mp h), dif_neg h]
      rfl

theorem applyEdit_eq (base : Version) (edit : VersionEdit) :
    applyEdit base edit = lift (base.applyEdit edit) := by
  rw [applyEdit, deleteFiles_eq]
  exact lift_bind fun files _ => addFiles_eq files edit.newFiles

theorem setPointers_eq (s : VersionState) (ps : List (Nat × Bytes)) :
    setPointers s ps = lift (.ok (ps.foldl VersionState.setPointer s)) := by
  induction ps generalizing s with
  | nil => rfl
  | cons p ps ih =>
    rw [setPointers, List.foldl_cons, VersionState.setPointer]
    by_cases h : p.1 < numLevels
    · rw [if_pos h, dif_pos h, levelIndex_of_lt h, lift_ok_bind]
      exact ih _
    · rw [if_neg h, dif_neg h]
      exact ih s

theorem replayEdit_eq (s : VersionState) (edit : VersionEdit) :
    replayEdit s edit = lift (s.replayEdit edit) := by
  rw [replayEdit, applyEdit_eq]
  exact lift_bind fun version _ => setPointers_eq _ _

theorem replay_eq (s : VersionState) (edits : List VersionEdit) :
    replay s edits = lift (s.replay edits) := foldlM_lift replayEdit_eq s

theorem recoverState_eq {records : List Bytes} (h : ∀ data ∈ records, data.length < 2 ^ 63) :
    recoverState records =
      lift (records.mapM MulanLsm.VersionEdit.decode >>= VersionState.replay .empty) := by
  rw [recoverState, mapM_lift fun data hData => VersionEdit.decode_eq (h data hData)]
  exact lift_bind fun edits _ => replay_eq .empty edits

end Folding

/-- Whatever bytes a log or a manifest holds: its records are read, each of them is decoded as a
write and as an edit, and the edits are applied, without a failed check. -/
theorem recovery_total [Crc32c] (file : Vec) :
    ∃ records, readRecords file.bytes = lift (.ok records) ∧
      (∀ data ∈ records, Total (decodeEntry data) ∧ Total (VersionEdit.decode data)) ∧
      Total (recoverState records) := by
  have hRecord : ∀ data ∈ MulanLsm.readRecords file.bytes, data.length < 2 ^ 63 :=
    fun data hData => Nat.lt_of_le_of_lt (length_le_of_mem_readRecords file.length_lt hData)
      file.length_lt
  refine ⟨_, readRecords_eq file.length_lt, fun data hData => ⟨?_, ?_⟩, ?_⟩
  · rw [decodeEntry_eq (hRecord data hData)]
    exact total_lift _
  · rw [VersionEdit.decode_eq (hRecord data hData)]
    exact total_lift _
  · rw [recoverState_eq hRecord]
    exact total_lift _

end Checks

end MulanLsm
