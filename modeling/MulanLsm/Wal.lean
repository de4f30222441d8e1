import MulanLsm.Fs
import MulanLsm.Varint

/-! The log: a sequence of records in blocks of 32 KiB.  A record is cut into pieces, each with a
header of a checksum, a length and a type, so that no piece crosses the end of a block; what is too
short for a header at the end of a block is filled with zeros.  A reader stops at the first piece
that is cut or fails its checksum. -/

namespace MulanLsm

/-- CRC-32C of a byte string. -/
class Crc32c where
  checksum : Bytes → UInt32

namespace Crc32c

/-- One bit of the CRC register, in reflected order. -/
def shiftBit (crc : Nat) : Nat :=
  if crc % 2 = 1 then Nat.xor (crc / 2) 0x82F63B78 else crc / 2

def addByte (crc : Nat) (b : UInt8) : Nat :=
  Nat.repeat shiftBit 8 (Nat.xor crc b.toNat)

/-- CRC-32/ISCSI. -/
def iscsi (data : Bytes) : UInt32 :=
  UInt32.ofNat (Nat.xor (data.foldl addByte 0xFFFFFFFF) 0xFFFFFFFF)

instance : Crc32c := ⟨iscsi⟩

/-- The check value of CRC-32/ISCSI, of the digits 1 to 9. -/
example : iscsi [0x31, 0x32, 0x33, 0x34, 0x35, 0x36, 0x37, 0x38, 0x39] = 0xE3069283 := by
  decide +kernel

end Crc32c

/-- The size of a block. -/
def blockSize : Nat := 32768

/-- A piece starts with a checksum of four bytes, a length of two, and a type. -/
def headerSize : Nat := 7

inductive RecordType
  | full
  | first
  | middle
  | last
  deriving DecidableEq, Repr

namespace RecordType

def toU8 : RecordType → UInt8
  | full => 1
  | first => 2
  | middle => 3
  | last => 4

def fromU8 : UInt8 → Option RecordType
  | 1 => some full
  | 2 => some first
  | 3 => some middle
  | 4 => some last
  | _ => none

@[simp] theorem fromU8_toU8 (t : RecordType) : fromU8 t.toU8 = some t := by cases t <;> rfl

theorem toU8_ne_zero (t : RecordType) : t.toU8 ≠ 0 := by cases t <;> decide

end RecordType

structure RecordHeader where
  checksum : UInt32
  length : Nat
  rtype : RecordType
  deriving DecidableEq

def decodeHeader (buf : Bytes) : Result RecordHeader :=
  match RecordType.fromU8 (buf.getD 6 0) with
  | none => .error (.corrupted s!"unknown record type: {buf.getD 6 0}")
  | some rtype =>
    .ok { checksum := UInt32.ofNat (fromLeBytes (buf.take 4))
          length := fromLeBytes ((buf.drop 4).take 2)
          rtype }

section Log

variable [Crc32c]

/-- The checksum of a piece covers its type and its data. -/
def crcOf (rtype : RecordType) (data : Bytes) : UInt32 := Crc32c.checksum (rtype.toU8 :: data)

def verifyChecksum (rtype : RecordType) (data : Bytes) (expected : UInt32) : Bool :=
  crcOf rtype data == expected

def encodePiece (rtype : RecordType) (data : Bytes) : Bytes :=
  toLeBytes 4 (crcOf rtype data).toNat ++ toLeBytes 2 (asU16 data.length) ++ rtype.toU8 :: data

/-- A writer at the end of a log, `blockOffset` bytes into its last block. -/
structure WalWriter where
  name : FileName
  blockOffset : Nat
  deriving DecidableEq

namespace WalWriter

variable {σ : Type}

/-- Open the log `name`, a new one if there is none, to write at its end. -/
def create (name : FileName) : St σ WalWriter := do
  openAppend name
  let len ← fileLen name
  return { name, blockOffset := len % blockSize }

def blockOffsetSafe (off : Nat) : Nat := if off > blockSize then blockSize else off

/-- Go to the next block when this one has no room for a header. -/
def padTrailer : St WalWriter Unit := do
  let w ← self
  let leftover := blockSize - blockOffsetSafe w.blockOffset
  if leftover < headerSize then do
    if leftover > 0 then writeAll w.name (List.replicate leftover 0) else pure ()
    update fun w => { w with blockOffset := 0 }
  else pure ()

def pieceType (first last : Bool) : RecordType :=
  match first, last with
  | true, true => .full
  | true, false => .first
  | false, true => .last
  | false, false => .middle

/-- The loop of `add_record`, for at most `fuel` pieces. -/
def addRecordLoop : Nat → Bytes → Bool → St WalWriter Unit
  | 0, _, _ => pure ()
  | fuel + 1, remaining, first => do
    padTrailer
    let w ← self
    let avail := blockSize - headerSize - w.blockOffset
    let pieceLen := min remaining.length avail
    let piece := remaining.take pieceLen
    let last := decide (pieceLen = remaining.length)
    writeAll w.name (encodePiece (pieceType first last) piece)
    update fun w => { w with blockOffset := w.blockOffset + (headerSize + pieceLen) }
    let remaining := remaining.drop pieceLen
    if remaining = [] then pure () else addRecordLoop fuel remaining false

/-- Append a record, in as many pieces as it takes. -/
def addRecord (data : Bytes) : St WalWriter Unit := addRecordLoop (data.length + 2) data true

def sync : St WalWriter Unit := do syncAll (← self).name

end WalWriter

/-- What the pieces read so far come to: the record being assembled, if one is, and the records
assembled before. -/
abbrev Assembly := Option Bytes × List Bytes

/-- One more piece. -/
def assembleStep (s : Assembly) (rtype : RecordType) (data : Bytes) : Assembly :=
  match s, rtype with
  | (none, records), .full => (none, records ++ [data])
  | (none, records), .first => (some data, records)
  | (none, records), .middle => (none, records)
  | (none, records), .last => (none, records)
  | (some fragment, records), .middle => (some (fragment ++ data), records)
  | (some fragment, records), .last => (none, records ++ [fragment ++ data])
  | (some _, records), .full => (none, records ++ [data])
  | (some _, records), .first => (some data, records)

/-- One turn of the loop of `read_records` at `pos`: where it goes on, or nothing where it stops. -/
def readStep (bytes : Bytes) (pos : Nat) (s : Assembly) : Option (Nat × Assembly) :=
  if pos + headerSize ≤ bytes.length then
    let blockStart := pos / blockSize * blockSize
    let blockRemaining := blockSize - (pos - blockStart)
    if blockRemaining < headerSize then some (blockStart + blockSize, s)
    else
      let header := (bytes.drop pos).take headerSize
      if header.getD 6 0 = 0 then some (blockStart + blockSize, s)
      else
        match decodeHeader header with
        | .error _ => none
        | .ok h =>
          let dataStart := pos + headerSize
          let dataEnd := dataStart + h.length
          if dataEnd > bytes.length then none
          else
            let data := (bytes.drop dataStart).take h.length
            if verifyChecksum h.rtype data h.checksum then
              some (dataEnd, assembleStep s h.rtype data)
            else none
  else none

/-- The loop of `read_records`, for at most `fuel` turns. -/
def readRecordsLoop (bytes : Bytes) : Nat → Nat → Assembly → List Bytes
  | 0, _, s => s.2
  | fuel + 1, pos, s =>
    match readStep bytes pos s with
    | some (pos, s) => readRecordsLoop bytes fuel pos s
    | none => s.2

/-- The records of a log.  Each turn goes forward, so there are at most as many as bytes. -/
def readRecords (bytes : Bytes) : List Bytes :=
  readRecordsLoop bytes (bytes.length + 1) 0 (none, [])

end Log

/-- A write in the log. -/
structure WalEntry where
  vtype : ValueType
  seq : Nat
  key : Bytes
  value : Bytes
  deriving DecidableEq

/-- The type, the sequence number, and the key and the value, each after its length. -/
def encodeEntry (vtype : ValueType) (seq : Nat) (key value : Bytes) : Bytes :=
  vtype.toU8 :: toLeBytes 8 seq ++ encodeVarint32 (asU32 key.length) ++ key ++
    encodeVarint32 (asU32 value.length) ++ value

def decodeEntry (data : Bytes) : Result WalEntry := do
  if data.length < 9 then throw (.corrupted s!"entry too short: {data.length} bytes")
  else
    match ValueType.fromU8 (data.getD 0 0) with
    | none => throw (.corrupted s!"unknown value type: {data.getD 0 0}")
    | some vtype =>
      let seq := fromLeBytes ((data.drop 1).take 8)
      let (keyLen, consumedKl) ← decodeVarint32 (data.drop 9)
      let keyEnd := 9 + consumedKl + keyLen
      if keyEnd > data.length then throw (.corrupted "entry key out of bounds")
      else
        let key := (data.drop (9 + consumedKl)).take keyLen
        let (valLen, consumedVl) ← decodeVarint32 (data.drop keyEnd)
        let valStart := keyEnd + consumedVl
        let valEnd := valStart + valLen
        if valEnd > data.length then throw (.corrupted "entry value out of bounds")
        else return { vtype, seq, key, value := (data.drop valStart).take valLen }

/-- A write comes back from its log entry when its lengths fit the entry's length fields. -/
theorem decodeEntry_encodeEntry {vtype : ValueType} {seq : Nat} {key value : Bytes}
    (hSeq : seq < 2 ^ 64) (hKey : key.length < 2 ^ 32) (hValue : value.length < 2 ^ 32) :
    decodeEntry (encodeEntry vtype seq key value) = .ok { vtype, seq, key, value } := by
  set kl := encodeVarint32 key.length with hkl
  set vl := encodeVarint32 value.length with hvl
  have hData : encodeEntry vtype seq key value =
      vtype.toU8 :: (toLeBytes 8 seq ++ (kl ++ (key ++ (vl ++ value)))) := by
    simp [encodeEntry, asU32_of_lt hKey, asU32_of_lt hValue, hkl, hvl]
  have hSeq8 : ((encodeEntry vtype seq key value).drop 1).take 8 = toLeBytes 8 seq := by
    rw [hData, List.drop_succ_cons, List.drop_zero,
      List.take_left' (toLeBytes_length 8 seq)]
  have hKl : (encodeEntry vtype seq key value).drop 9 = kl ++ (key ++ (vl ++ value)) := by
    rw [hData, List.drop_succ_cons, List.drop_left' (toLeBytes_length 8 seq)]
  have hKeyBytes : (encodeEntry vtype seq key value).drop (9 + kl.length) =
      key ++ (vl ++ value) := by
    rw [← List.drop_drop, hKl, List.drop_left' rfl]
  have hVl : (encodeEntry vtype seq key value).drop (9 + kl.length + key.length) =
      vl ++ value := by
    rw [← List.drop_drop, hKeyBytes, List.drop_left' rfl]
  have hValueBytes :
      (encodeEntry vtype seq key value).drop (9 + kl.length + key.length + vl.length) = value := by
    rw [← List.drop_drop, hVl, List.drop_left' rfl]
  have hLen : (encodeEntry vtype seq key value).length =
      9 + kl.length + key.length + vl.length + value.length := by
    rw [hData]
    simp only [List.length_cons, List.length_append, toLeBytes_length]
    omega
  have hHead : (encodeEntry vtype seq key value).getD 0 0 = vtype.toU8 := by rw [hData]; rfl
  have hSeqVal : fromLeBytes (toLeBytes 8 seq) = seq :=
    fromLeBytes_toLeBytes_of_lt (by rw [show (256 : Nat) ^ 8 = 2 ^ 64 by norm_num]; exact hSeq)
  rw [decodeEntry, if_neg (by omega), hHead, ValueType.fromU8_toU8]
  simp only [hKl, hkl, decodeVarint32_encode hKey]
  simp only [← hkl, bind, Except.bind]
  rw [if_neg (by omega)]
  simp only [hVl, hvl, decodeVarint32_encode hValue]
  simp only [← hvl]
  rw [if_neg (by omega), hSeq8, hSeqVal, hKeyBytes, hValueBytes, List.take_left' rfl,
    List.take_length]
  rfl

/-- No entry that is read is longer than its length fields can say. -/
theorem decodeEntry_lengths {data : Bytes} {e : WalEntry} (h : decodeEntry data = .ok e) :
    e.key.length < 2 ^ 32 ∧ e.value.length < 2 ^ 32 := by
  rw [decodeEntry] at h
  split at h
  · cases h
  · split at h
    · cases h
    · cases hKl : decodeVarint32 (data.drop 9) with
      | error err =>
        rw [hKl] at h
        cases h
      | ok kl =>
        simp only [hKl, bind, Except.bind] at h
        split at h
        · cases h
        · cases hVl : decodeVarint32 (data.drop (9 + kl.2 + kl.1)) with
          | error err =>
            rw [hVl] at h
            cases h
          | ok vl =>
            simp only [hVl] at h
            split at h
            · cases h
            · obtain rfl := Except.ok.inj h
              have hKey := (decodeVarint32_le hKl).1
              have hValue := (decodeVarint32_le hVl).1
              exact ⟨(List.length_take_le _ _).trans_lt hKey,
                (List.length_take_le _ _).trans_lt hValue⟩

/-- A write comes back from its log entry exactly when its lengths fit the entry's length fields. -/
theorem recorded_faithfully_iff (vtype : ValueType) (seq : Nat) (key value : Bytes)
    (hSeq : seq < 2 ^ 64) :
    decodeEntry (encodeEntry vtype seq key value) = .ok { vtype, seq, key, value } ↔
      key.length < 2 ^ 32 ∧ value.length < 2 ^ 32 :=
  ⟨decodeEntry_lengths, fun h => decodeEntry_encodeEntry hSeq h.1 h.2⟩

/-- The last sequence number, with a short key and an empty value. -/
theorem recorded_faithfully_last :
    2 ^ 64 - 1 < 2 ^ 64 ∧ decodeEntry (encodeEntry .put (2 ^ 64 - 1) [97] []) =
      .ok { vtype := .put, seq := 2 ^ 64 - 1, key := [97], value := [] } :=
  ⟨by decide, (recorded_faithfully_iff .put (2 ^ 64 - 1) [97] [] (by decide)).mpr (by decide)⟩

/-- A value of `2 ^ 32` bytes does not come back. -/
theorem long_value_lost :
    decodeEntry (encodeEntry .put 1 [97] (List.replicate (2 ^ 32) 98)) ≠
      .ok { vtype := .put, seq := 1, key := [97], value := List.replicate (2 ^ 32) 98 } := by
  intro h
  have hShort : (List.replicate (2 ^ 32) (98 : UInt8)).length < 2 ^ 32 := (decodeEntry_lengths h).2
  rw [List.length_replicate] at hShort
  exact absurd hShort (Nat.lt_irrefl _)

end MulanLsm
