import MulanLsm.FileMeta
import MulanLsm.Text
import MulanLsm.WalFraming

/-! Version edits and the manifest that logs them.  An edit is written as a sequence of fields, each
a tag and what it tags; absent fields are not written.  A manifest is a log of edits, and `CURRENT`
names the manifest in use. -/

namespace MulanLsm

/-- A file to take out of a level. -/
structure DeletedFile where
  level : Nat
  number : Nat
  deriving DecidableEq, Repr

/-- A file to add to a level. -/
structure NewFile where
  level : Nat
  fileMeta : FileMetaData
  deriving DecidableEq, Repr

/-- A change of the database's state. -/
structure VersionEdit where
  comparator : Option String := none
  logNumber : Option Nat := none
  prevLogNumber : Option Nat := none
  nextFileNumber : Option Nat := none
  lastSequence : Option Nat := none
  deletedFiles : List DeletedFile := []
  newFiles : List NewFile := []
  compactPointers : List (Nat × Bytes) := []
  deriving DecidableEq, Repr

/-- A field of an edit, as it is written. -/
inductive EditField
  | comparator (c : String)
  | logNumber (n : Nat)
  | prevLogNumber (n : Nat)
  | nextFileNumber (n : Nat)
  | lastSequence (s : Nat)
  | deletedFile (d : DeletedFile)
  | newFile (f : NewFile)
  | compactPointer (level : Nat) (key : Bytes)

def corrupt (msg : String) : MulanError := .corrupted s!"version edit: {msg}"

/-- Bytes after their length. -/
def encodeSlice (bs : Bytes) : Bytes := encodeVarint32 (asU32 bs.length) ++ bs

namespace EditField

/-- The tag of the field, then what it holds. -/
def encode : EditField → Bytes
  | comparator c => 1 :: encodeSlice (utf8 c)
  | logNumber n => 2 :: encodeVarint64 n
  | prevLogNumber n => 9 :: encodeVarint64 n
  | nextFileNumber n => 3 :: encodeVarint64 n
  | lastSequence s => 4 :: encodeVarint64 s
  | deletedFile d => 6 :: (encodeVarint32 d.level ++ encodeVarint64 d.number)
  | newFile f =>
    7 :: (encodeVarint32 f.level ++ encodeVarint64 f.fileMeta.number ++
      encodeVarint64 f.fileMeta.fileSize ++ encodeSlice f.fileMeta.smallest.encode ++
      encodeSlice f.fileMeta.largest.encode)
  | compactPointer level key => 5 :: (encodeVarint32 level ++ encodeSlice key)

/-- The edit with one more field read. -/
def apply (edit : VersionEdit) : EditField → VersionEdit
  | comparator c => { edit with comparator := some c }
  | logNumber n => { edit with logNumber := some n }
  | prevLogNumber n => { edit with prevLogNumber := some n }
  | nextFileNumber n => { edit with nextFileNumber := some n }
  | lastSequence s => { edit with lastSequence := some s }
  | deletedFile d => { edit with deletedFiles := edit.deletedFiles ++ [d] }
  | newFile f => { edit with newFiles := edit.newFiles ++ [f] }
  | compactPointer level key =>
    { edit with compactPointers := edit.compactPointers ++ [(level, key)] }

end EditField

/-- A varint at the start of `buf`, and the rest. -/
def readVarint32 (buf : Bytes) : Result (Nat × Bytes) :=
  (decodeVarint32 buf).map fun p => (p.1, buf.drop p.2)

def readVarint64 (buf : Bytes) : Result (Nat × Bytes) :=
  (decodeVarint64 buf).map fun p => (p.1, buf.drop p.2)

/-- Bytes after their length at the start of `buf`, and the rest. -/
def readSlice (msg : String) (buf : Bytes) : Result (Bytes × Bytes) := do
  let (len, buf) ← readVarint32 buf
  if len > buf.length then throw (corrupt msg) else return (buf.take len, buf.drop len)

/-- What follows `tag`, and the rest. -/
def decodeField (tag : UInt8) (buf : Bytes) : Result (EditField × Bytes) :=
  match tag with
  | 1 => do
    let (c, buf) ← readSlice "comparator length out of bounds" buf
    match fromUtf8 c with
    | .ok c => return (.comparator c, buf)
    | .error e => throw (corrupt s!"comparator not utf-8: {e}")
  | 2 => do
    let (n, buf) ← readVarint64 buf
    return (.logNumber n, buf)
  | 9 => do
    let (n, buf) ← readVarint64 buf
    return (.prevLogNumber n, buf)
  | 3 => do
    let (n, buf) ← readVarint64 buf
    return (.nextFileNumber n, buf)
  | 4 => do
    let (s, buf) ← readVarint64 buf
    return (.lastSequence s, buf)
  | 6 => do
    let (level, buf) ← readVarint32 buf
    let (number, buf) ← readVarint64 buf
    return (.deletedFile { level, number }, buf)
  | 7 => do
    let (level, buf) ← readVarint32 buf
    let (number, buf) ← readVarint64 buf
    let (size, buf) ← readVarint64 buf
    let (s, buf) ← readSlice "smallest key length out of bounds" buf
    let smallest ← InternalKey.decode s
    let (l, buf) ← readSlice "largest key length out of bounds" buf
    let largest ← InternalKey.decode l
    return (.newFile { level, fileMeta := .new number size smallest largest }, buf)
  | 5 => do
    let (level, buf) ← readVarint32 buf
    let (key, buf) ← readSlice "compact pointer key out of bounds" buf
    return (.compactPointer level key, buf)
  | tag => throw (corrupt s!"unknown version edit tag: {tag}")

namespace VersionEdit

/-- The fields of an edit that are present, in the order they are written. -/
def fields (e : VersionEdit) : List EditField :=
  (e.comparator.map .comparator).toList ++ (e.logNumber.map .logNumber).toList ++
    (e.prevLogNumber.map .prevLogNumber).toList ++ (e.nextFileNumber.map .nextFileNumber).toList ++
    (e.lastSequence.map .lastSequence).toList ++ e.deletedFiles.map .deletedFile ++
    e.newFiles.map .newFile ++ e.compactPointers.map fun p => .compactPointer p.1 p.2

def encode (e : VersionEdit) : Bytes := e.fields.flatMap EditField.encode

/-- The loop of `decode`, for at most `fuel` fields. -/
def decodeLoop : Nat → Bytes → VersionEdit → Result VersionEdit
  | _, [], edit => .ok edit
  | 0, _ :: _, edit => .ok edit
  | fuel + 1, tag :: buf, edit => do
    let (field, buf) ← decodeField tag buf
    decodeLoop fuel buf (field.apply edit)

/-- Each field takes a byte at least, so there are at most as many as bytes. -/
def decode (buf : Bytes) : Result VersionEdit := decodeLoop buf.length buf {}

end VersionEdit

/-- A key that the manifest can hold. -/
def InternalKey.Storable (k : InternalKey) : Prop :=
  k.userKey.length + keyFooterLen < 2 ^ 32 ∧ k.seq < 2 ^ 64

/-- A field that the manifest can hold: its numbers and lengths fit their encoding, and it does not
count seeks, which are not written. -/
def EditField.Storable : EditField → Prop
  | comparator c => (utf8 c).length < 2 ^ 32
  | logNumber n | prevLogNumber n | nextFileNumber n | lastSequence n => n < 2 ^ 64
  | deletedFile d => d.level < 2 ^ 32 ∧ d.number < 2 ^ 64
  | newFile f =>
    f.level < 2 ^ 32 ∧ f.fileMeta.number < 2 ^ 64 ∧ f.fileMeta.fileSize < 2 ^ 64 ∧
      f.fileMeta.smallest.Storable ∧ f.fileMeta.largest.Storable ∧ f.fileMeta.allowedSeeks = 0
  | compactPointer level key => level < 2 ^ 32 ∧ key.length < 2 ^ 32

def VersionEdit.Storable (e : VersionEdit) : Prop := ∀ f ∈ e.fields, f.Storable

section RoundTrip

variable {n : Nat} {bs rest : Bytes} {msg : String}

theorem readVarint32_encode (h : n < 2 ^ 32) :
    readVarint32 (encodeVarint32 n ++ rest) = .ok (n, rest) := by
  rw [readVarint32, decodeVarint32_encode h, Except.map, List.drop_left' rfl]

theorem readVarint64_encode (h : n < 2 ^ 64) :
    readVarint64 (encodeVarint64 n ++ rest) = .ok (n, rest) := by
  rw [readVarint64, decodeVarint64_encode h, Except.map, List.drop_left' rfl]

theorem readSlice_encode (h : bs.length < 2 ^ 32) :
    readSlice msg (encodeSlice bs ++ rest) = .ok (bs, rest) := by
  rw [readSlice, encodeSlice, asU32_of_lt h, List.append_assoc, readVarint32_encode h]
  simp only [bind, Except.bind]
  rw [if_neg (by simp), List.take_left' rfl, List.drop_left' rfl]
  rfl

theorem readSlice_encode_key {k : InternalKey} (h : k.Storable) :
    readSlice msg (encodeSlice k.encode ++ rest) = .ok (k.encode, rest) :=
  readSlice_encode (by rw [InternalKey.encode_length]; exact h.1)

/-- A field comes back from its bytes, whatever follows. -/
theorem decodeLoop_encode {f : EditField} (h : f.Storable) (fuel : Nat) (edit : VersionEdit) :
    VersionEdit.decodeLoop (fuel + 1) (f.encode ++ rest) edit =
      VersionEdit.decodeLoop fuel rest (f.apply edit) := by
  cases f with
  | comparator c =>
    simp only [EditField.encode, List.cons_append, VersionEdit.decodeLoop, decodeField,
      readSlice_encode h, bind, Except.bind, fromUtf8_utf8]
    rfl
  | logNumber n | prevLogNumber n | nextFileNumber n | lastSequence n =>
    simp only [EditField.encode, List.cons_append, VersionEdit.decodeLoop, decodeField,
      readVarint64_encode h, bind, Except.bind]
    rfl
  | deletedFile d =>
    simp only [EditField.encode, List.cons_append, List.append_assoc, VersionEdit.decodeLoop,
      decodeField, readVarint32_encode h.1, readVarint64_encode h.2, bind, Except.bind]
    rfl
  | newFile f =>
    obtain ⟨hLevel, hNumber, hSize, hSmallest, hLargest, hSeeks⟩ := h
    simp only [EditField.encode, List.cons_append, List.append_assoc, VersionEdit.decodeLoop,
      decodeField, readVarint32_encode hLevel, readVarint64_encode hNumber,
      readVarint64_encode hSize, readSlice_encode_key hSmallest, readSlice_encode_key hLargest,
      InternalKey.decode_encode hSmallest.2, InternalKey.decode_encode hLargest.2, bind,
      Except.bind, EditField.apply, FileMetaData.new]
    rw [← hSeeks]
    rfl
  | compactPointer level key =>
    simp only [EditField.encode, List.cons_append, List.append_assoc, VersionEdit.decodeLoop,
      decodeField, readVarint32_encode h.1, readSlice_encode h.2, bind, Except.bind]
    rfl

theorem decodeLoop_flatMap {fs : List EditField} (h : ∀ f ∈ fs, f.Storable) (fuel : Nat)
    (edit : VersionEdit) :
    VersionEdit.decodeLoop (fuel + fs.length) (fs.flatMap EditField.encode) edit =
      .ok (fs.foldl EditField.apply edit) := by
  induction fs generalizing edit with
  | nil => cases fuel <;> rfl
  | cons f fs ih =>
    rw [List.flatMap_cons, List.length_cons, ← Nat.add_assoc,
      decodeLoop_encode (h f List.mem_cons_self), ih fun g hg => h g (List.mem_cons_of_mem _ hg),
      List.foldl_cons]

theorem length_flatMap_encode (fs : List EditField) :
    fs.length ≤ (fs.flatMap EditField.encode).length := by
  induction fs with
  | nil => simp
  | cons f fs ih =>
    have hPos : 1 ≤ f.encode.length := by cases f <;> simp [EditField.encode]
    rw [List.flatMap_cons, List.length_append, List.length_cons]
    omega

theorem foldl_option {α : Type} (o : Option α) (g : α → EditField) (edit : VersionEdit) :
    (o.map g).toList.foldl EditField.apply edit =
      match o with
      | some a => (g a).apply edit
      | none => edit := by
  cases o <;> rfl

theorem foldl_deletedFiles (ds : List DeletedFile) (edit : VersionEdit) :
    (ds.map EditField.deletedFile).foldl EditField.apply edit =
      { edit with deletedFiles := edit.deletedFiles ++ ds } := by
  induction ds generalizing edit with
  | nil => simp
  | cons d ds ih => simp [ih, EditField.apply]

theorem foldl_newFiles (fs : List NewFile) (edit : VersionEdit) :
    (fs.map EditField.newFile).foldl EditField.apply edit =
      { edit with newFiles := edit.newFiles ++ fs } := by
  induction fs generalizing edit with
  | nil => simp
  | cons f fs ih => simp [ih, EditField.apply]

theorem foldl_compactPointers (cs : List (Nat × Bytes)) (edit : VersionEdit) :
    (cs.map fun p => EditField.compactPointer p.1 p.2).foldl EditField.apply edit =
      { edit with compactPointers := edit.compactPointers ++ cs } := by
  induction cs generalizing edit with
  | nil => simp
  | cons c cs ih => simp [ih, EditField.apply]

/-- An edit is what its fields make of an empty one. -/
theorem VersionEdit.foldl_fields (e : VersionEdit) : e.fields.foldl EditField.apply {} = e := by
  obtain ⟨c, l, p, n, s, ds, fs, cs⟩ := e
  simp only [fields, List.foldl_append, foldl_option, foldl_deletedFiles, foldl_newFiles,
    foldl_compactPointers]
  cases c <;> cases l <;> cases p <;> cases n <;> cases s <;> simp [EditField.apply]

/-- An edit that the manifest can hold comes back from its bytes. -/
theorem VersionEdit.decode_encode {e : VersionEdit} (h : e.Storable) : decode e.encode = .ok e := by
  have hLen := length_flatMap_encode e.fields
  have hLoop := decodeLoop_flatMap h
    ((e.fields.flatMap EditField.encode).length - e.fields.length) {}
  rw [Nat.sub_add_cancel hLen, e.foldl_fields] at hLoop
  exact hLoop

/-- An edit comes back from its bytes if its numbers have their types and the lengths that are
written as `u32`s, of the comparator, of the bytes of the keys and of the pointers, fit that. -/
theorem versionEdit_round_trip (e : VersionEdit)
    (hComparator : ∀ c ∈ e.comparator, (utf8 c).length < 2 ^ 32)
    (hNumbers : ∀ o ∈ [e.logNumber, e.prevLogNumber, e.nextFileNumber, e.lastSequence], ∀ n ∈ o,
      n < 2 ^ 64)
    (hDeleted : ∀ f ∈ e.deletedFiles, f.level < 2 ^ 32 ∧ f.number < 2 ^ 64)
    (hNew : ∀ f ∈ e.newFiles, f.level < 2 ^ 32 ∧ f.fileMeta.number < 2 ^ 64 ∧
      f.fileMeta.fileSize < 2 ^ 64 ∧ f.fileMeta.allowedSeeks = 0)
    (hKeys : ∀ f ∈ e.newFiles, ∀ k ∈ [f.fileMeta.smallest, f.fileMeta.largest],
      k.encode.length < 2 ^ 32 ∧ k.seq < 2 ^ 64)
    (hPointers : ∀ p ∈ e.compactPointers, p.1 < 2 ^ 32 ∧ p.2.length < 2 ^ 32) :
    VersionEdit.decode e.encode = .ok e := by
  refine VersionEdit.decode_encode fun field hField => ?_
  have hStorable : ∀ k : InternalKey, k.encode.length < 2 ^ 32 ∧ k.seq < 2 ^ 64 → k.Storable := by
    intro k hk
    rw [InternalKey.encode_length] at hk
    exact hk
  simp only [List.mem_cons, List.not_mem_nil, or_false, forall_eq_or_imp,
    forall_eq] at hNumbers hKeys
  simp only [VersionEdit.fields, List.mem_append, List.mem_map, Option.mem_toList,
    Option.map_eq_some_iff] at hField
  rcases hField with ((((((⟨c, hc, rfl⟩ | ⟨n, hn, rfl⟩) | ⟨n, hn, rfl⟩) | ⟨n, hn, rfl⟩) | ⟨n, hn,
    rfl⟩) |
    ⟨f, hf, rfl⟩) | ⟨f, hf, rfl⟩) | ⟨p, hp, rfl⟩
  · exact hComparator c hc
  · exact hNumbers.1 n hn
  · exact hNumbers.2.1 n hn
  · exact hNumbers.2.2.1 n hn
  · exact hNumbers.2.2.2 n hn
  · exact hDeleted f hf
  · obtain ⟨hLevel, hNumber, hSize, hSeeks⟩ := hNew f hf
    exact ⟨hLevel, hNumber, hSize, hStorable _ (hKeys f hf).1, hStorable _ (hKeys f hf).2, hSeeks⟩
  · exact hPointers p hp

/-- An edit with every kind of field but two. -/
theorem versionEdit_round_trip_sample :
    let e : VersionEdit :=
      { comparator := some "c", logNumber := some (2 ^ 64 - 1), lastSequence := some 9
        deletedFiles := [{ level := 0, number := 7 }, { level := 2 ^ 32 - 1, number := 7 }]
        newFiles :=
          [{ level := 1, fileMeta := .new 300 5 ⟨[6, 7], 2, .put⟩ ⟨[9], 2 ^ 64 - 1, .delete⟩ }]
        compactPointers := [(3, [7]), (3, [])] }
    VersionEdit.decode e.encode = .ok e :=
  versionEdit_round_trip _ (by decide) (by decide) (by decide) (by decide) (by decide) (by decide)

end RoundTrip

/-- Writes edits to a manifest, a log. -/
structure ManifestWriter where
  wal : WalWriter
  deriving DecidableEq

namespace ManifestWriter

variable [Crc32c] {σ : Type}

def create (number : Nat) : St σ ManifestWriter := do
  return { wal := ← WalWriter.create (.manifest number) }

def onWal {α : Type} (m : St WalWriter α) : St ManifestWriter α :=
  onField (·.wal) (fun wal w => { w with wal }) m

/-- Log an edit; it is on the disk once this returns. -/
def append (edit : VersionEdit) : St ManifestWriter Unit := do
  onWal (WalWriter.addRecord edit.encode)
  onWal WalWriter.sync

end ManifestWriter

section Current

variable {σ : Type}

/-- Make `CURRENT` name the manifest, through a temporary file. -/
def writeCurrent (manifestNumber : Nat) : St σ Unit := do
  createFile .currentTmp
  writeAll .currentTmp (manifestName manifestNumber)
  writeAll .currentTmp [0x0A]
  syncAll .currentTmp
  rename .currentTmp .current

/-- The number of the manifest that the bytes of `CURRENT` name. -/
def parseCurrent (content : Bytes) : Result Nat :=
  match fromUtf8 content with
  | .error _ => .error .io
  | .ok _ =>
    let name := trimEnd content
    match parseManifestName name with
    | some n => .ok n
    | none =>
      let text := (fromUtf8 name).toOption.getD ""
      .error (corrupt s!"CURRENT points to invalid manifest name: {debug text}")

def readCurrent : St σ Nat := do ofResult (parseCurrent (← readFile .current))

theorem parseCurrent_manifestName {n : Nat} (hn : n < 2 ^ 64) :
    parseCurrent (manifestName n ++ [0x0A]) = .ok n := by
  have hDigits := toNamePart_digits n
  have hAscii : ∀ b ∈ manifestName n ++ [0x0A], b.toNat < 128 := by
    intro b hb
    simp only [manifestName, List.mem_append] at hb
    rcases hb with (hb | hb) | hb
    · exact (by decide +kernel : ∀ b ∈ manifestPrefix, b.toNat < 128) b hb
    · have := hDigits b hb
      simp only [isAsciiDigit, Bool.and_eq_true, decide_eq_true_eq] at this
      omega
    · rw [List.mem_singleton.mp hb]
      decide
  obtain ⟨s, hText⟩ := exists_utf8_ascii hAscii
  have hTrim : trimEnd (manifestName n ++ [0x0A]) = manifestName n := by
    have hne := toNamePart_ne_nil n
    have hLast : (manifestName n).getLast? = some ((toNamePart n).getLast hne) := by
      rw [manifestName, List.getLast?_append_of_ne_nil _ hne, List.getLast?_eq_some_getLast hne]
    refine trimEnd_lineFeed hLast fun c hc hEnd => ?_
    -- No white space ends with a digit.
    have hNot : ∀ c ∈ whiteSpace, ∀ b ∈ c.getLast?, isAsciiDigit b = false := by
      decide +kernel
    have := hDigits _ (List.getLast_mem hne)
    rw [hNot c hc _ hEnd] at this
    cases this
  rw [parseCurrent, ← hText, fromUtf8_utf8, hText]
  simp only [hTrim, parseManifestName_manifestName, if_pos hn]

end Current

/-- The edits in the manifest that `CURRENT` names, and its number. -/
def recoverManifest [Crc32c] {σ : Type} : St σ (List VersionEdit × Nat) := do
  let manifestNumber ← readCurrent
  let bytes ← readFile (.manifest manifestNumber)
  let edits ← ofResult ((readRecords bytes).mapM VersionEdit.decode)
  return (edits, manifestNumber)

/-- `CURRENT` names the manifest `number`. -/
def Dir.Names (d : Dir) (number : Nat) : Prop :=
  ∃ f, d.lookup .current = some f ∧ parseCurrent f.bytes = .ok number

theorem Dir.Names.frame {d d' : Dir} {n m : Nat} (h : d.Names n)
    (hFrame : d.Frame {.manifest m} d') : d'.Names n := by
  obtain ⟨f, hf, hName⟩ := h
  exact ⟨f, (hFrame .current (by simp)).trans hf, hName⟩

/-- `CURRENT` names the manifest and is on the disk once `write_current` returns. -/
theorem writeCurrent_spec {A : Outcome → Prop} {σ : Type} {x : σ} {d : Dir} {n : Nat}
    (hn : n < 2 ^ 64) :
    Spec A (writeCurrent n)
      (fun _ y d' => y = x ∧ d'.Names n ∧ d'.Synced .current ∧ d.Frame {.current, .currentTmp} d')
      (fun f y d' => y = x ∧ Fails A f ∧ d.Frame {.currentTmp} d') x d := by
  have hFrame0 : d.Frame {.currentTmp} (d.insert .currentTmp .empty) :=
    Dir.Frame.insert (Set.mem_singleton _) _ _
  refine Spec.bind (Spec.call ?_ fun n f h => ⟨rfl, ⟨n, h⟩, Dir.Frame.refl _ _⟩)
  have hHas : Dir.Has (d.insert .currentTmp .empty) .currentTmp [] 0 :=
    ⟨_, AList.lookup_insert _, rfl, rfl⟩
  refine Spec.bind (Spec.writeAll hHas (fun d1 hHas1 hFrame1 => ?_)
    fun n f d' h _ hFrame1 => ⟨rfl, ⟨n, h⟩, hFrame0.trans hFrame1⟩)
  replace hFrame1 := hFrame0.trans hFrame1
  refine Spec.bind (Spec.writeAll hHas1 (fun d2 hHas2 hFrame2 => ?_)
    fun n f d' h _ hFrame2 => ⟨rfl, ⟨n, h⟩, hFrame1.trans hFrame2⟩)
  replace hFrame2 := hFrame1.trans hFrame2
  refine Spec.bind (Spec.syncAll hHas2 (fun d3 hHas3 hFrame3 => ?_)
    fun n f h => ⟨rfl, ⟨n, h⟩, hFrame2⟩)
  obtain ⟨f, hf, hBytes, hSynced⟩ := hHas3
  have hFrame : d.Frame {.currentTmp} d3 := hFrame2.trans hFrame3
  refine Spec.call ?_ fun n f h => ⟨rfl, ⟨n, h⟩, hFrame⟩
  simp only [hf]
  refine ⟨trivial, ⟨f, AList.lookup_insert _, ?_⟩, ⟨_, f, AList.lookup_insert _, hBytes, hSynced⟩,
    fun name hname => ?_⟩
  · rw [hBytes]
    exact parseCurrent_manifestName hn
  · simp only [Set.mem_insert_iff, Set.mem_singleton_iff, not_or] at hname
    rw [AList.lookup_insert_ne hname.1, AList.lookup_erase_ne hname.2]
    exact hFrame name hname.2

end MulanLsm
