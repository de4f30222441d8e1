import Mathlib.Data.List.Infix
import Mathlib.Data.Nat.ModEq
import MulanLsm.Wal

/-! What a log holds.  A log grows by whole pieces, and by zeros where a block has no room for a
header; a crash or a failed write may leave a cut piece at its end.  A reader assembles the whole
pieces and stops at a cut one, and a writer that knows its offset in the block appends a record as
pieces that a reader puts together again. -/

namespace MulanLsm

/-- A piece of a record. -/
abbrev Piece := RecordType × Bytes

/-- After `n` bytes of a log, `p` ends in the block that it starts in. -/
def Fits (n : Nat) (p : Piece) : Prop := n % blockSize + headerSize + p.2.length ≤ blockSize

/-- After `n` bytes of a log, its last block has no room for a header. -/
def InTrailer (n : Nat) : Prop := blockSize - n % blockSize < headerSize

theorem Fits.not_inTrailer {n : Nat} {p : Piece} (h : Fits n p) : ¬InTrailer n := by
  unfold Fits InTrailer blockSize headerSize at *
  omega

theorem Fits.length_lt {n : Nat} {p : Piece} (h : Fits n p) : p.2.length < 2 ^ 16 := by
  unfold Fits blockSize headerSize at h
  omega

theorem Fits.remaining {n : Nat} {p : Piece} (h : Fits n p) :
    ¬blockSize - (n - n / blockSize * blockSize) < headerSize := by
  unfold Fits blockSize headerSize at *
  omega

/-- A reader that has read what the first `n` bytes hold is at `pos`: at their end, or in a trailer
that the rest of them fills. -/
def At (n pos : Nat) : Prop :=
  pos = n ∨ pos < n ∧ InTrailer pos ∧ n ≤ pos / blockSize * blockSize + blockSize

theorem At.pad {n pos : Nat} (h : At n pos) (hIn : InTrailer n) : At (n + 1) pos := by
  unfold At InTrailer blockSize headerSize at *
  omega

section Assembling

variable {s : Assembly} {p : Piece} {ps ps' : List Piece}

/-- What a reader makes of pieces, from the state `s` on. -/
def assemble (s : Assembly) (ps : List Piece) : Assembly :=
  ps.foldl (fun s p => assembleStep s p.1 p.2) s

@[simp] theorem assemble_nil : assemble s [] = s := rfl

@[simp] theorem assemble_cons : assemble s (p :: ps) = assemble (assembleStep s p.1 p.2) ps := rfl

@[simp] theorem assemble_append : assemble s (ps ++ ps') = assemble (assemble s ps) ps' := by
  simp [assemble]

/-- The pieces that data is cut into, from the first piece of a record on or from a later one. -/
inductive Pieces : Bool → Bytes → List Piece → Prop
  | last (first : Bool) (data : Bytes) :
      Pieces first data [(WalWriter.pieceType first true, data)]
  | cons {first : Bool} {data : Bytes} {ps : List Piece} (piece : Bytes) :
      Pieces false data ps →
      Pieces first (piece ++ data) ((WalWriter.pieceType first false, piece) :: ps)

theorem Pieces.assemble_rest {data : Bytes} {first : Bool} (h : Pieces first data ps)
    (hFirst : first = false) (fragment : Bytes) (records : List Bytes) :
    assemble (some fragment, records) ps = (none, records ++ [fragment ++ data]) := by
  induction h generalizing fragment with
  | last => subst hFirst; rfl
  | @cons first data ps piece _ ih =>
    subst hFirst
    rw [assemble_cons]
    exact (ih rfl (fragment ++ piece)).trans (by rw [List.append_assoc])

/-- The pieces of a record give the record, whatever was being assembled. -/
theorem Pieces.assemble {data : Bytes} (h : Pieces true data ps) (s : Assembly) :
    assemble s ps = (none, s.2 ++ [data]) := by
  obtain ⟨fragment, records⟩ := s
  cases h with
  | last => cases fragment <;> rfl
  | cons piece h => cases fragment <;> exact h.assemble_rest rfl piece records

theorem Pieces.assemble_init_rest {data : Bytes} {first : Bool} (h : Pieces first data ps)
    (hFirst : first = false) {ps1 ps2 : List Piece} (hSplit : ps = ps1 ++ ps2) (hne : ps2 ≠ [])
    (fragment : Bytes) (records : List Bytes) :
    (MulanLsm.assemble (some fragment, records) ps1).2 = records := by
  induction h generalizing fragment ps1 with
  | last =>
    cases ps1 with
    | nil => rfl
    | cons p ps1 => simp_all
  | @cons first data ps piece _ ih =>
    subst hFirst
    cases ps1 with
    | nil => rfl
    | cons p ps1 =>
      rw [List.cons_append, List.cons.injEq] at hSplit
      obtain ⟨rfl, hSplit⟩ := hSplit
      exact ih rfl hSplit (fragment ++ piece)

/-- Some first pieces of a record, but not all, give no record. -/
theorem Pieces.assemble_init {data : Bytes} {ps1 ps2 : List Piece}
    (h : Pieces true data (ps1 ++ ps2))
    (hne : ps2 ≠ []) (s : Assembly) : (MulanLsm.assemble s ps1).2 = s.2 := by
  obtain ⟨fragment, records⟩ := s
  cases ps1 with
  | nil => rfl
  | cons p ps1 =>
    generalize hps : p :: ps1 ++ ps2 = ps at h
    cases h with
    | last => simp_all
    | cons piece h =>
      obtain ⟨rfl, hSplit⟩ := List.cons.inj hps
      cases fragment <;> exact h.assemble_init_rest rfl hSplit.symm hne piece records

end Assembling

variable [Crc32c]

namespace Piece

def bytes (p : Piece) : Bytes := encodePiece p.1 p.2

@[simp] theorem length_bytes (p : Piece) : p.bytes.length = headerSize + p.2.length := by
  simp [bytes, encodePiece, headerSize]
  omega

end Piece

/-- Appending the pieces `ps`, and zeros where a header has no room, to `B0` gives `B`. -/
inductive Written (B0 : Bytes) : List Piece → Bytes → Prop
  | refl : Written B0 [] B0
  | piece {ps : List Piece} {B : Bytes} {p : Piece} :
      Written B0 ps B → Fits B.length p → Written B0 (ps ++ [p]) (B ++ p.bytes)
  | pad {ps : List Piece} {B : Bytes} :
      Written B0 ps B → InTrailer B.length → Written B0 ps (B ++ [0])

/-- Appending the pieces `ps` to `B0` gives `B`, which ends where the last of them does. -/
def Ended (B0 : Bytes) (ps : List Piece) (B : Bytes) : Prop :=
  ∃ ps1 p B1, ps = ps1 ++ [p] ∧ Written B0 ps1 B1 ∧ Fits B1.length p ∧ B = B1 ++ p.bytes

/-- `T` is `B0` with the pieces `ps` and perhaps a cut piece after them. -/
def Torn (B0 : Bytes) (ps : List Piece) (T : Bytes) : Prop :=
  ∃ B p m, Written B0 ps B ∧ Fits B.length p ∧ m < p.bytes.length ∧ T = B ++ p.bytes.take m

variable {B0 B B' T : Bytes} {ps ps' : List Piece} {p : Piece} {s : Assembly}

theorem Written.trans (h : Written B0 ps B) (h' : Written B ps' B') :
    Written B0 (ps ++ ps') B' := by
  induction h' with
  | refl => simpa using h
  | piece _ hFit ih => simpa using ih.piece hFit
  | pad _ hIn ih => exact ih.pad hIn

theorem Ended.written (h : Ended B0 ps B) : Written B0 ps B := by
  obtain ⟨ps1, p, B1, rfl, hW, hFit, rfl⟩ := h
  exact hW.piece hFit

theorem Written.trans_ended (h : Written B0 ps B) (h' : Ended B ps' B') :
    Ended B0 (ps ++ ps') B' := by
  obtain ⟨ps1, p, B1, rfl, hW, hFit, rfl⟩ := h'
  exact ⟨ps ++ ps1, p, B1, (List.append_assoc _ _ _).symm, h.trans hW, hFit, rfl⟩

theorem Written.isPrefix (h : Written B0 ps B) : B0 <+: B := by
  induction h with
  | refl => exact List.prefix_rfl
  | piece _ _ ih => exact ih.trans (List.prefix_append _ _)
  | pad _ _ ih => exact ih.trans (List.prefix_append _ _)

/-- Zeros that stay in a trailer. -/
theorem Written.pads (h : Written B0 ps B) {k : Nat} (hIn : InTrailer B.length)
    (hk : k ≤ blockSize - B.length % blockSize) : Written B0 ps (B ++ List.replicate k 0) := by
  induction k with
  | zero => simpa using h
  | succ k ih =>
    rw [List.replicate_succ', ← List.append_assoc]
    refine (ih (by omega)).pad ?_
    unfold InTrailer blockSize headerSize at *
    rw [List.length_append, List.length_replicate]
    omega

/-- Every cut of a log past `B0` keeps some of its pieces, whole, and perhaps a cut one. -/
theorem Written.take (h : Written B0 ps B) {n : Nat} (hn : B0.length ≤ n) :
    ∃ ps1 ps2, ps = ps1 ++ ps2 ∧
      (Written B0 ps1 (B.take n) ∨ Torn B0 ps1 (B.take n) ∧ ps2 ≠ []) := by
  induction h with
  | refl => exact ⟨[], [], rfl, .inl (by rw [List.take_of_length_le hn]; exact .refl)⟩
  | @piece ps B p hW hFit ih =>
    by_cases hle : n ≤ B.length
    · obtain ⟨ps1, ps2, rfl, h⟩ := ih
      refine ⟨ps1, ps2 ++ [p], by simp, ?_⟩
      rw [List.take_append_of_le_length hle]
      exact h.imp id fun h => ⟨h.1, by simp⟩
    · by_cases hall : (B ++ p.bytes).length ≤ n
      · exact ⟨ps ++ [p], [], by simp,
          .inl (by rw [List.take_of_length_le hall]; exact hW.piece hFit)⟩
      · refine ⟨ps, [p], rfl, .inr ⟨⟨B, p, n - B.length, hW, hFit, ?_, ?_⟩, by simp⟩⟩
        · rw [List.length_append] at hall
          omega
        · rw [List.take_append, List.take_of_length_le (by omega)]
  | @pad ps B hW hIn ih =>
    by_cases hle : n ≤ B.length
    · rw [List.take_append_of_le_length hle]
      exact ih
    · refine ⟨ps, [], by simp, .inl ?_⟩
      rw [List.take_of_length_le (by simp; omega)]
      exact hW.pad hIn

section Reading

variable {bytes R : Bytes} {pos n fuel fuel' : Nat}

theorem readStep_gt {s' : Assembly} {pos' : Nat} (h : readStep bytes pos s = some (pos', s')) :
    pos < pos' := by
  have hNext : pos < pos / blockSize * blockSize + blockSize := by
    unfold blockSize
    omega
  simp only [readStep] at h
  split at h
  · split at h
    · simp only [Option.some.injEq, Prod.mk.injEq] at h
      omega
    · split at h
      · simp only [Option.some.injEq, Prod.mk.injEq] at h
        omega
      · split at h
        · contradiction
        · split at h
          · contradiction
          · split at h
            · simp only [Option.some.injEq, Prod.mk.injEq, headerSize] at h
              omega
            · contradiction
  · contradiction

theorem readStep_end (h : bytes.length < pos + headerSize) : readStep bytes pos s = none := by
  rw [readStep, if_neg (by omega)]

/-- Past the end of the log the loop has stopped, so more turns change nothing. -/
theorem readRecordsLoop_fuel (h : bytes.length < pos + fuel) (h' : bytes.length < pos + fuel') :
    readRecordsLoop bytes fuel pos s = readRecordsLoop bytes fuel' pos s := by
  induction fuel generalizing fuel' pos s with
  | zero =>
    cases fuel' with
    | zero => rfl
    | succ fuel' =>
      rw [readRecordsLoop, readRecordsLoop, readStep_end (by unfold headerSize; omega)]
  | succ fuel ih =>
    cases fuel' with
    | zero => rw [readRecordsLoop, readRecordsLoop, readStep_end (by unfold headerSize; omega)]
    | succ fuel' =>
      rw [readRecordsLoop, readRecordsLoop]
      cases hStep : readStep bytes pos s with
      | none => rfl
      | some next =>
        have := readStep_gt hStep
        exact ih (by omega) (by omega)

/-- The rest of the reading from `pos` on. -/
def scan (bytes : Bytes) (pos : Nat) (s : Assembly) : List Bytes :=
  readRecordsLoop bytes (bytes.length + 1) pos s

theorem scan_step {s' : Assembly} {pos' : Nat} (h : readStep bytes pos s = some (pos', s')) :
    scan bytes pos s = scan bytes pos' s' := by
  have := readStep_gt h
  rw [scan, readRecordsLoop, h]
  exact readRecordsLoop_fuel (by omega) (by omega)

theorem scan_stop (h : readStep bytes pos s = none) : scan bytes pos s = s.2 := by
  rw [scan, readRecordsLoop, h]

/-- In a trailer the reader goes on to the next block. -/
theorem readStep_trailer (hIn : InTrailer pos) (hLen : pos + headerSize ≤ bytes.length) :
    readStep bytes pos s = some (pos / blockSize * blockSize + blockSize, s) := by
  rw [readStep, if_pos hLen]
  refine if_pos ?_
  unfold InTrailer blockSize headerSize at *
  omega

theorem Piece.header_eq (p : Piece) (R : Bytes) :
    (p.bytes ++ R).take headerSize =
      toLeBytes 4 (crcOf p.1 p.2).toNat ++ toLeBytes 2 (asU16 p.2.length) ++ [p.1.toU8] := by
  rw [Piece.bytes, encodePiece,
    show ∀ (a b c : Bytes) (x : UInt8), a ++ b ++ x :: c ++ R = (a ++ b ++ [x]) ++ (c ++ R) by simp]
  exact List.take_left' (by simp [headerSize])

theorem decodeHeader_piece (p : Piece) (hLen : p.2.length < 2 ^ 16) :
    decodeHeader (toLeBytes 4 (crcOf p.1 p.2).toNat ++ toLeBytes 2 (asU16 p.2.length) ++
      [p.1.toU8]) =
      .ok { checksum := crcOf p.1 p.2, length := p.2.length, rtype := p.1 } := by
  have hCrc : fromLeBytes (toLeBytes 4 (crcOf p.1 p.2).toNat) = (crcOf p.1 p.2).toNat :=
    fromLeBytes_toLeBytes_of_lt (UInt32.toNat_lt _)
  have hLength : fromLeBytes (toLeBytes 2 (asU16 p.2.length)) = p.2.length := by
    rw [asU16_of_lt hLen]
    exact fromLeBytes_toLeBytes_of_lt hLen
  have hType : (toLeBytes 4 (crcOf p.1 p.2).toNat ++ toLeBytes 2 (asU16 p.2.length) ++
      [p.1.toU8]).getD 6 0 = p.1.toU8 := by
    rw [List.getD_append_right _ _ _ _ (by simp)]
    simp
  rw [decodeHeader, hType, RecordType.fromU8_toU8]
  simp only
  rw [List.append_assoc, List.take_left' (toLeBytes_length 4 _),
    List.drop_left' (toLeBytes_length 4 _), List.take_left' (toLeBytes_length 2 _),
    hCrc, hLength, UInt32.ofNat_toNat]

theorem Piece.drop_header (p : Piece) (R : Bytes) :
    (p.bytes ++ R).drop headerSize = p.2 ++ R := by
  rw [Piece.bytes, encodePiece,
    show ∀ (a b c : Bytes) (x : UInt8), a ++ b ++ x :: c ++ R = (a ++ b ++ [x]) ++ (c ++ R) by simp]
  exact List.drop_left' (by simp [headerSize])

theorem type_of_header (p : Piece) :
    (toLeBytes 4 (crcOf p.1 p.2).toNat ++ toLeBytes 2 (asU16 p.2.length) ++
      [p.1.toU8]).getD 6 0 ≠ 0 := by
  rw [List.getD_append_right _ _ _ _ (by simp)]
  simpa using RecordType.toU8_ne_zero p.1

/-- A whole piece is read. -/
theorem readStep_piece (hDrop : bytes.drop n = p.bytes ++ R) (hFit : Fits n p) :
    readStep bytes n s = some (n + headerSize + p.2.length, assembleStep s p.1 p.2) := by
  have hLen : bytes.length = n + (headerSize + p.2.length) + R.length := by
    have h := congrArg List.length hDrop
    simp only [List.length_drop, List.length_append, Piece.length_bytes, headerSize] at h ⊢
    omega
  have hData : (bytes.drop (n + headerSize)).take p.2.length = p.2 := by
    rw [← List.drop_drop, hDrop, Piece.drop_header, List.take_left' rfl]
  have hCrc : verifyChecksum p.1 p.2 (crcOf p.1 p.2) = true := by simp [verifyChecksum]
  rw [readStep, if_pos (by omega)]
  simp only
  rw [if_neg hFit.remaining, hDrop, Piece.header_eq, if_neg (type_of_header p),
    decodeHeader_piece p hFit.length_lt]
  simp only
  rw [if_neg (by omega), hData, if_pos hCrc]

/-- A reader stops at a cut piece. -/
theorem readStep_torn {m : Nat} (hDrop : bytes.drop n = p.bytes.take m) (hn : n ≤ bytes.length)
    (hm : m < p.bytes.length) (hFit : Fits n p) : readStep bytes n s = none := by
  have hLen : bytes.length = n + m := by
    have h := congrArg List.length hDrop
    rw [List.length_drop, List.length_take] at h
    omega
  rw [Piece.length_bytes] at hm
  by_cases hHead : n + headerSize ≤ bytes.length
  · have hHeader : (bytes.drop n).take headerSize = (p.bytes ++ []).take headerSize := by
      rw [hDrop, List.take_take, List.append_nil, Nat.min_eq_left (by omega)]
    rw [readStep, if_pos hHead]
    simp only
    rw [if_neg hFit.remaining, hHeader, Piece.header_eq, if_neg (type_of_header p),
      decodeHeader_piece p hFit.length_lt]
    simp only
    rw [if_pos (by omega)]
  · exact readStep_end (by omega)

/-- Where a piece can start, a reader reads on from there, or has stopped before it. -/
theorem At.scan (h : At n pos) (hIn : ¬InTrailer n) (bytes : Bytes) (s : Assembly) :
    scan bytes pos s = MulanLsm.scan bytes n s ∨
      bytes.length < n + headerSize ∧ MulanLsm.scan bytes pos s = s.2 := by
  rcases h with rfl | ⟨hlt, hTrailer, hle⟩
  · exact .inl rfl
  · have hn : n = pos / blockSize * blockSize + blockSize := by
      unfold InTrailer blockSize headerSize at *
      omega
    by_cases hLen : pos + headerSize ≤ bytes.length
    · left
      rw [scan_step (readStep_trailer hTrailer hLen), ← hn]
    · exact .inr ⟨by omega, scan_stop (readStep_end (by omega))⟩

/-- A reader assembles the whole pieces at the start of a log and reads on after them. -/
theorem Written.scan (h : Written [] ps B) (R : Bytes) (s : Assembly) :
    ∃ pos, At B.length pos ∧
      MulanLsm.scan (B ++ R) 0 s = MulanLsm.scan (B ++ R) pos (assemble s ps) := by
  induction h generalizing R with
  | refl => exact ⟨0, .inl rfl, rfl⟩
  | @piece ps B p _ hFit ih =>
    obtain ⟨pos, hAt, hScan⟩ := ih (p.bytes ++ R)
    have hDrop : (B ++ (p.bytes ++ R)).drop B.length = p.bytes ++ R := List.drop_left' rfl
    refine ⟨B.length + headerSize + p.2.length, .inl (by simp; omega), ?_⟩
    rw [List.append_assoc, hScan, assemble_append]
    rcases hAt.scan hFit.not_inTrailer (B ++ (p.bytes ++ R)) (assemble s ps) with h | ⟨h, -⟩
    · rw [h, scan_step (readStep_piece hDrop hFit)]
      rfl
    · simp at h
      omega
  | @pad ps B _ hIn ih =>
    obtain ⟨pos, hAt, hScan⟩ := ih ([0] ++ R)
    refine ⟨pos, by simpa using hAt.pad hIn, ?_⟩
    rw [List.append_assoc, hScan]

/-- Reading whole pieces gives what they assemble to. -/
theorem Written.readRecords (h : Written [] ps B) :
    readRecords B = (assemble (none, []) ps).2 := by
  obtain ⟨pos, hAt, hScan⟩ := h.scan [] (none, [])
  rw [List.append_nil] at hScan
  refine hScan.trans (scan_stop (readStep_end ?_))
  unfold At InTrailer blockSize headerSize at *
  omega

/-- A cut piece at the end of a log is not read. -/
theorem Torn.readRecords (h : Torn [] ps T) : readRecords T = (assemble (none, []) ps).2 := by
  obtain ⟨B, p, m, hW, hFit, hm, rfl⟩ := h
  obtain ⟨pos, hAt, hScan⟩ := hW.scan (p.bytes.take m) (none, [])
  refine hScan.trans ?_
  rcases hAt.scan hFit.not_inTrailer (B ++ p.bytes.take m) (assemble (none, []) ps) with
    h | ⟨-, h⟩
  · rw [h]
    exact scan_stop (readStep_torn (List.drop_left' rfl) (by simp) hm hFit)
  · exact h

end Reading

/-- A log of whole pieces that give `records`. -/
def IsLog (B : Bytes) (records : List Bytes) : Prop :=
  ∃ ps, Written [] ps B ∧ (assemble (none, []) ps).2 = records

section IsLog

variable {records : List Bytes} {data : Bytes} {ps1 ps2 : List Piece}

theorem IsLog.nil : IsLog [] [] := ⟨[], .refl, rfl⟩

theorem IsLog.readRecords (h : IsLog B records) : readRecords B = records := by
  obtain ⟨ps, hW, rfl⟩ := h
  exact hW.readRecords

theorem IsLog.append (h : IsLog B records) (hPieces : Pieces true data ps)
    (hW : Written B ps B') : IsLog B' (records ++ [data]) := by
  obtain ⟨ps0, hW0, rfl⟩ := h
  exact ⟨ps0 ++ ps, hW0.trans hW, by rw [assemble_append, hPieces.assemble]⟩

/-- Some first pieces of a record change nothing. -/
theorem IsLog.append_init (h : IsLog B records) (hPieces : Pieces true data (ps1 ++ ps2))
    (hne : ps2 ≠ []) (hW : Written B ps1 B') : IsLog B' records := by
  obtain ⟨ps0, hW0, rfl⟩ := h
  exact ⟨ps0 ++ ps1, hW0.trans hW, by rw [assemble_append, hPieces.assemble_init hne]⟩

/-- After a cut inside the last record the log reads as with or without that record. -/
theorem IsLog.take (h : IsLog B records) (hPieces : Pieces true data ps) (hW : Written B ps B')
    {n : Nat} (hn : B.length ≤ n) :
    (IsLog (B'.take n) records ∨ IsLog (B'.take n) (records ++ [data])) ∨
      MulanLsm.readRecords (B'.take n) = records := by
  obtain ⟨ps1, ps2, rfl, hTake | ⟨hTorn, hne⟩⟩ := hW.take hn
  · left
    by_cases hne : ps2 = []
    · subst hne
      exact .inr (h.append (by simpa using hPieces) hTake)
    · exact .inl (h.append_init hPieces hne hTake)
  · right
    obtain ⟨ps0, hW0, rfl⟩ := h
    obtain ⟨B1, p, m, hW1, hFit, hm, hT⟩ := hTorn
    have hTorn' : Torn [] (ps0 ++ ps1) (B'.take n) := ⟨B1, p, m, hW0.trans hW1, hFit, hm, hT⟩
    rw [hTorn'.readRecords, assemble_append, hPieces.assemble_init hne]

end IsLog

section Writing

variable {A : Outcome → Prop} {d : Dir} {w : WalWriter} {data : Bytes} {synced : Nat}

/-- A writer's offset is that of the end of the log in its last block. -/
def Aligned (w : WalWriter) (n : Nat) : Prop :=
  w.blockOffset ≤ blockSize ∧ w.blockOffset % blockSize = n % blockSize

/-- What a writer appends next after `B`, with the pieces `ps` still to come. -/
inductive Chunk (B : Bytes) (ps : List Piece) : Bytes → Prop
  | pad {k : Nat} : InTrailer B.length → k ≤ blockSize - B.length % blockSize →
      Chunk B ps (List.replicate k 0)
  | piece {p : Piece} {rest : List Piece} : ps = p :: rest → Fits B.length p → Chunk B ps p.bytes

/-- The appended part of a log, once `add_record` has returned. -/
def Appended (first : Bool) (data : Bytes) (w : WalWriter) (d : Dir) (B : Bytes) (synced : Nat)
    (w' : WalWriter) (d' : Dir) : Prop :=
  ∃ ps B', Pieces first data ps ∧ Ended B ps B' ∧ w'.name = w.name ∧ Aligned w' B'.length ∧
    d'.Has w.name B' synced ∧ d.Frame {w.name} d'

/-- The appended part of a log where `add_record` failed with `f`: some whole pieces, and the first
bytes of the write that failed, which the writer's offset does not count. -/
def Interrupted (A : Outcome → Prop) (first : Bool) (data : Bytes) (w : WalWriter) (d : Dir)
    (B : Bytes) (synced : Nat) (f : Fault) (w' : WalWriter) (d' : Dir) : Prop :=
  ∃ ps1 ps2 B1 chunk n, Pieces first data (ps1 ++ ps2) ∧ ps2 ≠ [] ∧ Written B ps1 B1 ∧
    w'.name = w.name ∧ Aligned w' B1.length ∧ Broken A n f ∧ Chunk B1 ps2 chunk ∧
    d'.Has w.name (B1 ++ chunk.take n) synced ∧ d.Frame {w.name} d'

/-- A piece in front of the rest of a record. -/
theorem Appended.cons {first : Bool} {piece rest B1 : Bytes} {w1 w' : WalWriter} {d1 d' : Dir}
    (hData : piece ++ rest = data) (hW : Written B [] B1)
    (hFit : Fits B1.length (WalWriter.pieceType first false, piece))
    (hName : w1.name = w.name) (hFrame : d.Frame {w.name} d1)
    (h : Appended false rest w1 d1 (B1 ++ Piece.bytes (WalWriter.pieceType first false, piece))
      synced w' d') : Appended first data w d B synced w' d' := by
  obtain ⟨ps, B', hPieces, hW', hName', hAl, hHas, hFrame'⟩ := h
  rw [hName] at hName' hHas hFrame'
  exact ⟨_ :: ps, B', hData ▸ .cons piece hPieces, (hW.piece hFit).trans_ended hW',
    hName', hAl, hHas, hFrame.trans hFrame'⟩

theorem Interrupted.cons {first : Bool} {piece rest B1 : Bytes} {w1 w' : WalWriter} {d1 d' : Dir}
    {f : Fault} (hData : piece ++ rest = data) (hW : Written B [] B1)
    (hFit : Fits B1.length (WalWriter.pieceType first false, piece))
    (hName : w1.name = w.name) (hFrame : d.Frame {w.name} d1)
    (h : Interrupted A false rest w1 d1
      (B1 ++ Piece.bytes (WalWriter.pieceType first false, piece)) synced f w' d') :
    Interrupted A first data w d B synced f w' d' := by
  obtain ⟨ps1, ps2, B2, chunk, n, hPieces, hne, hW', hName', hAl, hBroken, hChunk, hHas,
    hFrame'⟩ := h
  rw [hName] at hName' hHas hFrame'
  exact ⟨_ :: ps1, ps2, B2, chunk, n, hData ▸ .cons piece hPieces, hne, (hW.piece hFit).trans hW',
    hName', hAl, hBroken, hChunk, hHas, hFrame.trans hFrame'⟩

omit [Crc32c] in
/-- The first piece of a record, with the rest of the record in one more if it is not the whole. -/
theorem exists_pieces (first : Bool) (data : Bytes) (n : Nat) : ∃ ps, Pieces first data
    ((WalWriter.pieceType first (decide (min data.length n = data.length)),
      data.take (min data.length n)) :: ps) := by
  by_cases hAll : min data.length n = data.length
  · refine ⟨[], ?_⟩
    rw [decide_eq_true hAll, hAll, List.take_length]
    exact .last first data
  · refine ⟨[(WalWriter.pieceType false true, data.drop (min data.length n))], ?_⟩
    rw [decide_eq_false hAll]
    nth_rewrite 1 [← List.take_append_drop (min data.length n) data]
    exact .cons _ (.last false _)

theorem padTrailer_spec (hHas : d.Has w.name B synced) (hAl : Aligned w B.length) :
    Spec A WalWriter.padTrailer
      (fun _ w' d' => ∃ B', Written B [] B' ∧ w'.name = w.name ∧ Aligned w' B'.length ∧
        w'.blockOffset + headerSize ≤ blockSize ∧
        (w'.blockOffset = w.blockOffset ∨ w'.blockOffset = 0) ∧
        d'.Has w.name B' synced ∧ d.Frame {w.name} d')
      (fun f w' d' => ∃ chunk n, w' = w ∧ Broken A n f ∧ (∀ ps, Chunk B ps chunk) ∧
        d'.Has w.name (B ++ chunk.take n) synced ∧ d.Frame {w.name} d') w d := by
  have hSafe : WalWriter.blockOffsetSafe w.blockOffset = w.blockOffset :=
    if_neg (Nat.not_lt.mpr hAl.1)
  refine Spec.bind (Spec.self ?_)
  simp only [hSafe]
  split_ifs with hRoom hPad
  · -- Zeros fill the block.
    have hIn : InTrailer B.length := by
      obtain ⟨hle, hmod⟩ := hAl
      unfold InTrailer blockSize headerSize at *
      omega
    have hk : blockSize - w.blockOffset ≤ blockSize - B.length % blockSize := by
      obtain ⟨hle, hmod⟩ := hAl
      unfold blockSize at *
      omega
    refine Spec.bind (Spec.writeAll hHas (fun d' hHas' hFrame => Spec.update ?_)
      fun n f d' hBroken hHas' hFrame => ?_)
    · refine ⟨_, Written.refl.pads hIn hk, rfl, ?_, by simp [headerSize, blockSize], .inr rfl,
        hHas', hFrame⟩
      obtain ⟨hle, hmod⟩ := hAl
      refine ⟨Nat.zero_le _, ?_⟩
      simp only [List.length_append, List.length_replicate]
      unfold blockSize at *
      omega
    · exact ⟨_, n, rfl, hBroken, fun ps => .pad hIn hk, hHas', hFrame⟩
  · -- The block is full.
    have hFull : w.blockOffset = blockSize := by
      have := hAl.1
      omega
    have hAl' : Aligned { w with blockOffset := 0 } B.length :=
      ⟨Nat.zero_le _, by rw [← hAl.2, hFull]; simp⟩
    apply Spec.update
    exact ⟨B, .refl, rfl, hAl', by simp [headerSize, blockSize], .inr rfl, hHas,
      Dir.Frame.refl _ _⟩
  · refine Spec.pure ⟨B, .refl, rfl, hAl, ?_, .inl rfl, hHas, Dir.Frame.refl _ _⟩
    have := hAl.1
    omega

theorem addRecordLoop_spec {fuel : Nat} {first : Bool} (hHas : d.Has w.name B synced)
    (hAl : Aligned w B.length)
    (hFuel : data.length + 1 + (if w.blockOffset = blockSize - headerSize then 1 else 0) ≤ fuel) :
    Spec A (WalWriter.addRecordLoop fuel data first)
      (fun _ => Appended first data w d B synced)
      (fun f => Interrupted A first data w d B synced f) w d := by
  induction fuel generalizing data first w d B with
  | zero => omega
  | succ fuel ih =>
    rw [WalWriter.addRecordLoop]
    refine Spec.bind ((padTrailer_spec hHas hAl).mono ?_ ?_)
    · rintro - w1 d1 ⟨B1, hW1, hName1, hAl1, hRoom, hOff, hHas1, hFrame1⟩
      refine Spec.bind (Spec.self ?_)
      simp only
      set pieceLen := min data.length (blockSize - headerSize - w1.blockOffset) with hPieceLen
      set p : Piece := (WalWriter.pieceType first (decide (pieceLen = data.length)),
        data.take pieceLen) with hp
      have hTake : (data.take pieceLen).length = pieceLen := by
        rw [List.length_take]
        omega
      have hFit : Fits B1.length p := by
        have hMod : w1.blockOffset % blockSize = w1.blockOffset :=
          Nat.mod_eq_of_lt (by unfold blockSize headerSize at *; omega)
        unfold Fits
        rw [← hAl1.2, hMod, hp, hTake]
        omega
      rw [← hName1] at hHas1
      refine Spec.bind (Spec.writeAll hHas1 (fun d2 hHas2 hFrame2 => ?_)
        fun n f d2 hBroken hHas2 hFrame2 => ?_)
      · have hAl2 : Aligned { w1 with blockOffset := w1.blockOffset + (headerSize + pieceLen) }
            (B1 ++ p.bytes).length := by
          refine ⟨by simp only; omega, ?_⟩
          rw [List.length_append, Piece.length_bytes, hp, hTake]
          exact (show w1.blockOffset ≡ B1.length [MOD blockSize] from hAl1.2).add_right _
        rw [hName1] at hHas2 hFrame2
        refine Spec.bind (Spec.update ?_)
        split_ifs with hDone
        · have hAll : pieceLen = data.length := by
            have := List.drop_eq_nil_iff.mp hDone
            omega
          have hPieces : Pieces first data [p] := by
            rw [hp, hAll, decide_eq_true rfl, List.take_length]
            exact .last first data
          exact Spec.pure ⟨[p], _, hPieces, ⟨[], p, B1, rfl, hW1, hFit, rfl⟩, hName1, hAl2, hHas2,
            hFrame1.trans hFrame2⟩
        · have hMore : pieceLen < data.length := by
            by_contra h
            exact hDone (List.drop_eq_nil_iff.mpr (by omega))
          have hp' : p = (WalWriter.pieceType first false, data.take pieceLen) := by
            rw [hp, decide_eq_false (by omega)]
          have hFuel' : (data.drop pieceLen).length + 1 +
              (if w1.blockOffset + (headerSize + pieceLen) = blockSize - headerSize then 1 else 0)
              ≤ fuel := by
            rw [List.length_drop, if_neg (by unfold blockSize headerSize at *; omega)]
            split_ifs at hFuel <;> unfold blockSize headerSize at * <;> omega
          have hNext : Spec A (WalWriter.addRecordLoop fuel (data.drop pieceLen) false) _ _
              { w1 with blockOffset := w1.blockOffset + (headerSize + pieceLen) } d2 :=
            ih (by rw [hName1]; exact hHas2) hAl2 hFuel'
          rw [hp'] at hNext hFit
          have hSplit := List.take_append_drop pieceLen data
          refine hNext.mono ?_ ?_
          · exact fun _ w' d' h => h.cons hSplit hW1 hFit hName1 (hFrame1.trans hFrame2)
          · exact fun f w' d' h => h.cons hSplit hW1 hFit hName1 (hFrame1.trans hFrame2)
      · rw [hName1] at hHas2 hFrame2
        obtain ⟨ps, hPieces⟩ := exists_pieces first data (blockSize - headerSize - w1.blockOffset)
        exact ⟨[], p :: ps, B1, p.bytes, n, hPieces, by simp, hW1, hName1, hAl1, hBroken,
          .piece rfl hFit, hHas2, hFrame1.trans hFrame2⟩
    · rintro f w' d' ⟨chunk, n, rfl, hBroken, hChunk, hHas', hFrame⟩
      exact ⟨[], _, B, chunk, n, .last first data, by simp, .refl, rfl, hAl, hBroken, hChunk _,
        hHas', hFrame⟩

/-- `add_record` appends the pieces of a record, or fails after some of them. -/
theorem addRecord_spec (hHas : d.Has w.name B synced) (hAl : Aligned w B.length) :
    Spec A (WalWriter.addRecord data)
      (fun _ => Appended true data w d B synced)
      (fun f => Interrupted A true data w d B synced f) w d :=
  addRecordLoop_spec hHas hAl (by split_ifs <;> omega)

omit [Crc32c] in
/-- A log that is there is opened at its end. -/
theorem createAt_spec {σ : Type} {x : σ} {name : FileName} (hHas : d.Has name B synced) :
    Spec A (WalWriter.create name)
      (fun w y d' => y = x ∧ d' = d ∧ w = { name, blockOffset := B.length % blockSize })
      (fun f y d' => y = x ∧ d' = d ∧ Fails A f) x d := by
  have hFail : ∀ (n : Nat) (f : Fault), Broken A n f → x = x ∧ d = d ∧ Fails A f :=
    fun n _ h => ⟨rfl, rfl, n, h⟩
  have hMod : B.length % 2 ^ 64 % blockSize = B.length % blockSize := by
    unfold blockSize
    omega
  exact Spec.bind (Spec.openAppend hHas.mem (Spec.bind (Spec.fileLen hHas
    (Spec.pure ⟨rfl, rfl, by rw [hMod]⟩) hFail)) hFail)

omit [Crc32c] in
theorem aligned_create (name : FileName) (n : Nat) :
    Aligned { name, blockOffset := n % blockSize } n :=
  ⟨(Nat.mod_lt _ (by decide)).le, Nat.mod_mod _ _⟩

end Writing

end MulanLsm
