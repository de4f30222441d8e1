import MulanLsm.LogRuns

/-! Logs with a range of zeros in them, as a page leaves behind that never reached the disk.  A
reader stops at a piece that was changed, unless the piece's type byte is zero: then it goes on in
the next block.  What it reads is what the surviving pieces come to. -/

namespace MulanLsm

/-- The bytes from `a` up to `b` set to zero. -/
def zeroed (B : Bytes) (a b : Nat) : Bytes := B.mapIdx fun i x => if a ≤ i ∧ i < b then 0 else x

theorem zeroed_length (B : Bytes) (a b : Nat) : (zeroed B a b).length = B.length := by
  simp [zeroed]

/-- The end of the block that `n` is in. -/
def nextBlock (n : Nat) : Nat := n / blockSize * blockSize + blockSize

section Layouts

variable [Crc32c]

/-- A log `B` with its pieces, each with the position where it starts. -/
inductive Layout : List (Nat × Piece) → Bytes → Prop
  | nil : Layout [] []
  | piece {qs : List (Nat × Piece)} {B : Bytes} {p : Piece} :
      Layout qs B → Fits B.length p → Layout (qs ++ [(B.length, p)]) (B ++ p.bytes)
  | pad {qs : List (Nat × Piece)} {B : Bytes} :
      Layout qs B → InTrailer B.length → Layout qs (B ++ [0])

/-- The bytes at `q` are those of the piece. -/
def Intact (B : Bytes) (x : Nat × Piece) : Prop :=
  (B.drop x.1).take x.2.bytes.length = x.2.bytes

instance (B : Bytes) (x : Nat × Piece) : Decidable (Intact B x) := by
  unfold Intact; infer_instance

/-- The pieces that a reader of `B` reads, of those that were written.  It goes on in the next block
where a type byte is zero, and stops at any other piece that was changed; `skip` is the block that
it has left. -/
def survivors (B : Bytes) : Option Nat → List (Nat × Piece) → List Piece
  | _, [] => []
  | skip, (q, p) :: qs =>
    if skip = some (q / blockSize) then survivors B skip qs
    else if B.getD (q + 6) 0 = 0 then survivors B (some (q / blockSize)) qs
    else if Intact B (q, p) then p :: survivors B none qs
    else []

/-- The checksum refuses every piece that does not have the type and the data that were written. -/
def Rejects (B : Bytes) (qs : List (Nat × Piece)) : Prop :=
  ∀ x ∈ qs, ∀ h, decodeHeader ((B.drop x.1).take headerSize) = .ok h →
    (h.rtype, (B.drop (x.1 + headerSize)).take h.length) ≠ x.2 →
      verifyChecksum h.rtype ((B.drop (x.1 + headerSize)).take h.length) h.checksum = false

/-- From `n` on, a log of the length `L` has the pieces `qs`. -/
inductive LaidFrom (L : Nat) : Nat → List (Nat × Piece) → Prop
  | done {n : Nat} : n ≤ L → (L = n ∨ InTrailer n ∧ L ≤ nextBlock n) → LaidFrom L n []
  | piece {n q : Nat} {p : Piece} {qs : List (Nat × Piece)} :
      (q = n ∨ InTrailer n ∧ q = nextBlock n) → Fits q p → q + p.bytes.length ≤ L →
        LaidFrom L (q + p.bytes.length) qs → LaidFrom L n ((q, p) :: qs)

variable {L n : Nat} {qs : List (Nat × Piece)} {B : Bytes} {p : Piece}

theorem LaidFrom.snoc (h : LaidFrom L n qs) (hFit : Fits L p) :
    LaidFrom (L + p.bytes.length) n (qs ++ [(L, p)]) := by
  induction h with
  | @done n hle hEnd =>
    refine .piece (hEnd.imp id fun ⟨hIn, hL⟩ => ⟨hIn, ?_⟩) hFit le_rfl (.done le_rfl (.inl rfl))
    have := hFit.not_inTrailer
    unfold nextBlock InTrailer blockSize headerSize at *
    omega
  | piece hq hFit' hle _ ih => exact .piece hq hFit' (by omega) ih

theorem LaidFrom.pad (h : LaidFrom L n qs) (hIn : InTrailer L) : LaidFrom (L + 1) n qs := by
  induction h with
  | @done n hle hEnd =>
    refine .done (by omega) (.inr ?_)
    rcases hEnd with rfl | ⟨hIn', hL⟩
    · refine ⟨hIn, ?_⟩
      unfold nextBlock InTrailer blockSize headerSize at *
      omega
    · refine ⟨hIn', ?_⟩
      unfold nextBlock InTrailer blockSize headerSize at *
      omega
  | piece hq hFit' hle _ ih => exact .piece hq hFit' (by omega) ih

theorem Layout.laidFrom (h : Layout qs B) : LaidFrom B.length 0 qs := by
  induction h with
  | nil => exact .done le_rfl (.inl rfl)
  | piece _ hFit ih =>
    rw [List.length_append]
    exact ih.snoc hFit
  | pad _ hIn ih =>
    rw [List.length_append]
    exact ih.pad hIn

theorem Layout.written (h : Layout qs B) : Written [] (qs.map Prod.snd) B := by
  induction h with
  | nil => exact .refl
  | piece _ hFit ih =>
    rw [List.map_append]
    exact ih.piece hFit
  | pad _ hIn ih => exact ih.pad hIn

theorem Written.layout {ps : List Piece} (h : Written [] ps B) :
    ∃ qs, Layout qs B ∧ qs.map Prod.snd = ps := by
  induction h with
  | refl => exact ⟨[], .nil, rfl⟩
  | piece _ hFit ih =>
    obtain ⟨qs, hLayout, rfl⟩ := ih
    exact ⟨_, hLayout.piece hFit, by simp⟩
  | pad _ hIn ih =>
    obtain ⟨qs, hLayout, rfl⟩ := ih
    exact ⟨qs, hLayout.pad hIn, rfl⟩

end Layouts

section Surviving

variable [Crc32c] {L n q : Nat} {qs : List (Nat × Piece)} {B : Bytes} {p : Piece} {s : Assembly}

omit [Crc32c] in
theorem header_type (B : Bytes) (q : Nat) :
    ((B.drop q).take headerSize).getD 6 0 = B.getD (q + 6) 0 := by
  rw [List.getD_eq_getElem?_getD, List.getD_eq_getElem?_getD, List.getElem?_take,
    if_pos (by decide), List.getElem?_drop]

omit [Crc32c] in
/-- A header is the bytes of what it says. -/
theorem header_eq {H : Bytes} {h : RecordHeader} (hLen : H.length = headerSize)
    (hDecode : decodeHeader H = .ok h) :
    H = toLeBytes 4 h.checksum.toNat ++ toLeBytes 2 h.length ++ [h.rtype.toU8] := by
  have hType : ∀ (b : UInt8) (t : RecordType), RecordType.fromU8 b = some t → b = t.toU8 := by
    intro b t ht
    unfold RecordType.fromU8 at ht
    split at ht <;> first | contradiction | (cases ht; rfl)
  unfold decodeHeader at hDecode
  split at hDecode
  · cases hDecode
  · next t ht =>
    obtain rfl := Except.ok.inj hDecode
    have hCrcLt : fromLeBytes (H.take 4) < 2 ^ 32 := by
      have hLt := fromLeBytes_lt (H.take 4)
      have hFour : (H.take 4).length = 4 := by
        rw [List.length_take, hLen]
        rfl
      rw [hFour] at hLt
      exact hLt.trans_eq (by norm_num)
    have hCrc : toLeBytes 4 (UInt32.ofNat (fromLeBytes (H.take 4))).toNat = H.take 4 := by
      rw [UInt32.toNat_ofNat_of_lt' hCrcLt]
      simpa [hLen, headerSize] using toLeBytes_fromLeBytes (H.take 4)
    have hLength : toLeBytes 2 (fromLeBytes ((H.drop 4).take 2)) = (H.drop 4).take 2 := by
      simpa [hLen, headerSize] using toLeBytes_fromLeBytes ((H.drop 4).take 2)
    have hLast : H.drop 6 = [t.toU8] := by
      rw [List.drop_eq_getElem_cons (by rw [hLen]; decide),
        List.drop_of_length_le (by rw [hLen]; decide)]
      rw [← hType _ _ ht, List.getD_eq_getElem _ _ (by rw [hLen]; decide)]
    simp only
    rw [hCrc, hLength, ← hLast, List.append_assoc, ← List.drop_drop (i := 2) (j := 4),
      List.take_append_drop, List.take_append_drop]

/-- At a zero type byte a reader goes on in the next block. -/
theorem readStep_zero (hFit : Fits q p) (hle : q + p.bytes.length ≤ B.length)
    (hZero : B.getD (q + 6) 0 = 0) : readStep B q s = some (nextBlock q, s) := by
  rw [Piece.length_bytes] at hle
  rw [readStep, if_pos (by omega)]
  simp only
  rw [if_neg hFit.remaining, if_pos ((header_type B q).trans hZero)]
  rfl

theorem Intact.drop (h : Intact B (q, p)) : ∃ R, B.drop q = p.bytes ++ R :=
  ⟨(B.drop q).drop p.bytes.length, by
    conv_lhs => rw [← List.take_append_drop p.bytes.length (B.drop q), show
      (B.drop q).take p.bytes.length = p.bytes from h]⟩

/-- A reader stops at a piece that was changed but for its type byte. -/
theorem readStep_changed (hFit : Fits q p) (hle : q + p.bytes.length ≤ B.length)
    (hType : B.getD (q + 6) 0 ≠ 0) (hChanged : ¬Intact B (q, p)) (hRejects : Rejects B [(q, p)]) :
    readStep B q s = none := by
  rw [Piece.length_bytes] at hle
  rw [readStep, if_pos (by omega)]
  simp only
  rw [if_neg hFit.remaining, if_neg (by rw [header_type]; exact hType)]
  cases hDecode : decodeHeader ((B.drop q).take headerSize) with
  | error e => rfl
  | ok h =>
    simp only
    split
    · rfl
    · next hEnd =>
      refine if_neg ?_
      by_cases hSame : (h.rtype, (B.drop (q + headerSize)).take h.length) = p
      · -- Type and data are as written, so the checksum is not.
        intro hCrc
        apply hChanged
        have hRtype : h.rtype = p.1 := congrArg Prod.fst hSame
        have hData : (B.drop (q + headerSize)).take h.length = p.2 := congrArg Prod.snd hSame
        have hLen : h.length = p.2.length := by
          rw [← hData, List.length_take, List.length_drop]
          omega
        have hHeader := header_eq (by rw [List.length_take, List.length_drop]; omega) hDecode
        have hSum : h.checksum = crcOf p.1 p.2 := by
          rw [hRtype, hData] at hCrc
          exact (beq_iff_eq.mp hCrc).symm
        have hBytes : p.bytes = toLeBytes 4 h.checksum.toNat ++ toLeBytes 2 h.length ++
            [h.rtype.toU8] ++ p.2 := by
          rw [hSum, hLen, hRtype, Piece.bytes, encodePiece, asU16_of_lt hFit.length_lt]
          simp
        rw [Intact, Piece.length_bytes, List.take_add, hHeader, List.drop_drop, ← hLen, hData,
          hBytes]
      · rw [hRejects _ (List.mem_singleton_self _) h hDecode hSame]
        simp

theorem Rejects.mono {qs' : List (Nat × Piece)} (h : Rejects B qs) (hs : ∀ x ∈ qs', x ∈ qs) :
    Rejects B qs' := fun x hx => h x (hs x hx)

/-- A block that a reader has left hides no piece of another. -/
theorem survivors_entered {b : Nat} (h : q / blockSize ≠ b) :
    survivors B (some b) ((q, p) :: qs) = survivors B none ((q, p) :: qs) := by
  conv_lhs => rw [survivors]
  conv_rhs => rw [survivors]
  rw [if_neg fun he => h (Option.some.inj he).symm,
    if_neg (by simp : ¬(none : Option Nat) = some (q / blockSize))]

/-- How a reader goes on at a piece, if from its end and from the next block it reads what survives
of the others. -/
theorem scan_piece (hFit : Fits q p) (hle : q + p.bytes.length ≤ B.length)
    (hRejects : Rejects B ((q, p) :: qs))
    (hRead : ∀ s, MulanLsm.scan B (q + p.bytes.length) s = (assemble s (survivors B none qs)).2)
    (hSkip : MulanLsm.scan B (q / blockSize * blockSize + blockSize) s =
      (assemble s (survivors B (some (q / blockSize)) qs)).2) :
    MulanLsm.scan B q s = (assemble s (survivors B none ((q, p) :: qs))).2 := by
  rw [survivors, if_neg (by simp)]
  by_cases hZero : B.getD (q + 6) 0 = 0
  · rw [if_pos hZero, scan_step (readStep_zero hFit hle hZero)]
    exact hSkip
  · rw [if_neg hZero]
    by_cases hIntact : Intact B (q, p)
    · obtain ⟨R, hDrop⟩ := hIntact.drop
      rw [if_pos hIntact, scan_step (readStep_piece hDrop hFit), assemble_cons, ← hRead,
        Piece.length_bytes p, Nat.add_assoc]
    · rw [if_neg hIntact]
      exact scan_stop (readStep_changed hFit hle hZero hIntact (hRejects.mono (by simp)))

/-- From where a reader goes on, at `n` or past the block that it has left, it reads the pieces that
survive.  The induction is on the pieces that are left; each piece is reached in one of the two
ways. -/
theorem LaidFrom.scan (h : LaidFrom B.length n qs) (hRejects : Rejects B qs) :
    (∀ s, scan B n s = (assemble s (survivors B none qs)).2) ∧
      ∀ b s, b * blockSize ≤ n → n ≤ b * blockSize + blockSize →
        MulanLsm.scan B (b * blockSize + blockSize) s =
          (assemble s (survivors B (some b) qs)).2 := by
  induction h with
  | @done n hle hEnd =>
    constructor
    · intro s
      apply scan_stop
      rcases hEnd with rfl | ⟨hIn, hL⟩
      · exact readStep_end (by unfold headerSize; omega)
      · apply readStep_end
        unfold InTrailer nextBlock blockSize headerSize at *
        omega
    · intro b s hLow hHigh
      refine scan_stop (readStep_end ?_)
      rcases hEnd with rfl | ⟨hIn, hL⟩
      · unfold headerSize
        omega
      · unfold InTrailer nextBlock blockSize headerSize at *
        omega
  | @piece n q p qs hq hFit hle _ ih =>
    obtain ⟨ihRead, ihSkip⟩ := ih (hRejects.mono fun x hx => List.mem_cons_of_mem _ hx)
    have hLen := Piece.length_bytes p
    -- Reading on at the piece itself.
    have hAt : ∀ s, MulanLsm.scan B q s = (assemble s (survivors B none ((q, p) :: qs))).2 := by
      intro s
      refine scan_piece hFit hle hRejects ihRead (ihSkip (q / blockSize) s ?_ ?_)
      · exact (Nat.div_mul_le_self _ _).trans (Nat.le_add_right _ _)
      · unfold Fits blockSize at *
        omega
    constructor
    · intro s
      rw [← hAt]
      rcases hq with rfl | ⟨hIn, rfl⟩
      · rfl
      · exact scan_step (readStep_trailer hIn (by
          unfold InTrailer nextBlock blockSize headerSize at *
          omega))
    · intro b s hLow hHigh
      by_cases hBlock : q / blockSize = b
      · rw [survivors, if_pos (by rw [hBlock])]
        refine ihSkip b s ?_ ?_
        · unfold blockSize at *
          omega
        · unfold Fits blockSize at *
          omega
      · have hStart : q = b * blockSize + blockSize := by
          unfold Fits InTrailer nextBlock blockSize headerSize at *
          omega
        rw [survivors_entered hBlock, ← hAt, hStart]

/-- A reader reads the pieces that survive. -/
theorem Layout.readRecords {B' : Bytes} (h : Layout qs B) (hLen : B'.length = B.length)
    (hRejects : Rejects B' qs) :
    readRecords B' = (assemble (none, []) (survivors B' none qs)).2 :=
  ((hLen ▸ h.laidFrom : LaidFrom B'.length 0 qs).scan hRejects).1 (none, [])

end Surviving

section Prefixes

variable [Crc32c] {q : Nat} {qs : List (Nat × Piece)} {B : Bytes} {p : Piece}

/-- The pieces in front of the first one that was changed. -/
def unchanged (B : Bytes) (qs : List (Nat × Piece)) : List (Nat × Piece) :=
  qs.takeWhile fun x => Intact B x

/-- The pieces from the first one on that was changed. -/
def fromChanged (B : Bytes) (qs : List (Nat × Piece)) : List (Nat × Piece) :=
  qs.dropWhile fun x => Intact B x

/-- With the record that is open in front of the first changed piece, the pieces that survive after
it give none but the records that come next. -/
def Continues (B : Bytes) (qs : List (Nat × Piece)) : Prop :=
  let fragment := (assemble (none, []) ((unchanged B qs).map Prod.snd)).1
  (assemble (fragment, []) (survivors B none (fromChanged B qs))).2 <+:
    (assemble (fragment, []) ((fromChanged B qs).map Prod.snd)).2

theorem Intact.type_ne_zero (h : Intact B (q, p)) : B.getD (q + 6) 0 ≠ 0 := by
  obtain ⟨R, hDrop⟩ := h.drop
  rw [← header_type, hDrop, Piece.header_eq]
  exact type_of_header p

theorem survivors_eq (B : Bytes) (qs : List (Nat × Piece)) :
    survivors B none qs =
      (unchanged B qs).map Prod.snd ++ survivors B none (fromChanged B qs) := by
  induction qs with
  | nil => rfl
  | cons x qs ih =>
    obtain ⟨q, p⟩ := x
    by_cases hIntact : Intact B (q, p)
    · have hTake : unchanged B ((q, p) :: qs) = (q, p) :: unchanged B qs :=
        List.takeWhile_cons_of_pos (by simpa using hIntact)
      have hDrop : fromChanged B ((q, p) :: qs) = fromChanged B qs :=
        List.dropWhile_cons_of_pos (by simpa using hIntact)
      rw [hTake, hDrop, survivors, if_neg (by simp), if_neg hIntact.type_ne_zero,
        if_pos hIntact, ih]
      rfl
    · have hTake : unchanged B ((q, p) :: qs) = [] :=
        List.takeWhile_cons_of_neg (by simpa using hIntact)
      have hDrop : fromChanged B ((q, p) :: qs) = (q, p) :: qs :=
        List.dropWhile_cons_of_neg (by simpa using hIntact)
      rw [hTake, hDrop]
      rfl

omit [Crc32c] in
theorem assemble_records (fragment : Option Bytes) (records : List Bytes) (ps : List Piece) :
    (assemble (fragment, records) ps).2 = records ++ (assemble (fragment, []) ps).2 := by
  induction ps generalizing fragment records with
  | nil => simp
  | cons p ps ih =>
    obtain ⟨rtype, data⟩ := p
    rw [assemble_cons, assemble_cons]
    cases fragment <;> cases rtype <;> simp only [assembleStep, List.nil_append]
    all_goals rw [ih]
    all_goals try rw [ih _ [_]]
    all_goals simp

/-- With zeros in a range, a log reads as a prefix of its records if and only if the pieces that
survive after the first changed one give none but the records that come next. -/
theorem zeroed_log_reads (name : FileName) (d : Dir) (sessions : List (List Bytes)) (a b : Nat)
    (qs : List (Nat × Piece))
    (hLayout : Layout qs (logRun (sessionSteps sessions) (emptyLog name d)).bytes)
    (hRejects : Rejects (zeroed (logRun (sessionSteps sessions) (emptyLog name d)).bytes a b) qs) :
    readRecords (zeroed (logRun (sessionSteps sessions) (emptyLog name d)).bytes a b) <+:
        sessions.flatten ↔
      Continues (zeroed (logRun (sessionSteps sessions) (emptyLog name d)).bytes a b) qs := by
  obtain ⟨B, hStep, hAcked⟩ := (emptyLog_inStep name d).sessions sessions
  rw [hStep.bytes] at hLayout hRejects ⊢
  have hRecords : sessions.flatten = (assemble (none, []) (qs.map Prod.snd)).2 := by
    rw [← hLayout.written.readRecords, hStep.recorded.isLog.readRecords, hAcked]
    rfl
  have hSplit : qs.map Prod.snd = (unchanged (zeroed B a b) qs).map Prod.snd ++
      (fromChanged (zeroed B a b) qs).map Prod.snd := by
    rw [← List.map_append]
    exact congrArg _ (List.takeWhile_append_dropWhile).symm
  rw [hLayout.readRecords (zeroed_length B a b) hRejects, hRecords, survivors_eq, hSplit,
    assemble_append, assemble_append]
  generalize hBefore : assemble (none, []) ((unchanged (zeroed B a b) qs).map Prod.snd) = before
  obtain ⟨fragment, records⟩ := before
  rw [assemble_records fragment records, assemble_records fragment records,
    List.prefix_append_right_inj, Continues, hBefore]

end Prefixes

section Skipping

variable [Crc32c] {d : Dir} {w : WalWriter} {B A C : Bytes} {synced : Nat}

/-- A record that the block has room for is one piece. -/
theorem addRecord_full_spec (hHas : d.Has w.name B synced)
    (hRoom : w.blockOffset + headerSize + A.length ≤ blockSize) :
    Spec Quiet (WalWriter.addRecord A)
      (fun _ w' d' => w'.name = w.name ∧ d'.Has w.name (B ++ Piece.bytes (.full, A)) synced)
      Never w d := by
  have hSafe : WalWriter.blockOffsetSafe w.blockOffset = w.blockOffset := if_neg (by omega)
  have hLen : min A.length (blockSize - headerSize - w.blockOffset) = A.length := by omega
  rw [WalWriter.addRecord, WalWriter.addRecordLoop]
  refine Spec.bind (Spec.bind (Spec.self ?_))
  dsimp only
  rw [hSafe, if_neg (by omega)]
  refine Spec.pure (Spec.bind (Spec.self ?_))
  rw [hLen, decide_eq_true rfl, List.take_length, List.drop_length]
  refine Spec.bind (Spec.writeAll hHas (fun d' hHas' _ => ?_)
    fun n f d' hBroken _ _ => not_broken_quiet hBroken)
  refine Spec.bind (Spec.update ?_)
  rw [if_pos rfl]
  exact Spec.pure ⟨rfl, hHas'⟩

/-- In two sessions a record that fills the first block is written, and one in the second. -/
theorem two_blocks_bytes (name : FileName) (d : Dir) (hA : headerSize + A.length = blockSize)
    (hC : headerSize + C.length ≤ blockSize) :
    (logRun (sessionSteps [[A], [C]]) (emptyLog name d)).bytes =
      Piece.bytes (.full, A) ++ Piece.bytes (.full, C) := by
  have hAdd : ∀ {s : LogState} {B data : Bytes} {synced : Nat},
      s.dir.Has s.writer.name B synced → s.writer.blockOffset = 0 →
      headerSize + data.length ≤ blockSize → ∃ s', (LogStep.add data []).run s = s' ∧
        s'.writer.name = s.writer.name ∧
        s'.dir.Has s.writer.name (B ++ Piece.bytes (.full, data)) synced := by
    intro s B data synced hHas hOff hRoom
    obtain ⟨⟨⟩, w, world, hRun, hName, hHas'⟩ :=
      (addRecord_full_spec (A := data) hHas (by omega)).run
    rw [LogStep.run, hRun]
    exact ⟨_, rfl, hName, hHas'⟩
  have hEmpty : (emptyLog name d).dir.Has name [] 0 := ⟨_, AList.lookup_insert _, rfl, rfl⟩
  have h₁ : LogStep.create.run (emptyLog name d) = emptyLog name d := LogStep.create_run hEmpty
  obtain ⟨s₂, h₂, hName₂, hHas₂⟩ := hAdd hEmpty rfl hA.le
  have h₃ := LogStep.create_run (hName₂ ▸ hHas₂)
  have hOff : ([] ++ Piece.bytes (.full, A)).length % blockSize = 0 := by
    rw [List.nil_append, Piece.length_bytes, hA, Nat.mod_self]
  rw [hOff] at h₃
  obtain ⟨s₄, h₄, hName₄, hHas₄⟩ := hAdd (s := LogStep.create.run s₂) (B := [] ++ _)
    (by rw [h₃]; exact hName₂ ▸ hHas₂) (by rw [h₃]) hC
  have hRun : logRun (sessionSteps [[A], [C]]) (emptyLog name d) = s₄ := by
    simp only [sessionSteps, logRun, List.flatMap_cons, List.flatMap_nil, List.map_cons,
      List.map_nil, List.cons_append, List.nil_append, List.append_nil, List.foldl_cons,
      List.foldl_nil]
    rw [h₁, h₂, h₄]
  rw [hRun, LogState.bytes, hName₄, hHas₄.bytes]
  rfl

/-- The pieces of a record that fills the first block and of one in the second. -/
def twoBlocks (A C : Bytes) : List (Nat × Piece) := [(0, (.full, A)), (blockSize, (.full, C))]

theorem twoBlocks_layout (hA : headerSize + A.length = blockSize)
    (hC : headerSize + C.length ≤ blockSize) :
    Layout (twoBlocks A C) (Piece.bytes (.full, A) ++ Piece.bytes (.full, C)) := by
  have hLen : (Piece.bytes (.full, A)).length = blockSize := by rw [Piece.length_bytes, hA]
  have hFirst : Layout [(0, (.full, A))] (Piece.bytes (.full, A)) :=
    Layout.nil.piece (by simpa [Fits] using hA.le)
  have h := hFirst.piece (p := (.full, C)) (by
    rw [hLen, Fits, Nat.mod_self]
    simpa using hC)
  rwa [hLen] at h

/-- Where the type byte of the first record is zeroed, the second is read, and the first is not. -/
theorem two_blocks_skip (hA : headerSize + A.length = blockSize)
    (hC : headerSize + C.length ≤ blockSize) :
    let B' := zeroed (Piece.bytes (.full, A) ++ Piece.bytes (.full, C)) 6 7
    Rejects B' (twoBlocks A C) ∧ readRecords B' = [C] := by
  intro B'
  set B := Piece.bytes (.full, A) ++ Piece.bytes (.full, C) with hB
  have hLen : (Piece.bytes (.full, A)).length = blockSize := by rw [Piece.length_bytes, hA]
  have hZero : B'.getD 6 0 = 0 := by
    simp only [B', zeroed, List.getD_eq_getElem?_getD, List.getElem?_mapIdx]
    cases B[6]? <;> simp
  have hDrop : B'.drop blockSize = Piece.bytes (.full, C) ++ [] := by
    rw [List.append_nil, ← (List.drop_left' hLen : _ = Piece.bytes (.full, C)), ← hB]
    refine List.ext_getElem? fun i => ?_
    simp only [B', zeroed, List.getElem?_drop, List.getElem?_mapIdx]
    have hNot : ¬(6 ≤ blockSize + i ∧ blockSize + i < 7) := by
      unfold blockSize
      omega
    simp only [hNot, if_false, Option.map_id', hB]
  have hIntact : Intact B' (blockSize, (.full, C)) := by
    rw [Intact, hDrop, List.append_nil, List.take_length]
  have hRejects : Rejects B' (twoBlocks A C) := by
    intro x hx h hDecode hne
    rcases List.mem_cons.mp hx with rfl | hx
    · -- No header has the type zero.
      unfold decodeHeader at hDecode
      rw [header_type, Nat.zero_add, hZero] at hDecode
      contradiction
    · obtain rfl := List.mem_singleton.mp hx
      refine absurd ?_ hne
      rw [hDrop, Piece.header_eq, decodeHeader_piece _ (by
        unfold headerSize blockSize at hC
        simp only
        omega)] at hDecode
      obtain rfl := Except.ok.inj hDecode
      rw [← List.drop_drop, hDrop, Piece.drop_header, List.append_nil, List.take_length]
  refine ⟨hRejects, ?_⟩
  rw [(twoBlocks_layout hA hC).readRecords (zeroed_length B 6 7) hRejects, twoBlocks, survivors,
    if_neg (by simp), if_pos hZero, survivors, if_neg (by
      unfold blockSize
      decide), if_neg hIntact.type_ne_zero, if_pos hIntact]
  rfl

end Skipping

/-- A log in which the type byte of a record that fills a block was zeroed reads as the next record
alone. -/
theorem zeroed_log_skips_record :
    let B := (logRun (sessionSteps [[List.replicate 32761 1], [[5]]]) (emptyLog (.log 0) ∅)).bytes
    let qs := twoBlocks (List.replicate 32761 1) [5]
    Layout qs B ∧ Rejects (zeroed B 6 7) qs ∧
      ¬readRecords (zeroed B 6 7) <+: [List.replicate 32761 1, [5]] := by
  have hA : headerSize + (List.replicate 32761 (1 : UInt8)).length = blockSize := by
    rw [List.length_replicate]
    rfl
  have hC : headerSize + [(5 : UInt8)].length ≤ blockSize := by decide
  obtain ⟨hRejects, hRead⟩ := two_blocks_skip hA hC
  simp only [two_blocks_bytes (.log 0) ∅ hA hC]
  refine ⟨twoBlocks_layout hA hC, hRejects, ?_⟩
  rw [hRead]
  rintro ⟨records, h⟩
  have hLen := congrArg List.length (List.cons.inj h).1
  rw [List.length_replicate] at hLen
  exact absurd hLen (by decide)

/-- Zeros in the last of two records take it off. -/
theorem zeroed_log_reads_one :
    let B := (logRun (sessionSteps [[[1], [2]]]) (emptyLog (.log 0) ∅)).bytes
    readRecords (zeroed B 15 16) <+: [[1], [2]] ↔
      Continues (zeroed B 15 16) [(0, (.full, [1])), (8, (.full, [2]))] := by
  have hBytes : (logRun (sessionSteps [[[1], [2]]]) (emptyLog (.log 0) ∅)).bytes =
      Piece.bytes (.full, [1]) ++ Piece.bytes (.full, [2]) := by decide +kernel
  have hLayout : Layout [(0, (.full, [1])), (8, (.full, [2]))]
      (Piece.bytes (.full, [1]) ++ Piece.bytes (.full, [2])) :=
    (Layout.nil.piece (p := (.full, [1])) (by unfold Fits; decide)).piece
      (p := (.full, [2])) (by unfold Fits; decide)
  apply zeroed_log_reads (.log 0) ∅ [[[1], [2]]] 15 16 _ (hBytes ▸ hLayout)
  rw [hBytes]
  intro x hx h hDecode hne
  have hHeaders : ∀ p : Piece, p ∈ [(RecordType.full, [1]), (.full, [2])] → ∀ h,
      decodeHeader (toLeBytes 4 (crcOf p.1 p.2).toNat ++ toLeBytes 2 (asU16 p.2.length) ++
        [p.1.toU8]) = .ok h → h = { checksum := crcOf p.1 p.2, length := 1, rtype := .full } := by
    intro p hp h hh
    have hLen : p.2.length = 1 ∧ p.1 = .full := by
      rcases List.mem_cons.mp hp with rfl | hp
      · exact ⟨rfl, rfl⟩
      · rw [List.mem_singleton.mp hp]
        exact ⟨rfl, rfl⟩
    rw [decodeHeader_piece p (by omega), hLen.1, hLen.2] at hh
    rw [← Except.ok.inj hh, hLen.2]
  rcases List.mem_cons.mp hx with rfl | hx
  · obtain rfl := hHeaders (.full, [1]) (by simp) h
      (Eq.trans (congrArg _ (by decide +kernel)) hDecode)
    exact absurd (by decide +kernel) hne
  · obtain rfl := List.mem_singleton.mp hx
    obtain rfl := hHeaders (.full, [2]) (by simp) h
      (Eq.trans (congrArg _ (by decide +kernel)) hDecode)
    decide +kernel

end MulanLsm
