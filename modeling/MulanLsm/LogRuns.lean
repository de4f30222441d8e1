import MulanLsm.CommitLog

/-! Runs of a log's writer.  Records are appended, some appends may fail, and the log may be opened
again at its end.  Every cut of a log that was written without failures reads as the records that
end in front of the cut; and where failed writes leave no bytes behind, every record whose append
returned is read. -/

namespace MulanLsm

section Runs

variable [Crc32c]

/-- A step of a log's writer: the log is opened at its end, or a record is appended, with
file-system calls that go as `outcomes` says. -/
inductive LogStep
  | create
  | add (data : Bytes) (outcomes : List Outcome)

/-- A log's writer and its directory, and the records whose append has returned, each with the
length of the log then. -/
structure LogState where
  writer : WalWriter
  dir : Dir
  acked : List (Bytes × Nat)

/-- The bytes of a file, none if it is not there. -/
def Dir.bytes (d : Dir) (name : FileName) : Bytes := ((d.lookup name).map (·.bytes)).getD []

def LogState.bytes (s : LogState) : Bytes := s.dir.bytes s.writer.name

def LogStep.run : LogStep → LogState → LogState
  | create, s =>
    match (WalWriter.create s.writer.name : St Unit WalWriter) ((), ⟨s.dir, []⟩) with
    | .ok writer (_, w) => { s with writer, dir := w.dir }
    | .error _ (_, w) => { s with dir := w.dir }
  | add data outcomes, s =>
    match WalWriter.addRecord data (s.writer, ⟨s.dir, outcomes⟩) with
    | .ok _ (writer, w) =>
      { writer, dir := w.dir, acked := s.acked ++ [(data, (w.dir.bytes writer.name).length)] }
    | .error _ (writer, w) => { s with writer, dir := w.dir }

def logRun (steps : List LogStep) (s : LogState) : LogState :=
  steps.foldl (fun s step => step.run s) s

/-- The empty log `name`. -/
def emptyLog (name : FileName) (d : Dir) : LogState :=
  { writer := { name, blockOffset := 0 }, dir := d.insert name .empty, acked := [] }

/-- The steps that write records in sessions. -/
def sessionSteps (sessions : List (List Bytes)) : List LogStep :=
  sessions.flatMap fun records => .create :: records.map (.add · [])

omit [Crc32c] in
theorem Dir.Has.bytes {d : Dir} {name : FileName} {B : Bytes} {synced : Nat}
    (h : d.Has name B synced) : d.bytes name = B := by
  obtain ⟨f, hf, rfl, -⟩ := h
  simp [Dir.bytes, hf]

section Ends

/-- A log `B` of records, each with the length of the log up to its end. -/
inductive Recorded : List (Bytes × Nat) → Bytes → Prop
  | nil : Recorded [] []
  | record {rs : List (Bytes × Nat)} {B B' data : Bytes} {ps : List Piece} :
      Recorded rs B → Pieces true data ps → Ended B ps B' →
        Recorded (rs ++ [(data, B'.length)]) B'

variable {rs : List (Bytes × Nat)} {B B' data : Bytes} {ps : List Piece}

theorem Recorded.isLog (h : Recorded rs B) : IsLog B (rs.map Prod.fst) := by
  induction h with
  | nil => exact IsLog.nil
  | record _ hPieces hEnded ih =>
    rw [List.map_append]
    exact ih.append hPieces hEnded.written

theorem Recorded.end_le (h : Recorded rs B) : ∀ r ∈ rs, r.2 ≤ B.length := by
  induction h with
  | nil => simp
  | record _ _ hEnded ih =>
    intro r hr
    rcases List.mem_append.mp hr with hr | hr
    · exact (ih r hr).trans hEnded.written.isPrefix.length_le
    · rw [List.mem_singleton.mp hr]

/-- A cut in front of the end of the last record takes that record off. -/
theorem IsLog.take_ended {records : List Bytes} (h : IsLog B records)
    (hPieces : Pieces true data ps) (hEnded : Ended B ps B') {n : Nat} (hn : B.length ≤ n)
    (hCut : n < B'.length) : MulanLsm.readRecords (B'.take n) = records := by
  obtain ⟨ps1, p, B1, rfl, hW, hFit, rfl⟩ := hEnded
  obtain ⟨ps0, hW0, rfl⟩ := h
  -- The pieces that the cut leaves whole are some of the record's, but not the last.
  have hCutPieces : ∀ {ps1 ps2 : List Piece}, Pieces true data (ps1 ++ ps2) → ps2 ≠ [] →
      (assemble (none, []) (ps0 ++ ps1)).2 = (assemble (none, []) ps0).2 := by
    intro ps1 ps2 hPieces hne
    rw [assemble_append, hPieces.assemble_init hne]
  by_cases hle : n ≤ B1.length
  · rw [List.take_append_of_le_length hle]
    obtain ⟨ps2, ps3, rfl, hTake | ⟨⟨B2, q, m, hW2, hFit2, hm, hT⟩, -⟩⟩ := hW.take hn
    · rw [(hW0.trans hTake).readRecords]
      exact hCutPieces (by simpa using hPieces) (by simp)
    · have hTorn : Torn [] (ps0 ++ ps2) (B1.take n) := ⟨B2, q, m, hW0.trans hW2, hFit2, hm, hT⟩
      rw [hTorn.readRecords]
      exact hCutPieces (by simpa using hPieces) (by simp)
  · rw [List.length_append] at hCut
    have hTorn : Torn [] (ps0 ++ ps1) ((B1 ++ p.bytes).take n) := by
      refine ⟨B1, p, n - B1.length, hW0.trans hW, hFit, by omega, ?_⟩
      rw [List.take_append, List.take_of_length_le (by omega)]
    rw [hTorn.readRecords]
    exact hCutPieces hPieces (by simp)

/-- A cut log reads as the records that end in front of the cut. -/
theorem Recorded.readRecords_take (h : Recorded rs B) (n : Nat) :
    readRecords (B.take n) = (rs.takeWhile (·.2 ≤ n)).map Prod.fst := by
  induction h with
  | nil => simp [IsLog.nil.readRecords]
  | @record rs B B' data ps hRec hPieces hEnded ih =>
    have hPrefix := hEnded.written.isPrefix
    by_cases hle : n < B.length
    · have hTake : B'.take n = B.take n := by
        obtain ⟨R, rfl⟩ := hPrefix
        exact List.take_append_of_le_length hle.le
      have hLast : B.length ≤ B'.length := hPrefix.length_le
      rw [hTake, ih, List.takeWhile_append]
      split
      · next hAll =>
        rw [List.takeWhile_cons_of_neg (by simp; omega), List.append_nil]
        rw [(List.takeWhile_prefix _).eq_of_length hAll]
      · rfl
    · have hAll : ∀ r ∈ rs, decide (r.2 ≤ n) = true := fun r hr =>
        decide_eq_true ((hRec.end_le r hr).trans (not_lt.mp hle))
      rw [List.takeWhile_append_of_pos hAll, List.map_append]
      by_cases hCut : n < B'.length
      · rw [List.takeWhile_cons_of_neg (by simpa using hCut), List.map_nil, List.append_nil]
        exact hRec.isLog.take_ended hPieces hEnded (not_lt.mp hle) hCut
      · rw [List.take_of_length_le (not_lt.mp hCut),
          List.takeWhile_cons_of_pos (by simpa using not_lt.mp hCut)]
        exact (hRec.isLog.append hPieces hEnded.written).readRecords

end Ends

section Sessions

/-- The log of a state is `B`, with its records, and the writer is at its end. -/
structure LogState.InStep (name : FileName) (s : LogState) (B : Bytes) : Prop where
  named : s.writer.name = name
  has : ∃ synced, s.dir.Has name B synced
  aligned : Aligned s.writer B.length
  recorded : Recorded s.acked B

variable {name : FileName} {s : LogState} {B : Bytes}

theorem LogState.InStep.bytes (h : s.InStep name B) : s.bytes = B := by
  obtain ⟨synced, hHas⟩ := h.has
  rw [LogState.bytes, h.named, hHas.bytes]

theorem emptyLog_inStep (name : FileName) (d : Dir) : (emptyLog name d).InStep name [] :=
  ⟨rfl, ⟨0, _, AList.lookup_insert _, rfl, rfl⟩, ⟨Nat.zero_le _, rfl⟩, .nil⟩

theorem LogStep.create_run {synced : Nat} (hHas : s.dir.Has s.writer.name B synced) :
    LogStep.create.run s =
      { s with writer := { name := s.writer.name, blockOffset := B.length % blockSize } } := by
  obtain ⟨w, ⟨⟩, world, hRun, -, hDir, rfl⟩ :=
    ((createAt_spec (x := ()) hHas).quiet fun _ _ _ hE => hE.2.2).run
  rw [LogStep.run, hRun]
  simp only [hDir]

theorem LogState.InStep.create (h : s.InStep name B) :
    (LogStep.create.run s).InStep name B ∧ (LogStep.create.run s).acked = s.acked := by
  obtain ⟨synced, hHas⟩ := h.has
  rw [LogStep.create_run (h.named ▸ hHas)]
  exact ⟨⟨h.named, ⟨synced, hHas⟩, aligned_create _ _, h.recorded⟩, rfl⟩

/-- An append without failures returns, and its record is in the log. -/
theorem LogState.InStep.add (h : s.InStep name B) (data : Bytes) :
    ∃ B', ((LogStep.add data []).run s).InStep name B' ∧
      ((LogStep.add data []).run s).acked = s.acked ++ [(data, B'.length)] := by
  obtain ⟨synced, hHas⟩ := h.has
  rw [← h.named] at hHas
  have hSpec : Spec Quiet (WalWriter.addRecord data) _ Never s.writer s.dir :=
    (addRecord_spec (A := Quiet) hHas h.aligned).quiet
      fun f _ _ ⟨_, _, _, _, n, _, _, _, _, _, hBroken, _⟩ => ⟨n, hBroken⟩
  obtain ⟨⟨⟩, w, world, hRun, ps, B', hPieces, hEnded, hName, hAl, hHas', -⟩ := hSpec.run
  have hStep : (LogStep.add data []).run s =
      { writer := w, dir := world.dir, acked := s.acked ++ [(data, B'.length)] } := by
    have hLen : (world.dir.bytes w.name).length = B'.length := by rw [hName, hHas'.bytes]
    rw [LogStep.run, hRun]
    simp only [hLen]
  rw [hStep]
  exact ⟨B', ⟨hName.trans h.named, ⟨synced, h.named ▸ hHas'⟩, hAl,
    h.recorded.record hPieces hEnded⟩, rfl⟩

theorem logRun_append (as bs : List LogStep) (s : LogState) :
    logRun (as ++ bs) s = logRun bs (logRun as s) := List.foldl_append

theorem LogState.InStep.session (h : s.InStep name B) (records : List Bytes) :
    ∃ B', (logRun (records.map (.add · [])) s).InStep name B' ∧
      (logRun (records.map (.add · [])) s).acked.map Prod.fst =
        s.acked.map Prod.fst ++ records := by
  induction records generalizing s B with
  | nil => exact ⟨B, h, by simp [logRun]⟩
  | cons data records ih =>
    obtain ⟨B₁, h₁, hAcked⟩ := h.add data
    obtain ⟨B₂, h₂, hAcked₂⟩ := ih h₁
    refine ⟨B₂, h₂, hAcked₂.trans ?_⟩
    rw [hAcked]
    simp

theorem LogState.InStep.sessions (h : s.InStep name B) (sessions : List (List Bytes)) :
    ∃ B', (logRun (sessionSteps sessions) s).InStep name B' ∧
      (logRun (sessionSteps sessions) s).acked.map Prod.fst =
        s.acked.map Prod.fst ++ sessions.flatten := by
  induction sessions generalizing s B with
  | nil => exact ⟨B, h, by simp [logRun, sessionSteps]⟩
  | cons records sessions ih =>
    obtain ⟨h₁, hAcked₁⟩ := h.create
    obtain ⟨B₂, h₂, hAcked₂⟩ := h₁.session records
    obtain ⟨B₃, h₃, hAcked₃⟩ := ih h₂
    have hRun : logRun (sessionSteps (records :: sessions)) s =
        logRun (sessionSteps sessions)
          (logRun (records.map (.add · [])) (LogStep.create.run s)) := by
      rw [sessionSteps, List.flatMap_cons, List.cons_append]
      exact logRun_append _ _ _
    refine ⟨B₃, hRun ▸ h₃, ?_⟩
    rw [hRun, hAcked₃, hAcked₂, hAcked₁, List.flatten_cons, List.append_assoc]

/-- A log written in sessions without failures reads, after a cut at any byte, as the records that
end in front of the cut. -/
theorem cut_log_reads (name : FileName) (d : Dir) (sessions : List (List Bytes)) :
    let s := logRun (sessionSteps sessions) (emptyLog name d)
    s.acked.map Prod.fst = sessions.flatten ∧
      (∀ n, readRecords (s.bytes.take n) = (s.acked.takeWhile (·.2 ≤ n)).map Prod.fst) ∧
      readRecords s.bytes = sessions.flatten := by
  obtain ⟨B, h, hAcked⟩ := (emptyLog_inStep name d).sessions sessions
  refine ⟨hAcked, fun n => ?_, ?_⟩
  · rw [h.bytes]
    exact h.recorded.readRecords_take n
  · rw [h.bytes, h.recorded.isLog.readRecords, hAcked]
    rfl

end Sessions

section Failures

omit [Crc32c] in
theorem assembleStep_isPrefix (s : Assembly) (rtype : RecordType) (data : Bytes) :
    s.2 <+: (assembleStep s rtype data).2 := by
  obtain ⟨fragment, records⟩ := s
  cases fragment <;> cases rtype <;> simp [assembleStep]

theorem readStep_isPrefix {bytes : Bytes} {pos pos' : Nat} {s s' : Assembly}
    (h : readStep bytes pos s = some (pos', s')) : s.2 <+: s'.2 := by
  unfold readStep at h
  simp only at h
  split at h
  · split at h
    · obtain ⟨-, rfl⟩ := Prod.mk.inj (Option.some.inj h)
      exact List.prefix_rfl
    · split at h
      · obtain ⟨-, rfl⟩ := Prod.mk.inj (Option.some.inj h)
        exact List.prefix_rfl
      · split at h
        · contradiction
        · split at h
          · contradiction
          · split at h
            · obtain ⟨-, rfl⟩ := Prod.mk.inj (Option.some.inj h)
              exact assembleStep_isPrefix _ _ _
            · contradiction
  · contradiction

/-- A reader keeps the records that it has put together. -/
theorem readRecordsLoop_isPrefix (bytes : Bytes) (fuel pos : Nat) (s : Assembly) :
    s.2 <+: readRecordsLoop bytes fuel pos s := by
  induction fuel generalizing pos s with
  | zero => exact List.prefix_rfl
  | succ fuel ih =>
    rw [readRecordsLoop]
    cases hStep : readStep bytes pos s with
    | none => exact List.prefix_rfl
    | some next => exact (readStep_isPrefix hStep).trans (ih next.1 next.2)

theorem scan_isPrefix (bytes : Bytes) (pos : Nat) (s : Assembly) :
    s.2 <+: scan bytes pos s := readRecordsLoop_isPrefix _ _ _ _

variable {s : LogState} {name : FileName} {B : Bytes}

/-- The log of a state holds exactly the records whose append has returned. -/
def LogState.Exact (s : LogState) (name : FileName) (B : Bytes) : Prop :=
  LogAt s.writer s.dir name B (s.acked.map Prod.fst)

theorem LogState.Exact.add (h : s.Exact name B) (data : Bytes) {outcomes : List Outcome}
    (hClean : ∀ o ∈ outcomes, Clean o) :
    ∃ B', ((LogStep.add data outcomes).run s).Exact name B' := by
  rcases (h.addRecord_spec data).result hClean with
    ⟨⟨⟩, w, world, hRun, ⟨-, B', -, -, hAt, -⟩, -⟩ | ⟨f, w, world, hRun, hNot⟩
  · rw [LogStep.run, hRun]
    refine ⟨B', ?_⟩
    simpa [LogState.Exact] using hAt
  · rw [LogStep.run, hRun]
    obtain ⟨B', hAt, -⟩ := hNot.logAt
    exact ⟨B', hAt⟩

/-- What a reader finds in the first bytes of a file it also finds when more bytes follow. -/
theorem IsLog.isPrefix_readRecords {records : List Bytes} (h : IsLog B records) (R : Bytes) :
    records <+: MulanLsm.readRecords (B ++ R) := by
  obtain ⟨ps, hW, rfl⟩ := h
  obtain ⟨pos, -, hScan⟩ := hW.scan R (none, [])
  have hRead : MulanLsm.readRecords (B ++ R) = scan (B ++ R) 0 (none, []) := rfl
  rw [hRead, hScan]
  exact scan_isPrefix _ _ _

/-- The file `name` has the bytes `B` and perhaps more, and the writer writes to it. -/
def Extends (name : FileName) (B : Bytes) (w : WalWriter) (d : Dir) : Prop :=
  w.name = name ∧ ∃ R synced, d.Has name (B ++ R) synced

variable {A : Outcome → Prop} {w : WalWriter} {d : Dir}

omit [Crc32c] in
theorem Extends.writeAll (h : Extends name B w d) {bs : Bytes}
    {Q : Unit → WalWriter → Dir → Prop} {E : Fault → WalWriter → Dir → Prop}
    (hok : ∀ d', Extends name B w d' → Q () w d')
    (hfail : ∀ f d', Extends name B w d' → E f w d') :
    Spec A (MulanLsm.writeAll w.name bs) Q E w d := by
  obtain ⟨rfl, R, synced, hHas⟩ := h
  refine Spec.writeAll hHas (fun d' hHas' _ => ?_) fun n f d' _ hHas' _ => ?_
  · exact hok d' ⟨rfl, R ++ bs, synced, by rw [← List.append_assoc]; exact hHas'⟩
  · exact hfail f d' ⟨rfl, R ++ bs.take n, synced, by rw [← List.append_assoc]; exact hHas'⟩

omit [Crc32c] in
theorem Extends.padTrailer (h : Extends name B w d) :
    Spec A WalWriter.padTrailer (fun _ => Extends name B) (fun _ => Extends name B) w d := by
  refine Spec.bind (Spec.self ?_)
  dsimp only
  split
  · split
    · exact Spec.bind (h.writeAll (fun d' h' => Spec.update h') fun f d' h' => h')
    · exact Spec.update h
  · exact Spec.pure h

/-- However an append ends, the file keeps the bytes that it had. -/
theorem Extends.addRecord (h : Extends name B w d) (data : Bytes) :
    Spec A (WalWriter.addRecord data) (fun _ => Extends name B) (fun _ => Extends name B) w d := by
  have hLoop : ∀ (fuel : Nat) (data : Bytes) (first : Bool) (w : WalWriter) (d : Dir),
      Extends name B w d → Spec A (WalWriter.addRecordLoop fuel data first)
        (fun _ => Extends name B) (fun _ => Extends name B) w d := by
    intro fuel
    induction fuel with
    | zero => exact fun _ _ w d h => Spec.pure h
    | succ fuel ih =>
      intro data first w d h
      refine Spec.bind (h.padTrailer.mono (fun _ w' d' h' => ?_) fun _ _ _ h' => h')
      refine Spec.bind (Spec.self
        (Spec.bind (h'.writeAll (fun d'' h'' => ?_) fun f d'' h'' => h'')))
      refine Spec.bind (Spec.update ?_)
      dsimp only
      split
      · exact Spec.pure h''
      · exact ih _ _ _ _ h''
  exact hLoop _ data true w d h

theorem Extends.run (h : Extends name B s.writer s.dir) (data : Bytes) (outcomes : List Outcome) :
    Extends name B ((LogStep.add data outcomes).run s).writer
      ((LogStep.add data outcomes).run s).dir := by
  rcases (h.addRecord (A := fun _ => True) data).result (by simp) with
    ⟨_, w, world, hRun, h'⟩ | ⟨_, w, world, hRun, h'⟩
  · rw [LogStep.run, hRun]
    exact h'
  · rw [LogStep.run, hRun]
    exact h'

/-- The steps that append records with given outcomes. -/
def appendSteps (calls : List (Bytes × List Outcome)) : List LogStep :=
  calls.map fun c => .add c.1 c.2

theorem LogState.Exact.appends (h : s.Exact name B) {calls : List (Bytes × List Outcome)}
    (hClean : ∀ c ∈ calls, ∀ o ∈ c.2, Clean o) :
    ∃ B', (logRun (appendSteps calls) s).Exact name B' := by
  induction calls generalizing s B with
  | nil => exact ⟨B, h⟩
  | cons c calls ih =>
    obtain ⟨B', h'⟩ := h.add c.1 (hClean c List.mem_cons_self)
    exact ih h' fun c' hc' => hClean c' (List.mem_cons_of_mem _ hc')

theorem Extends.appends (h : Extends name B s.writer s.dir)
    (calls : List (Bytes × List Outcome)) :
    Extends name B (logRun (appendSteps calls) s).writer
      (logRun (appendSteps calls) s).dir := by
  induction calls generalizing s with
  | nil => exact h
  | cons c calls ih => exact ih (h.run c.1 c.2)

/-- A log from which appends fail reads as all records whose append returned, in their order, if
every write that fails leaves no byte in the file, up to the last append that returns. -/
theorem returned_records_read (name : FileName) (d : Dir)
    (calls last : List (Bytes × List Outcome)) (hClean : ∀ c ∈ calls, ∀ o ∈ c.2, Clean o)
    (hLast : (logRun (appendSteps (calls ++ last)) (emptyLog name d)).acked =
      (logRun (appendSteps calls) (emptyLog name d)).acked) :
    ((logRun (appendSteps (calls ++ last)) (emptyLog name d)).acked.map Prod.fst).Sublist
      (readRecords (logRun (appendSteps (calls ++ last)) (emptyLog name d)).bytes) := by
  have hStart : (emptyLog name d).Exact name [] :=
    ⟨rfl, ⟨0, _, AList.lookup_insert _, rfl, rfl⟩, IsLog.nil, Nat.zero_le _, rfl⟩
  obtain ⟨B, hExact⟩ := hStart.appends hClean
  obtain ⟨synced, hHas⟩ := hExact.has
  have hRun : logRun (appendSteps (calls ++ last)) (emptyLog name d) =
      logRun (appendSteps last) (logRun (appendSteps calls) (emptyLog name d)) := by
    rw [appendSteps, List.map_append]
    exact logRun_append _ _ _
  have hExt : Extends name B (logRun (appendSteps calls) (emptyLog name d)).writer
      (logRun (appendSteps calls) (emptyLog name d)).dir :=
    ⟨hExact.writer, [], synced, by rw [List.append_nil]; exact hHas⟩
  obtain ⟨hName, R, _, hHas'⟩ := hRun ▸ hExt.appends last
  rw [hLast, LogState.bytes, hName, hHas'.bytes]
  exact (hExact.isLog.isPrefix_readRecords R).sublist

end Failures

end Runs

/-- A record whose append returned is not read when a failed write before it left three bytes. -/
theorem returned_record_lost :
    let s := logRun (appendSteps [([1], [.fail 3]), ([2], [])]) (emptyLog (.log 0) ∅)
    s.acked.map Prod.fst = [[2]] ∧ ¬(s.acked.map Prod.fst).Sublist (readRecords s.bytes) := by
  decide +kernel

theorem returned_records_read_twice :
    let s := logRun (appendSteps ([([1], []), ([2], [.fail 0]), ([3], [])] ++ [([4], [.fail 5])]))
      (emptyLog (.log 0) ∅)
    s.acked.map Prod.fst = [[1], [3]] ∧ (s.acked.map Prod.fst).Sublist (readRecords s.bytes) := by
  have h := returned_records_read (.log 0) ∅ [([1], []), ([2], [.fail 0]), ([3], [])]
    [([4], [.fail 5])] (by simp [Clean]) (by decide +kernel)
  exact ⟨by decide +kernel, h⟩

end MulanLsm
