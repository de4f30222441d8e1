import Mathlib.Data.Fin.VecNotation
import MulanLsm.Compaction
import MulanLsm.Library.Versioned

/-! What a compaction writes.  The merged entries that it keeps are cut into files, each with the
metadata of its entries; a reader that is no older than the oldest snapshot finds in them what it
found in the input files. -/

namespace MulanLsm

/-- `f` is the metadata of a finished table file with the entries `es`. -/
structure Describes (d : Dir) (f : FileMetaData) (es : List Entry) : Prop where
  smallest : es.head?.map (·.1) = some f.smallest
  largest : es.getLast?.map (·.1) = some f.largest
  table : d.HasTable f.number es
  size : (d.lookup (.sst f.number)).map (·.bytes.length % 2 ^ 64) = some f.fileSize
  seeks : f.allowedSeeks = 0

theorem Describes.frame {d d' : Dir} {f : FileMetaData} {es : List Entry} {names : Set FileName}
    (h : Describes d f es) (hFrame : d.Frame names d') (hName : .sst f.number ∉ names) :
    Describes d' f es :=
  { h with table := h.table.frame hFrame hName, size := (hFrame _ hName).symm ▸ h.size }

theorem Describes.size_lt {d : Dir} {f : FileMetaData} {es : List Entry} (h : Describes d f es) :
    f.fileSize < 2 ^ 64 := by
  obtain ⟨file, -, hSize⟩ := Option.map_eq_some_iff.mp h.size
  rw [← hSize]
  exact Nat.mod_lt _ (by decide)

section Cutting

variable (c : Compaction) (version : Version) (oldest blockTarget bitsPerKey : Nat)

/-- The entries that a compaction keeps, behind an entry of `lastUserKey` at `lastSeq`. -/
def keep : Option Bytes → Nat → List Entry → List Entry
  | _, _, [] => []
  | lastUserKey, lastSeq, e :: es =>
    if dropEntry c version oldest lastUserKey lastSeq e then keep (some e.1.userKey) e.1.seq es
    else e :: keep (some e.1.userKey) e.1.seq es

/-- The output file being written: its builder, and its overlap with the grandparents, counted up
to the `idx`-th. -/
structure Pen where
  builder : TableBuilder
  idx : Nat
  overlap : Nat

/-- The pen after one more entry. -/
def Pen.write (p : Pen) (e : Entry) : Pen :=
  let s := countOverlap e.1.userKey (c.grandparents.drop p.idx) (p.idx, p.overlap)
  { builder := p.builder.added e, idx := s.1, overlap := s.2 }

/-- A pen for the file `number`. -/
def Pen.new (number : Nat) : Pen :=
  { builder := TableBuilder.withOptions number blockTarget bitsPerKey, idx := 0, overlap := 0 }

/-- The files that entries are cut into, by a pen that may hold some already; the next file gets the
number `next`.  The first entry of the first file does not count as overlap. -/
def cutFiles : Nat → Option Pen → List Entry → List (List Entry)
  | _, pen, [] => (pen.map (·.builder.entries)).toList
  | next, none, e :: es =>
    let pen := Pen.new blockTarget bitsPerKey next
    cutFiles (next + 1) (some { pen with builder := pen.builder.added e }) es
  | next, some pen, e :: es =>
    if shouldSplit pen.builder pen.overlap then
      pen.builder.entries ::
        cutFiles (next + 1) (some ((Pen.new blockTarget bitsPerKey next).write c e)) es
    else cutFiles next (some (pen.write c e)) es

end Cutting

/-- The files that are finished in the loop of a compaction which started with the number `start` in
the directory `d₀`. -/
structure Emitted (start : Nat) (d₀ : Dir) (s : Outputting) (d : Dir) (done : List (List Entry)) :
    Prop where
  files : List.Forall₂ (Describes d) s.newFiles done
  numbers : s.newFiles.map (·.number) = List.range' start done.length
  frame : d₀.Frame {name | ∃ n, start ≤ n ∧ name = .sst n} d

/-- The file that is being written there. -/
def Writing (start : Nat) (s : Outputting) (d : Dir) (done : List (List Entry)) :
    Option Pen → Prop
  | none => s.builder = none ∧ s.grandparentIdx = 0 ∧ s.idGen.next = start + done.length
  | some p => s.builder = some p.builder ∧ s.grandparentIdx = p.idx ∧
      s.grandparentOverlap = p.overlap ∧ s.fileNumber = some p.builder.number ∧
      p.builder.number = start + done.length ∧ s.idGen.next = start + done.length + 1 ∧
      .sst p.builder.number ∈ d ∧ (∃ k, s.smallest = some k ∧
        p.builder.entries.head?.map (·.1) = some k) ∧
      ∃ k, s.largest = some k ∧ p.builder.entries.getLast?.map (·.1) = some k

section Loop

variable {A : Outcome → Prop} {c : Compaction} {version : Version}
  {oldest blockTarget bitsPerKey start : Nat} {d₀ d : Dir} {s : Outputting}
  {done : List (List Entry)}

theorem Emitted.numbers_lt (h : Emitted start d₀ s d done) :
    ∀ f ∈ s.newFiles, start ≤ f.number ∧ f.number < start + done.length := by
  intro f hf
  have hMem : f.number ∈ List.range' start done.length := by
    rw [← h.numbers]
    exact List.mem_map_of_mem hf
  simpa using hMem

theorem Emitted.step {d' : Dir} {n : Nat} (h : Emitted start d₀ s d done) (s' : Outputting)
    (hFiles : s'.newFiles = s.newFiles) (hn : n = start + done.length)
    (hFrame : d.Frame {.sst n} d') : Emitted start d₀ s' d' done := by
  refine ⟨?_, hFiles ▸ h.numbers, h.frame.trans (hFrame.mono ?_)⟩
  · rw [hFiles]
    refine (List.forall₂_iff_zip.mpr ⟨h.files.length_eq, fun hMem => ?_⟩)
    refine ((List.forall₂_iff_zip.mp h.files).2 hMem).frame hFrame ?_
    have := h.numbers_lt _ (List.of_mem_zip hMem).1
    simp only [Set.mem_singleton_iff, FileName.sst.injEq]
    omega
  · rintro name rfl
    exact ⟨n, by omega, rfl⟩

theorem openOutput_spec (ik : InternalKey) :
    Spec A (openOutput blockTarget bitsPerKey ik)
      (fun _ s' d' => s' = { s with
          idGen := { next := s.idGen.next + 1 }, fileNumber := some s.idGen.next
          builder := some (TableBuilder.withOptions s.idGen.next blockTarget bitsPerKey)
          smallest := some ik, largest := some ik, grandparentOverlap := 0 } ∧
        .sst s.idGen.next ∈ d' ∧ d.Frame {.sst s.idGen.next} d')
      (fun f _ d' => Fails A f ∧ d' = d) s d := by
  refine Spec.bind (Spec.self
    (Spec.bind (Spec.update (Spec.bind (Spec.call ?_ fun n _ h => ⟨⟨n, h⟩, rfl⟩)))))
  exact Spec.update ⟨rfl, (AList.mem_insert _).mpr (.inl rfl),
    Dir.Frame.insert (Set.mem_singleton _) _ _⟩

theorem continueWithEntry_spec {b : TableBuilder} {n : Nat} (hb : s.builder = some b)
    (hn : b.number = n) (hMem : .sst n ∈ d) (e : Entry) :
    Spec A (continueWithEntry e)
      (fun _ s' d' => s' = { s with builder := some (b.added e), largest := some e.1 } ∧
        .sst n ∈ d' ∧ d.Frame {.sst n} d')
      (fun f _ d' => Fails A f ∧ d.Frame {.sst n} d') s d := by
  refine Spec.bind (Spec.self ?_)
  simp only [hb]
  refine Spec.bind (Spec.onField ((add_spec hn hMem e).mono ?_ fun _ _ _ h => h))
  rintro - y d' ⟨⟨-, rfl⟩, hMem', hFrame⟩
  exact Spec.update ⟨rfl, hMem', hFrame⟩

/-- The files from the number `start` on. -/
def sstsFrom (start : Nat) : Set FileName := {name | ∃ n, start ≤ n ∧ name = .sst n}

theorem finishCurrent_spec {p : Pen} (h : Emitted start d₀ s d done)
    (hPen : Writing start s d done (some p)) :
    Spec A finishCurrent
      (fun _ s' d' => (∃ f, s' = { s with builder := none, newFiles := s.newFiles ++ [f] }) ∧
        Emitted start d₀ s' d' (done ++ [p.builder.entries]))
      (fun f _ d' => Fails A f ∧ d₀.Frame (sstsFrom start) d') s d := by
  obtain ⟨hBuilder, -, -, hNumber, hn, -, hMem, ⟨k, hk, hHead⟩, l, hl, hLast⟩ := hPen
  have hSub : {FileName.sst p.builder.number} ⊆ sstsFrom start := by
    rintro name rfl
    exact ⟨_, by omega, rfl⟩
  refine Spec.bind (Spec.self ?_)
  simp only [hBuilder]
  refine Spec.bind (Spec.update (Spec.bind (Spec.runOn ((finish_spec rfl hMem).mono ?_
    fun _ _ _ hF => ⟨hF.1, h.frame.trans (hF.2.mono hSub)⟩))))
  rintro - - d' ⟨⟨f, hf, hTable, hSynced⟩, hFrame⟩
  simp only [hNumber]
  refine Spec.bind (Spec.fileLen ⟨f, hf, rfl, rfl⟩ ?_
    fun n _ hB => ⟨⟨n, hB⟩, h.frame.trans (hFrame.mono hSub)⟩)
  simp only [hk, hl]
  refine Spec.update ⟨⟨_, rfl⟩, ?_⟩
  have hStep := h.step _ rfl hn hFrame
  refine ⟨?_, ?_, hStep.frame⟩
  · refine List.rel_append hStep.files (List.Forall₂.cons ?_ List.Forall₂.nil)
    refine ⟨hHead, hLast, ⟨f, hf, hTable, hSynced⟩, ?_, rfl⟩
    exact congrArg (Option.map (·.bytes.length % 2 ^ 64)) hf
  · rw [List.map_append, h.numbers, List.length_append, List.length_singleton,
      List.range'_concat]
    simp [FileMetaData.new, hn]

/-- The state in which `e` goes to the file of the pen `p`, which may be a new one. -/
def Ready (start : Nat) (s : Outputting) (d : Dir) (done : List (List Entry)) (p : Pen)
    (e : Entry) : Prop :=
  s.builder = some p.builder ∧ s.grandparentIdx = p.idx ∧ s.grandparentOverlap = p.overlap ∧
    s.fileNumber = some p.builder.number ∧ p.builder.number = start + done.length ∧
    s.idGen.next = start + done.length + 1 ∧ .sst p.builder.number ∈ d ∧
    ∃ k, s.smallest = some k ∧ (p.builder.entries ++ [e]).head?.map (·.1) = some k

theorem continueWithEntry_writing {p : Pen} {e : Entry} (h : Emitted start d₀ s d done)
    (hReady : Ready start s d done p e) :
    Spec A (continueWithEntry e)
      (fun _ s' d' => Emitted start d₀ s' d' done ∧
        Writing start s' d' done (some { p with builder := p.builder.added e }) ∧
        s'.idGen = s.idGen ∧ s'.lastUserKey = s.lastUserKey ∧ s'.lastSeq = s.lastSeq)
      (fun f _ d' => Fails A f ∧ d₀.Frame (sstsFrom start) d') s d := by
  obtain ⟨hBuilder, hIdx, hOverlap, hFile, hNumber, hNext, hMem, k, hk, hHead⟩ := hReady
  have hSub : {FileName.sst p.builder.number} ⊆ sstsFrom start := by
    rintro name rfl
    exact ⟨_, by omega, rfl⟩
  refine (continueWithEntry_spec hBuilder rfl hMem e).mono ?_
    fun _ _ _ hF => ⟨hF.1, h.frame.trans (hF.2.mono hSub)⟩
  rintro - s' d' ⟨rfl, hMem', hFrame⟩
  refine ⟨h.step _ rfl hNumber hFrame, ⟨rfl, hIdx, hOverlap, ?_, ?_, hNext, ?_, ⟨k, hk, ?_⟩, e.1,
    rfl, ?_⟩, rfl, rfl, rfl⟩
  · simp only [hFile, added_number]
  · simp only [added_number, hNumber]
  · simp only [added_number, hMem']
  · simp only [added_entries, hHead]
  · simp

/-- After an entry was written: the files so far are those that its pen cuts off. -/
def Wrote (c : Compaction) (blockTarget bitsPerKey start : Nat) (d₀ : Dir) (s : Outputting)
    (done : List (List Entry)) (pen : Option Pen) (e : Entry) (s' : Outputting) (d' : Dir) : Prop :=
  ∃ done' pen', Emitted start d₀ s' d' done' ∧ Writing start s' d' done' (some pen') ∧
    s'.lastUserKey = s.lastUserKey ∧ s'.lastSeq = s.lastSeq ∧
    ∀ es, done' ++ cutFiles c blockTarget bitsPerKey s'.idGen.next (some pen') es =
      done ++ cutFiles c blockTarget bitsPerKey s.idGen.next pen (e :: es)

theorem outputEntry_spec {pen : Option Pen} (h : Emitted start d₀ s d done)
    (hPen : Writing start s d done pen) (e : Entry) :
    Spec A (outputEntry c blockTarget bitsPerKey e)
      (fun _ s' d' => Wrote c blockTarget bitsPerKey start d₀ s done pen e s' d')
      (fun f _ d' => Fails A f ∧ d₀.Frame (sstsFrom start) d') s d := by
  refine Spec.bind (Spec.self ?_)
  cases pen with
  | none =>
    obtain ⟨hBuilder, hIdx, hNext⟩ := hPen
    simp only [hBuilder]
    refine Spec.bind ((openOutput_spec e.1).mono ?_ fun _ _ d' hd => ⟨hd.1, hd.2 ▸ h.frame⟩)
    rintro - s₁ d₁ ⟨hs₁, hMem₁, hFrame₁⟩
    have hReady : Ready start s₁ d₁ done (Pen.new blockTarget bitsPerKey s.idGen.next) e := by
      subst hs₁
      exact ⟨rfl, hIdx, rfl, rfl, hNext, congrArg (· + 1) hNext, hMem₁, e.1, rfl, rfl⟩
    have hStep := h.step s₁ (by rw [hs₁]) hNext hFrame₁
    refine (continueWithEntry_writing hStep hReady).mono ?_ fun _ _ _ h => h
    rintro - s₂ d₂ ⟨hEmitted, hWriting, hGen, hKey, hSeq⟩
    exact ⟨done, _, hEmitted, hWriting, hKey.trans (by rw [hs₁]), hSeq.trans (by rw [hs₁]),
      fun es => by rw [hGen, hs₁]; rfl⟩
  | some p =>
    have hPen' := hPen
    obtain ⟨hBuilder, hIdx, hOverlap, hFile, hNumber, hNext, hMem, hSmallest, hLargest⟩ := hPen
    simp only [hBuilder, hOverlap]
    split
    · next hSplit =>
      refine Spec.bind ((finishCurrent_spec h hPen').mono ?_ fun _ _ _ h => h)
      rintro - s₁ d₁ ⟨⟨f, rfl⟩, h₁⟩
      refine Spec.bind ((openOutput_spec e.1).mono ?_ fun _ _ d' hd => ⟨hd.1, hd.2 ▸ h₁.frame⟩)
      rintro - s₂ d₂ ⟨hs₂, hMem₂, hFrame₂⟩
      have hNext' : s.idGen.next = start + (done ++ [p.builder.entries]).length := by
        rw [hNext, List.length_append, List.length_singleton, Nat.add_assoc]
      refine Spec.bind (Spec.update (Spec.bind (Spec.update_eq fun s₃ hs₃ => ?_)))
      subst hs₂
      have hReady : Ready start s₃ d₂ (done ++ [p.builder.entries])
          { (Pen.new blockTarget bitsPerKey s.idGen.next).write c e with
            builder := TableBuilder.withOptions s.idGen.next blockTarget bitsPerKey } e := by
        subst hs₃
        exact ⟨rfl, rfl, rfl, rfl, hNext', congrArg (· + 1) hNext', hMem₂, e.1, rfl, rfl⟩
      have hStep := h₁.step s₃ (by rw [hs₃]) hNext' hFrame₂
      refine (continueWithEntry_writing hStep hReady).mono ?_ fun _ _ _ h => h
      rintro - s₄ d₄ ⟨hEmitted, hWriting, hGen, hKey, hSeq⟩
      refine ⟨_, _, hEmitted, hWriting, hKey.trans (by rw [hs₃]),
        hSeq.trans (by rw [hs₃]), fun es => ?_⟩
      have hGen' : s₄.idGen.next = s.idGen.next + 1 := by rw [hGen, hs₃]
      rw [hGen', cutFiles, if_pos hSplit, List.append_assoc]
      rfl
    · next hSplit =>
      refine Spec.bind (Spec.update_eq fun s₃ hs₃ => ?_)
      have hReady : Ready start s₃ d done { p.write c e with builder := p.builder } e := by
        obtain ⟨k, hk, hHead⟩ := hSmallest
        subst hs₃
        refine ⟨hBuilder, ?_, ?_, hFile, hNumber, hNext, hMem, k, hk, ?_⟩
        · simp only [Pen.write, hIdx, hOverlap]
        · simp only [Pen.write, hIdx, hOverlap]
        · cases hE : p.builder.entries <;> simp_all
      have hStep : Emitted start d₀ s₃ d done := by
        subst hs₃
        exact ⟨h.files, h.numbers, h.frame⟩
      refine (continueWithEntry_writing hStep hReady).mono ?_ fun _ _ _ h => h
      rintro - s₄ d₄ ⟨hEmitted, hWriting, hGen, hKey, hSeq⟩
      refine ⟨_, _, hEmitted, hWriting, hKey.trans (by rw [hs₃]), hSeq.trans (by rw [hs₃]),
        fun es => ?_⟩
      rw [hGen, hs₃, cutFiles, if_neg hSplit]
      rfl

/-- The loop cuts the entries that are kept into files. -/
theorem compactLoop_spec (pen : Option Pen) (h : Emitted start d₀ s d done)
    (hPen : Writing start s d done pen) (es : List Entry) :
    Spec A (compactLoop c version oldest blockTarget bitsPerKey es)
      (fun _ s' d' => ∃ done' pen', Emitted start d₀ s' d' done' ∧ Writing start s' d' done' pen' ∧
        done' ++ (pen'.map (·.builder.entries)).toList =
          done ++ cutFiles c blockTarget bitsPerKey s.idGen.next pen
            (keep c version oldest s.lastUserKey s.lastSeq es))
      (fun f _ d' => Fails A f ∧ d₀.Frame (sstsFrom start) d') s d := by
  induction es generalizing s d done pen with
  | nil => exact Spec.pure ⟨done, pen, h, hPen, by rw [keep, cutFiles.eq_def]⟩
  | cons e es ih =>
    refine Spec.bind (Spec.self (Spec.bind (Spec.update_eq fun s₁ hs₁ => ?_)))
    have h₁ : Emitted start d₀ s₁ d done := by
      subst hs₁
      exact ⟨h.files, h.numbers, h.frame⟩
    have hPen₁ : Writing start s₁ d done pen := by
      subst hs₁
      cases pen <;> exact hPen
    have hGen : s₁.idGen = s.idGen := by rw [hs₁]
    have hLast : s₁.lastUserKey = some e.1.userKey ∧ s₁.lastSeq = e.1.seq := by
      rw [hs₁]
      exact ⟨rfl, rfl⟩
    rw [keep]
    split
    · next hDrop =>
      rw [← hLast.1, ← hLast.2, ← hGen]
      exact ih _ h₁ hPen₁
    · next hDrop =>
      rw [← hGen]
      refine Spec.bind ((outputEntry_spec h₁ hPen₁ e).mono ?_ fun _ _ _ h => h)
      rintro - s₂ d₂ ⟨done', pen', h₂, hPen₂, hKey, hSeq, hCut⟩
      refine (ih _ h₂ hPen₂).mono ?_ fun _ _ _ h => h
      rintro - s₃ d₃ ⟨done'', pen'', h₃, hPen₃, hFiles⟩
      refine ⟨done'', pen'', h₃, hPen₃, hFiles.trans ?_⟩
      rw [hCut, hKey, hSeq, hLast.1, hLast.2]

end Loop

section DoCompaction

variable {A : Outcome → Prop} {σ : Type} {x : σ} {d : Dir} {t : Nat → List Entry}

theorem openAll_spec {files : List FileMetaData}
    (h : ∀ f ∈ files, d.table f.number = some (t f.number)) :
    Spec A (openAll files) (fun r y d' => r = files.map (fun f => t f.number) ∧ y = x ∧ d' = d)
      (fun f y d' => y = x ∧ Fails A f ∧ d' = d) x d := by
  induction files with
  | nil => exact Spec.pure ⟨rfl, rfl, rfl⟩
  | cons f files ih =>
    obtain ⟨r, hr, hEntries⟩ := Dir.reader_of_table (h f List.mem_cons_self)
    refine Spec.bind ((open_spec hr).mono ?_ fun _ _ _ h => h)
    rintro _ y d' ⟨rfl, rfl, rfl⟩
    rw [List.map_cons, ← hEntries]
    refine Spec.bind ((ih fun g hg => h g (List.mem_cons_of_mem _ hg)).mono ?_ fun _ _ _ h => h)
    rintro r y d' ⟨rfl, rfl, rfl⟩
    exact Spec.pure ⟨rfl, rfl, rfl⟩

/-- The files that a compaction writes, from the number `next` on, when the tables of its input
files are `t`. -/
def outputFiles (Q : EntryQueue) (c : Compaction) (version : Version)
    (oldest blockTarget bitsPerKey next : Nat) (t : Nat → List Entry) : List (List Entry) :=
  cutFiles c blockTarget bitsPerKey next none
    (keep c version oldest none 0 (mergeTables Q (c.inputFiles.map fun f => t f.number)))

theorem doCompaction_spec {Q : EntryQueue} {c : Compaction} {version : Version}
    {oldest blockTarget bitsPerKey : Nat} {idGen : IdGenerator}
    (h : ∀ f ∈ c.inputFiles, d.table f.number = some (t f.number)) :
    Spec A (doCompaction Q c version oldest blockTarget bitsPerKey idGen)
      (fun r y d' => y = x ∧ d.Frame (sstsFrom idGen.next) d' ∧
        r.1.deletedFiles = c.inputFileNumbers ∧
        let out := outputFiles Q c version oldest blockTarget bitsPerKey idGen.next t
        List.Forall₂ (Describes d') r.1.newFiles out ∧
        r.1.newFiles.map (·.number) = List.range' idGen.next out.length ∧
        r.2.next = idGen.next + out.length)
      (fun f y d' => y = x ∧ Fails A f ∧ d.Frame (sstsFrom idGen.next) d') x d := by
  refine Spec.bind ((openAll_spec h).mono ?_ ?_)
  · rintro r y d' ⟨rfl, rfl, rfl⟩
    refine Spec.bind (Spec.runOn (Spec.bind ((compactLoop_spec none
      ⟨List.Forall₂.nil, rfl, Dir.Frame.refl _ _⟩ ⟨rfl, rfl, rfl⟩ _).mono ?_
      fun _ _ _ h => ⟨rfl, h⟩)))
    rintro - s d₁ ⟨done, pen, hEmitted, hWriting, hFiles⟩
    refine Spec.bind (Spec.self ?_)
    cases pen with
    | none =>
      rw [hWriting.1]
      have hOut : done = outputFiles Q c version oldest blockTarget bitsPerKey idGen.next t :=
        (List.append_nil done).symm.trans hFiles
      rw [← hOut]
      exact Spec.pure (Spec.pure ⟨rfl, hEmitted.frame, rfl, hEmitted.files, hEmitted.numbers,
        hWriting.2.2⟩)
    | some p =>
      rw [hWriting.1]
      refine (finishCurrent_spec hEmitted hWriting).mono ?_ fun _ _ _ h => ⟨rfl, h⟩
      rintro - s' d₂ ⟨⟨f, rfl⟩, h₂⟩
      have hOut : done ++ [p.builder.entries] =
          outputFiles Q c version oldest blockTarget bitsPerKey idGen.next t := hFiles
      rw [← hOut]
      refine Spec.pure ⟨rfl, h₂.frame, rfl, h₂.files, h₂.numbers, ?_⟩
      obtain ⟨-, -, -, -, -, hNext, -⟩ := hWriting
      rw [hNext, List.length_append, List.length_singleton, Nat.add_assoc]
  · rintro r y d' ⟨rfl, hFails, rfl⟩
    exact ⟨rfl, hFails, Dir.Frame.refl _ _⟩

end DoCompaction

section Keeping

variable {c : Compaction} {version : Version} {oldest blockTarget bitsPerKey next : Nat}
  {es : List Entry}

/-- The new files hold the entries that are kept, in order. -/
theorem flatten_cutFiles (next : Nat) (pen : Option Pen) (es : List Entry) :
    (cutFiles c blockTarget bitsPerKey next pen es).flatten =
      (pen.map (·.builder.entries)).getD [] ++ es := by
  induction es generalizing next pen with
  | nil =>
    rw [cutFiles]
    cases pen <;> simp
  | cons e es ih =>
    cases pen with
    | none =>
      rw [cutFiles, ih]
      simp [Pen.new, TableBuilder.withOptions]
    | some p =>
      rw [cutFiles]
      split
      · rw [List.flatten_cons, ih]
        simp [Pen.write, Pen.new, TableBuilder.withOptions]
      · rw [ih]
        simp [Pen.write]

theorem keep_sublist (last : Option Bytes) (lastSeq : Nat) (es : List Entry) :
    (keep c version oldest last lastSeq es).Sublist es := by
  induction es generalizing last lastSeq with
  | nil => exact List.Sublist.refl _
  | cons e es ih =>
    rw [keep]
    split
    · exact (ih _ _).cons e
    · exact (ih _ _).cons_cons e

/-- A deletion that is as old as the oldest snapshot, of a key that no deeper level has. -/
def Droppable (c : Compaction) (version : Version) (oldest : Nat) (e : Entry) : Prop :=
  e.1.vtype = .delete ∧ e.1.seq ≤ oldest ∧ c.isBaseLevelForUserKey version e.1.userKey

/-- No version of its key in `es` that is newer than `e` is as old as the oldest snapshot. -/
def Needed (oldest : Nat) (es : List Entry) (e : Entry) : Prop :=
  ∀ y ∈ es, y.1.userKey = e.1.userKey → e.1.seq < y.1.seq → oldest < y.1.seq

theorem dropEntry_some {p e : Entry} (h : KeyLt p.1 e.1) :
    dropEntry c version oldest (some p.1.userKey) p.1.seq e ↔
      ¬((p.1.userKey = e.1.userKey → e.1.seq < p.1.seq → oldest < p.1.seq) ∧
        ¬Droppable c version oldest e) := by
  have hSeq : p.1.userKey = e.1.userKey → e.1.seq < p.1.seq := fun hk =>
    (h.resolve_left fun h => absurd hk h.ne).2
  simp only [dropEntry, Droppable, Option.some.injEq, Bool.or_eq_true, Bool.and_eq_true,
    decide_eq_true_eq]
  constructor
  · rintro (⟨hk, hs⟩ | h) ⟨h1, h2⟩
    · exact absurd (h1 hk (hSeq hk)) (by omega)
    · exact h2 h
  · intro hn
    by_contra hc
    rw [not_or] at hc
    exact hn ⟨fun hk _ => by by_contra hle; exact hc.1 ⟨hk, by omega⟩, hc.2⟩

/-- Behind an entry `p`, the entries that are kept are those that are needed, but for deletions
that hide nothing. -/
theorem mem_keep_some {p : Entry} (h : Ascending (p :: es)) (x : Entry) :
    x ∈ keep c version oldest (some p.1.userKey) p.1.seq es ↔
      x ∈ es ∧ Needed oldest (p :: es) x ∧ ¬Droppable c version oldest x := by
  induction es generalizing p with
  | nil => simp [keep]
  | cons e es ih =>
    obtain ⟨hp, hes⟩ := List.pairwise_cons.mp h
    obtain ⟨he, hrest⟩ := List.pairwise_cons.mp hes
    have hpe : KeyLt p.1 e.1 := hp e List.mem_cons_self
    have hRest : ∀ x ∈ es, Needed oldest (p :: e :: es) x ↔ Needed oldest (e :: es) x := by
      intro x hx
      refine ⟨fun hn y hy => hn y (List.mem_cons_of_mem _ hy), fun hn y hy hk hs => ?_⟩
      rcases List.mem_cons.mp hy with rfl | hy
      · have hke : e.1.userKey = x.1.userKey :=
          le_antisymm (he x hx).userKey_le (hk ▸ hpe.userKey_le)
        have hse : x.1.seq < e.1.seq := ((he x hx).resolve_left fun h => absurd hke h.ne).2
        have hpe' : e.1.seq < y.1.seq :=
          (hpe.resolve_left fun h => absurd (hk.trans hke.symm) h.ne).2
        exact (hn e List.mem_cons_self hke hse).trans hpe'
      · exact hn y hy hk hs
    have hSelf : Needed oldest (p :: e :: es) e ↔
        (p.1.userKey = e.1.userKey → e.1.seq < p.1.seq → oldest < p.1.seq) := by
      refine ⟨fun hn => hn p List.mem_cons_self, fun hn y hy hk hs => ?_⟩
      rcases List.mem_cons.mp hy with rfl | hy
      · exact hn hk hs
      · rcases List.mem_cons.mp hy with rfl | hy
        · exact absurd hs (lt_irrefl _)
        · exact absurd hs (((he y hy).resolve_left fun h => absurd hk h.ne').2).not_gt
    have hne : ∀ x ∈ es, x ≠ e := by
      rintro x hx rfl
      exact KeyLt.irrefl _ (he x hx)
    rw [keep]
    split
    · next hDrop =>
      rw [dropEntry_some hpe] at hDrop
      rw [ih hes, List.mem_cons]
      constructor
      · rintro ⟨hx, hn, hd⟩
        exact ⟨.inr hx, (hRest x hx).mpr hn, hd⟩
      · rintro ⟨rfl | hx, hn, hd⟩
        · exact absurd ⟨hSelf.mp hn, hd⟩ hDrop
        · exact ⟨hx, (hRest x hx).mp hn, hd⟩
    · next hDrop =>
      rw [dropEntry_some hpe, not_not] at hDrop
      rw [List.mem_cons, ih hes, List.mem_cons]
      constructor
      · rintro (rfl | ⟨hx, hn, hd⟩)
        · exact ⟨.inl rfl, hSelf.mpr hDrop.1, hDrop.2⟩
        · exact ⟨.inr hx, (hRest x hx).mpr hn, hd⟩
      · rintro ⟨rfl | hx, hn, hd⟩
        · exact .inl rfl
        · exact .inr ⟨hx, (hRest x hx).mp hn, hd⟩

/-- A compaction keeps the entries that are needed, but for deletions that hide nothing. -/
theorem mem_keep (h : Ascending es) (x : Entry) :
    x ∈ keep c version oldest none 0 es ↔
      x ∈ es ∧ Needed oldest es x ∧ ¬Droppable c version oldest x := by
  cases es with
  | nil => simp [keep]
  | cons e es =>
    obtain ⟨he, -⟩ := List.pairwise_cons.mp h
    have hDrop : dropEntry c version oldest none 0 e ↔ Droppable c version oldest e := by
      simp [dropEntry, Droppable]
    have hSelf : Needed oldest (e :: es) e := by
      intro y hy hk hs
      rcases List.mem_cons.mp hy with rfl | hy
      · exact absurd hs (lt_irrefl _)
      · exact absurd hs (((he y hy).resolve_left fun h => absurd hk h.ne').2).not_gt
    rw [keep]
    split
    · next hd =>
      rw [hDrop] at hd
      rw [mem_keep_some h, List.mem_cons]
      constructor
      · rintro ⟨hx, hn⟩
        exact ⟨.inr hx, hn⟩
      · rintro ⟨rfl | hx, hn⟩
        · exact absurd hd hn.2
        · exact ⟨hx, hn⟩
    · next hd =>
      rw [hDrop] at hd
      rw [List.mem_cons, mem_keep_some h, List.mem_cons]
      constructor
      · rintro (rfl | ⟨hx, hn⟩)
        · exact ⟨.inl rfl, hSelf, hd⟩
        · exact ⟨.inr hx, hn⟩
      · rintro ⟨rfl | hx, hn⟩
        · exact .inl rfl
        · exact .inr ⟨hx, hn⟩

/-- A reader no older than the oldest snapshot finds the same among the entries that are kept, if
the rest of what it reads has no older version of a key whose deletions may be dropped. -/
theorem reads_keep (h : Ascending es) {R : Set Entry} {k : Bytes} {s : Nat} {r : Option Bytes}
    (hR : ∀ x ∈ es, c.isBaseLevelForUserKey version x.1.userKey → ∀ y ∈ R,
      y.1.userKey = x.1.userKey → x.1.seq < y.1.seq) (hs : oldest ≤ s) :
    Versioned.Reads (R ∪ versions es) k s r ↔
      Versioned.Reads (R ∪ versions (keep c version oldest none 0 es)) k s r := by
  refine Versioned.Reads.replace (fun x hx => (keep_sublist _ _ _).subset hx) ?_
  rintro x ⟨⟨hx | hx, hk, hxs⟩, hMax⟩
  · exact .inl (.inl hx)
  by_cases hNeeded : Needed oldest es x
  · by_cases hDrop : Droppable c version oldest x
    · -- The deletion and all that it hides are dropped.
      refine .inr ⟨by simp [Entry.value, hDrop.1], ?_⟩
      rintro y ⟨hy | hy, hyk, hys⟩
      · exact absurd (hR x hx hDrop.2.2 y hy (hyk.trans hk.symm))
          (hMax y ⟨.inl hy, hyk, hys⟩).not_gt
      · obtain ⟨hy, hyNeeded, hyDrop⟩ := (mem_keep h y).mp hy
        have hne : x ≠ y := by
          rintro rfl
          exact hyDrop hDrop
        have hlt : y.1.seq < x.1.seq := lt_of_le_of_ne (hMax y ⟨.inr hy, hyk, hys⟩)
          fun hse => hne (h.distinct x hx y hy (hk.trans hyk.symm) hse.symm)
        exact absurd (hyNeeded x hx (hk.trans hyk.symm) hlt) hDrop.2.1.not_gt
    · exact .inl (.inr ((mem_keep h x).mpr ⟨hx, hNeeded, hDrop⟩))
  · -- A newer version is visible as well.
    simp only [Needed, not_forall, not_lt] at hNeeded
    obtain ⟨y, hy, hyk, hlt, hle⟩ := hNeeded
    exact absurd hlt (hMax y ⟨.inr hy, hyk.trans hk, hle.trans hs⟩).not_gt

end Keeping

section Merging

variable {tables : List (List Entry)}

/-- Tables whose keys' versions have distinct sequence numbers are merged in ascending order. -/
theorem mergeTables_spec {Q : EntryQueue} (h : ∀ es ∈ tables, Ascending es)
    (hNodup : tables.flatten.Nodup)
    (hd : Versioned.Distinct (versions tables.flatten)) :
    (mergeTables Q tables).Perm tables.flatten ∧ Ascending (mergeTables Q tables) := by
  obtain ⟨hPerm, hSorted⟩ := Merge.Merging.drain_spec (Q := Q) internalKeyCmp_weak
    (fun es hes => (h es hes).imp fun {a b} hab =>
      decide_eq_false (by rw [internalKeyCmp_lt]; exact hab.asymm))
  refine ⟨hPerm, (hSorted.and (hPerm.nodup_iff.mpr hNodup)).imp_of_mem fun {a b} ha hb hab => ?_⟩
  have hba : ¬KeyLt b.1 a.1 := by
    rw [← internalKeyCmp_lt]
    exact of_decide_eq_false hab.1
  by_contra hlt
  obtain ⟨hk, hs⟩ := KeyLt.total hlt hba
  exact hab.2 (hd a (hPerm.mem_iff.mp ha) b (hPerm.mem_iff.mp hb) hk hs)

/-- Only one list has the entries of some tables in ascending order. -/
theorem mergeTables_eq {Q : EntryQueue} {es : List Entry} (h : ∀ t ∈ tables, Ascending t)
    (hPerm : es.Perm tables.flatten) (hes : Ascending es) : mergeTables Q tables = es := by
  obtain ⟨hMerged, hSorted⟩ := Merge.Merging.drain_spec (Q := Q) internalKeyCmp_weak
    (fun t ht => (h t ht).imp fun {a b} hab =>
      decide_eq_false (by rw [internalKeyCmp_lt]; exact hab.asymm))
  have hLe : (mergeTables Q tables).Pairwise fun a b => ¬KeyLt b.1 a.1 := by
    refine hSorted.imp fun {a b} hab => ?_
    rw [← internalKeyCmp_lt]
    exact of_decide_eq_false hab
  have hesLe : es.Pairwise fun a b => ¬KeyLt b.1 a.1 := hes.imp KeyLt.asymm
  have hSame := hMerged.trans hPerm.symm
  refine List.Perm.eq_of_pairwise (fun a b ha hb hab hba => ?_) hLe hesLe hSame
  have : Std.Symm fun a b : Entry => KeyLt a.1 b.1 ∨ KeyLt b.1 a.1 := ⟨fun _ _ => Or.symm⟩
  have hTotal : es.Pairwise fun a b => KeyLt a.1 b.1 ∨ KeyLt b.1 a.1 := hes.imp Or.inl
  by_contra hne
  rcases hTotal.forall (hSame.mem_iff.mp ha) hb hne with hlt | hlt
  · exact hba hlt
  · exact hab hlt

end Merging

/-- No two versions of one key have the same sequence number. -/
def DistinctVersions (es : List Entry) : Prop :=
  es.Pairwise fun a b => a.1.userKey = b.1.userKey → a.1.seq ≠ b.1.seq

instance (es : List Entry) : Decidable (DistinctVersions es) := by
  unfold DistinctVersions
  infer_instance

theorem DistinctVersions.nodup {es : List Entry} (h : DistinctVersions es) : es.Nodup :=
  h.imp fun hab he => hab (congrArg (·.1.userKey) he) (congrArg (·.1.seq) he)

theorem DistinctVersions.distinct {es : List Entry} (h : DistinctVersions es) :
    Versioned.Distinct (versions es) := by
  intro x hx y hy hk hs
  by_contra hne
  have : Std.Symm fun a b : Entry => a.1.userKey = b.1.userKey → a.1.seq ≠ b.1.seq :=
    ⟨fun _ _ hab hk => (hab hk.symm).symm⟩
  exact h.forall hx hy hne hk hs

theorem Ascending.distinctVersions {es : List Entry} (h : Ascending es) : DistinctVersions es :=
  h.imp fun hab hk => (hab.resolve_left fun hlt => absurd hk hlt.ne).2.ne'

/-- The entries of a table file, none if it is not finished. -/
def Dir.entries (d : Dir) (number : Nat) : List Entry := (d.table number).getD []

theorem Describes.entries {d : Dir} {f : FileMetaData} {es : List Entry} (h : Describes d f es) :
    d.entries f.number = es := by
  rw [Dir.entries, h.table.table]
  rfl

/-- The tables of files with these metadata. -/
theorem describes_tables {d : Dir} {files : List FileMetaData} {chunks : List (List Entry)}
    (h : List.Forall₂ (Describes d) files chunks) :
    chunks = files.map fun f => d.entries f.number := by
  induction h with
  | nil => rfl
  | cons hf _ ih => rw [List.map_cons, ← ih, hf.entries]

theorem describes_of_mem {d : Dir} {files : List FileMetaData} {chunks : List (List Entry)}
    {f : FileMetaData} (h : List.Forall₂ (Describes d) files chunks) (hf : f ∈ files) :
    Describes d f (d.entries f.number) := by
  rw [describes_tables h, List.forall₂_map_right_iff, List.forall₂_same] at h
  exact h f hf

/-- The entries of some files. -/
def entriesIn (d : Dir) (files : List FileMetaData) : List Entry :=
  (files.map fun f => d.entries f.number).flatten

theorem mem_entriesIn {d : Dir} {files : List FileMetaData} {e : Entry} :
    e ∈ entriesIn d files ↔ ∃ f ∈ files, e ∈ d.entries f.number := by
  simp [entriesIn]

/-- The entries of files with these tables. -/
theorem entriesIn_of_describes {d : Dir} {files : List FileMetaData} {chunks : List (List Entry)}
    (h : List.Forall₂ (Describes d) files chunks) : entriesIn d files = chunks.flatten := by
  rw [describes_tables h]
  rfl

theorem isBaseLevelForUserKey_iff {c : Compaction} {version : Version} {k : Bytes} :
    c.isBaseLevelForUserKey version k ↔
      ∀ level, c.level + 2 ≤ level → ∀ f ∈ version.filesAt level,
        ¬(f.smallest.userKey ≤ k ∧ k ≤ f.largest.userKey) := by
  have hOverlap : ∀ f : FileMetaData,
      userKeyOverlap f k k ↔ f.smallest.userKey ≤ k ∧ k ≤ f.largest.userKey := by
    intro f
    unfold userKeyOverlap
    split_ifs with h1 h2
    · simp [h1]
    · simp [h2]
    · simp [not_lt.mp h1, not_lt.mp h2]
  unfold Compaction.isBaseLevelForUserKey
  simp only [List.all_eq_true, List.isEmpty_iff, Version.getOverlaps, List.filter_eq_nil_iff,
    hOverlap, List.mem_range'_1]
  constructor
  · intro h level hLevel f hf
    refine h level ⟨hLevel, ?_⟩ f hf
    by_contra hNot
    rw [Version.filesAt, dif_neg (by omega)] at hf
    simp at hf
  · exact fun h level hLevel f hf => h level hLevel.1 f hf

/-- A compaction returns, and a reader no older than the oldest snapshot finds in the new files,
with those of any files of the deeper levels, what it found in the input files. -/
theorem compaction_preserves_reads {σ : Type} (Q : EntryQueue) (x : σ) {d : Dir} {c : Compaction}
    {version : Version} (oldest blockTarget bitsPerKey : Nat) (idGen : IdGenerator)
    (hTable : ∀ f ∈ c.inputFiles, d.table f.number = some (d.entries f.number))
    (hAscending : ∀ f ∈ c.inputFiles, Ascending (d.entries f.number))
    (hDistinct : DistinctVersions (entriesIn d c.inputFiles))
    (hBounds : ∀ level, c.level + 2 ≤ level → ∀ f ∈ version.filesAt level,
      ∀ e ∈ d.entries f.number,
        f.smallest.userKey ≤ e.1.userKey ∧ e.1.userKey ≤ f.largest.userKey) :
    ∃ output idGen' w,
      doCompaction Q c version oldest blockTarget bitsPerKey idGen (x, ⟨d, []⟩) =
        .ok (output, idGen') (x, w) ∧
      ∀ deeper : List FileMetaData,
        (∀ f ∈ deeper, ∃ level, c.level + 2 ≤ level ∧ f ∈ version.filesAt level) →
        ∀ k s r, oldest ≤ s →
          (Versioned.Reads (versions (entriesIn d deeper) ∪ versions (entriesIn d c.inputFiles))
              k s r ↔
            Versioned.Reads
              (versions (entriesIn d deeper) ∪ versions (entriesIn w.dir output.newFiles))
              k s r) := by
  obtain ⟨⟨output, idGen'⟩, y, w, hRun, rfl, -, -, hFiles, -⟩ := ((doCompaction_spec (x := x)
    (t := d.entries)
    hTable).quiet fun _ _ _ h => h.2.1).run
  refine ⟨output, idGen', w, hRun, fun deeper hDeeper k s r hs => ?_⟩
  obtain ⟨hPerm, hMerged⟩ := mergeTables_spec (Q := Q) (by simpa using hAscending)
    (DistinctVersions.nodup hDistinct) (DistinctVersions.distinct hDistinct)
  have hInputs : versions (entriesIn d c.inputFiles) =
      versions (mergeTables Q (c.inputFiles.map fun f => d.entries f.number)) :=
    Set.ext fun e => hPerm.symm.mem_iff
  have hOutputs : entriesIn w.dir output.newFiles =
      keep c version oldest none 0
        (mergeTables Q (c.inputFiles.map fun f => d.entries f.number)) := by
    rw [entriesIn_of_describes hFiles, outputFiles, flatten_cutFiles]
    rfl
  rw [hInputs, hOutputs]
  refine reads_keep hMerged (fun x _ hBase y hy hk => ?_) hs
  -- No deeper file has a key whose deletions may be dropped.
  obtain ⟨f, hf, hyf⟩ := mem_entriesIn.mp hy
  obtain ⟨level, hLevel, hfLevel⟩ := hDeeper f hf
  have hIn := hBounds level hLevel f hfLevel y hyf
  rw [hk] at hIn
  exact absurd hIn (isBaseLevelForUserKey_iff.mp hBase level hLevel f hfLevel)

/-- The file of a table of the entries `es`, on the disk. -/
def tableFile (es : List Entry) : File :=
  let bytes := Sstable.tableBytes 4096 10 es
  { bytes, synced := bytes.length, table := some es }

/-- A deletion at level 0 merged with an older value at level 1, with a still older value at level 2
below. -/
theorem compaction_preserves_reads_deletion :
    let key (seq : Nat) (vtype : ValueType) : InternalKey := { userKey := [107], seq, vtype }
    let file (seq : Nat) (vtype : ValueType) : File := tableFile [(key seq vtype, [])]
    let d : Dir := (((∅ : Dir).insert (.sst 1) (file 1 .put)).insert (.sst 2) (file 2 .put)).insert
      (.sst 3) (file 3 .delete)
    let f (number : Nat) (vtype : ValueType) : FileMetaData :=
      .new number (file number vtype).bytes.length (key number vtype) (key number vtype)
    let version : Version :=
      { files := ![[f 3 .delete], [f 2 .put], [f 1 .put], [], [], [], []] }
    let c : Compaction := { level := 0, inputs := ([f 3 .delete], [f 2 .put]), grandparents := [] }
    ∃ output idGen' w,
      doCompaction mergerHeap c version 3 64 1 { next := 4 } ((), ⟨d, []⟩) =
        .ok (output, idGen') ((), w) ∧
      (Versioned.Reads (versions (entriesIn d [f 1 .put]) ∪ versions (entriesIn d c.inputFiles))
          [107] 3 none ↔
        Versioned.Reads
          (versions (entriesIn d [f 1 .put]) ∪ versions (entriesIn w.dir output.newFiles))
          [107] 3 none) := by
  intro key file d f version c
  have hBounds : ∀ level, c.level + 2 ≤ level → ∀ f ∈ version.filesAt level,
      ∀ e ∈ d.entries f.number,
        f.smallest.userKey ≤ e.1.userKey ∧ e.1.userKey ≤ f.largest.userKey := by
    have hAll : ∀ level : Fin numLevels, ∀ f ∈ version.filesAt level, ∀ e ∈ d.entries f.number,
        f.smallest.userKey ≤ e.1.userKey ∧ e.1.userKey ≤ f.largest.userKey := by decide
    intro level _ f hf
    by_cases hLevel : level < numLevels
    · exact hAll ⟨level, hLevel⟩ f hf
    · rw [Version.filesAt, dif_neg hLevel] at hf
      contradiction
  obtain ⟨output, idGen', w, hRun, hReads⟩ := compaction_preserves_reads mergerHeap ()
    (d := d) (c := c)
    3 64 1 { next := 4 } (by decide) (by decide) (by decide) hBounds
  exact ⟨output, idGen', w, hRun, hReads [f 1 .put] (fun _ h => ⟨2, le_rfl, h⟩) [107] 3 none le_rfl⟩

end MulanLsm
