import MulanLsm.CompactionOutputs
import MulanLsm.Library.Intervals

/-! How much of the level below an output file of a compaction lies over.  The loop counts the
grandparents that hold a key it writes, which are not all that a file meets: one that lies between
two keys of the file is not counted, and neither is one that holds only the first key of the first
file.  A file without its last entry meets no more than the limit exactly as long as those that the
loop cannot see leave room for it. -/

namespace MulanLsm

/-- Files in order whose ranges of keys do not meet. -/
abbrev DisjointRanges (files : List FileMetaData) : Prop :=
  Intervals.Apart (fun f => f.smallest.userKey) (fun f => f.largest.userKey) files

instance (files : List FileMetaData) : Decidable (DisjointRanges files) :=
  decidable_of_iff' ((∀ f ∈ files, f.smallest.userKey ≤ f.largest.userKey) ∧
    files.Pairwise fun f g => f.largest.userKey < g.smallest.userKey)
    ⟨fun h => ⟨h.valid, h.apart⟩, fun h => ⟨h.1, h.2⟩⟩

/-- The bytes of the files that meet a range of keys. -/
def overlapBytes (files : List FileMetaData) (first last : Bytes) : Nat :=
  Intervals.weight (·.fileSize) (Intervals.meets (fun f => f.smallest.userKey)
    (fun f => f.largest.userKey) first last) files

/-- Up to its entry before the last, a file with these entries meets no more of `files` than a
compaction is to read. -/
def LimitedOverlap (files : List FileMetaData) (es : List Entry) : Prop :=
  ∀ a ∈ es.head?, ∀ b ∈ es.dropLast.getLast?,
    overlapBytes files a.1.userKey b.1.userKey ≤ maxGrandparentOverlapBytes

/-- The bytes of the files that hold one of some keys. -/
def heldBytes (files : List FileMetaData) (keys : List Bytes) : Nat :=
  Intervals.weight (·.fileSize) (Intervals.holds (fun f => f.smallest.userKey)
    (fun f => f.largest.userKey) keys) files

/-- The bytes of the files that hold none of the keys `counted` and lie between two neighbours of
`keys` or hold one of these. -/
def unseenBytes (files : List FileMetaData) (counted keys : List Bytes) : Nat :=
  Intervals.weight (·.fileSize) (Intervals.unseen (fun f => f.smallest.userKey)
    (fun f => f.largest.userKey) counted keys) files

instance (files : List FileMetaData) (es : List Entry) : Decidable (LimitedOverlap files es) := by
  unfold LimitedOverlap
  infer_instance

section Counting

variable (files : List FileMetaData) (blockTarget bitsPerKey : Nat)

/-- A table of these entries is as large as an output file is to be. -/
def FullTable (es : List Entry) : Prop :=
  targetFileSize ≤
    (es.foldl TableBuilder.added (.withOptions 0 blockTarget bitsPerKey)).currentSizeEstimate

instance (es : List Entry) : Decidable (FullTable blockTarget bitsPerKey es) := by
  unfold FullTable
  infer_instance

/-- Somewhere in the entries to come, one joins a file of the entries `written` of which the keys
`counted` are looked for in `files`, and the files that hold none of these leave too little room for
those that do. -/
def Overlooks : List Bytes → List Entry → List Entry → Prop
  | _, _, [] => False
  | counted, written, e :: es =>
    if FullTable blockTarget bitsPerKey written ∨
        maxGrandparentOverlapBytes < heldBytes files counted % 2 ^ 64 then
      Overlooks [e.1.userKey] [e] es
    else
      maxGrandparentOverlapBytes <
          heldBytes files counted + unseenBytes files counted (written.map (·.1.userKey)) ∨
        Overlooks (counted ++ [e.1.userKey]) (written ++ [e]) es

/-- The key that opens the first file is not looked for. -/
def OverlooksIn : List Entry → Prop
  | [] => False
  | e :: es => Overlooks files blockTarget bitsPerKey [] [e] es

instance decidableOverlooks : ∀ (counted : List Bytes) (written es : List Entry),
    Decidable (Overlooks files blockTarget bitsPerKey counted written es)
  | _, _, [] => isFalse id
  | counted, written, e :: es =>
    have : ∀ counted written,
      Decidable (Overlooks files blockTarget bitsPerKey counted written es) :=
      fun counted written => decidableOverlooks counted written es
    decidable_of_iff' _ (Iff.of_eq
      (Overlooks.eq_2 files blockTarget bitsPerKey counted written e es))

instance (es : List Entry) : Decidable (OverlooksIn files blockTarget bitsPerKey es) := by
  cases es
  · exact isFalse id
  · exact decidableOverlooks _ _ _ _ _ _

variable {c : Compaction} {blockTarget bitsPerKey}

theorem countOverlap_eq_sweep (k : Bytes) (files : List FileMetaData) (s : Nat × Nat) :
    countOverlap k files s = Intervals.sweep (fun f => f.smallest.userKey)
      (fun f => f.largest.userKey) (·.fileSize) (2 ^ 64) k files s := by
  induction files generalizing s with
  | nil => rfl
  | cons f files ih => simp only [countOverlap, Intervals.sweep, ih]

theorem flushed_withNumber (n : Nat) (b : TableBuilder) :
    TableBuilder.flushed { b with number := n } = { b.flushed with number := n } := by
  unfold TableBuilder.flushed
  by_cases hEmpty : b.dataBlock.isEmpty = true
  · rw [if_pos hEmpty, if_pos hEmpty]
  · rw [if_neg hEmpty, if_neg hEmpty]

theorem added_withNumber (n : Nat) (b : TableBuilder) (e : Entry) :
    TableBuilder.added { b with number := n } e = { b.added e with number := n } := by
  have hEntry : TableBuilder.addEntry { b with number := n } e.1 e.2 =
      { b.addEntry e.1 e.2 with number := n } := by
    obtain ⟨_, _, _, _, _, pending, _, _, _⟩ := b
    cases pending <;> rfl
  unfold TableBuilder.added
  simp only [hEntry]
  split
  · exact flushed_withNumber n _
  · rfl

/-- The size of a table does not depend on its number. -/
theorem currentSizeEstimate_number (n : Nat) (es : List Entry) (b : TableBuilder) :
    (es.foldl TableBuilder.added { b with number := n }).currentSizeEstimate =
      (es.foldl TableBuilder.added b).currentSizeEstimate := by
  induction es generalizing b with
  | nil => rfl
  | cons e es ih =>
    rw [List.foldl_cons, List.foldl_cons, added_withNumber, ih]

/-- The pen has written the entries `written`, whose keys ascend, to its file.  The grandparents
that it has counted are those that hold one of the keys `counted`, which are keys of these. -/
structure Counts (c : Compaction) (blockTarget bitsPerKey : Nat) (p : Pen) (counted : List Bytes)
    (written : List Entry) : Prop where
  built : ∃ n, p.builder = written.foldl TableBuilder.added (.withOptions n blockTarget bitsPerKey)
  entries : p.builder.entries = written
  swept : Intervals.Swept (fun f : FileMetaData => f.smallest.userKey)
    (fun f => f.largest.userKey) (·.fileSize) (2 ^ 64) c.grandparents counted p.idx p.overlap
  mem : ∀ k ∈ counted, k ∈ written.map (·.1.userKey)
  keys : (written.map (·.1.userKey)).Pairwise (· ≤ ·)

theorem Counts.new (next : Nat) :
    Counts c blockTarget bitsPerKey (Pen.new blockTarget bitsPerKey next) [] [] where
  built := ⟨next, rfl⟩
  entries := rfl
  swept := Intervals.Swept.start _
  mem := by simp
  keys := .nil

variable {p : Pen} {counted : List Bytes} {written : List Entry}

/-- One more entry, of which the grandparents are not counted. -/
theorem Counts.add (h : Counts c blockTarget bitsPerKey p counted written) {e : Entry}
    (he : ∀ x ∈ written, x.1.userKey ≤ e.1.userKey) :
    Counts c blockTarget bitsPerKey { p with builder := p.builder.added e } counted
      (written ++ [e]) where
  built := by
    obtain ⟨n, hBuilt⟩ := h.built
    exact ⟨n, by rw [List.foldl_append, ← hBuilt]; rfl⟩
  entries := by simp [h.entries]
  swept := h.swept
  mem := fun k hk => by
    rw [List.map_append]
    exact List.mem_append_left _ (h.mem k hk)
  keys := by
    rw [List.map_append, List.map_singleton, List.pairwise_append]
    refine ⟨h.keys, List.pairwise_singleton .., fun k hk j hj => ?_⟩
    obtain ⟨x, hx, rfl⟩ := List.mem_map.mp hk
    rw [List.mem_singleton.mp hj]
    exact he x hx

theorem Counts.write (h : Counts c blockTarget bitsPerKey p counted written) {e : Entry}
    (hApart : DisjointRanges c.grandparents) (he : ∀ x ∈ written, x.1.userKey ≤ e.1.userKey) :
    Counts c blockTarget bitsPerKey (p.write c e) (counted ++ [e.1.userKey]) (written ++ [e]) := by
  obtain ⟨hBuilt, hEntries, -, hMem, hKeys⟩ := h.add he
  refine ⟨hBuilt, hEntries, ?_, fun k hk => ?_, hKeys⟩
  · simp only [Pen.write, countOverlap_eq_sweep]
    refine h.swept.step hApart fun j hj => ?_
    obtain ⟨x, hx, rfl⟩ := List.mem_map.mp (h.mem j hj)
    exact he x hx
  · rcases List.mem_append.mp hk with hk | hk
    · exact hMem k hk
    · rw [List.mem_singleton.mp hk]
      simp

/-- The loop goes on to another file when the table is full or the bytes of the grandparents that
hold one of the keys that were looked for, in 64 bits, exceed the limit. -/
theorem Counts.shouldSplit_iff (h : Counts c blockTarget bitsPerKey p counted written) :
    shouldSplit p.builder p.overlap = true ↔ FullTable blockTarget bitsPerKey written ∨
      maxGrandparentOverlapBytes < heldBytes c.grandparents counted % 2 ^ 64 := by
  obtain ⟨n, hBuilt⟩ := h.built
  have hSize := currentSizeEstimate_number n written (.withOptions 0 blockTarget bitsPerKey)
  have hOverlap : p.overlap = heldBytes c.grandparents counted % 2 ^ 64 := h.swept.weighed
  rw [shouldSplit, Bool.or_eq_true, decide_eq_true_eq, decide_eq_true_eq, FullTable, ← hSize,
    hBuilt, hOverlap]
  rfl

/-- The keys of entries that ascend lie between that of the first and that of the last. -/
theorem userKey_between {es : List Entry} {a b : Entry}
    (h : es.Pairwise fun x y => x.1.userKey ≤ y.1.userKey) (ha : es.head? = some a)
    (hb : es.getLast? = some b) :
    ∀ x ∈ es, a.1.userKey ≤ x.1.userKey ∧ x.1.userKey ≤ b.1.userKey := by
  intro x hx
  constructor
  · obtain ⟨rest, rfl⟩ := List.head?_eq_some_iff.mp ha
    rcases List.mem_cons.mp hx with rfl | hx
    · exact le_rfl
    · exact (List.pairwise_cons.mp h).1 x hx
  · obtain ⟨front, rfl⟩ := List.getLast?_eq_some_iff.mp hb
    rcases List.mem_append.mp hx with hx | hx
    · exact (List.pairwise_append.mp h).2.2 x hx b (List.mem_singleton_self b)
    · rw [List.mem_singleton.mp hx]

/-- What was looked for and what was not seen is what the file meets. -/
theorem Counts.held_add_unseen {a b : Entry} (h : Counts c blockTarget bitsPerKey p counted written)
    (hApart : DisjointRanges c.grandparents) (ha : written.head? = some a)
    (hb : written.getLast? = some b) :
    heldBytes c.grandparents counted +
        unseenBytes c.grandparents counted (written.map (·.1.userKey)) =
      overlapBytes c.grandparents a.1.userKey b.1.userKey :=
  Intervals.weight_unseen hApart.valid h.keys h.mem (by simp [ha]) (by simp [hb])

/-- With another entry a file is limited exactly when it meets no more than the limit without. -/
theorem limitedOverlap_concat {files : List FileMetaData} {es : List Entry} {a b : Entry}
    (ha : es.head? = some a) (hb : es.getLast? = some b) (e : Entry) :
    LimitedOverlap files (es ++ [e]) ↔
      overlapBytes files a.1.userKey b.1.userKey ≤ maxGrandparentOverlapBytes := by
  have hHead : (es ++ [e]).head? = some a := by
    obtain ⟨rest, rfl⟩ := List.head?_eq_some_iff.mp ha
    rfl
  simp [LimitedOverlap, hHead, hb]

/-- A file that is limited was limited before its last entry. -/
theorem LimitedOverlap.of_concat {files : List FileMetaData} {es : List Entry} {e : Entry}
    (h : LimitedOverlap files (es ++ [e]))
    (hKeys : es.Pairwise fun x y => x.1.userKey ≤ y.1.userKey) : LimitedOverlap files es := by
  intro a ha b hb
  obtain ⟨l, hl⟩ : ∃ l, es.getLast? = some l := by
    rw [← Option.isSome_iff_exists, List.getLast?_isSome]
    rintro rfl
    cases ha
  have hMem : b ∈ es := List.mem_of_mem_dropLast (List.mem_of_getLast? hb)
  have hLe := (userKey_between hKeys ha hl b hMem).2
  exact (Intervals.weight_meets_mono hLe).trans ((limitedOverlap_concat ha hl e).mp h)

theorem limitedOverlap_singleton (files : List FileMetaData) (e : Entry) :
    LimitedOverlap files [e] := by
  intro a _ b hb
  cases hb

/-- The files that are cut off are limited exactly when the one that is being written is and the
loop overlooks nothing. -/
theorem cutFiles_limited_iff {es : List Entry} {next : Nat}
    (h : Counts c blockTarget bitsPerKey p counted written)
    (hApart : DisjointRanges c.grandparents) (hNonempty : written ≠ [])
    (hKeys : (written ++ es).Pairwise fun x y => x.1.userKey ≤ y.1.userKey) :
    (∀ chunk ∈ cutFiles c blockTarget bitsPerKey next (some p) es,
        LimitedOverlap c.grandparents chunk) ↔
      LimitedOverlap c.grandparents written ∧
        ¬Overlooks c.grandparents blockTarget bitsPerKey counted written es := by
  induction es generalizing p counted written next with
  | nil => simp [cutFiles, Overlooks, h.entries]
  | cons e es ih =>
    obtain ⟨-, hRest, hAcross⟩ := List.pairwise_append.mp hKeys
    rw [cutFiles, Overlooks]
    by_cases hSplit : shouldSplit p.builder p.overlap = true
    · rw [if_pos hSplit, if_pos (h.shouldSplit_iff.mp hSplit), List.forall_mem_cons, h.entries]
      have hNext : Counts c blockTarget bitsPerKey ((Pen.new blockTarget bitsPerKey next).write c e)
          [e.1.userKey] [e] := (Counts.new next).write hApart (by simp)
      rw [ih hNext (by simp) hRest]
      simp [limitedOverlap_singleton]
    · rw [if_neg hSplit, if_neg (fun hFull => hSplit (h.shouldSplit_iff.mpr hFull))]
      have hWritten := h.write hApart fun x hx => hAcross x hx e List.mem_cons_self
      have ha := List.head?_eq_some_head hNonempty
      have hb := List.getLast?_eq_some_getLast hNonempty
      rw [ih hWritten (by simp) (by simpa using hKeys), not_or, h.held_add_unseen hApart ha hb,
        not_lt, ← limitedOverlap_concat ha hb e]
      constructor
      · rintro ⟨hLimited, hMore⟩
        exact ⟨hLimited.of_concat (List.pairwise_append.mp hKeys).1, hLimited, hMore⟩
      · rintro ⟨-, hLimited, hMore⟩
        exact ⟨hLimited, hMore⟩

end Counting

section Outputs

variable {σ : Type} {x y : σ} {d : Dir} {w : World} {Q : EntryQueue} {c : Compaction}
  {version : Version} {oldest blockTarget bitsPerKey : Nat} {idGen idGen' : IdGenerator}
  {os : List Outcome} {output : CompactionOutput}

/-- The output files of a compaction meet no more of the grandparents, each up to its entry before
the last, than a compaction is to read, exactly when the grandparents that the loop cannot see leave
room for that. -/
theorem compaction_limited_iff (hInputs : ∀ f ∈ c.inputFiles, InKeyOrder (d.entries f.number))
    (hApart : DisjointRanges c.grandparents)
    (hRun : doCompaction Q c version oldest blockTarget bitsPerKey idGen (x, ⟨d, os⟩) =
      .ok (output, idGen') (y, w)) :
    (∀ f ∈ output.newFiles, LimitedOverlap c.grandparents (w.dir.entries f.number)) ↔
      ¬OverlooksIn c.grandparents blockTarget bitsPerKey (keptFrom Q c version oldest d) := by
  have hKeys : (keptFrom Q c version oldest d).Pairwise fun x y => x.1.userKey ≤ y.1.userKey :=
    keptFrom_userKey_le hInputs
  have hTables : (∀ f ∈ output.newFiles, LimitedOverlap c.grandparents (w.dir.entries f.number)) ↔
      ∀ chunk ∈ output.newFiles.map fun f => w.dir.entries f.number,
        LimitedOverlap c.grandparents chunk := List.forall_mem_map.symm
  rw [hTables, outputs_tables hRun]
  cases hKept : keptFrom Q c version oldest d with
  | nil => simp [cutFiles, OverlooksIn]
  | cons e es =>
    rw [hKept] at hKeys
    have hFirst : Counts c blockTarget bitsPerKey
        { Pen.new blockTarget bitsPerKey idGen.next with
          builder := (Pen.new blockTarget bitsPerKey idGen.next).builder.added e } [] [e] :=
      (Counts.new idGen.next).add (by simp)
    rw [cutFiles, OverlooksIn, cutFiles_limited_iff hFirst hApart (by simp) hKeys]
    simp [limitedOverlap_singleton]

end Outputs

section Examples

/-- A table with entries of `a`, `z` and `zz`. -/
def threeKeysTable : File :=
  tableFile [({ userKey := [97], seq := 1, vtype := .put }, []),
    ({ userKey := [122], seq := 2, vtype := .put }, []),
    ({ userKey := [122, 122], seq := 3, vtype := .put }, [])]

def threeKeys : Dir := (∅ : Dir).insert (.sst 1) threeKeysTable

/-- The compaction of this table, over a file of `size` bytes with keys from `first` to `last`. -/
def mergeThreeKeys (size : Nat) (first last : UInt8) : Compaction :=
  let key (k : Bytes) (seq : Nat) : InternalKey := { userKey := k, seq, vtype := .put }
  { level := 0
    inputs := ([.new 1 threeKeysTable.bytes.length (key [97] 1) (key [122, 122] 3)], [])
    grandparents := [.new 2 size (key [first] 1) (key [last] 1)] }

/-- A file of 20 MiB between the first two keys is within the limit. -/
theorem compaction_limited_between : ∃ output idGen' w,
    doCompaction mergerHeap (mergeThreeKeys (20 * 1024 * 1024) 106 108) Version.empty 9 4096 10
      { next := 3 } ((), ⟨threeKeys, []⟩) = .ok (output, idGen') ((), w) ∧
    ∀ f ∈ output.newFiles, LimitedOverlap
      (mergeThreeKeys (20 * 1024 * 1024) 106 108).grandparents (w.dir.entries f.number) := by
  obtain ⟨output, idGen', w, hRun⟩ := doCompaction_succeeds (d := threeKeys)
    (c := mergeThreeKeys (20 * 1024 * 1024) 106 108) mergerHeap ()
    Version.empty 9 4096 10 { next := 3 } (by decide)
  exact ⟨output, idGen', w, hRun,
    (compaction_limited_iff (by decide) (by decide) hRun).mpr (by decide +kernel)⟩

/-- A file of 30 MiB between the first two keys is not counted: all three keys go to one file. -/
theorem compaction_exceeds_limit : ∃ output idGen' w,
    (∀ f ∈ (mergeThreeKeys (30 * 1024 * 1024) 106 108).inputFiles,
      InKeyOrder (threeKeys.entries f.number)) ∧
    DisjointRanges (mergeThreeKeys (30 * 1024 * 1024) 106 108).grandparents ∧
    doCompaction mergerHeap (mergeThreeKeys (30 * 1024 * 1024) 106 108) Version.empty 9 4096 10
      { next := 3 } ((), ⟨threeKeys, []⟩) = .ok (output, idGen') ((), w) ∧
    ∃ f ∈ output.newFiles, ¬LimitedOverlap
      (mergeThreeKeys (30 * 1024 * 1024) 106 108).grandparents (w.dir.entries f.number) := by
  obtain ⟨output, idGen', w, hRun⟩ := doCompaction_succeeds (d := threeKeys)
    (c := mergeThreeKeys (30 * 1024 * 1024) 106 108) mergerHeap ()
    Version.empty 9 4096 10 { next := 3 } (by decide)
  refine ⟨output, idGen', w, by decide, by decide, hRun, ?_⟩
  have hCut : cutFiles (mergeThreeKeys (30 * 1024 * 1024) 106 108) 4096 10 3 none
      (keptFrom mergerHeap (mergeThreeKeys (30 * 1024 * 1024) 106 108) Version.empty 9 threeKeys) =
        [threeKeys.entries 1] := by
    decide +kernel
  have hMem : threeKeys.entries 1 ∈ output.newFiles.map fun f => w.dir.entries f.number := by
    rw [outputs_tables hRun, hCut]
    exact List.mem_singleton_self _
  obtain ⟨f, hf, hEntries⟩ := List.mem_map.mp hMem
  refine ⟨f, hf, ?_⟩
  rw [hEntries]
  decide

end Examples

end MulanLsm
