import MulanLsm.Lsm

/-! What the steps of a database do to the order of its levels, and to what its readers find.  A
flush puts a file with the newest versions at the end of level 0.  A compaction puts its new files
at the end of a level, so the level stays in order if no other file of it lies past them; and the
new files share no key unless a file was cut off between two versions of one. -/

namespace MulanLsm

open Versioned (Newer Reads)

section Same

variable {d d' : Dir} {v v' : Version}

/-- The files of `v` hold the same in `d'` as in `d`. -/
def SameTables (v : Version) (d d' : Dir) : Prop :=
  ∀ level, ∀ f ∈ v.filesAt level, d'.entries f.number = d.entries f.number

theorem Recent.congr (h : Recent d v) (hSame : SameTables v d d') : Recent d' v := by
  constructor
  · refine h.zero.imp_of_mem fun {f g} hf hg hfg => ?_
    rw [hSame 0 f hf, hSame 0 g hg]
    exact hfg
  · intro i j hij f hf g hg
    rw [hSame i f hf, hSame j g hg]
    exact h.deeper i j hij f hf g hg

theorem Apart.congr (h : Apart d v) (hSame : SameTables v d d') : Apart d' v := by
  intro level hLevel
  refine (h level hLevel).imp_of_mem fun {f g} hf hg hfg => ?_
  rw [hSame level f hf, hSame level g hg]
  exact hfg

theorem stored_congr (hSame : SameTables v d d') : stored d' v = stored d v := by
  ext e
  constructor
  · rintro ⟨level, f, hf, he⟩
    exact ⟨level, f, hf, hSame level f hf ▸ he⟩
  · rintro ⟨level, f, hf, he⟩
    exact ⟨level, f, hf, (hSame level f hf).symm ▸ he⟩

theorem inFiles_congr (hSame : SameTables v d d') (s : Nat) (k : Bytes) :
    Db.inFiles d' v s k = Db.inFiles d v s k :=
  Db.inFiles_congr fun level f hf => by rw [hSame level f hf]

end Same

section Growing

variable {d d' : Dir} {v v' : Version} {es : List Entry}

/-- `v'` is `v` with a file of the entries `es` at the end of level 0, if there are any. -/
structure Grown (d : Dir) (v : Version) (es : List Entry) (d' : Dir) (v' : Version) : Prop where
  files : es = [] ∧ v' = v ∨ ∃ f, AddsFile v f v' ∧ d'.entries f.number = es
  same : SameTables v d d'

theorem Grown.filesAt (h : Grown d v es d' v') {level : Nat} (hLevel : level ≠ 0) :
    v'.filesAt level = v.filesAt level := by
  rcases h.files with ⟨-, rfl⟩ | ⟨f, hAdds, -⟩
  · rfl
  · exact hAdds.2 level hLevel

theorem Grown.apart (h : Grown d v es d' v') (hApart : Apart d v) : Apart d' v' := by
  intro level hLevel
  rw [h.filesAt hLevel]
  exact hApart.congr h.same level hLevel

theorem Grown.ordered (h : Grown d v es d' v') (hOrdered : Ordered v) : Ordered v' := by
  intro level hLevel
  rw [h.filesAt hLevel]
  exact hOrdered level hLevel

theorem Grown.recent (h : Grown d v es d' v') (hRecent : Recent d v)
    (hNew : Newer (versions es) (stored d v)) : Recent d' v' := by
  have hOld := hRecent.congr h.same
  rcases h.files with ⟨-, rfl⟩ | ⟨f, ⟨hZero, hDeeper⟩, hf⟩
  · exact hOld
  · have hNewer : ∀ level, ∀ g ∈ v.filesAt level,
        Newer (versions (d'.entries f.number)) (versions (d'.entries g.number)) := by
      intro level g hg x hx y hy hk
      rw [hf] at hx
      rw [h.same level g hg] at hy
      exact hNew x hx y ⟨level, g, hg, hy⟩ hk
    constructor
    · rw [hZero, List.pairwise_append]
      refine ⟨hOld.zero, List.pairwise_singleton _ _, fun g hg f' hf' => ?_⟩
      rw [List.mem_singleton.mp hf']
      exact hNewer 0 g hg
    · intro i j hij g hg g' hg'
      rw [hDeeper j (by omega)] at hg'
      by_cases hi : i = 0
      · subst hi
        rw [hZero] at hg
        rcases List.mem_append.mp hg with hg | hg
        · exact hOld.deeper 0 j hij g hg g' hg'
        · rw [List.mem_singleton.mp hg]
          exact hNewer j g' hg'
      · rw [hDeeper i hi] at hg
        exact hOld.deeper i j hij g hg g' hg'

/-- A reader comes to the new file first. -/
theorem Grown.inFiles (h : Grown d v es d' v') (s : Nat) (k : Bytes) :
    Db.inFiles d' v' s k = (seek es k s).or (Db.inFiles d v s k) := by
  have hOld : Db.inFiles d' v s k = Db.inFiles d v s k := inFiles_congr h.same s k
  rcases h.files with ⟨rfl, rfl⟩ | ⟨f, ⟨hZero, hDeeper⟩, hf⟩
  · exact hOld
  · have hFiles : filesForKey v' k = f :: filesForKey v k := by
      unfold filesForKey
      rw [hZero, List.reverse_append, List.reverse_singleton, List.singleton_append,
        List.cons_append]
      congr 2
      refine List.filterMap_congr fun level hLevel => ?_
      have := (List.mem_range'_1.mp hLevel).1
      rw [hDeeper level (by omega)]
    rw [← hOld, Db.inFiles, hFiles, List.findSome?_cons, hf]
    cases seek es k s <;> rfl

theorem Grown.stored (h : Grown d v es d' v') :
    MulanLsm.stored d' v' = versions es ∪ MulanLsm.stored d v := by
  have hOld := stored_congr h.same
  rcases h.files with ⟨rfl, rfl⟩ | ⟨f, ⟨hZero, hDeeper⟩, hf⟩
  · rw [hOld]
    simp [versions]
  · rw [← hOld]
    ext e
    constructor
    · rintro ⟨level, g, hg, he⟩
      by_cases hl : level = 0
      · subst hl
        rw [hZero] at hg
        rcases List.mem_append.mp hg with hg | hg
        · exact .inr ⟨0, g, hg, he⟩
        · rw [List.mem_singleton.mp hg, hf] at he
          exact .inl he
      · rw [hDeeper level hl] at hg
        exact .inr ⟨level, g, hg, he⟩
    · rintro (he | ⟨level, g, hg, he⟩)
      · refine ⟨0, f, ?_, hf.symm ▸ he⟩
        rw [hZero]
        exact List.mem_append_right _ (List.mem_singleton_self f)
      · refine ⟨level, g, ?_, he⟩
        by_cases hl : level = 0
        · subst hl
          rw [hZero]
          exact List.mem_append_left _ hg
        · rw [hDeeper level hl]
          exact hg

end Growing

section Cutting

variable (c : Compaction) (blockTarget bitsPerKey : Nat)

/-- A file is cut off in front of an entry that has the user key of the file's last one. -/
def CutsKey : Nat → Option Pen → List Entry → Prop
  | _, _, [] => False
  | next, none, e :: es =>
    let pen := Pen.new blockTarget bitsPerKey next
    CutsKey (next + 1) (some { pen with builder := pen.builder.added e }) es
  | next, some pen, e :: es =>
    if shouldSplit pen.builder pen.overlap then
      (pen.builder.entries.getLast?.map (·.1.userKey) = some e.1.userKey) ∨
        CutsKey (next + 1) (some ((Pen.new blockTarget bitsPerKey next).write c e)) es
    else CutsKey next (some (pen.write c e)) es

instance decidableCutsKey : ∀ (next : Nat) (pen : Option Pen) (es : List Entry),
    Decidable (CutsKey c blockTarget bitsPerKey next pen es)
  | _, _, [] => isFalse id
  | next, none, _ :: es => decidableCutsKey (next + 1) _ es
  | next, some pen, e :: es =>
    have : ∀ next pen, Decidable (CutsKey c blockTarget bitsPerKey next pen es) := fun next pen =>
      decidableCutsKey next pen es
    decidable_of_iff' _ (Iff.of_eq (CutsKey.eq_3 c blockTarget bitsPerKey next pen e es))

variable {c blockTarget bitsPerKey}

/-- A value as large as a file is to be gets a file of its own. -/
theorem cutFiles_large {c : Compaction} {blockTarget bitsPerKey next : Nat} {x y : Entry}
    (hx : targetFileSize ≤ x.2.length) :
    cutFiles c blockTarget bitsPerKey next none [x, y] = [[x], [y]] := by
  have hSplit : ∀ overlap, shouldSplit
      ((Pen.new blockTarget bitsPerKey next).builder.added x) overlap = true := by
    intro overlap
    have := le_currentSizeEstimate next blockTarget bitsPerKey x
    simp only [shouldSplit, Pen.new, Bool.or_eq_true, decide_eq_true_eq]
    exact .inl (decide_eq_true (hx.trans this))
  simp only [cutFiles, hSplit, if_true]
  simp [Pen.new, Pen.write, TableBuilder.withOptions]

/-- The entries share no user key. -/
def KeysApart (as bs : List Entry) : Prop := ∀ x ∈ as, ∀ y ∈ bs, x.1.userKey ≠ y.1.userKey

/-- Files that are not cut off between two versions of a key share no key. -/
theorem cutFiles_apart {next : Nat} {pen : Option Pen} {es : List Entry}
    (h : ¬CutsKey c blockTarget bitsPerKey next pen es)
    (hKeys : ((pen.map (·.builder.entries)).getD [] ++ es).Pairwise fun x y =>
      x.1.userKey ≤ y.1.userKey) :
    (cutFiles c blockTarget bitsPerKey next pen es).Pairwise KeysApart := by
  induction es generalizing next pen with
  | nil =>
    rw [cutFiles]
    cases pen <;> simp
  | cons e es ih =>
    cases pen with
    | none =>
      rw [cutFiles]
      apply ih h
      simpa [Pen.new, TableBuilder.withOptions] using hKeys
    | some p =>
      rw [CutsKey] at h
      rw [cutFiles]
      split
      · next hSplit =>
        rw [if_pos hSplit, not_or] at h
        simp only [Option.map_some, Option.getD_some] at hKeys
        obtain ⟨hEntries, hRest, hAcross⟩ := List.pairwise_append.mp hKeys
        refine List.pairwise_cons.mpr ⟨fun bs hbs x hx y hy hk => ?_, ih h.2 ?_⟩
        · -- Its key would be that of the last entry in front of the cut and of the first behind.
          obtain ⟨l, hl⟩ : ∃ l, p.builder.entries.getLast? = some l := by
            rw [← Option.isSome_iff_exists, List.getLast?_isSome]
            exact List.ne_nil_of_mem hx
          obtain ⟨as, has⟩ : ∃ as, p.builder.entries = as ++ [l] := List.getLast?_eq_some_iff.mp hl
          have hLast : x.1.userKey ≤ l.1.userKey := by
            rw [has, List.pairwise_append] at hEntries
            rw [has] at hx
            rcases List.mem_append.mp hx with hx | hx
            · exact hEntries.2.2 x hx l (List.mem_singleton_self l)
            · rw [List.mem_singleton.mp hx]
          have hFirst : e.1.userKey ≤ y.1.userKey := by
            have hFlat := List.mem_flatten_of_mem hbs hy
            rw [flatten_cutFiles] at hFlat
            have hy' : y ∈ e :: es := by
              simpa [Pen.write, Pen.new, TableBuilder.withOptions] using hFlat
            rcases List.mem_cons.mp hy' with rfl | hy'
            · exact le_rfl
            · exact (List.pairwise_cons.mp hRest).1 y hy'
          have hCut : l.1.userKey ≤ e.1.userKey :=
            hAcross l (List.mem_of_getLast? hl) e List.mem_cons_self
          apply h.1
          rw [hl, Option.map_some, Option.some.injEq]
          exact le_antisymm hCut (hFirst.trans (hk ▸ hLast))
        · simpa [Pen.write, Pen.new, TableBuilder.withOptions] using hRest
      · next hSplit =>
        rw [if_neg hSplit] at h
        apply ih h
        simpa [Pen.write] using hKeys

/-- A file that is cut off between two versions of a key shares the key with the file behind it. -/
theorem cutFiles_shared {next : Nat} {pen : Option Pen} {es : List Entry}
    (h : CutsKey c blockTarget bitsPerKey next pen es) :
    ¬(cutFiles c blockTarget bitsPerKey next pen es).Pairwise KeysApart := by
  induction es generalizing next pen with
  | nil => exact h.elim
  | cons e es ih =>
    cases pen with
    | none => exact ih h
    | some p =>
      rw [CutsKey] at h
      rw [cutFiles]
      split at h
      · next hSplit =>
        rw [if_pos hSplit, List.pairwise_cons]
        rintro ⟨hHead, hTail⟩
        rcases h with hKey | h
        · obtain ⟨l, hl, hk⟩ := Option.map_eq_some_iff.mp hKey
          have hMem : e ∈ (cutFiles c blockTarget bitsPerKey (next + 1)
              (some ((Pen.new blockTarget bitsPerKey next).write c e)) es).flatten := by
            rw [flatten_cutFiles]
            simp [Pen.write]
          obtain ⟨bs, hbs, he⟩ := List.mem_flatten.mp hMem
          exact hHead bs hbs l (List.mem_of_getLast? hl) e he hk
        · exact ih h hTail
      · next hSplit =>
        rw [if_neg hSplit]
        exact ih h

end Cutting

section Compacting

variable [Crc32c] {d d' : Dir} {db db' : Db} {flushed : Nat} {log : List WalEntry} {c : Compaction}

/-- The compaction `c` of `db` cuts off a file between two versions of a key. -/
def CutsBetweenVersions (d : Dir) (db : Db) (c : Compaction) : Prop :=
  CutsKey c db.options.blockSize db.options.bloomBitsPerKey db.idGen.next none (keptEntries d db c)

/-- The compaction `c` of `db` writes no file, or no file of the next level lies past those that it
takes of its own. -/
def AppendsInOrder (d : Dir) (db : Db) (c : Compaction) : Prop :=
  keptEntries d db c = [] ∨ ∀ g ∈ db.versionSet.current.filesAt (c.level + 1),
    g.smallest.userKey ≤ (keyRange c.inputs.1).2

instance (d : Dir) (db : Db) (c : Compaction) : Decidable (CutsBetweenVersions d db c) := by
  unfold CutsBetweenVersions; infer_instance

instance (d : Dir) (db : Db) (c : Compaction) : Decidable (AppendsInOrder d db c) := by
  unfold AppendsInOrder; infer_instance

omit [Crc32c] in
theorem keptEntries_sublist : (keptEntries d db c).Sublist (mergedInputs d c) := keep_sublist _ _ _

theorem Inv.mem_kept (h : Inv d db flushed log) (hc : Picked db.versionSet c) {e : Entry}
    (he : e ∈ keptEntries d db c) : ∃ f ∈ c.inputFiles, e ∈ d.entries f.number := by
  obtain ⟨hPerm, -⟩ := h.merged_spec hc
  exact mem_entriesIn.mp (hPerm.mem_iff.mp (keptEntries_sublist.subset he))

theorem Inv.kept_ascending (h : Inv d db flushed log) (hc : Picked db.versionSet c) :
    Ascending (keptEntries d db c) :=
  (h.merged_spec hc).2.sublist keptEntries_sublist

omit [Crc32c] in
theorem keyRange_le {files : List FileMetaData} {f : FileMetaData} (hf : f ∈ files) :
    (keyRange files).1 ≤ f.smallest.userKey ∧ f.largest.userKey ≤ (keyRange files).2 := by
  constructor
  · have hMem : f.smallest.userKey ∈ files.map (·.smallest.userKey) := List.mem_map_of_mem hf
    obtain ⟨m, hm⟩ := Option.isSome_iff_exists.mp (List.isSome_min?_of_mem hMem)
    rw [keyRange, hm]
    exact (List.min?_eq_some_iff.mp hm).2 _ hMem
  · have hMem : f.largest.userKey ∈ files.map (·.largest.userKey) := List.mem_map_of_mem hf
    obtain ⟨m, hm⟩ := Option.isSome_iff_exists.mp (List.isSome_max?_of_mem hMem)
    rw [keyRange, hm]
    exact (List.max?_eq_some_iff.mp hm).2 _ hMem

omit [Crc32c] in
/-- A file of the next level that a compaction does not take lies to one side of those that it takes
of its own level. -/
theorem Picked.stays {vs : VersionSet} (hc : Picked vs c) {g : FileMetaData}
    (hg : g ∈ vs.current.filesAt (c.level + 1)) (hNot : g ∉ c.inputs.2) (hne : c.inputs.1 ≠ []) :
    g.largest.userKey < (keyRange c.inputs.1).1 ∨ (keyRange c.inputs.1).2 < g.smallest.userKey := by
  rw [hc.second, if_neg hne, Version.getOverlaps, List.mem_filter, not_and] at hNot
  have hOverlap := hNot hg
  unfold userKeyOverlap at hOverlap
  split at hOverlap
  · next h => exact .inl h
  · split at hOverlap
    · next h => exact .inr h
    · exact absurd rfl hOverlap

/-- An old file that stays at its level. -/
def Stays (v : Version) (c : Compaction) (level : Nat) (f : FileMetaData) : Prop :=
  f ∈ v.filesAt level ∧ (level = c.level → f ∉ c.inputs.1) ∧ (level = c.level + 1 → f ∉ c.inputs.2)

/-- No key of the input files is in a file that stays at the next level. -/
theorem Inv.input_apart (h : Inv d db flushed log) (hc : Picked db.versionSet c)
    (hApart : Apart d db.versionSet.current) {g : FileMetaData}
    (hg : Stays db.versionSet.current c (c.level + 1) g) {f : FileMetaData} (hf : f ∈ c.inputFiles)
    {x y : Entry} (hx : x ∈ d.entries f.number) (hy : y ∈ d.entries g.number) :
    x.1.userKey ≠ y.1.userKey := by
  obtain ⟨hgLevel, -, hgStays⟩ := hg
  have hBounds := (h.tables _ g hgLevel).bounds.1 y hy
  have hxBounds := (h.input_table hc hf).bounds.1 x hx
  rcases List.mem_append.mp hf with hf | hf
  · intro hk
    obtain ⟨hLow, hHigh⟩ := keyRange_le hf
    rcases hc.stays hgLevel (hgStays rfl) (List.ne_nil_of_mem hf) with hSide | hSide
    · exact absurd ((hLow.trans hxBounds.1).trans (hk ▸ hBounds.2)) (not_le.mpr hSide)
    · exact absurd (hBounds.1.trans (hk ▸ hxBounds.2.trans hHigh)) (not_le.mpr hSide)
  · exact hApart.keys_ne (Nat.succ_ne_zero _) (hc.mem_second hf) hgLevel
      (fun hfg => hgStays rfl (hfg ▸ hf)) hx hy

/-- The new files of a compaction are written, and `v'` is the version with them in the place of the
input files. -/
structure Rewrote (d : Dir) (db : Db) (c : Compaction) (d' : Dir) (v' : Version) : Prop where
  files : ∃ fs : List FileMetaData, (fs.map fun f => d'.entries f.number) = compactedFiles d db c ∧
    Replaces db.versionSet.current c fs v'
  tables : ∀ n < db.idGen.next, d'.entries n = d.entries n

theorem Compacted.rewrote (h : Compacted d db flushed log c d' db') :
    Rewrote d db c d' db'.versionSet.current := by
  obtain ⟨fs, hChunks, -, hReplaces⟩ := h.files
  exact ⟨⟨fs, hChunks, hReplaces⟩, h.tables⟩

/-- What the files are after a compaction: those that stay, and at the next level files of what is
kept. -/
theorem Rewrote.origin {v' : Version} (h : Rewrote d db c d' v') (hInv : Inv d db flushed log)
    {level : Nat} {f : FileMetaData} (hf : f ∈ v'.filesAt level) :
    Stays db.versionSet.current c level f ∧ d'.entries f.number = d.entries f.number ∨
      level = c.level + 1 ∧ d'.entries f.number ∈ compactedFiles d db c := by
  obtain ⟨fs, hChunks, hReplaces⟩ := h.files
  rw [hReplaces] at hf
  have hSame : ∀ {level f}, f ∈ db.versionSet.current.filesAt level →
      d'.entries f.number = d.entries f.number := fun {level f} hf =>
    h.tables _ ((hInv.numbered.below level f hf).trans_le hInv.next)
  split at hf
  · next hl =>
    obtain ⟨hf, hNot⟩ := List.mem_filter.mp hf
    exact .inl ⟨⟨hf, fun _ => of_decide_eq_true hNot, fun hl' => by omega⟩, hSame hf⟩
  · split at hf
    · next hl =>
      rcases List.mem_append.mp hf with hf | hf
      · obtain ⟨hf, hNot⟩ := List.mem_filter.mp hf
        exact .inl ⟨⟨hf, fun hl' => by omega, fun _ => of_decide_eq_true hNot⟩, hSame hf⟩
      · exact .inr ⟨hl, hChunks ▸ List.mem_map_of_mem hf⟩
    · next hl hl' => exact .inl ⟨⟨hf, fun h => absurd h hl, fun h => absurd h hl'⟩, hSame hf⟩

theorem Compacted.origin (h : Compacted d db flushed log c d' db') (hInv : Inv d db flushed log)
    {level : Nat} {f : FileMetaData} (hf : f ∈ db'.versionSet.current.filesAt level) :
    Stays db.versionSet.current c level f ∧ d'.entries f.number = d.entries f.number ∨
      level = c.level + 1 ∧ d'.entries f.number ∈ compactedFiles d db c :=
  h.rewrote.origin hInv hf

omit [Crc32c] in
theorem mem_kept_of_chunk {es : List Entry} (hes : es ∈ compactedFiles d db c) {e : Entry}
    (he : e ∈ es) : e ∈ keptEntries d db c := by
  rw [← flatten_compactedFiles]
  exact List.mem_flatten_of_mem hes he

/-- After a compaction that cuts off no file between two versions of a key, the files of a level
share no key. -/
theorem Rewrote.apart {v' : Version} (h : Rewrote d db c d' v') (hInv : Inv d db flushed log)
    (hc : Picked db.versionSet c) (hApart : Apart d db.versionSet.current)
    (hCut : ¬CutsBetweenVersions d db c) : Apart d' v' := by
  obtain ⟨fs, hChunks, hReplaces⟩ := h.files
  have hSame : ∀ {level f}, f ∈ db.versionSet.current.filesAt level →
      d'.entries f.number = d.entries f.number := fun {level f} hf =>
    h.tables _ ((hInv.numbered.below level f hf).trans_le hInv.next)
  intro level hLevel
  have hOld : ((db.versionSet.current.filesAt level).Pairwise fun f g =>
      ∀ x ∈ d'.entries f.number, ∀ y ∈ d'.entries g.number, x.1.userKey ≠ y.1.userKey) := by
    refine (hApart level hLevel).imp_of_mem fun {f g} hf hg hfg => ?_
    rw [hSame hf, hSame hg]
    exact hfg
  rw [hReplaces]
  split
  · exact hOld.filter _
  · split
    · next hl =>
      refine List.pairwise_append.mpr ⟨hOld.filter _, ?_, fun g hg f hf y hy x hx => ?_⟩
      · have hFiles : (compactedFiles d db c).Pairwise KeysApart :=
          cutFiles_apart hCut ((hInv.kept_ascending hc).imp KeyLt.userKey_le)
        rw [← hChunks, List.pairwise_map] at hFiles
        exact hFiles
      · subst hl
        obtain ⟨hg, hNot⟩ := List.mem_filter.mp hg
        have hChunk : d'.entries f.number ∈ compactedFiles d db c :=
          hChunks ▸ List.mem_map_of_mem hf
        rw [hSame hg] at hy
        obtain ⟨f', hf', hx'⟩ := hInv.mem_kept hc (mem_kept_of_chunk hChunk hx)
        exact (hInv.input_apart hc hApart ⟨hg, fun hl => by omega, fun _ => of_decide_eq_true hNot⟩
          hf' hx' hy).symm
    · exact hOld

theorem Compacted.apart (h : Compacted d db flushed log c d' db') (hInv : Inv d db flushed log)
    (hc : Picked db.versionSet c) (hApart : Apart d db.versionSet.current)
    (hCut : ¬CutsBetweenVersions d db c) : Apart d' db'.versionSet.current :=
  h.rewrote.apart hInv hc hApart hCut

omit [Crc32c] in
theorem Picked.overlaps {vs : VersionSet} (hc : Picked vs c) {g : FileMetaData}
    (hg : g ∈ c.inputs.2) : c.inputs.1 ≠ [] ∧ (keyRange c.inputs.1).1 ≤ g.largest.userKey := by
  rw [hc.second] at hg
  split at hg
  · contradiction
  · next hne =>
    refine ⟨hne, not_lt.mp fun hlt => ?_⟩
    have hOverlap := (List.mem_filter.mp hg).2
    rw [userKeyOverlap, if_pos hlt] at hOverlap
    contradiction

/-- A file that stays at the next level, but does not lie past the files that a compaction takes,
lies in front of all keys that it keeps. -/
theorem Inv.stays_le (h : Inv d db flushed log) (hc : Picked db.versionSet c)
    (hOrdered : Ordered db.versionSet.current) {g : FileMetaData}
    (hg : Stays db.versionSet.current c (c.level + 1) g)
    (hPast : g.smallest.userKey ≤ (keyRange c.inputs.1).2) {x : Entry}
    (hx : x ∈ keptEntries d db c) : g.largest.userKey ≤ x.1.userKey := by
  obtain ⟨hgLevel, -, hgStays⟩ := hg
  have hFront : c.inputs.1 ≠ [] → g.largest.userKey < (keyRange c.inputs.1).1 := fun hne =>
    (hc.stays hgLevel (hgStays rfl) hne).resolve_right (not_lt.mpr hPast)
  obtain ⟨f, hf, hxf⟩ := h.mem_kept hc hx
  have hxBounds := (h.input_table hc hf).bounds.1 x hxf
  rcases List.mem_append.mp hf with hf | hf
  · exact ((hFront (List.ne_nil_of_mem hf)).le.trans (keyRange_le hf).1).trans hxBounds.1
  · obtain ⟨hne, hLow⟩ := hc.overlaps hf
    rcases hOrdered.precedes_or (Nat.succ_ne_zero _) hgLevel (hc.mem_second hf)
      (fun h => hgStays rfl (h ▸ hf)) with hfg | hfg
    · exact hfg.trans hxBounds.1
    · have hBounds := (h.tables _ g hgLevel).bounds
      obtain ⟨e, he, hek⟩ := hBounds.2.1
      have hSelf : g.smallest.userKey ≤ g.largest.userKey := hek ▸ (hBounds.1 e he).2
      exact absurd ((hfg.trans hSelf).trans_lt (hFront hne)) (not_lt.mpr hLow)

/-- After a compaction that appends its files in order, the deeper levels are in order. -/
theorem Compacted.ordered (h : Compacted d db flushed log c d' db') (hInv : Inv d db flushed log)
    (hc : Picked db.versionSet c) (hOrdered : Ordered db.versionSet.current)
    (hAppends : AppendsInOrder d db c) : Ordered db'.versionSet.current := by
  obtain ⟨fs, hChunks, -, hReplaces⟩ := id h.files
  intro level hLevel
  have hBounds : ∀ f ∈ fs, level = c.level + 1 → (∃ e ∈ d'.entries f.number, e.1 = f.smallest) ∧
      ∃ e ∈ d'.entries f.number, e.1 = f.largest := by
    intro f hf hl
    refine (h.inv.tables level f ?_).bounds.2
    rw [hReplaces, if_neg (by omega), if_pos hl]
    exact List.mem_append_right _ hf
  rw [hReplaces]
  split
  · exact (hOrdered level hLevel).filter _
  · split
    · next hl =>
      refine List.pairwise_append.mpr ⟨(hOrdered level hLevel).filter _, ?_, fun g hg f hf => ?_⟩
      · have hAsc : Ascending (fs.map fun f => d'.entries f.number).flatten := by
          rw [hChunks, flatten_compactedFiles]
          exact hInv.kept_ascending hc
        rw [Ascending, List.pairwise_flatten, List.pairwise_map] at hAsc
        refine hAsc.2.imp_of_mem fun {f g} hf hg hfg => ?_
        obtain ⟨-, l, hl', hlk⟩ := hBounds f hf hl
        obtain ⟨⟨e, he, hek⟩, -⟩ := hBounds g hg hl
        rw [Precedes, ← hlk, ← hek]
        exact (hfg l hl' e he).userKey_le
      · obtain ⟨⟨e, he, hek⟩, -⟩ := hBounds f hf hl
        obtain ⟨hg, hNot⟩ := List.mem_filter.mp hg
        have hKept : e ∈ keptEntries d db c :=
          mem_kept_of_chunk (hChunks ▸ List.mem_map_of_mem hf) he
        subst hl
        rw [Precedes, ← hek]
        refine hInv.stays_le hc hOrdered ⟨hg, fun hl => by omega, fun _ => of_decide_eq_true hNot⟩
          (hAppends.resolve_left (List.ne_nil_of_mem hKept) g hg) hKept
    · exact hOrdered level hLevel

/-- After a compaction, the files that a reader comes to first still hold the newer versions. -/
theorem Rewrote.recent {v' : Version} (h : Rewrote d db c d' v') (hInv : Inv d db flushed log)
    (hc : Picked db.versionSet c) (hRecent : Recent d db.versionSet.current)
    (hApart : Apart d db.versionSet.current) : Recent d' v' := by
  -- Where a version was before: at its level, or at the level of the compaction if it moved down.
  have hOrigin : ∀ level, ∀ f ∈ v'.filesAt level,
      ∀ x ∈ d'.entries f.number, ∃ level' g, g ∈ db.versionSet.current.filesAt level' ∧
        x ∈ d.entries g.number ∧ (level' = level ∧ (level = c.level → g ∉ c.inputs.1) ∨
          level = c.level + 1 ∧ level' = c.level ∧ g ∈ c.inputs.1) := by
    intro level f hf x hx
    rcases h.origin hInv hf with ⟨⟨hf, hNot, -⟩, hEntries⟩ | ⟨rfl, hChunk⟩
    · exact ⟨level, f, hf, hEntries ▸ hx, .inl ⟨rfl, hNot⟩⟩
    · obtain ⟨g, hg, hxg⟩ := hInv.mem_kept hc (mem_kept_of_chunk hChunk hx)
      rcases List.mem_append.mp hg with hg | hg
      · exact ⟨c.level, g, hc.mem_first hg, hxg, .inr ⟨rfl, rfl, hg⟩⟩
      · exact ⟨c.level + 1, g, hc.mem_second hg, hxg, .inl ⟨rfl, fun hl => by omega⟩⟩
  constructor
  · obtain ⟨fs, -, hReplaces⟩ := h.files
    rw [hReplaces]
    by_cases h0 : c.level = 0
    · rw [if_pos h0.symm, hc.zero h0]
      have hNil : ((db.versionSet.current.filesAt 0).filter fun f =>
          f ∉ db.versionSet.current.filesAt 0) = [] := by simp
      rw [hNil]
      exact List.Pairwise.nil
    · rw [if_neg (Ne.symm h0), if_neg (by omega)]
      refine hRecent.zero.imp_of_mem fun {f g} hf hg hfg => ?_
      have hSame : ∀ f ∈ db.versionSet.current.filesAt 0,
          d'.entries f.number = d.entries f.number := fun f hf =>
        h.tables _ ((hInv.numbered.below 0 f hf).trans_le hInv.next)
      rw [hSame f hf, hSame g hg]
      exact hfg
  · intro i j hij f hf g hg x hx y hy hk
    obtain ⟨i', f', hf', hx', hi⟩ := hOrigin i f hf x hx
    obtain ⟨j', g', hg', hy', hj⟩ := hOrigin j g hg y hy
    by_cases hlt : i' < j'
    · exact hRecent.deeper i' j' hlt f' hf' g' hg' x hx' y hy' hk
    · -- The older one moved down from the level at which the newer one stayed.
      rcases hj with ⟨rfl, -⟩ | ⟨rfl, rfl, hgIn⟩
      · rcases hi with ⟨rfl, -⟩ | ⟨rfl, rfl, -⟩ <;> omega
      · rcases hi with ⟨rfl, hNot⟩ | ⟨rfl, rfl, -⟩
        · obtain rfl : i' = c.level := by omega
          have hfNot := hNot rfl
          by_cases h0 : c.level = 0
          · rw [hc.zero h0, ← h0] at hfNot
            exact absurd hf' hfNot
          · exact absurd hk (hApart.keys_ne h0 hf' hg' (fun h => hfNot (h ▸ hgIn)) hx' hy')
        · omega

theorem Compacted.recent (h : Compacted d db flushed log c d' db') (hInv : Inv d db flushed log)
    (hc : Picked db.versionSet c) (hRecent : Recent d db.versionSet.current)
    (hApart : Apart d db.versionSet.current) : Recent d' db'.versionSet.current :=
  h.rewrote.recent hInv hc hRecent hApart

/-- The versions in the files that a compaction does not read. -/
def staying (d : Dir) (v : Version) (c : Compaction) : Set Entry :=
  {e | ∃ level f, Stays v c level f ∧ e ∈ d.entries f.number}

/-- The versions that a compaction does not read. -/
def unread (d : Dir) (db : Db) (c : Compaction) : Set Entry :=
  versions db.memtable.skiplist ∪
    {e | ∃ level f, Stays db.versionSet.current c level f ∧ e ∈ d.entries f.number}

theorem Inv.contents_inputs (h : Inv d db flushed log) (hc : Picked db.versionSet c) :
    db.contents d = unread d db c ∪ versions (mergedInputs d c) := by
  have hMerged : ∀ e, e ∈ mergedInputs d c ↔ ∃ f ∈ c.inputFiles, e ∈ d.entries f.number :=
    fun e => (h.merged_spec hc).1.mem_iff.trans mem_entriesIn
  ext e
  constructor
  · rintro (he | ⟨level, f, hf, he⟩)
    · exact .inl (.inl he)
    · by_cases hFirst : level = c.level ∧ f ∈ c.inputs.1
      · exact .inr ((hMerged e).mpr ⟨f, List.mem_append_left _ hFirst.2, he⟩)
      · by_cases hSecond : level = c.level + 1 ∧ f ∈ c.inputs.2
        · exact .inr ((hMerged e).mpr ⟨f, List.mem_append_right _ hSecond.2, he⟩)
        · exact .inl (.inr ⟨level, f, ⟨hf, not_and.mp hFirst, not_and.mp hSecond⟩, he⟩)
  · rintro ((he | ⟨level, f, hf, he⟩) | he)
    · exact .inl he
    · exact .inr ⟨level, f, hf.1, he⟩
    · obtain ⟨f, hf, he⟩ := (hMerged e).mp he
      rcases List.mem_append.mp hf with hf | hf
      · exact .inr ⟨_, f, hc.mem_first hf, he⟩
      · exact .inr ⟨_, f, hc.mem_second hf, he⟩

/-- The table files hold what stays and what was kept. -/
theorem Rewrote.stored {v' : Version} (h : Rewrote d db c d' v') (hInv : Inv d db flushed log) :
    MulanLsm.stored d' v' =
      staying d db.versionSet.current c ∪ versions (keptEntries d db c) := by
  obtain ⟨fs, hChunks, hReplaces⟩ := id h.files
  ext e
  constructor
  · rintro ⟨level, f, hf, he⟩
    rcases h.origin hInv hf with ⟨hStays, hEntries⟩ | ⟨-, hChunk⟩
    · exact .inl ⟨level, f, hStays, hEntries ▸ he⟩
    · exact .inr (mem_kept_of_chunk hChunk he)
  · rintro (⟨level, f, ⟨hf, hFirst, hSecond⟩, he⟩ | he)
    · refine ⟨level, f, ?_, ?_⟩
      · rw [hReplaces]
        split
        · next hl => exact List.mem_filter.mpr ⟨hf, decide_eq_true (hFirst hl)⟩
        · split
          · next hl =>
            exact List.mem_append_left _ (List.mem_filter.mpr ⟨hf, decide_eq_true (hSecond hl)⟩)
          · exact hf
      · rw [h.tables _ ((hInv.numbered.below level f hf).trans_le hInv.next)]
        exact he
    · replace he : e ∈ keptEntries d db c := he
      rw [← flatten_compactedFiles, ← hChunks] at he
      obtain ⟨es, hes, he⟩ := List.mem_flatten.mp he
      obtain ⟨f, hf, rfl⟩ := List.mem_map.mp hes
      refine ⟨c.level + 1, f, ?_, he⟩
      rw [hReplaces, if_neg (by omega), if_pos rfl]
      exact List.mem_append_right _ hf

theorem Compacted.contents (h : Compacted d db flushed log c d' db') (hInv : Inv d db flushed log) :
    db'.contents d' = unread d db c ∪ versions (keptEntries d db c) := by
  rw [Db.contents, h.rewrote.stored hInv, h.mem, ← Set.union_assoc]
  rfl

/-- A reader no older than the oldest snapshot finds the same in what a compaction keeps. -/
theorem Inv.keeps_reads (hInv : Inv d db flushed log)
    (hc : Picked db.versionSet c) (hRecent : Recent d db.versionSet.current)
    (hApart : Apart d db.versionSet.current) {k : Bytes} {s : Nat} {r : Option Bytes}
    (hs : db.versionSet.oldestSnapshotSeq ≤ s) :
    Reads (unread d db c ∪ versions (mergedInputs d c)) k s r ↔
      Reads (unread d db c ∪ versions (keptEntries d db c)) k s r := by
  obtain ⟨hPerm, hAsc⟩ := hInv.merged_spec hc
  refine reads_keep hAsc (fun x hx hBase y hy hk => ?_) hs
  obtain ⟨f, hf, hxf⟩ := mem_entriesIn.mp (hPerm.mem_iff.mp hx)
  obtain ⟨level', hf', hle⟩ : ∃ level', f ∈ db.versionSet.current.filesAt level' ∧
      (level' = c.level ∧ f ∈ c.inputs.1 ∨ level' = c.level + 1) := by
    rcases List.mem_append.mp hf with hf | hf
    · exact ⟨_, hc.mem_first hf, .inl ⟨rfl, hf⟩⟩
    · exact ⟨_, hc.mem_second hf, .inr rfl⟩
  rcases hy with hy | ⟨level, g, hg, hy⟩
  · exact ((hInv.tables level' f hf').seqs x hxf).trans_lt (hInv.mem.seqs y hy).1
  by_cases hlt : level < level'
  · exact hRecent.deeper level level' hlt g hg.1 f hf' y hy x hxf hk
  -- At the levels of the compaction no file that stays has the key, nor has a deeper one.
  by_cases hBelow : c.level + 2 ≤ level
  · refine absurd ?_ (isBaseLevelForUserKey_iff.mp hBase level hBelow g hg.1)
    exact hk ▸ (hInv.tables level g hg.1).bounds.1 y hy
  by_cases hNext : level = c.level + 1
  · subst hNext
    exact absurd hk.symm (hInv.input_apart hc hApart hg hf hxf hy)
  · obtain rfl : level = c.level := by omega
    obtain ⟨rfl, hfIn⟩ : level' = c.level ∧ f ∈ c.inputs.1 := hle.resolve_right (by omega)
    have hgNot := hg.2.1 rfl
    by_cases h0 : c.level = 0
    · rw [hc.zero h0, ← h0] at hgNot
      exact absurd hg.1 hgNot
    · exact absurd hk (hApart.keys_ne h0 hg.1 hf' (fun hgf => hgNot (hgf ▸ hfIn)) hy hxf)

/-- A reader no older than the oldest snapshot finds the same after a compaction. -/
theorem Compacted.reads (h : Compacted d db flushed log c d' db') (hInv : Inv d db flushed log)
    (hc : Picked db.versionSet c) (hRecent : Recent d db.versionSet.current)
    (hApart : Apart d db.versionSet.current) {k : Bytes} {s : Nat} {r : Option Bytes}
    (hs : db.versionSet.oldestSnapshotSeq ≤ s) :
    Reads (db.contents d) k s r ↔ Reads (db'.contents d') k s r := by
  rw [hInv.contents_inputs hc, h.contents hInv]
  exact hInv.keeps_reads hc hRecent hApart hs

omit [Crc32c] in
@[simp] theorem versions_emptied (db : Db) (next : Nat) :
    versions (emptied db next).memtable.skiplist = ∅ :=
  Set.eq_empty_of_forall_notMem fun _ => List.not_mem_nil

omit [Crc32c] in
/-- Without its memory table a database holds what the table files have. -/
theorem contents_emptied (d : Dir) (db : Db) (next : Nat) :
    (emptied db next).contents d = stored d db.versionSet.current := by
  rw [Db.contents, versions_emptied, Set.empty_union]
  rfl

/-- That is so in the table files alone. -/
theorem Rewrote.reads {v' : Version} (h : Rewrote d db c d' v') (hInv : Inv d db flushed log)
    (hc : Picked db.versionSet c) (hRecent : Recent d db.versionSet.current)
    (hApart : Apart d db.versionSet.current) {k : Bytes} {s : Nat} {r : Option Bytes}
    (hs : db.versionSet.oldestSnapshotSeq ≤ s) :
    Reads (MulanLsm.stored d db.versionSet.current) k s r ↔
      Reads (MulanLsm.stored d' v') k s r := by
  have hEmptied := hInv.emptied (le_refl db.idGen.next)
  have hUnread : unread d (emptied db db.idGen.next) c = staying d db.versionSet.current c := by
    rw [unread, versions_emptied, Set.empty_union]
    rfl
  rw [← contents_emptied d db db.idGen.next, hEmptied.contents_inputs hc, h.stored hInv, ← hUnread]
  exact hEmptied.keeps_reads hc hRecent hApart hs

omit [Crc32c] in
theorem not_cutsKey_of_distinct {blockTarget bitsPerKey next : Nat} {pen : Option Pen}
    {es : List Entry} (h : ((pen.map (·.builder.entries)).getD [] ++ es).Pairwise
      fun x y => x.1.userKey ≠ y.1.userKey) : ¬CutsKey c blockTarget bitsPerKey next pen es := by
  induction es generalizing next pen with
  | nil => rw [CutsKey]; exact id
  | cons e es ih =>
    cases pen with
    | none =>
      rw [CutsKey]
      apply ih
      simpa [Pen.new, TableBuilder.withOptions] using h
    | some p =>
      rw [CutsKey]
      split
      · rw [not_or]
        refine ⟨fun hCut => ?_, ih ?_⟩
        · obtain ⟨l, hl, hk⟩ := Option.map_eq_some_iff.mp hCut
          refine (List.pairwise_append.mp h).2.2 l ?_ e List.mem_cons_self hk
          exact List.mem_of_getLast? (by simpa using hl)
        · simpa [Pen.write, Pen.new, TableBuilder.withOptions] using
            (List.pairwise_append.mp h).2.1
      · apply ih
        simpa [Pen.write] using h

/-- Without snapshots a compaction keeps one version of a key at most, so it cannot cut a file off
between two. -/
theorem Inv.not_cuts (h : Inv d db flushed log) (hc : Picked db.versionSet c)
    (hOldest : flushed ≤ db.versionSet.oldestSnapshotSeq) : ¬CutsBetweenVersions d db c := by
  apply not_cutsKey_of_distinct
  have hMerged := (h.merged_spec hc).2
  refine (h.kept_ascending hc).imp_of_mem fun {x y} hx hy hxy hk => ?_
  obtain ⟨hyIn, hNeeded, -⟩ := (mem_keep hMerged y).mp hy
  obtain ⟨hxIn, -⟩ := (mem_keep hMerged x).mp hx
  have hlt : y.1.seq < x.1.seq := (hxy.resolve_left fun hlt => absurd hk hlt.ne).2
  have hNew := hNeeded x hxIn hk hlt
  obtain ⟨f, hf, hxf⟩ := h.mem_kept hc hx
  have hLe := (h.input_table hc hf).seqs x hxf
  omega

end Compacting

end MulanLsm
