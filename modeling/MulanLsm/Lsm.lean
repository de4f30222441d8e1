import MulanLsm.Reading
import MulanLsm.Reopening
import MulanLsm.RunCompaction

/-! The order of the levels.  A reader takes the first version that it finds on its way from the
memory table down the levels, and in a deeper level looks in one file only.  That is the newest
version as long as each key's versions are newer the earlier they come on that way, no two files of
a deeper level share a key, and its files are listed in ascending order. -/

namespace MulanLsm

open Versioned (Newer Answers)

/-- The versions in the files of a version. -/
def stored (d : Dir) (v : Version) : Set Entry :=
  {e | ∃ level, ∃ f ∈ v.filesAt level, e ∈ d.entries f.number}

/-- All versions that a database holds. -/
def Db.contents (d : Dir) (db : Db) : Set Entry :=
  versions db.memtable.skiplist ∪ stored d db.versionSet.current

/-- Of every key, the versions in a file are newer than those in a file that a reader comes to
later. -/
structure Recent (d : Dir) (v : Version) : Prop where
  zero : (v.filesAt 0).Pairwise fun f g =>
    Newer (versions (d.entries g.number)) (versions (d.entries f.number))
  deeper : ∀ i j, i < j → ∀ f ∈ v.filesAt i, ∀ g ∈ v.filesAt j,
    Newer (versions (d.entries f.number)) (versions (d.entries g.number))

/-- No two files of a deeper level hold versions of one key. -/
def Apart (d : Dir) (v : Version) : Prop :=
  ∀ level, level ≠ 0 → (v.filesAt level).Pairwise fun f g =>
    ∀ x ∈ d.entries f.number, ∀ y ∈ d.entries g.number, x.1.userKey ≠ y.1.userKey

/-- A file lies in front of another one: their key ranges share one key at most. -/
def Precedes (f g : FileMetaData) : Prop := f.largest.userKey ≤ g.smallest.userKey

/-- The files of the deeper levels are listed in the order of their keys. -/
def Ordered (v : Version) : Prop := ∀ level, level ≠ 0 → (v.filesAt level).Pairwise Precedes

theorem Apart.keys_ne {d : Dir} {v : Version} (h : Apart d v) {level : Nat} (hLevel : level ≠ 0)
    {f g : FileMetaData} (hf : f ∈ v.filesAt level) (hg : g ∈ v.filesAt level) (hne : f ≠ g)
    {x y : Entry} (hx : x ∈ d.entries f.number) (hy : y ∈ d.entries g.number) :
    x.1.userKey ≠ y.1.userKey := by
  have hSym : Std.Symm fun f g : FileMetaData =>
      ∀ x ∈ d.entries f.number, ∀ y ∈ d.entries g.number, x.1.userKey ≠ y.1.userKey :=
    ⟨fun f g h x hx y hy => (h y hy x hx).symm⟩
  exact (h level hLevel).forall hf hg hne x hx y hy

theorem Ordered.precedes_or {v : Version} (h : Ordered v) {level : Nat} (hLevel : level ≠ 0)
    {f g : FileMetaData} (hf : f ∈ v.filesAt level) (hg : g ∈ v.filesAt level) (hne : f ≠ g) :
    Precedes f g ∨ Precedes g f := by
  have hSym : Std.Symm fun f g : FileMetaData => Precedes f g ∨ Precedes g f :=
    ⟨fun _ _ => Or.symm⟩
  have hPair : (v.filesAt level).Pairwise fun f g => Precedes f g ∨ Precedes g f :=
    (h level hLevel).imp .inl
  exact hPair.forall hf hg hne

section Finding

variable {files : List FileMetaData} {key : Bytes}

/-- The key is between the bounds of the file. -/
def FileMetaData.Covers (f : FileMetaData) (key : Bytes) : Prop :=
  f.smallest.userKey ≤ key ∧ key ≤ f.largest.userKey

instance (f : FileMetaData) (key : Bytes) : Decidable (f.Covers key) := by
  unfold FileMetaData.Covers; infer_instance

/-- Among files in order, the search finds one that covers the key, if there is one. -/
theorem findFileForKey_spec (key : Bytes) (hOrder : files.Pairwise Precedes)
    (hFiles : ∀ f ∈ files, f.smallest.userKey ≤ f.largest.userKey) :
    match findFileForKey files key with
    | some f => f ∈ files ∧ f.Covers key
    | none => ∀ f ∈ files, ¬f.Covers key := by
  set p : FileMetaData → Bool := fun f => f.smallest.userKey ≤ key with hp
  have hDown : files.Pairwise fun f g => p g = true → p f = true := by
    refine hOrder.imp_of_mem fun {f g} hf _ hfg hg => ?_
    simp only [hp, decide_eq_true_eq] at hg ⊢
    exact (hFiles f hf).trans (hfg.trans hg)
  have hPart := Search.partitioned_takeWhile hDown
  set n := (files.takeWhile p).length with hn
  have hLe : n ≤ files.length := (files.takeWhile_prefix p).length_le
  have hIdx : Search.partitionPoint p files = n := Search.partitionPoint_eq hPart hLe
  have hPast : ∀ i (hi : i < files.length), n ≤ i → ¬files[i].Covers key := by
    intro i hi hni hCovers
    have := (hPart i hi).mp (decide_eq_true hCovers.1)
    omega
  unfold findFileForKey
  simp only [← hp, hIdx]
  by_cases h0 : n = 0
  · rw [if_pos h0]
    intro f hf
    obtain ⟨i, hi, rfl⟩ := List.getElem_of_mem hf
    exact hPast i hi (by omega)
  · have hLast : n - 1 < files.length := by omega
    have hSmall : files[n - 1].smallest.userKey ≤ key :=
      of_decide_eq_true ((hPart (n - 1) hLast).mpr (by omega))
    rw [if_neg h0, List.getElem?_eq_getElem hLast]
    by_cases hLarge : key ≤ files[n - 1].largest.userKey
    · simp only [if_pos hLarge]
      exact ⟨List.getElem_mem _, hSmall, hLarge⟩
    · simp only [if_neg hLarge]
      intro f hf
      obtain ⟨i, hi, rfl⟩ := List.getElem_of_mem hf
      rcases Nat.lt_trichotomy i (n - 1) with hlt | rfl | hgt
      · intro hCovers
        -- The key would be the bound that the two files share.
        have hBetween := List.pairwise_iff_getElem.mp hOrder i (n - 1) hi hLast hlt
        exact hLarge ((hCovers.2.trans hBetween).trans (hFiles _ (List.getElem_mem _)))
      · exact fun hCovers => hLarge hCovers.2
      · exact hPast i hi (by omega)

end Finding

section Looking

variable [Crc32c] {d : Dir} {db : Db} {flushed : Nat} {log : List WalEntry} {key : Bytes} {s : Nat}

omit [Crc32c] in
theorem Sorted.answers {es : List Entry} (h : Sorted es) (key : Bytes) (s : Nat) :
    Answers (versions es) key s (seek es key s) := by
  cases he : seek es key s with
  | some e => exact h.seek_some he
  | none => exact h.seek_none he

omit [Crc32c] in
/-- The keys of a file are between its bounds, which are keys of it. -/
theorem TableOk.bounds {last : Nat} {f : FileMetaData} (h : TableOk d last f) :
    (∀ e ∈ d.entries f.number, f.Covers e.1.userKey) ∧
      (∃ e ∈ d.entries f.number, e.1 = f.smallest) ∧ ∃ e ∈ d.entries f.number, e.1 = f.largest := by
  obtain ⟨e, he, hk⟩ := Option.map_eq_some_iff.mp h.describes.smallest
  obtain ⟨l, hl, hlk⟩ := Option.map_eq_some_iff.mp h.describes.largest
  refine ⟨fun x hx => ⟨?_, ?_⟩, ⟨e, List.mem_of_head? he, hk⟩, l, List.mem_of_getLast? hl, hlk⟩
  · obtain ⟨es, hes⟩ : ∃ es, d.entries f.number = e :: es := by
      obtain ⟨es, hes⟩ := List.head?_eq_some_iff.mp he
      exact ⟨es, hes⟩
    have hAsc := h.ascending
    rw [hes] at hx
    rw [hes, Ascending, List.pairwise_cons] at hAsc
    rw [← hk]
    rcases List.mem_cons.mp hx with rfl | hx
    · exact le_rfl
    · exact (hAsc.1 x hx).userKey_le
  · obtain ⟨es, hes⟩ : ∃ es, d.entries f.number = es ++ [l] := List.getLast?_eq_some_iff.mp hl
    have hAsc := h.ascending
    rw [hes] at hx
    rw [hes, Ascending, List.pairwise_append] at hAsc
    rw [← hlk]
    rcases List.mem_append.mp hx with hx | hx
    · exact (hAsc.2.2 x hx l (List.mem_singleton_self l)).userKey_le
    · rw [List.mem_singleton.mp hx]

omit [Crc32c] in
/-- What a reader finds in a deeper level. -/
theorem level_answers {last level : Nat} {v : Version} (hTables : TablesOk d last v)
    (hApart : Apart d v) (hOrdered : Ordered v) (hLevel : level ≠ 0) :
    Answers {e | ∃ f ∈ v.filesAt level, e ∈ d.entries f.number} key s
      ((findFileForKey (v.filesAt level) key).bind fun f => seek (d.entries f.number) key s) := by
  have hEach : ∀ f ∈ v.filesAt level, f.smallest.userKey ≤ f.largest.userKey := by
    intro f hf
    obtain ⟨hCovers, ⟨e, he, hk⟩, -⟩ := (hTables level f hf).bounds
    rw [← hk]
    exact (hCovers e he).2
  have hFind := findFileForKey_spec key (hOrdered level hLevel) hEach
  cases hFile : findFileForKey (v.filesAt level) key with
  | none =>
    rw [hFile] at hFind
    rintro x ⟨⟨f, hf, hx⟩, hk, -⟩
    exact hFind f hf (hk ▸ (hTables level f hf).bounds.1 x hx)
  | some f =>
    rw [hFile] at hFind
    obtain ⟨hf, hCovers⟩ := hFind
    refine ((hTables level f hf).ascending.sorted.answers key s).congr fun x hk _ =>
      ⟨fun hx => ⟨f, hf, hx⟩, ?_⟩
    rintro ⟨g, hg, hx⟩
    by_contra hNot
    have hne : f ≠ g := fun h => hNot (h ▸ hx)
    obtain ⟨-, ⟨e, he, hek⟩, l, hl, hlk⟩ := (hTables level f hf).bounds
    have hg' := (hTables level g hg).bounds.1 x hx
    replace hk : x.1.userKey = key := hk
    rw [hk] at hg'
    -- The bound that the two files share would be a key of both.
    rcases hOrdered.precedes_or hLevel hf hg hne with h | h
    · exact hApart.keys_ne hLevel hf hg hne hl hx
        (by rw [hlk, hk]; exact le_antisymm (h.trans hg'.1) hCovers.2)
    · exact hApart.keys_ne hLevel hf hg hne he hx
        (by rw [hek, hk]; exact le_antisymm hCovers.1 (hg'.2.trans h))

/-- A reader finds the newest version that it may see. -/
theorem Inv.lookup_answers (h : Inv d db flushed log) (hRecent : Recent d db.versionSet.current)
    (hApart : Apart d db.versionSet.current) (hOrdered : Ordered db.versionSet.current) :
    Answers (db.contents d) key s (db.lookup d s key) := by
  set v := db.versionSet.current with hv
  have hZero : Answers {e | ∃ f ∈ (v.filesAt 0).reverse, e ∈ versions (d.entries f.number)} key s
      ((v.filesAt 0).reverse.findSome? fun f => seek (d.entries f.number) key s) := by
    refine Answers.findSome (List.pairwise_reverse.mpr hRecent.zero) fun f hf => ?_
    exact (h.tables 0 f (List.mem_reverse.mp hf)).ascending.sorted.answers key s
  have hDeeper : Answers {e | ∃ level ∈ List.range' 1 (numLevels - 1),
        e ∈ {e | ∃ f ∈ v.filesAt level, e ∈ d.entries f.number}} key s
      ((List.range' 1 (numLevels - 1)).findSome? fun level =>
        (findFileForKey (v.filesAt level) key).bind fun f => seek (d.entries f.number) key s) := by
    refine Answers.findSome ?_ fun level hLevel => ?_
    · refine (List.pairwise_lt_range' 1).imp fun {i j} hij => ?_
      rintro x ⟨f, hf, hx⟩ y ⟨g, hg, hy⟩ hk
      exact hRecent.deeper i j hij f hf g hg x hx y hy hk
    · have := (List.mem_range'_1.mp hLevel).1
      exact level_answers h.tables hApart hOrdered (by omega)
  have hNewer : Newer {e | ∃ f ∈ (v.filesAt 0).reverse, e ∈ versions (d.entries f.number)}
      {e | ∃ level ∈ List.range' 1 (numLevels - 1),
        e ∈ {e | ∃ f ∈ v.filesAt level, e ∈ d.entries f.number}} := by
    rintro x ⟨f, hf, hx⟩ y ⟨level, hLevel, g, hg, hy⟩ hk
    have := (List.mem_range'_1.mp hLevel).1
    exact hRecent.deeper 0 level (by omega) f (List.mem_reverse.mp hf) g hg x hx y hy hk
  have hStored := hZero.union hNewer hDeeper
  have hMem : Newer (versions db.memtable.skiplist) (stored d v) := by
    rintro x hx y ⟨level, f, hf, hy⟩ -
    exact ((h.tables level f hf).seqs y hy).trans_lt (h.mem.seqs x hx).1
  rw [Db.lookup, filesForKey, List.findSome?_append,
    ← List.head?_filterMap (l := List.filterMap _ _),
    List.filterMap_filterMap, List.head?_filterMap]
  refine (h.mem.ascending.sorted.answers key s).union hMem (hStored.congr fun x _ _ => ?_)
  constructor
  · rintro (⟨f, hf, hx⟩ | ⟨level, -, f, hf, hx⟩)
    · exact ⟨0, f, List.mem_reverse.mp hf, hx⟩
    · exact ⟨level, f, hf, hx⟩
  · rintro ⟨level, f, hf, hx⟩
    by_cases h0 : level = 0
    · subst h0
      exact .inl ⟨f, List.mem_reverse.mpr hf, hx⟩
    · refine .inr ⟨level, List.mem_range'_1.mpr ⟨by omega, ?_⟩, f, hf, hx⟩
      by_contra hNot
      rw [Version.filesAt_of_le (by unfold numLevels at *; omega)] at hf
      contradiction

/-- No two versions of a key in a database have the same sequence number. -/
theorem Inv.distinct_contents (h : Inv d db flushed log) : Versioned.Distinct (db.contents d) := by
  have hMem : ∀ x ∈ db.memtable.skiplist, ∀ y ∈ stored d db.versionSet.current,
      x.1.seq ≠ y.1.seq := by
    rintro x hx y ⟨level, f, hf, hy⟩
    have := (h.tables level f hf).seqs y hy
    have := (h.mem.seqs x hx).1
    omega
  rintro x (hx | hx) y (hy | hy) hk hs
  · exact h.mem.ascending.distinct x hx y hy hk hs
  · exact absurd hs (hMem x hx y hy)
  · exact absurd hs (hMem y hy x hx).symm
  · obtain ⟨level, f, hf, hx⟩ := hx
    obtain ⟨level', g, hg, hy⟩ := hy
    by_cases hfg : f.number = g.number
    · rw [← hfg] at hy
      exact (h.tables level f hf).ascending.distinct x hx y hy hk hs
    · exact absurd hs (h.distinct level level' f hf g hg hfg x hx y hy hk)

/-- What a reader gets is what the versions of the database say. -/
theorem Inv.reads_lookup (h : Inv d db flushed log) (hRecent : Recent d db.versionSet.current)
    (hApart : Apart d db.versionSet.current) (hOrdered : Ordered db.versionSet.current)
    {r : Option Bytes} (hReads : Versioned.Reads (db.contents d) key s r) :
    (db.lookup d s key).bind Entry.value = r :=
  (h.lookup_answers hRecent hApart hOrdered).reads.unique h.distinct_contents hReads

end Looking

end MulanLsm
