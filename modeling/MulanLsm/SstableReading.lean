import MulanLsm.Sstable

/-! Reading table files.  A finished file is opened; an iterator over it gives back all that the
builder was given, and a reader finds the newest version of a key that it may see. -/

namespace MulanLsm

open Slice BlockBuilder

namespace Sstable

section Reading

variable {data : Bytes} {blocks : List Entries} {bloom : BloomFilter}
  {filterHandle metaindexHandle indexHandle : BlockHandle}

theorem PointsAt.block {handle : BlockHandle} {es : Entries}
    (h : PointsAt data handle (of es).finish) (hSmall : Small es) :
    ∃ b, Sstable.rangeOf data handle = some (of es).finish ∧ Block.new (of es).finish = .ok b ∧
      b.Contains es := by
  obtain ⟨b, hNew, hContains⟩ := Block.new_finish hSmall
  exact ⟨b, h.rangeOf, hNew, hContains⟩

theorem readBloom_eq (h : IsTable data blocks bloom filterHandle metaindexHandle indexHandle)
    (hk : bloom.k < 256) : TableReader.readBloom data metaindexHandle = some bloom := by
  have hSmall : Small (metaindexBlock filterHandle) :=
    (metaindex_small filterHandle).trans (by decide)
  obtain ⟨b, hRange, hNew, hContains⟩ := h.metaindex.block hSmall
  have hGet : b.get filterMetaKey cmp = some filterHandle.encode := by
    have hSelf : (cmp filterMetaKey filterMetaKey == Ordering.eq) = true :=
      beq_iff_eq.mpr (cmp_bytes_self _)
    rw [hContains.get (List.cons_ne_nil _ _) (List.pairwise_singleton _ _)]
    exact congrArg (Option.map Prod.snd) (List.find?_cons_of_pos hSelf)
  have hDecode := h.filter.decode h.short []
  rw [List.append_nil] at hDecode
  rw [TableReader.readBloom, hRange, Option.bind_eq_bind, Option.bind_some, hNew]
  rw [Except.toOption, Option.bind_eq_bind, Option.bind_some, hGet]
  simp only [hDecode, h.filter.rangeOf, Except.toOption, Option.bind_eq_bind, Option.bind_some]
  exact BloomFilter.fromBytes_finish hk

/-- A finished file is opened as the table that it is. -/
theorem open_eq (h : IsTable data blocks bloom filterHandle metaindexHandle indexHandle)
    (hk : bloom.k < 256) :
    TableReader.open data = .ok { data, indexHandle, bloom := some bloom } := by
  obtain ⟨pre, hFooter⟩ := h.footer
  have hLength := footer_length metaindexHandle indexHandle
  have hEnd : data.drop (data.length - footerLen) =
      MulanLsm.TableBuilder.footer metaindexHandle indexHandle := by
    rw [hFooter, List.length_append, hLength, Nat.add_sub_cancel, List.drop_left' rfl]
  have hMagic : fromLeBytes ((MulanLsm.TableBuilder.footer metaindexHandle indexHandle).drop
      (footerLen - 8)) = tableMagic := by
    have hHandles : (MulanLsm.TableBuilder.footer metaindexHandle indexHandle).length - 8 =
        footerLen - 8 := by rw [hLength]
    rw [MulanLsm.TableBuilder.footer, List.length_append, toLeBytes_length,
      Nat.add_sub_cancel] at hHandles
    rw [MulanLsm.TableBuilder.footer, List.drop_left' hHandles]
    decide
  have hDecode := h.metaindex.decode h.short (indexHandle.encode ++ (List.replicate
    (footerLen - 8 - (metaindexHandle.encode ++ indexHandle.encode).length) 0 ++
      toLeBytes 8 tableMagic))
  have hDecode' := h.index.decode h.short (List.replicate
    (footerLen - 8 - (metaindexHandle.encode ++ indexHandle.encode).length) 0 ++
      toLeBytes 8 tableMagic)
  have hParts : MulanLsm.TableBuilder.footer metaindexHandle indexHandle =
      metaindexHandle.encode ++ (indexHandle.encode ++ (List.replicate
        (footerLen - 8 - (metaindexHandle.encode ++ indexHandle.encode).length) 0 ++
          toLeBytes 8 tableMagic)) := by
    simp [MulanLsm.TableBuilder.footer]
  rw [TableReader.open, if_neg (by rw [hFooter, List.length_append, hLength]; omega)]
  simp only [hEnd, hMagic, ne_eq, not_true, if_false]
  rw [hParts, hDecode]
  simp only [bind, Except.bind, List.drop_left']
  rw [hDecode', readBloom_eq h hk]
  rfl

/-- What a search finds in a table that is in order for `target`. -/
theorem IsTable.lowerBound {target : Bytes} {cmp : Bytes → Bytes → Ordering}
    (h : IsTable data blocks bloom filterHandle metaindexHandle indexHandle)
    (hFilled : ∀ es ∈ blocks, es ≠ [])
    (hOrd : blocks.flatten.Pairwise fun x y => cmp target y.1 = .gt → cmp target x.1 = .gt) :
    ∃ index, rangeOf data indexHandle = some (of ((place 0 blocks).map indexEntry)).finish ∧
      Block.new (of ((place 0 blocks).map indexEntry)).finish = .ok index ∧
      ((index.lowerBound target cmp = none ∧
        (blocks.flatten.find? fun e => !(cmp target e.1 == .gt)) = none) ∨
      ∃ es handle block, index.lowerBound target cmp = some handle.encode ∧
        PointsAt data handle (of es).finish ∧ Block.new (of es).finish = .ok block ∧
        block.lowerBoundKv target cmp =
          blocks.flatten.find? fun e => !(cmp target e.1 == .gt)) := by
  obtain ⟨index, hRange, hNew, hContains⟩ := h.index.block h.indexSmall
  refine ⟨index, hRange, hNew, ?_⟩
  have hLast : ∀ q ∈ place 0 blocks, q.1.getLast?.any (fun e => !(cmp target e.1 == .gt)) =
      !(cmp target (of q.1).lastKey == .gt) ∧ ∃ e ∈ q.1, (of q.1).lastKey = e.1 := by
    intro q hq
    have hMem : q.1 ∈ blocks := place_fst 0 blocks ▸ List.mem_map_of_mem hq
    obtain ⟨init, e, hInit⟩ := List.eq_nil_or_concat' q.1 |>.resolve_left (hFilled _ hMem)
    rw [hInit, List.getLast?_concat, of_append]
    exact ⟨rfl, e, by simp, rfl⟩
  obtain ⟨hEach, hBetween⟩ := List.pairwise_flatten.mp hOrd
  have hIndexOrd : ((place 0 blocks).map indexEntry).Pairwise
      fun x y => cmp target y.1 = .gt → cmp target x.1 = .gt := by
    rw [List.pairwise_map]
    rw [← place_fst 0 blocks, List.pairwise_map] at hBetween
    refine hBetween.imp_of_mem fun {q q'} hq hq' hRel hGt => ?_
    obtain ⟨-, e, he, hKey⟩ := hLast q hq
    obtain ⟨-, e', he', hKey'⟩ := hLast q' hq'
    simp only [indexEntry, hKey, hKey'] at hGt ⊢
    exact hRel e he e' he' hGt
  have hFind := hContains.lowerBoundEntry hIndexOrd
  rw [List.find?_map] at hFind
  have hFlat := Search.find?_flatten (p := fun e => !(cmp target e.1 == .gt))
    (hOrd.imp fun {x y} h hx => by
      simp only [Bool.not_eq_true', beq_eq_false_iff_ne, ne_eq] at hx ⊢
      exact fun hy => hx (h hy))
  rw [← place_fst 0 blocks, List.find?_map, place_fst] at hFlat
  have hSame : ((place 0 blocks).find? ((fun es => es.getLast?.any fun e =>
      !(cmp target e.1 == .gt)) ∘ Prod.fst)) = ((place 0 blocks).find?
        ((fun e => !(cmp target e.1 == .gt)) ∘ indexEntry)) := by
    rw [← List.head?_filter, ← List.head?_filter]
    exact congrArg _ (List.filter_congr fun q hq => (hLast q hq).1)
  rw [hSame] at hFlat
  cases hq : (place 0 blocks).find? ((fun e => !(cmp target e.1 == .gt)) ∘ indexEntry) with
  | none =>
    rw [hq] at hFind hFlat
    refine .inl ⟨?_, hFlat⟩
    rw [Block.lowerBound, Option.map_eq_none_iff.mp hFind]
    rfl
  | some q =>
    rw [hq] at hFind hFlat
    obtain ⟨entry, hEntry, hKv⟩ := Option.map_eq_some_iff.mp hFind
    have hMem : q ∈ place 0 blocks := List.mem_of_find?_eq_some hq
    have hBlk : q.1 ∈ blocks := place_fst 0 blocks ▸ List.mem_map_of_mem hMem
    obtain ⟨block, -, hBlock, hHas⟩ := (h.placed q hMem).block (h.small q.1 hBlk)
    refine .inr ⟨q.1, q.2, block, ?_, h.placed q hMem, hBlock, ?_⟩
    · rw [Block.lowerBound, hEntry]
      exact congrArg some (Prod.mk.inj hKv).2
    · rw [hFlat]
      exact hHas.lowerBoundEntry (hEach q.1 hBlk)

/-- What an iterator has yet to give out. -/
def TableIter.rest (it : TableIter) : Entries :=
  it.current.drop it.currentPos ++ (it.handles.drop it.handleIdx).flatMap fun handle =>
    (TableIter.blockOf it.data handle).elim [] Block.iter

theorem advanceToNextBlock_spec (it : TableIter) :
    ((it.handles.drop it.handleIdx).flatMap fun handle =>
      (TableIter.blockOf it.data handle).elim [] Block.iter) =
        if it.advanceToNextBlock.1 then it.advanceToNextBlock.2.rest else [] := by
  fun_induction TableIter.advanceToNextBlock it with
  | case1 it hlt block hBlock =>
    rw [List.drop_eq_getElem_cons hlt, List.flatMap_cons, hBlock]
    rfl
  | case2 it hlt hBlock ih =>
    rw [List.drop_eq_getElem_cons hlt, List.flatMap_cons, hBlock]
    exact ih
  | case3 it hge =>
    rw [List.drop_eq_nil_of_le (not_lt.mp hge)]
    rfl

/-- The next entry is the first of those that are left. -/
theorem nextEntry_spec (it : TableIter) :
    it.rest = it.nextEntry.1.elim [] fun e => e :: it.nextEntry.2.rest := by
  fun_induction TableIter.nextEntry it with
  | case1 it hlt =>
    simp only [TableIter.rest, Option.elim_some]
    rw [List.drop_eq_getElem_cons hlt, List.cons_append]
  | case2 it hge it' hNext ih =>
    have hSpec := advanceToNextBlock_spec it
    rw [hNext] at hSpec
    rw [← ih, TableIter.rest, List.drop_eq_nil_of_le (not_lt.mp hge), List.nil_append]
    exact hSpec
  | case3 it hge it' hNext =>
    have hSpec := advanceToNextBlock_spec it
    rw [hNext] at hSpec
    rw [TableIter.rest, List.drop_eq_nil_of_le (not_lt.mp hge), List.nil_append]
    exact hSpec

/-- All entries that an iterator gives out. -/
def TableIter.items (it : TableIter) : Entries :=
  match _h : it.nextEntry with
  | (none, _) => []
  | (some e, next) => e :: next.items
termination_by it.rest.length
decreasing_by
  have hSpec := nextEntry_spec it
  rw [_h] at hSpec
  rw [hSpec]
  exact Nat.lt_succ_self _

theorem items_eq (it : TableIter) : it.items = it.rest := by
  fun_induction TableIter.items it with
  | case1 it it' hNext =>
    have hSpec := nextEntry_spec it
    rw [hNext] at hSpec
    exact hSpec.symm
  | case2 it e it' hNext ih =>
    have hSpec := nextEntry_spec it
    rw [hNext] at hSpec
    rw [ih]
    exact hSpec.symm

/-- An iterator over a finished file gives out the entries of its data blocks. -/
theorem intoTableIter_eq {r : TableReader}
    (h : IsTable data blocks bloom filterHandle metaindexHandle indexHandle)
    (hData : r.data = data) (hIndex : r.indexHandle = indexHandle) :
    ∃ it, r.intoTableIter = .ok it ∧ it.items = blocks.flatten := by
  subst hData hIndex
  obtain ⟨index, hRange, hNew, hContains⟩ := h.index.block h.indexSmall
  have hHandles : (((place 0 blocks).map indexEntry).mapM fun e =>
      (BlockHandle.decode e.2).map (·.1)) = .ok ((place 0 blocks).map (·.2)) := by
    have hDecode : ∀ q ∈ place 0 blocks,
        (BlockHandle.decode (indexEntry q).2).map (·.1) = .ok q.2 := by
      intro q hq
      have := (h.placed q hq).decode h.short []
      rw [List.append_nil] at this
      rw [indexEntry, this]
      rfl
    generalize place 0 blocks = qs at hDecode
    induction qs with
    | nil => rfl
    | cons q qs ih =>
      rw [List.map_cons, List.mapM_cons, hDecode q List.mem_cons_self,
        ih fun q hq => hDecode q (List.mem_cons_of_mem _ hq)]
      rfl
  refine ⟨⟨r.data, (place 0 blocks).map (·.2), 0, [], 0⟩, ?_, ?_⟩
  · simp only [TableReader.intoTableIter, TableIter.new, TableIter.parseDataHandles, hRange, hNew,
      bind, Except.bind, hContains.iter, hHandles]
    rfl
  · have hBlocks : ∀ q ∈ place 0 blocks,
        (TableIter.blockOf r.data q.2).elim [] Block.iter = q.1 := by
      intro q hq
      have hBlk : q.1 ∈ blocks := place_fst 0 blocks ▸ List.mem_map_of_mem hq
      obtain ⟨block, hRange, hNew, hHas⟩ := (h.placed q hq).block (h.small q.1 hBlk)
      rw [TableIter.blockOf, hRange, Option.bind_some, hNew]
      exact hHas.iter
    rw [items_eq, TableIter.rest, List.drop_nil, List.nil_append, List.drop_zero, List.flatMap_map,
      List.flatMap_congr hBlocks]
    conv_rhs => rw [← place_fst 0 blocks, ← List.flatMap_def]

end Reading

/-- A builder of an empty file has written nothing, and its filter is a small one. -/
theorem built_withOptions (blockTarget bitsPerKey : Nat) :
    Built (TableBuilder.withOptions blockTarget bitsPerKey) [] [] ∧
    (TableBuilder.withOptions blockTarget bitsPerKey).bloom.bits.length < 2 ^ 62 ∧
    (TableBuilder.withOptions blockTarget bitsPerKey).bloom.k < 256 := by
  refine ⟨⟨rfl, rfl, rfl, rfl, fun h => absurd rfl h, fun _ => rfl, by simp⟩, ?_, ?_⟩
  · have := asUsize_lt (max (asUsize (50 * blockTarget) / 32) 1000 * bitsPerKey)
    simp only [TableBuilder.withOptions, BloomFilter.ensureCapacity, List.length_replicate]
    omega
  · simp only [TableBuilder.withOptions, BloomFilter.ensureCapacity, BloomFilter.new]
    omega

/-- What a builder has made of its entries. -/
theorem finish_addAll (blockTarget bitsPerKey : Nat) (es : List (Bytes × Bytes × Bytes))
    (hSmall : BlocksSmall (TableBuilder.withOptions blockTarget bitsPerKey) es) :
    ∃ blocks filterHandle metaindexHandle indexHandle, blocks.flatten = es.map (·.2) ∧
      (∀ blk ∈ blocks, blk ≠ []) ∧
      IsTable ((TableBuilder.withOptions blockTarget bitsPerKey).addAll es).finish blocks
        ((TableBuilder.withOptions blockTarget bitsPerKey).addAll es).bloom filterHandle
        metaindexHandle indexHandle ∧
      ((TableBuilder.withOptions blockTarget bitsPerKey).addAll es).bloom.k < 256 := by
  obtain ⟨hBuilt, hBits, hk⟩ := built_withOptions blockTarget bitsPerKey
  obtain ⟨blocks, rest, hAll, hFlat, hBlocks, hRest, hIndex⟩ :=
    hBuilt.addAll hSmall (fun _ h => absurd h List.not_mem_nil) (by decide)
  have hBits' := BloomFilter.foldl_insert_length
    (TableBuilder.withOptions blockTarget bitsPerKey).bloom (es.map (·.1))
  have hk' := BloomFilter.foldl_insert_k
    (TableBuilder.withOptions blockTarget bitsPerKey).bloom (es.map (·.1))
  rw [← addAll_bloom] at hBits' hk'
  obtain ⟨filterHandle, metaindexHandle, indexHandle, hTable⟩ :=
    finish_isTable hAll hBlocks hRest hIndex (hBits' ▸ hBits)
  refine ⟨_, filterHandle, metaindexHandle, indexHandle, ?_, ?_, hTable, hk' ▸ hk⟩
  · simp only [List.flatten_nil, List.nil_append] at hFlat
    rw [← hFlat]
    split
    · next h => simp [h]
    · simp
  · intro blk hblk
    split at hblk
    · exact hAll.filled blk hblk
    · next h =>
      rcases List.mem_append.mp hblk with hblk | hblk
      · exact hAll.filled blk hblk
      · exact List.mem_singleton.mp hblk ▸ h

/-- Iterating over a table that was built of entries gives these entries back, in order. -/
theorem scan_undoes_build (es : List (Bytes × Bytes × Bytes)) (blockTarget bitsPerKey : Nat)
    (hSmall : BlocksSmall (TableBuilder.withOptions blockTarget bitsPerKey) es) :
    ∃ r it,
      TableReader.open ((TableBuilder.withOptions blockTarget bitsPerKey).addAll es).finish =
          .ok r ∧
        r.intoTableIter = .ok it ∧ it.items = es.map (·.2) := by
  obtain ⟨blocks, filterHandle, metaindexHandle, indexHandle, hFlat, -, hTable, hk⟩ :=
    finish_addAll blockTarget bitsPerKey es hSmall
  obtain ⟨it, hIter, hItems⟩ := intoTableIter_eq (r := ⟨_, indexHandle, some _⟩) hTable rfl rfl
  exact ⟨_, it, open_eq hTable hk, hIter, hItems.trans hFlat⟩

theorem scan_undoes_build_two_blocks :
    ∃ r it, TableReader.open ((TableBuilder.withOptions 0 10).addAll
        [([1], [1, 2, 3], [7]), ([2], [2, 2, 3], [])]).finish = .ok r ∧
      r.intoTableIter = .ok it ∧ it.items = [([1, 2, 3], [7]), ([2, 2, 3], [])] :=
  scan_undoes_build [([1], [1, 2, 3], [7]), ([2], [2, 2, 3], [])] 0 10 (by decide +kernel)

section Lookup

variable {data : Bytes} {blocks : List Entries} {bloom : BloomFilter}
  {filterHandle metaindexHandle indexHandle : BlockHandle} {es : List Entry} {k : Bytes} {s : Nat}

theorem internalKeyBytesCmp_gt {a b : InternalKey} (ha : a.seq < 2 ^ 64) (hb : b.seq < 2 ^ 64) :
    internalKeyBytesCmp a.encode b.encode = .gt ↔ KeyLt b a := by
  rw [internalKeyBytesCmp_encode ha hb, internalKeyCmp_gt]

/-- A key that the filter lets through is looked up in the bytes as in the entries. -/
theorem getEntry_of_inOrder (h : IsTable data blocks bloom filterHandle metaindexHandle indexHandle)
    (hFilled : ∀ blk ∈ blocks, blk ≠ []) (hFlat : blocks.flatten = es.map Entry.encode)
    (hSeq : ∀ e ∈ es, e.1.seq < 2 ^ 64) (hOrder : InOrder es) (hs : s < 2 ^ 64)
    (hBloom : bloom.mayContain k = true) :
    ({ data, indexHandle, bloom := some bloom } : TableReader).getEntry k s =
      .ok ((seek es k s).map typed) := by
  have hCmp : ∀ e ∈ es, internalKeyBytesCmp (lookupKey k s) e.1.encode =
      internalKeyCmp { userKey := k, seq := s, vtype := .put } e.1 := fun e he =>
    internalKeyBytesCmp_encode hs (hSeq e he)
  have hOrd : blocks.flatten.Pairwise fun x y =>
      internalKeyBytesCmp (lookupKey k s) y.1 = .gt →
      internalKeyBytesCmp (lookupKey k s) x.1 = .gt := by
    rw [hFlat, List.pairwise_map]
    refine hOrder.imp_of_mem fun {x y} hx hy hyx hGt => ?_
    have hLookup : ({ userKey := k, seq := s, vtype := .put } : InternalKey).seq < 2 ^ 64 := hs
    refine (internalKeyBytesCmp_gt hLookup (hSeq x hx)).mpr (by_contra fun hlx => ?_)
    exact KeyLt.not_trans hlx hyx ((internalKeyBytesCmp_gt hLookup (hSeq y hy)).mp hGt)
  have hFound : (blocks.flatten.find? fun e =>
      !(internalKeyBytesCmp (lookupKey k s) e.1 == .gt)) =
        (SkipList.lowerBound { userKey := k, seq := s, vtype := .put } es).map Entry.encode := by
    rw [← find?_lookup, hFlat, List.find?_map, ← List.head?_filter, ← List.head?_filter]
    refine congrArg _ (congrArg _ (List.filter_congr fun e he => ?_))
    simp only [Function.comp_apply, Entry.encode, hCmp e he]
    cases internalKeyCmp { userKey := k, seq := s, vtype := .put } e.1 <;> rfl
  rw [seek, TableReader.getEntry]
  obtain ⟨index, hRange, hNew, ⟨hLower, hNone⟩ | ⟨blk, handle, block, hLower, hPoints,
    hBlock, hKv⟩⟩ :=
    h.lowerBound hFilled hOrd
  · rw [hFound, Option.map_eq_none_iff] at hNone
    rw [hNone]
    simp [TableReader.blockBytes, hBloom, hRange, hNew, hLower, bind, Except.bind]
  · have hDecode := hPoints.decode h.short []
    rw [List.append_nil] at hDecode
    rw [hFound] at hKv
    simp only [TableReader.blockBytes, hBloom, hRange, hNew, hLower, hDecode,
      hPoints.rangeOf, hBlock,
      hKv, bind, Except.bind, Option.any_some, Bool.not_true, Bool.false_eq_true, if_false]
    cases SkipList.lowerBound { userKey := k, seq := s, vtype := .put } es with
    | none => rfl
    | some e =>
      simp only [Option.map_some, Entry.encode, userKeyOf_encode, vtypeOf_encode,
        Option.filter_some, decide_eq_true_eq]
      split <;> rfl

theorem getEntry_eq (h : IsTable data blocks bloom filterHandle metaindexHandle indexHandle)
    (hFilled : ∀ blk ∈ blocks, blk ≠ []) (hFlat : blocks.flatten = es.map Entry.encode)
    (hSeq : ∀ e ∈ es, e.1.seq < 2 ^ 64) (hAsc : Ascending es) (hs : s < 2 ^ 64)
    (hBloom : bloom.mayContain k = true) :
    ({ data, indexHandle, bloom := some bloom } : TableReader).getEntry k s =
      .ok ((seek es k s).map typed) :=
  getEntry_of_inOrder h hFilled hFlat hSeq hAsc.inOrder hs hBloom

end Lookup

/-- In a table that was built of entries in order, with a filter that lets their user keys through,
a reader at `s` finds the newest version of `k` up to `s`. -/
theorem point_lookup (es : List Entry) (blockTarget bitsPerKey : Nat)
    (hSeq : ∀ e ∈ es, e.1.seq < 2 ^ 64)
    (hAsc : es.Pairwise fun a b => internalKeyBytesCmp a.1.encode b.1.encode = .lt)
    (hSmall : BlocksSmall (TableBuilder.withOptions blockTarget bitsPerKey) (es.map keyed))
    (hBloom : ∀ e ∈ es, ((TableBuilder.withOptions blockTarget bitsPerKey).addAll
      (es.map keyed)).bloom.mayContain e.1.userKey = true) :
    ∃ r, TableReader.open ((TableBuilder.withOptions blockTarget bitsPerKey).addAll
        (es.map keyed)).finish = .ok r ∧
      ∀ k s, s < 2 ^ 64 →
        (∃ e, Versioned.Newest (versions es) k s e ∧
          r.getEntry k s = .ok (some (e.1.vtype, e.2))) ∨
        (∀ e, ¬Versioned.Visible (versions es) k s e) ∧ r.getEntry k s = .ok none := by
  obtain ⟨blocks, filterHandle, metaindexHandle, indexHandle, hFlat, hFilled, hTable, hk⟩ :=
    finish_addAll blockTarget bitsPerKey (es.map keyed) hSmall
  rw [List.map_map] at hFlat
  replace hFlat : blocks.flatten = es.map Entry.encode := hFlat
  replace hAsc : Ascending es := hAsc.imp_of_mem fun {a b} ha hb hab => by
    rwa [internalKeyBytesCmp_encode (hSeq a ha) (hSeq b hb), internalKeyCmp_lt] at hab
  refine ⟨_, open_eq hTable hk, fun k s hs => ?_⟩
  cases hMay : ((TableBuilder.withOptions blockTarget bitsPerKey).addAll
      (es.map keyed)).bloom.mayContain k with
  | false =>
    refine .inr ⟨?_, by rw [TableReader.getEntry, if_pos (by simp [hMay])]⟩
    rintro e ⟨he, rfl, -⟩
    have := hBloom e he
    rw [Entry.version_key, this] at hMay
    contradiction
  | true =>
    rw [getEntry_eq hTable hFilled hFlat hSeq hAsc hs hMay]
    cases hSeek : seek es k s with
    | some e => exact .inl ⟨e, hAsc.sorted.seek_some hSeek, rfl⟩
    | none => exact .inr ⟨hAsc.sorted.seek_none hSeek, rfl⟩

theorem point_lookup_versions :
    ∃ r, TableReader.open ((TableBuilder.withOptions 0 1).addAll (List.map keyed
        [(⟨[1], 7, .delete⟩, []), (⟨[1], 3, .put⟩, [9])])).finish = .ok r ∧
      ∀ k s, s < 2 ^ 64 →
        (∃ e, Versioned.Newest (versions [(⟨[1], 7, .delete⟩, []), (⟨[1], 3, .put⟩, [9])]) k s e ∧
          r.getEntry k s = .ok (some (e.1.vtype, e.2))) ∨
        (∀ e, ¬Versioned.Visible
            (versions [(⟨[1], 7, .delete⟩, []), (⟨[1], 3, .put⟩, [9])]) k s e) ∧
          r.getEntry k s = .ok none :=
  point_lookup [(⟨[1], 7, .delete⟩, []), (⟨[1], 3, .put⟩, [9])] 0 1 (by decide) (by decide)
    (by decide +kernel) (by decide +kernel)

end Sstable

end MulanLsm
