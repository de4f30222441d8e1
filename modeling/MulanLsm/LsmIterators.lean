import Mathlib.Data.List.Flatten
import MulanLsm.Iterator
import MulanLsm.Library.Queue
import MulanLsm.SstableReading

/-! The internal iterators: over a list, over a table and over the merger of several.  The merger
gives out all entries of its sources in order.  What an iterator shows is what it gives out next,
but for the iterator over a table, which shows nothing until it has loaded the next block. -/

namespace MulanLsm

open Iteration
open Merge (PriorityQueue Merging byElement)

/-- An iterator over a list, at a position. -/
structure VecIterator where
  items : List (Bytes × Bytes)
  pos : Nat

namespace VecIterator

def new (items : List (Bytes × Bytes)) : VecIterator := { items, pos := 0 }

def peek (it : VecIterator) : Option (Bytes × Bytes) := it.items[it.pos]?

def next (it : VecIterator) : Option (Bytes × Bytes) × VecIterator :=
  match it.items[it.pos]? with
  | none => (none, it)
  | some item => (some item, { it with pos := it.pos + 1 })

/-- What the iterator has yet to give out. -/
def left (it : VecIterator) : List (Bytes × Bytes) := it.items.drop it.pos

theorem lists : Lists next left := by
  constructor
  · intro it
    rw [left, List.head?_drop, next]
    cases it.items[it.pos]? <;> rfl
  · intro it
    rw [left, left, List.tail_drop, next]
    cases hItem : it.items[it.pos]? with
    | none =>
      have hEnd := List.getElem?_eq_none_iff.mp hItem
      rw [List.drop_eq_nil_of_le hEnd, List.drop_eq_nil_of_le (Nat.le_succ_of_le hEnd)]
    | some item => rfl

theorem previews (it : VecIterator) : Previews next peek it := by
  rw [lists.previews_iff, left, List.head?_drop]
  rfl

theorem yields_new (items : List (Bytes × Bytes)) : Yields next (new items) items :=
  lists.yields (new items)

end VecIterator

/-- A queue of entries with the numbers of their sources, by the order of their keys. -/
abbrev BufferedQueue := PriorityQueue ((Bytes × Bytes) × Nat) (byElement entryLt)

namespace MergingIterator

variable {σ : Type} (Q : BufferedQueue) (source : σ → Option (Bytes × Bytes) × σ)

/-- A merger of iterators, with `source` for their `next`. -/
def new (iters : List σ) : Merging Q σ := Merging.new Q source iters

def peek (m : Merging Q σ) : Option (Bytes × Bytes) := Merging.peek Q m

def next (m : Merging Q σ) : Option (Bytes × Bytes) × Merging Q σ := Merging.next Q source m

end MergingIterator

theorem entryLt_eq_false {x y : Bytes × Bytes} :
    entryLt y x = false ↔ internalKeyBytesCmp x.1 y.1 ≠ .gt := by
  rw [entryLt, decide_eq_false_iff_not, Ne, Std.OrientedCmp.gt_iff_lt]

/-- The merger of ascending sources gives out, in ascending order, the entries of all of them, and
shows in every state the one that it gives out next. -/
theorem merging_sorts {σ : Type} (Q : BufferedQueue) (source : σ → Option (Bytes × Bytes) × σ)
    (iters : List σ) (lists : List (List (Bytes × Bytes)))
    (hYields : List.Forall₂ (Yields source) iters lists)
    (hAsc : ∀ es ∈ lists, es.Pairwise fun x y => internalKeyBytesCmp x.1 y.1 ≠ .gt) :
    ∃ out, Yields (MergingIterator.next Q source) (MergingIterator.new Q source iters) out ∧
      out.Pairwise (fun x y => internalKeyBytesCmp x.1 y.1 ≠ .gt) ∧ out.Perm lists.flatten ∧
      ∀ n, MergingIterator.peek Q
          (after (MergingIterator.next Q source) n (MergingIterator.new Q source iters)) =
        (MergingIterator.next Q source
          (after (MergingIterator.next Q source) n (MergingIterator.new Q source iters))).1 := by
  obtain ⟨out, hOut, hPerm, hOrder⟩ := Merging.merged_new (Q := Q) entryLt_weak hYields
    fun es hes => (hAsc es hes).imp entryLt_eq_false.mpr
  exact ⟨out, hOut, hOrder.imp entryLt_eq_false.mp, hPerm, fun n => Merging.peek_eq _⟩

/-- Two lists with a key in common, merged with a list for the queue. -/
theorem merging_sorts_two :
    List.Forall₂ (Yields VecIterator.next)
      [VecIterator.new [([97, 1, 0, 0, 0, 0, 0, 0, 0, 0], [1])],
        VecIterator.new [([97, 2, 0, 0, 0, 0, 0, 0, 0, 0], [2]),
          ([97, 1, 0, 0, 0, 0, 0, 0, 0, 0], [3])]]
      [[([97, 1, 0, 0, 0, 0, 0, 0, 0, 0], [1])],
        [([97, 2, 0, 0, 0, 0, 0, 0, 0, 0], [2]), ([97, 1, 0, 0, 0, 0, 0, 0, 0, 0], [3])]] ∧
    ∃ out : List (Bytes × Bytes), out.Pairwise (fun x y => internalKeyBytesCmp x.1 y.1 ≠ .gt) ∧
      out.Perm [([97, 1, 0, 0, 0, 0, 0, 0, 0, 0], [1]), ([97, 2, 0, 0, 0, 0, 0, 0, 0, 0], [2]),
        ([97, 1, 0, 0, 0, 0, 0, 0, 0, 0], [3])] := by
  have hYields : List.Forall₂ (Yields VecIterator.next)
      [VecIterator.new [([97, 1, 0, 0, 0, 0, 0, 0, 0, 0], [1])],
        VecIterator.new [([97, 2, 0, 0, 0, 0, 0, 0, 0, 0], [2]),
          ([97, 1, 0, 0, 0, 0, 0, 0, 0, 0], [3])]]
      [[([97, 1, 0, 0, 0, 0, 0, 0, 0, 0], [1])],
        [([97, 2, 0, 0, 0, 0, 0, 0, 0, 0], [2]), ([97, 1, 0, 0, 0, 0, 0, 0, 0, 0], [3])]] :=
    .cons (VecIterator.yields_new _) (.cons (VecIterator.yields_new _) .nil)
  obtain ⟨out, -, hOrder, hPerm, -⟩ :=
    merging_sorts (Merge.listQueue entryLt_weak) VecIterator.next _ _ hYields (by decide)
  exact ⟨hYields, out, hOrder, hPerm⟩

/-- The merger of a scan gives out what merging its lists one entry at a time does. -/
theorem scan_yields {iters : List (List (Bytes × Bytes))}
    (h : ∀ es ∈ iters, es.Pairwise fun x y => entryLt y x = false) :
    Yields (MergingIterator.next (Merge.listQueue entryLt_weak) Merge.listStep)
      (MergingIterator.new (Merge.listQueue entryLt_weak) Merge.listStep iters)
      ((Merge.Merger.new iters).drain entryLt) := by
  have hNew : MergingIterator.new (Merge.listQueue entryLt_weak) Merge.listStep iters =
      (Merge.Merger.new iters).asMerging entryLt_weak := Merge.new_asMerging entryLt_weak iters
  rw [hNew]
  exact (Merge.new_inOrder h).yields entryLt_weak

namespace Sstable

namespace TableIter

/-- The entry at the position in the current block, if the block has one there. -/
def peek (it : TableIter) : Option (Bytes × Bytes) := it.current[it.currentPos]?

/-- What is left of the current block. -/
def here (it : TableIter) : Entries := it.current.drop it.currentPos

/-- The entries of the data blocks that are still to be loaded; a block that cannot be read has
none. -/
def ahead (it : TableIter) : List Entries :=
  (it.handles.drop it.handleIdx).map fun handle => (blockOf it.data handle).elim [] Block.iter

end TableIter

section Previewing

variable {it it' : TableIter} {blocks : List Entries} {j n : Nat}

theorem rest_eq (it : TableIter) : it.rest = it.here ++ it.ahead.flatten := by
  rw [TableIter.rest, TableIter.here, TableIter.ahead, List.flatMap_def]

theorem peek_eq (it : TableIter) : it.peek = it.here.head? := by
  rw [TableIter.peek, TableIter.here, List.head?_drop]

/-- Past the last block nothing is left. -/
theorem advanceToNextBlock_end (h : it.advanceToNextBlock = (false, it')) :
    it'.here = [] ∧ it'.ahead = [] := by
  fun_induction TableIter.advanceToNextBlock it with
  | case1 => cases h
  | case2 it hlt hBlock ih => exact ih h
  | case3 it hge =>
    obtain rfl := (Prod.mk.inj h).2
    rw [TableIter.here, TableIter.ahead, List.drop_eq_nil_of_le (not_lt.mp hge)]
    exact ⟨List.drop_nil, rfl⟩

/-- The next block that can be read is one of those ahead. -/
theorem advanceToNextBlock_block (h : it.advanceToNextBlock = (true, it')) :
    ∃ i, it.ahead[i]? = some it'.here ∧ it'.ahead = it.ahead.drop (i + 1) := by
  fun_induction TableIter.advanceToNextBlock it with
  | case1 it hlt block hBlock =>
    obtain rfl := (Prod.mk.inj h).2
    refine ⟨0, ?_, ?_⟩
    · rw [TableIter.ahead, List.drop_eq_getElem_cons hlt, List.map_cons, hBlock]
      rfl
    · simp only [TableIter.ahead]
      rw [← List.map_drop, List.drop_drop]
  | case2 it hlt hBlock ih =>
    obtain ⟨i, hHere, hAhead⟩ := ih h
    have hSkip : it.ahead = [] :: TableIter.ahead { it with handleIdx := it.handleIdx + 1 } := by
      rw [TableIter.ahead, List.drop_eq_getElem_cons hlt, List.map_cons, hBlock]
      rfl
    refine ⟨i + 1, ?_, ?_⟩
    · rw [hSkip, List.getElem?_cons_succ]
      exact hHere
    · rw [hSkip, List.drop_succ_cons]
      exact hAhead
  | case3 => cases h

/-- The iterator stands in one of the blocks, with the others ahead of it, and `slack` more at least
than what is left of the block was in it. -/
structure Within (it : TableIter) (blocks : List Entries) (slack : Nat) : Prop where
  place : ∃ j, it.ahead = blocks.drop j ∧ (it.here = [] ∨
    ∃ i blk, j = i + 1 ∧ blocks[i]? = some blk ∧ it.here.length + slack ≤ blk.length)

/-- A call leaves the iterator behind the first entry of a block. -/
theorem Within.nextEntry (h : Within it blocks 0) : Within it.nextEntry.2 blocks 1 := by
  fun_induction TableIter.nextEntry it with
  | case1 it hlt =>
    obtain ⟨j, hAhead, hNil | ⟨i, blk, hj, hBlk, hLength⟩⟩ := h
    · rw [TableIter.here, List.drop_eq_nil_iff] at hNil
      omega
    · refine ⟨j, hAhead, .inr ⟨i, blk, hj, hBlk, ?_⟩⟩
      simp only [TableIter.here, List.length_drop] at hLength ⊢
      omega
  | case2 it hge it' hNext ih =>
    obtain ⟨j, hAhead, -⟩ := h
    obtain ⟨i, hHere, hRest⟩ := advanceToNextBlock_block hNext
    refine ih ⟨j + (i + 1), ?_, .inr ⟨j + i, it'.here, rfl, ?_, le_rfl⟩⟩
    · rw [hRest, hAhead, List.drop_drop]
    · rw [← hHere, hAhead, List.getElem?_drop]
  | case3 it hge it' hNext =>
    obtain ⟨hHere, hAhead⟩ := advanceToNextBlock_end hNext
    exact ⟨blocks.length, by rw [hAhead, List.drop_length], .inl hHere⟩

theorem Within.mono {slack : Nat} (h : Within it blocks slack) : Within it blocks 0 := by
  obtain ⟨j, hAhead, hNil | ⟨i, blk, hj, hBlk, hLength⟩⟩ := h
  · exact ⟨j, hAhead, .inl hNil⟩
  · exact ⟨j, hAhead, .inr ⟨i, blk, hj, hBlk, by omega⟩⟩

theorem Within.after (h : Within it blocks 1) (n : Nat) :
    Within (after TableIter.nextEntry n it) blocks 1 := by
  induction n with
  | zero => exact h
  | succ n ih =>
    rw [after_succ]
    exact ih.mono.nextEntry

theorem lists_rest : Lists TableIter.nextEntry TableIter.rest := by
  constructor
  · intro it
    rw [nextEntry_spec it]
    cases it.nextEntry.1 <;> rfl
  · intro it
    have hSpec := nextEntry_spec it
    fun_induction TableIter.nextEntry it with
    | case1 it hlt => rw [hSpec]; rfl
    | case2 it hge it' hNext ih =>
      have hAdvance := advanceToNextBlock_spec it
      rw [hNext] at hAdvance
      have hRest : it.rest = it'.rest := by
        rw [TableIter.rest, List.drop_eq_nil_of_le (not_lt.mp hge), List.nil_append]
        exact hAdvance
      rw [hRest] at hSpec ⊢
      exact ih hSpec
    | case3 it hge it' hNext =>
      obtain ⟨hHere, hAhead⟩ := advanceToNextBlock_end hNext
      rw [hSpec, rest_eq, hHere, hAhead]
      rfl

/-- How many entries the first `j` blocks have. -/
def inBlocks (blocks : List Entries) (j : Nat) : Nat := (blocks.take j).flatten.length

theorem inBlocks_mono (blocks : List Entries) {i : Nat} (h : i ≤ j) :
    inBlocks blocks i ≤ inBlocks blocks j := by
  have hTake : blocks.take i = (blocks.take j).take i := by rw [List.take_take, Nat.min_eq_left h]
  unfold inBlocks
  rw [hTake]
  exact (List.take_sublist i (blocks.take j)).flatten.length_le

theorem inBlocks_add (blocks : List Entries) (j : Nat) :
    inBlocks blocks j + (blocks.drop j).flatten.length = blocks.flatten.length := by
  rw [inBlocks, ← List.length_append, ← List.flatten_append, List.take_append_drop]

theorem inBlocks_succ {i : Nat} {blk : Entries} (h : blocks[i]? = some blk) :
    inBlocks blocks (i + 1) = inBlocks blocks i + blk.length := by
  rw [inBlocks, List.take_add_one, h, List.flatten_append, List.length_append]
  simp [inBlocks]

/-- What is shown is right unless the calls so far have used up the first blocks exactly, and
another one has entries. -/
theorem Within.previews_iff (h : Within it blocks 1) (hRest : it.rest = blocks.flatten.drop n) :
    Previews TableIter.nextEntry TableIter.peek it ↔
      (∀ j, inBlocks blocks j ≠ n) ∨ blocks.flatten.length ≤ n := by
  obtain ⟨j, hAhead, hPlace⟩ := h
  have hLength := congrArg List.length hRest
  have hParts := inBlocks_add blocks j
  rw [rest_eq, hAhead, List.length_append, List.length_drop] at hLength
  rw [lists_rest.previews_iff, peek_eq, rest_eq, hAhead]
  by_cases hHere : it.here = []
  · rw [hHere, List.length_nil] at hLength
    rw [hHere, List.nil_append, List.head?_nil, eq_comm, List.head?_eq_none_iff]
    constructor
    · intro hNil
      rw [hNil] at hLength
      exact .inr (by simp only [List.length_nil] at hLength; omega)
    · rintro (hNot | hEnd)
      · by_contra hNil
        have hPos := List.length_pos_iff.mpr hNil
        exact hNot j (by omega)
      · exact List.length_eq_zero_iff.mp (by omega)
  · obtain ⟨i, blk, rfl, hBlk, hSlack⟩ := hPlace.resolve_left hHere
    have hPos := List.length_pos_iff.mpr hHere
    have hSucc := inBlocks_succ hBlk
    refine iff_of_true (List.head?_append_of_ne_nil _ hHere).symm (.inl fun k hk => ?_)
    rcases Nat.lt_or_ge i k with hLt | hLe
    · have hMono : inBlocks blocks (i + 1) ≤ inBlocks blocks k := inBlocks_mono blocks hLt
      omega
    · have hMono := inBlocks_mono blocks hLe
      omega

/-- A new iterator has loaded no block. -/
theorem new_here {data : Bytes} {indexHandle : BlockHandle}
    (h : TableIter.new data indexHandle = .ok it) : it.here = [] := by
  cases hHandles : TableIter.parseDataHandles data indexHandle with
  | error e =>
    rw [TableIter.new, hHandles] at h
    cases h
  | ok handles =>
    rw [TableIter.new, hHandles] at h
    obtain rfl := Except.ok.inj h
    rfl

end Previewing

end Sstable

/-- Iterators over lists and mergers show in every state what they give out next, and nothing when
they are at their end.  An iterator over a table does so after `n` calls unless `n` is the number of
entries in its first data blocks, and there are more. -/
theorem lsmIterators_preview_iff (items : List (Bytes × Bytes)) (Q : BufferedQueue) (σ : Type)
    (source : σ → Option (Bytes × Bytes) × σ) (iters : List σ) (data : Bytes)
    (indexHandle : BlockHandle) (n : Nat) :
    Previews VecIterator.next VecIterator.peek (after VecIterator.next n (VecIterator.new items)) ∧
    Previews (MergingIterator.next Q source) (MergingIterator.peek Q)
      (after (MergingIterator.next Q source) n (MergingIterator.new Q source iters)) ∧
    ∀ it, Sstable.TableIter.new data indexHandle = .ok it →
      (Previews Sstable.TableIter.nextEntry Sstable.TableIter.peek
          (after Sstable.TableIter.nextEntry n it) ↔
        (∀ j, Sstable.inBlocks it.ahead j ≠ n) ∨ it.ahead.flatten.length ≤ n) := by
  refine ⟨VecIterator.previews _, Merging.previews _, fun it hNew => ?_⟩
  have hHere := Sstable.new_here hNew
  have hStart : Sstable.Within it it.ahead 1 := ⟨0, List.drop_zero.symm, .inl hHere⟩
  refine (hStart.after n).previews_iff ?_
  rw [Sstable.lists_rest.after, Sstable.rest_eq, hHere, List.nil_append]

/-- The iterator over a new table of one entry shows nothing, and then gives out the entry. -/
theorem table_shows_nothing :
    ∃ r it, Sstable.TableReader.open ((Sstable.TableBuilder.withOptions 0 10).addAll
        [([1], [1, 2, 3], [7])]).finish = .ok r ∧ r.intoTableIter = .ok it ∧
      ¬Previews Sstable.TableIter.nextEntry Sstable.TableIter.peek it := by
  obtain ⟨blocks, _, _, indexHandle, hFlat, -, hTable, hk⟩ :=
    Sstable.finish_addAll 0 10 [([1], [1, 2, 3], [7])] (by decide +kernel)
  obtain ⟨it, hIter, hItems⟩ :=
    Sstable.intoTableIter_eq (r := ⟨_, indexHandle, some _⟩) hTable rfl rfl
  refine ⟨_, it, Sstable.open_eq hTable hk, hIter, fun hPreviews => ?_⟩
  have hPeek := Sstable.lists_rest.previews_iff.mp hPreviews
  rw [← Sstable.items_eq, hItems, hFlat, Sstable.peek_eq, Sstable.new_here hIter] at hPeek
  cases hPeek

end MulanLsm
