import Mathlib.Data.Multiset.MapFold
import MulanLsm.Library.Iteration
import MulanLsm.Library.Merge

/-! Merging sources through a priority queue.  Any queue that takes out an element that none comes
before will do, and any sources that give out ascending elements one at a time; the queue holds at
most one element of each source. -/

namespace Merge

/-- A priority queue: it holds a multiset of elements, and takes out one that no other comes before,
the one that it shows. -/
structure PriorityQueue (α : Type) (lt : α → α → Bool) where
  Heap : Type
  empty : Heap
  push : Heap → α → Heap
  pop : Heap → Option (α × Heap)
  peek : Heap → Option α
  items : Heap → Multiset α
  items_empty : items empty = 0
  items_push : ∀ h x, items (push h x) = x ::ₘ items h
  pop_none : ∀ h, pop h = none → items h = 0
  pop_some : ∀ h x h', pop h = some (x, h') →
    items h = x ::ₘ items h' ∧ ∀ y ∈ items h, lt y x = false
  peek_eq : ∀ h, peek h = (pop h).map (·.1)

/-- The order of the elements of a queue that come with the numbers of their sources. -/
def byElement {α : Type} (lt : α → α → Bool) (x y : α × Nat) : Bool := lt x.1 y.1

theorem Weak.sourced {α : Type} {lt : α → α → Bool} (hlt : Weak lt) : Weak (byElement lt) :=
  hlt.comap Prod.fst

/-- A list is a priority queue, of which the first of the least elements is taken. -/
def listQueue {α : Type} {lt : α → α → Bool} (hlt : Weak lt) :
    PriorityQueue (α × Nat) (byElement lt) where
  Heap := List (α × Nat)
  empty := []
  push h x := h ++ [x]
  pop := popMin lt
  peek h := (popMin lt h).map (·.1)
  items h := h
  items_empty := rfl
  items_push h x := Multiset.coe_eq_coe.mpr (List.perm_append_singleton x h)
  pop_none h hPop := by
    rw [popMin_eq_none hPop]
    rfl
  pop_some h x h' hPop :=
    ⟨Multiset.coe_eq_coe.mpr (popMin_perm (x := x.1) hPop), popMin_le hlt (x := x.1) hPop⟩
  peek_eq _ := rfl

variable {α σ : Type} {lt : α → α → Bool}

/-- A list as a source of its elements. -/
def listStep (xs : List α) : Option α × List α := (xs.head?, xs.tail)

/-- A merger: the sources, and a queue with the first element left of each that has one. -/
structure Merging (Q : PriorityQueue (α × Nat) (byElement lt)) (σ : Type) where
  iters : List σ
  heap : Q.Heap

namespace Merging

variable (Q : PriorityQueue (α × Nat) (byElement lt)) (step : σ → Option α × σ)

/-- Take the next element of a source into the queue. -/
def refill (src : Nat) (m : Merging Q σ) : Merging Q σ :=
  match m.iters[src]? with
  | none => m
  | some s =>
    match step s with
    | (some x, s) => { iters := m.iters.set src s, heap := Q.push m.heap (x, src) }
    | (none, s) => { m with iters := m.iters.set src s }

/-- A merger that has taken the first element of every source. -/
def new (iters : List σ) : Merging Q σ :=
  (List.range iters.length).foldl (fun m src => refill Q step src m) { iters, heap := Q.empty }

def peek (m : Merging Q σ) : Option α := (Q.peek m.heap).map (·.1)

/-- The next element, for which its source gives another. -/
def next (m : Merging Q σ) : Option α × Merging Q σ :=
  match Q.pop m.heap with
  | none => (none, m)
  | some ((x, src), heap) => (some x, refill Q step src { m with heap })

/-- The elements that a merger gives out, at most `fuel` of them. -/
def drainLoop : Nat → Merging Q σ → List α
  | 0, _ => []
  | fuel + 1, m =>
    match next Q step m with
    | (none, _) => []
    | (some x, m) => x :: drainLoop fuel m

/-- All elements that a merger of lists gives out. -/
def drain (lists : List (List α)) : List α :=
  drainLoop Q listStep lists.flatten.length (new Q listStep lists)

end Merging

/-- An element in the queue, with the number of its source and what the source gives out after
it. -/
structure Feed (α : Type) where
  first : α
  src : Nat
  rest : List α

def Feed.all (a : Feed α) : List α := a.first :: a.rest

/-- What a source with these elements left puts in the queue. -/
def feedOf (src : Nat) : List α → List (Feed α)
  | [] => []
  | x :: xs => [{ first := x, src, rest := xs }]

variable {Q : PriorityQueue (α × Nat) (byElement lt)} {step : σ → Option α × σ} {m : Merging Q σ}
  {feeds : List (Feed α)} {src : Nat} {s : σ} {xs : List α}

/-- The queue holds the first elements of the feeds, whose sources, all different, give out the
rest. -/
structure Fed (step : σ → Option α × σ) (m : Merging Q σ) (feeds : List (Feed α)) : Prop where
  items : Q.items m.heap = ↑(feeds.map fun a => (a.first, a.src))
  yields : ∀ a ∈ feeds, ∃ s, m.iters[a.src]? = some s ∧ Iteration.Yields step s a.rest
  sources : (feeds.map (·.src)).Nodup
  sorted : ∀ a ∈ feeds, a.all.Pairwise fun x y => lt y x = false

@[simp] theorem flatMap_feedOf (src : Nat) (xs : List α) :
    (feedOf src xs).flatMap Feed.all = xs := by
  cases xs with
  | nil => rfl
  | cons x xs => simp [feedOf, Feed.all]

namespace Merging

/-- A refill changes no other source. -/
theorem refill_iters {i : Nat} (h : i ≠ src) :
    (refill Q step src m).iters[i]? = m.iters[i]? := by
  unfold refill
  split
  · rfl
  · split <;> exact List.getElem?_set_ne h.symm

theorem refill_drop (src : Nat) (m : Merging Q σ) :
    (refill Q step src m).iters.drop (src + 1) = m.iters.drop (src + 1) := by
  unfold refill
  split
  · rfl
  · split <;> exact List.drop_set_of_lt (Nat.lt_succ_self src)

theorem peek_eq (m : Merging Q σ) : peek Q m = (next Q step m).1 := by
  unfold peek next
  rw [Q.peek_eq]
  cases Q.pop m.heap with
  | none => rfl
  | some r => rfl

theorem next_fixed (h : (next Q step m).1 = none) : (next Q step m).2 = m := by
  unfold next at h ⊢
  cases hPop : Q.pop m.heap with
  | none => rfl
  | some r =>
    rw [hPop] at h
    cases h

/-- In every state a merger shows what its next call returns. -/
theorem previews (m : Merging Q σ) : Iteration.Previews (next Q step) (peek Q) m :=
  Iteration.previews_of_fixed (peek_eq m) next_fixed

end Merging

/-- A source that was not in the queue comes to be, with its next element. -/
theorem Fed.refill (h : Fed step m feeds) (hs : m.iters[src]? = some s)
    (hYields : Iteration.Yields step s xs) (hNew : ∀ a ∈ feeds, a.src ≠ src)
    (hSorted : xs.Pairwise fun x y => lt y x = false) :
    Fed step (Merging.refill Q step src m) (feedOf src xs ++ feeds) := by
  have hOthers : ∀ a ∈ feeds, ∃ s, (Merging.refill Q step src m).iters[a.src]? = some s ∧
      Iteration.Yields step s a.rest := by
    intro a ha
    rw [Merging.refill_iters (hNew a ha)]
    exact h.yields a ha
  cases hYields with
  | done hNone =>
    refine ⟨?_, hOthers, h.sources, h.sorted⟩
    have hHeap : (Merging.refill Q step src m).heap = m.heap := by
      unfold Merging.refill
      rw [hs]
      cases hStep : step s with
      | mk o s' =>
        rw [hStep] at hNone
        obtain rfl : o = none := hNone
        simp only [hStep]
    rw [hHeap]
    exact h.items
  | @more _ s' x xs hStep hRest =>
    have hRefill : Merging.refill Q step src m =
        { iters := m.iters.set src s', heap := Q.push m.heap (x, src) } := by
      unfold Merging.refill
      rw [hs]
      simp only [hStep]
    obtain ⟨hSrc, -⟩ := List.getElem?_eq_some_iff.mp hs
    refine ⟨?_, fun a ha => ?_, ?_, fun a ha => ?_⟩
    · rw [hRefill, Q.items_push, h.items]
      rfl
    · rcases List.mem_cons.mp ha with rfl | ha
      · rw [hRefill]
        exact ⟨s', List.getElem?_set_self hSrc, hRest⟩
      · exact hOthers a ha
    · refine List.nodup_cons.mpr ⟨fun hMem => ?_, h.sources⟩
      obtain ⟨a, ha, hEq⟩ := List.mem_map.mp hMem
      exact hNew a ha hEq
    · rcases List.mem_cons.mp ha with rfl | ha
      · exact hSorted
      · exact h.sorted a ha

theorem Fed.next_nil (h : Fed step m []) : (Merging.next Q step m).1 = none := by
  unfold Merging.next
  cases hPop : Q.pop m.heap with
  | none => rfl
  | some r =>
    obtain ⟨x, heap⟩ := r
    have hItems := (Q.pop_some _ _ _ hPop).1
    rw [h.items] at hItems
    exact absurd hItems.symm (Multiset.cons_ne_zero)

/-- The next element is the first of some feed, which no other comes before; the feed goes on. -/
theorem Fed.next (hlt : Weak lt) (h : Fed step m feeds) (hNil : feeds ≠ []) :
    ∃ a others m', feeds.Perm (a :: others) ∧ Merging.next Q step m = (some a.first, m') ∧
      Fed step m' (feedOf a.src a.rest ++ others) ∧
      ∀ z ∈ feeds.flatMap Feed.all, lt z a.first = false := by
  unfold Merging.next
  cases hPop : Q.pop m.heap with
  | none =>
    have hItems := Q.pop_none _ hPop
    rw [h.items, Multiset.coe_eq_zero, List.map_eq_nil_iff] at hItems
    exact absurd hItems hNil
  | some r =>
    obtain ⟨⟨x, src⟩, heap⟩ := r
    obtain ⟨hItems, hLeast⟩ := Q.pop_some _ _ _ hPop
    have hMem : (x, src) ∈ feeds.map fun a => (a.first, a.src) := by
      rw [← Multiset.mem_coe, ← h.items, hItems]
      exact Multiset.mem_cons_self _ _
    obtain ⟨a, ha, hEq⟩ := List.mem_map.mp hMem
    obtain ⟨rfl, rfl⟩ := Prod.mk.inj hEq
    obtain ⟨front, back, rfl⟩ := List.append_of_mem ha
    have hPerm : (front ++ a :: back).Perm (a :: (front ++ back)) := List.perm_middle
    have hSub : ∀ b ∈ front ++ back, b ∈ front ++ a :: back :=
      fun b hb => hPerm.mem_iff.mpr (List.mem_cons_of_mem _ hb)
    have hNodup := (hPerm.map (·.src)).nodup_iff.mp h.sources
    obtain ⟨hOther, hSources⟩ := List.nodup_cons.mp hNodup
    have hFed : Fed step ({ m with heap } : Merging Q σ) (front ++ back) := by
      refine ⟨?_, fun b hb => h.yields b (hSub b hb), hSources, fun b hb => h.sorted b (hSub b hb)⟩
      have hCons : (a.first, a.src) ::ₘ Q.items heap =
          (a.first, a.src) ::ₘ ↑((front ++ back).map fun b => (b.first, b.src)) := by
        rw [← hItems, h.items, Multiset.cons_coe, Multiset.coe_eq_coe]
        exact hPerm.map _
      exact (Multiset.cons_inj_right _).mp hCons
    obtain ⟨s, hs, hYields⟩ := h.yields a ha
    have hSorted := List.pairwise_cons.mp (h.sorted a ha)
    refine ⟨a, front ++ back, _, hPerm, rfl, hFed.refill hs hYields (fun b hb hEq => ?_) hSorted.2,
      fun z hz => ?_⟩
    · exact hOther (List.mem_map.mpr ⟨b, hb, hEq⟩)
    · -- An element comes with or behind the first of its feed, which is in the queue.
      obtain ⟨b, hb, hz⟩ := List.mem_flatMap.mp hz
      have hFirst : lt b.first a.first = false := by
        apply hLeast (b.first, b.src)
        rw [h.items, Multiset.mem_coe]
        exact List.mem_map_of_mem (f := fun b : Feed α => (b.first, b.src)) hb
      rcases List.mem_cons.mp hz with rfl | hz
      · exact hFirst
      · exact hlt.trans _ _ _ hFirst ((List.pairwise_cons.mp (h.sorted b hb)).1 z hz)

/-- A merger gives out all elements of its feeds, in order. -/
theorem Fed.merged (hlt : Weak lt) (h : Fed step m feeds) :
    ∃ out, Iteration.Yields (Merging.next Q step) m out ∧ out.Perm (feeds.flatMap Feed.all) ∧
      out.Pairwise fun x y => lt y x = false := by
  induction hn : (feeds.flatMap Feed.all).length generalizing m feeds with
  | zero =>
    obtain rfl : feeds = [] := by
      cases feeds with
      | nil => rfl
      | cons a feeds => simp [Feed.all] at hn
    exact ⟨[], .done h.next_nil, .nil, .nil⟩
  | succ n ih =>
    have hNil : feeds ≠ [] := by
      rintro rfl
      cases hn
    obtain ⟨a, others, m', hPerm, hNext, hFed, hLe⟩ := h.next hlt hNil
    have hAll : (feeds.flatMap Feed.all).Perm (a.first :: (a.rest ++ others.flatMap Feed.all)) :=
      hPerm.flatMap_right Feed.all
    have hLeft : (feedOf a.src a.rest ++ others).flatMap Feed.all =
        a.rest ++ others.flatMap Feed.all := by
      rw [List.flatMap_append, flatMap_feedOf]
    have hLength := hAll.length_eq
    rw [List.length_cons, hn, ← hLeft] at hLength
    obtain ⟨out, hOut, hOutPerm, hSorted⟩ := ih hFed (by omega)
    rw [hLeft] at hOutPerm
    have hBoth : (a.first :: out).Perm (feeds.flatMap Feed.all) := (hOutPerm.cons _).trans hAll.symm
    refine ⟨a.first :: out, .more hNext hOut, hBoth, List.pairwise_cons.mpr
      ⟨fun z hz => ?_, hSorted⟩⟩
    exact hLe z (hBoth.mem_iff.mp (List.mem_cons_of_mem _ hz))

/-- Refilling from the sources that are still to be asked adds their elements. -/
theorem Fed.foldl_refill {todo : List σ} {lists : List (List α)}
    (hYields : List.Forall₂ (Iteration.Yields step) todo lists)
    (hSorted : ∀ xs ∈ lists, xs.Pairwise fun x y => lt y x = false) (h : Fed step m feeds)
    {k : Nat} (hTodo : m.iters.drop k = todo) (hBelow : ∀ a ∈ feeds, a.src < k) :
    ∃ feeds', Fed step ((List.range' k todo.length).foldl
        (fun m src => Merging.refill Q step src m) m) feeds' ∧
      (feeds'.flatMap Feed.all).Perm (feeds.flatMap Feed.all ++ lists.flatten) := by
  induction hYields generalizing m feeds k with
  | nil => exact ⟨feeds, h, by simp⟩
  | @cons s xs todo lists hFirst hRest ih =>
    have hs : m.iters[k]? = some s := by
      have hHead := congrArg List.head? hTodo
      rwa [List.head?_drop, List.head?_cons] at hHead
    have hFed := h.refill hs hFirst (fun a ha => (hBelow a ha).ne)
      (hSorted xs List.mem_cons_self)
    have hNext : (Merging.refill Q step k m).iters.drop (k + 1) = todo := by
      rw [Merging.refill_drop, ← List.tail_drop, hTodo, List.tail_cons]
    obtain ⟨feeds', hAll, hPerm⟩ := ih (fun ys hys => hSorted ys (List.mem_cons_of_mem _ hys)) hFed
      hNext (by
        intro a ha
        rcases List.mem_append.mp ha with ha | ha
        · cases xs with
          | nil => cases ha
          | cons x xs =>
            obtain rfl := List.mem_singleton.mp ha
            exact Nat.lt_succ_self k
        · exact Nat.lt_succ_of_lt (hBelow a ha))
    refine ⟨feeds', by rwa [List.length_cons, List.range'_succ, List.foldl_cons], hPerm.trans ?_⟩
    rw [List.flatMap_append, flatMap_feedOf, List.flatten_cons, ← List.append_assoc]
    exact List.perm_append_comm.append_right _

/-- A merger of sources that give out ascending elements gives out all of them, in order. -/
theorem Merging.merged_new (hlt : Weak lt) {iters : List σ} {lists : List (List α)}
    (hYields : List.Forall₂ (Iteration.Yields step) iters lists)
    (hSorted : ∀ xs ∈ lists, xs.Pairwise fun x y => lt y x = false) :
    ∃ out, Iteration.Yields (Merging.next Q step) (Merging.new Q step iters) out ∧
      out.Perm lists.flatten ∧ out.Pairwise fun x y => lt y x = false := by
  have hEmpty : Fed step ({ iters, heap := Q.empty } : Merging Q σ) [] :=
    ⟨Q.items_empty, nofun, List.nodup_nil, nofun⟩
  obtain ⟨feeds, hFed, hFeeds⟩ := hEmpty.foldl_refill hYields hSorted List.drop_zero nofun
  rw [← List.range_eq_range'] at hFed
  obtain ⟨out, hOut, hPerm, hOrder⟩ := hFed.merged hlt
  exact ⟨out, hOut, hPerm.trans hFeeds, hOrder⟩

theorem yields_list (xs : List α) : Iteration.Yields listStep xs xs := by
  induction xs with
  | nil => exact .done rfl
  | cons x xs ih => exact .more rfl ih

theorem drainLoop_yields {out : List α} {fuel : Nat}
    (h : Iteration.Yields (Merging.next Q step) m out)
    (hFuel : out.length ≤ fuel) : Merging.drainLoop Q step fuel m = out := by
  induction h generalizing fuel with
  | @done m hNone =>
    cases fuel with
    | zero => rfl
    | succ fuel =>
      rw [Merging.drainLoop]
      split
      · rfl
      · next x m' hNext => rw [hNext] at hNone; cases hNone
  | @more m m' x out hNext hRest ih =>
    cases fuel with
    | zero => cases hFuel
    | succ fuel =>
      rw [Merging.drainLoop, hNext]
      exact congrArg (x :: ·) (ih (Nat.le_of_succ_le_succ hFuel))

/-- Merging lists in order through a queue gives all their elements, in order. -/
theorem Merging.drain_spec (hlt : Weak lt) {lists : List (List α)}
    (hSorted : ∀ xs ∈ lists, xs.Pairwise fun x y => lt y x = false) :
    (Merging.drain Q lists).Perm lists.flatten ∧
      (Merging.drain Q lists).Pairwise fun x y => lt y x = false := by
  have hYields : List.Forall₂ (Iteration.Yields listStep) lists lists :=
    List.forall₂_same.mpr fun xs _ => yields_list xs
  obtain ⟨out, hOut, hPerm, hOrder⟩ := Merging.merged_new (Q := Q) hlt hYields hSorted
  rw [Merging.drain, drainLoop_yields hOut hPerm.length_eq.le]
  exact ⟨hPerm, hOrder⟩

/-- What a merger of lists has left to give out. -/
def Merging.left (m : Merging Q (List α)) : Multiset α :=
  (Q.items m.heap).map Prod.fst + ↑m.iters.flatten

theorem Merging.refill_left (src : Nat) (m : Merging Q (List α)) :
    (Merging.refill Q listStep src m).left = m.left := by
  unfold Merging.refill
  split
  · rfl
  · next xs hs =>
    obtain ⟨hSrc, hEq⟩ := List.getElem?_eq_some_iff.mp hs
    cases xs with
    | nil =>
      simp only [listStep, List.head?_nil, List.tail_nil]
      rw [← hEq, List.set_getElem_self]
    | cons x xs =>
      have hGet : m.iters.getD src [] = x :: xs := by simp [List.getD, hs]
      have hFlat : (m.iters.flatten : Multiset α) = x ::ₘ ↑(m.iters.set src xs).flatten :=
        Multiset.coe_eq_coe.mpr (flatten_set hGet)
      simp only [listStep, List.head?_cons, List.tail_cons, Merging.left, hFlat, Q.items_push,
        Multiset.map_cons, Multiset.cons_add, Multiset.add_cons]

theorem Merging.new_left (lists : List (List α)) :
    (Merging.new Q listStep lists).left = ↑lists.flatten := by
  have hFold : ∀ (srcs : List Nat) (m : Merging Q (List α)),
      (srcs.foldl (fun m src => Merging.refill Q listStep src m) m).left = m.left := by
    intro srcs
    induction srcs with
    | nil => exact fun _ => rfl
    | cons src srcs ih => exact fun m => (ih _).trans (Merging.refill_left src m)
  rw [Merging.new, hFold, Merging.left, Q.items_empty, Multiset.map_zero, Multiset.zero_add]

/-- A merger of lists gives out nothing that they do not hold, whatever their order. -/
theorem Merging.drain_subperm (lists : List (List α)) :
    (Merging.drain Q lists).Subperm lists.flatten := by
  have hLoop : ∀ (fuel : Nat) (m : Merging Q (List α)),
      (Merging.drainLoop Q listStep fuel m : Multiset α) ≤ m.left := by
    intro fuel
    induction fuel with
    | zero => exact fun m => Multiset.zero_le _
    | succ fuel ih =>
      intro m
      rw [Merging.drainLoop, Merging.next]
      cases hPop : Q.pop m.heap with
      | none => exact Multiset.zero_le _
      | some r =>
        obtain ⟨⟨x, src⟩, heap⟩ := r
        have hItems := (Q.pop_some _ _ _ hPop).1
        have hRest := ih (Merging.refill Q listStep src { m with heap })
        rw [Merging.refill_left] at hRest
        rw [Merging.left, hItems, Multiset.map_cons, Multiset.cons_add]
        exact Multiset.cons_le_cons x hRest
  have hAll := hLoop lists.flatten.length (Merging.new Q listStep lists)
  rw [Merging.new_left] at hAll
  exact Multiset.coe_le.mp hAll

section Lists

variable (hlt : Weak lt)

/-- The merger of lists is a merger with a list for its queue. -/
def Merger.asMerging (m : Merger α) : Merging (listQueue hlt) (List α) :=
  { iters := m.iters, heap := m.heap }

theorem refill_list {iters : List (List α)} {heap : List (α × Nat)} {x : α}
    (hs : iters[src]? = some (x :: xs)) :
    Merging.refill (listQueue hlt) listStep src { iters, heap } =
      { iters := iters.set src xs, heap := heap ++ [(x, src)] } := by
  unfold Merging.refill
  simp only [hs]
  rfl

theorem refill_list_nil {iters : List (List α)} {heap : List (α × Nat)}
    (hs : iters.getD src [] = []) :
    Merging.refill (listQueue hlt) listStep src { iters, heap } = { iters, heap } := by
  unfold Merging.refill
  cases hGet : iters[src]? with
  | none => rfl
  | some s =>
    obtain rfl : s = [] := by simpa [List.getD, hGet] using hs
    obtain ⟨hSrc, hEq⟩ := List.getElem?_eq_some_iff.mp hGet
    simp only [listStep, List.head?_nil, List.tail_nil]
    rw [← hEq, List.set_getElem_self]

theorem next_asMerging (m : Merger α) :
    Merging.next (listQueue hlt) listStep (m.asMerging hlt) =
      match m.next lt with
      | none => (none, m.asMerging hlt)
      | some (x, m) => (some x, m.asMerging hlt) := by
  unfold Merging.next Merger.next
  have hPop : (listQueue hlt).pop (m.asMerging hlt).heap = popMin lt m.heap := rfl
  rw [hPop]
  cases popMin lt m.heap with
  | none => rfl
  | some r =>
    obtain ⟨⟨x, src⟩, heap⟩ := r
    simp only [Merger.asMerging]
    cases hIter : m.iters.getD src [] with
    | nil => rw [refill_list_nil hlt hIter]
    | cons y ys =>
      have hGet : m.iters[src]? = some (y :: ys) := by
        cases hGet : m.iters[src]? with
        | none => simp [List.getD, hGet] at hIter
        | some s => simpa [List.getD, hGet] using hIter
      rw [refill_list hlt hGet]

/-- Taking the first element of each list gives the merger of the lists. -/
theorem foldl_refill_lists (iters done : List (List α)) (heap : List (α × Nat)) :
    (List.range' done.length iters.length).foldl
        (fun m src => Merging.refill (listQueue hlt) listStep src m)
        { iters := done ++ iters, heap } =
      { iters := done ++ iters.map List.tail, heap := heap ++ heads done.length iters } := by
  induction iters generalizing done heap with
  | nil => simp [heads]
  | cons xs iters ih =>
    rw [List.length_cons, List.range'_succ, List.foldl_cons]
    have hGet : (done ++ xs :: iters)[done.length]? = some xs := by simp
    have hMore : ∀ ys (heap' : List (α × Nat)), (List.range' (done.length + 1) iters.length).foldl
          (fun m src => Merging.refill (listQueue hlt) listStep src m)
          { iters := done ++ ys :: iters, heap := heap' } =
        { iters := done ++ ys :: iters.map List.tail
          heap := heap' ++ heads (done.length + 1) iters } := by
      intro ys heap'
      have hNext := ih (done ++ [ys]) heap'
      rwa [List.length_append, List.length_singleton, List.append_assoc, List.append_assoc,
        List.singleton_append, List.singleton_append] at hNext
    cases xs with
    | nil =>
      rw [refill_list_nil hlt (by simp [List.getD])]
      exact hMore [] heap
    | cons x xs =>
      rw [refill_list hlt hGet]
      have hSet : (done ++ (x :: xs) :: iters).set done.length xs = done ++ xs :: iters := by simp
      rw [hSet]
      refine (hMore xs (heap ++ [(x, done.length)])).trans ?_
      rw [List.append_assoc, List.singleton_append]
      rfl

theorem new_asMerging (iters : List (List α)) :
    Merging.new (listQueue hlt) listStep iters = (Merger.new iters).asMerging hlt := by
  rw [Merging.new, List.range_eq_range']
  exact foldl_refill_lists hlt iters [] []

/-- The calls for the next element return what the merger of the lists gives out. -/
theorem InOrder.yields {m : Merger α} (hm : InOrder lt m) :
    Iteration.Yields (Merging.next (listQueue hlt) listStep) (m.asMerging hlt) (m.drain lt) := by
  induction hn : m.left.length generalizing m with
  | zero =>
    have hNext : m.next lt = none := by
      cases hNext : m.next lt with
      | none => rfl
      | some r =>
        have hLength := (next_perm (x := r.1) hNext).length_eq
        rw [hn] at hLength
        cases hLength
    rw [drain_of_next_none hm hNext]
    exact .done (by rw [next_asMerging, hNext])
  | succ n ih =>
    cases hNext : m.next lt with
    | none =>
      rw [next_eq_none hm hNext] at hn
      cases hn
    | some r =>
      obtain ⟨x, m'⟩ := r
      have hLength := (next_perm hNext).length_eq
      rw [hn, List.length_cons] at hLength
      rw [drain_of_next hNext]
      exact .more (by rw [next_asMerging, hNext]) (ih (next_inOrder hm hNext) (by omega))

end Lists

end Merge
