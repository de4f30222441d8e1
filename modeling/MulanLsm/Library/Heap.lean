import Mathlib.Data.List.Perm.Basic
import MulanLsm.Library.Queue

/-! Binary heaps.  The children of the element at `i` are at `2 * i + 1` and `2 * i + 2`, and
neither comes before it.  A new element goes to the end and is sifted up.  When the first is taken
out, the last takes its place; it is sifted down to the bottom, past the children that come first,
and from there up. -/

namespace Heap

open Merge (Weak)

variable {α : Type}

def swap (xs : List α) (i j : Nat) : List α :=
  match xs[i]?, xs[j]? with
  | some x, some y => (xs.set i y).set j x
  | _, _ => xs

section Sifting

variable (lt : α → α → Bool)

/-- Both are there, and the one comes before the other. -/
def precedes : Option α → Option α → Bool
  | some x, some y => lt x y
  | _, _ => false

def parent (i : Nat) : Nat := (i - 1) / 2

/-- Move the element at `pos` up, in at most `fuel` turns. -/
def siftUp : Nat → List α → Nat → List α
  | 0, xs, _ => xs
  | fuel + 1, xs, pos =>
    if 0 < pos ∧ precedes lt xs[pos]? xs[parent pos]? then
      siftUp fuel (swap xs pos (parent pos)) (parent pos)
    else xs

/-- Move the element at `pos` down to the bottom, in at most `fuel` turns, and return where it
is. -/
def siftDownToBottom : Nat → List α → Nat → List α × Nat
  | 0, xs, pos => (xs, pos)
  | fuel + 1, xs, pos =>
    let child := 2 * pos + 1
    if child + 1 < xs.length then
      -- Of two children of which neither comes first, the right one is taken.
      let child := if precedes lt xs[child]? xs[child + 1]? then child else child + 1
      siftDownToBottom fuel (swap xs pos child) child
    else if child < xs.length then (swap xs pos child, child)
    else (xs, pos)

def push (xs : List α) (x : α) : List α := siftUp lt xs.length (xs ++ [x]) xs.length

def pop (xs : List α) : Option (α × List α) :=
  match xs.dropLast, xs.getLast? with
  | first :: rest, some last =>
    let down := siftDownToBottom lt (rest.length + 1) (last :: rest) 0
    some (first, siftUp lt down.2 down.1 down.2)
  | _, last => last.map fun last => (last, [])

/-- No element comes before its parent. -/
def IsHeap (xs : List α) : Prop := ∀ i, 0 < i → precedes lt xs[i]? xs[parent i]? = false

/-- No element but the one at `pos` comes before its parent, and its children do not come before its
parent. -/
structure Rising (xs : List α) (pos : Nat) : Prop where
  others : ∀ i, 0 < i → i ≠ pos → precedes lt xs[i]? xs[parent i]? = false
  children : ∀ i, 0 < i → parent i = pos → 0 < pos → precedes lt xs[i]? xs[parent pos]? = false

/-- No element comes before its parent, but for the one at `pos` and its children, and these do not
come before its parent. -/
structure Sinking (xs : List α) (pos : Nat) : Prop where
  others : ∀ i, 0 < i → i ≠ pos → parent i ≠ pos → precedes lt xs[i]? xs[parent i]? = false
  children : ∀ i, 0 < i → parent i = pos → 0 < pos → precedes lt xs[i]? xs[parent pos]? = false

end Sifting

variable {lt : α → α → Bool} {xs ys : List α} {x y : α} {i j k pos fuel : Nat}

theorem parent_lt (h : 0 < i) : parent i < i := by
  unfold parent
  omega

theorem parent_eq (hi : 0 < i) : parent i = pos ↔ i = 2 * pos + 1 ∨ i = 2 * pos + 2 := by
  unfold parent
  omega

@[simp] theorem length_swap : (swap xs i j).length = xs.length := by
  unfold swap
  split
  · rw [List.length_set, List.length_set]
  · rfl

theorem getElem?_swap (hi : i < xs.length) (hj : j < xs.length) (k : Nat) :
    (swap xs i j)[k]? = if k = j then xs[i]? else if k = i then xs[j]? else xs[k]? := by
  unfold swap
  rw [List.getElem?_eq_getElem hi, List.getElem?_eq_getElem hj]
  dsimp only
  by_cases hkj : k = j
  · subst hkj
    rw [if_pos rfl, List.getElem?_set_self (by simpa using hj)]
  · rw [if_neg hkj, List.getElem?_set_ne (Ne.symm hkj)]
    by_cases hki : k = i
    · subst hki
      rw [if_pos rfl, List.getElem?_set_self hi]
    · rw [if_neg hki, List.getElem?_set_ne (Ne.symm hki)]

theorem swap_perm (xs : List α) (i j : Nat) : (swap xs i j).Perm xs := by
  unfold swap
  split
  · next x y hx hy =>
    obtain ⟨hi, rfl⟩ := List.getElem?_eq_some_iff.mp hx
    obtain ⟨hj, rfl⟩ := List.getElem?_eq_some_iff.mp hy
    exact List.set_set_perm hi hj
  · exact List.Perm.refl _

variable (lt) in
theorem siftUp_perm (fuel : Nat) (xs : List α) (pos : Nat) : (siftUp lt fuel xs pos).Perm xs := by
  induction fuel generalizing xs pos with
  | zero => exact List.Perm.refl _
  | succ fuel ih =>
    rw [siftUp]
    split
    · exact (ih _ _).trans (swap_perm _ _ _)
    · exact List.Perm.refl _

variable (lt) in
theorem siftDownToBottom_perm (fuel : Nat) (xs : List α) (pos : Nat) :
    (siftDownToBottom lt fuel xs pos).1.Perm xs := by
  induction fuel generalizing xs pos with
  | zero => exact List.Perm.refl _
  | succ fuel ih =>
    rw [siftDownToBottom]
    dsimp only
    split
    · exact (ih _ _).trans (swap_perm _ _ _)
    · split
      · exact swap_perm _ _ _
      · exact List.Perm.refl _

theorem precedes_of_length_le (h : xs.length ≤ i) (o : Option α) :
    precedes lt xs[i]? o = false := by
  rw [List.getElem?_eq_none h]
  rfl

theorem precedes_asymm (hlt : Weak lt) {a b : Option α} (h : precedes lt a b = true) :
    precedes lt b a = false := by
  cases a with
  | none => cases h
  | some x =>
    cases b with
    | none => rfl
    | some y => exact hlt.asymm x y h

/-- That an element does not come before another is transitive, if the one between is there. -/
theorem precedes_trans (hlt : Weak lt) {a c : Option α} (hj : j < xs.length)
    (h : precedes lt xs[j]? a = false) (h' : precedes lt c xs[j]? = false) :
    precedes lt c a = false := by
  rw [List.getElem?_eq_getElem hj] at h h'
  cases a with
  | none => cases c <;> rfl
  | some x =>
    cases c with
    | none => rfl
    | some z => exact hlt.trans x xs[j] z h h'

theorem siftUp_isHeap (hlt : Weak lt) (h : Rising lt xs pos) (hFuel : pos ≤ fuel)
    (hPos : pos < xs.length) : IsHeap lt (siftUp lt fuel xs pos) := by
  induction fuel generalizing xs pos with
  | zero => exact fun i hi => h.others i hi (by omega)
  | succ fuel ih =>
    rw [siftUp]
    split
    · next hUp =>
      obtain ⟨hSome, hBefore⟩ := hUp
      have hParent := parent_lt hSome
      have hIn : parent pos < xs.length := hParent.trans hPos
      have hSwap := getElem?_swap hPos hIn
      have hBack := precedes_asymm hlt hBefore
      refine ih ⟨fun i hi hne => ?_, fun i hi hChild hUp => ?_⟩ (by omega) (by simpa using hIn)
      · rw [hSwap, hSwap, if_neg hne]
        by_cases hi' : i = pos
        · rw [if_pos hi', if_pos (by rw [hi'])]
          exact hBack
        · rw [if_neg hi']
          by_cases hSibling : parent i = parent pos
          · rw [if_pos hSibling]
            exact precedes_trans hlt hIn hBack (hSibling ▸ h.others i hi hi')
          · rw [if_neg hSibling]
            split
            · next hChild => exact h.children i hi hChild hSome
            · exact h.others i hi hi'
      · have hAbove := parent_lt hUp
        have hBelow : i ≠ parent pos := by
          have := parent_lt hi
          omega
        have hGrand := h.others (parent pos) hUp hParent.ne
        rw [hSwap, hSwap, if_neg hBelow, if_neg hAbove.ne, if_neg (hAbove.trans hParent).ne]
        split
        · exact hGrand
        · next hi' => exact precedes_trans hlt hIn hGrand (hChild ▸ h.others i hi hi')
    · next hStop =>
      intro i hi
      by_cases hi' : i = pos
      · subst hi'
        rw [not_and] at hStop
        exact Bool.eq_false_iff.mpr (hStop hi)
      · exact h.others i hi hi'

/-- The element moves down past a child that the other child does not come before. -/
theorem Sinking.swap (h : Sinking lt xs pos) {child : Nat} (hIn : child < xs.length)
    (hUp : 0 < child) (hChild : parent child = pos)
    (hLeast : ∀ i, 0 < i → parent i = pos → i ≠ child → precedes lt xs[i]? xs[child]? = false) :
    Sinking lt (swap xs pos child) child := by
  have hBelow : pos < child := hChild ▸ parent_lt hUp
  have hSwap := getElem?_swap (hBelow.trans hIn) hIn
  refine ⟨fun i hi hne hOther => ?_, fun i hi hGrand _ => ?_⟩
  · rw [hSwap, hSwap, if_neg hne, if_neg hOther]
    by_cases hi' : i = pos
    · subst hi'
      rw [if_pos rfl, if_neg (parent_lt hi).ne]
      exact h.children child hUp hChild hi
    · rw [if_neg hi']
      by_cases hSibling : parent i = pos
      · rw [if_pos hSibling]
        exact hLeast i hi hSibling hne
      · rw [if_neg hSibling]
        exact h.others i hi hi' hSibling
  · have hi' := parent_lt hi
    rw [hGrand] at hi'
    rw [hSwap, hSwap, if_neg hi'.ne', if_neg (hBelow.trans hi').ne', hChild, if_neg hBelow.ne,
      if_pos rfl, ← hGrand]
    exact h.others i hi (hBelow.trans hi').ne' (by rw [hGrand]; exact hBelow.ne')

/-- An element without children may only have to move up. -/
theorem Sinking.rising (h : Sinking lt xs pos) (hBottom : xs.length ≤ 2 * pos + 1) :
    Rising lt xs pos := by
  have hNone (i : Nat) (hi : 0 < i) (hChild : parent i = pos) : xs.length ≤ i := by
    rcases (parent_eq hi).mp hChild with rfl | rfl
    · exact hBottom
    · omega
  refine ⟨fun i hi hne => ?_, h.children⟩
  by_cases hChild : parent i = pos
  · exact precedes_of_length_le (hNone i hi hChild) _
  · exact h.others i hi hne hChild

theorem siftDownToBottom_rising (hlt : Weak lt) (h : Sinking lt xs pos)
    (hFuel : xs.length ≤ pos + fuel) (hPos : pos < xs.length) :
    Rising lt (siftDownToBottom lt fuel xs pos).1 (siftDownToBottom lt fuel xs pos).2 ∧
      (siftDownToBottom lt fuel xs pos).2 < xs.length := by
  induction fuel generalizing xs pos with
  | zero => omega
  | succ fuel ih =>
    rw [siftDownToBottom]
    dsimp only
    split
    · next hTwo =>
      split
      · next hLeft =>
        have hParent : parent (2 * pos + 1) = pos := (parent_eq (Nat.succ_pos _)).mpr (.inl rfl)
        have hNext := h.swap (Nat.lt_of_succ_lt hTwo) (Nat.succ_pos _) hParent
          fun i hi hChild hne => by
          obtain rfl : i = 2 * pos + 2 := ((parent_eq hi).mp hChild).resolve_left hne
          exact precedes_asymm hlt hLeft
        have hRest := ih hNext (by rw [length_swap]; omega) (by rw [length_swap]; omega)
        rwa [length_swap] at hRest
      · next hRight =>
        have hParent : parent (2 * pos + 1 + 1) = pos := (parent_eq (Nat.succ_pos _)).mpr (.inr rfl)
        have hNext := h.swap hTwo (Nat.succ_pos _) hParent fun i hi hChild hne => by
          obtain rfl : i = 2 * pos + 1 := ((parent_eq hi).mp hChild).resolve_right hne
          exact Bool.eq_false_iff.mpr hRight
        have hRest := ih hNext (by rw [length_swap]; omega) (by rw [length_swap]; omega)
        rwa [length_swap] at hRest
    · next hNotTwo =>
      split
      · next hOne =>
        have hParent : parent (2 * pos + 1) = pos := (parent_eq (Nat.succ_pos _)).mpr (.inl rfl)
        have hNext := h.swap hOne (Nat.succ_pos _) hParent fun i hi hChild hne => by
          obtain rfl : i = 2 * pos + 2 := ((parent_eq hi).mp hChild).resolve_left hne
          exact precedes_of_length_le (by omega) _
        exact ⟨hNext.rising (by rw [length_swap]; omega), hOne⟩
      · next hNotOne => exact ⟨h.rising (by omega), hPos⟩

theorem IsHeap.least (hlt : Weak lt) (h : IsHeap lt (x :: xs)) : ∀ y ∈ x :: xs, lt y x = false := by
  have hAll : ∀ i : Nat, precedes lt (x :: xs)[i]? (some x) = false := by
    intro i
    induction i using Nat.strong_induction_on with
    | h i ih =>
      by_cases hi : 0 < i
      · by_cases hIn : i < (x :: xs).length
        · exact precedes_trans hlt ((parent_lt hi).trans hIn) (ih _ (parent_lt hi)) (h i hi)
        · exact precedes_of_length_le (Nat.not_lt.mp hIn) _
      · obtain rfl : i = 0 := Nat.eq_zero_of_not_pos hi
        exact hlt.irrefl x
  intro y hy
  obtain ⟨i, hi, rfl⟩ := List.getElem_of_mem hy
  have hLe := hAll i
  rwa [List.getElem?_eq_getElem hi] at hLe

theorem push_perm (xs : List α) (x : α) : (push lt xs x).Perm (x :: xs) :=
  (siftUp_perm lt _ _ _).trans (List.perm_append_singleton x xs)

theorem push_isHeap (hlt : Weak lt) (h : IsHeap lt xs) (x : α) : IsHeap lt (push lt xs x) := by
  refine siftUp_isHeap hlt ⟨fun i hi hne => ?_, fun i hi hChild _ => ?_⟩ le_rfl (by simp)
  · by_cases hIn : i < xs.length
    · rw [List.getElem?_append_left hIn, List.getElem?_append_left ((parent_lt hi).trans hIn)]
      exact h i hi
    · exact precedes_of_length_le (by rw [List.length_append, List.length_singleton]; omega) _
  · have := parent_lt hi
    exact precedes_of_length_le (by rw [List.length_append, List.length_singleton]; omega) _

theorem pop_eq_none (h : pop lt xs = none) : xs = [] := by
  unfold pop at h
  split at h
  · contradiction
  · rw [Option.map_eq_none_iff] at h
    exact List.getLast?_eq_none_iff.mp h

/-- The first element is taken out, which no other comes before, and the rest is a heap. -/
theorem pop_spec (hlt : Weak lt) (h : IsHeap lt xs) (hPop : pop lt xs = some (x, ys)) :
    xs.Perm (x :: ys) ∧ xs.head? = some x ∧ IsHeap lt ys := by
  unfold pop at hPop
  split at hPop
  · next first rest last hInit hLast =>
    obtain ⟨init, rfl⟩ := List.getLast?_eq_some_iff.mp hLast
    rw [List.dropLast_concat] at hInit
    subst hInit
    have hSinking : Sinking lt (last :: rest) 0 := by
      refine ⟨fun i hi hne hNotRoot => ?_, fun i hi hChild hPos => absurd hPos (lt_irrefl 0)⟩
      by_cases hIn : i < (last :: rest).length
      · obtain ⟨i, rfl⟩ := Nat.exists_eq_succ_of_ne_zero hi.ne'
        obtain ⟨p, hp⟩ := Nat.exists_eq_succ_of_ne_zero hNotRoot
        have hParent : p < rest.length := by
          have := parent_lt hi
          rw [List.length_cons] at hIn
          omega
        have hHeap := h (i + 1) hi
        rw [Nat.succ_eq_add_one] at hp
        rw [hp, List.cons_append, List.getElem?_cons_succ, List.getElem?_cons_succ,
          List.getElem?_append_left (by simpa using hIn),
          List.getElem?_append_left hParent] at hHeap
        rwa [Nat.succ_eq_add_one, hp, List.getElem?_cons_succ, List.getElem?_cons_succ]
      · exact precedes_of_length_le (Nat.not_lt.mp hIn) _
    obtain ⟨hRising, hIn⟩ := siftDownToBottom_rising hlt hSinking (Nat.le_add_left _ 0)
      (Nat.succ_pos _)
    have hDown := siftDownToBottom_perm lt (rest.length + 1) (last :: rest) 0
    rw [List.length_cons] at hRising hIn
    obtain ⟨rfl, rfl⟩ := Prod.mk.inj (Option.some.inj hPop)
    generalize siftDownToBottom lt (rest.length + 1) (last :: rest) 0 = down at hRising hIn hDown
    have hPerm := (siftUp_perm lt down.2 down.1 down.2).trans hDown
    refine ⟨?_, rfl, siftUp_isHeap hlt hRising le_rfl ?_⟩
    · exact ((List.perm_append_singleton last rest).trans hPerm.symm).cons first
    · rw [hDown.length_eq]
      exact hIn
  · next hNot =>
    obtain ⟨last, hLast, hEq⟩ := Option.map_eq_some_iff.mp hPop
    obtain ⟨rfl, rfl⟩ := Prod.mk.inj hEq
    obtain ⟨init, rfl⟩ := List.getLast?_eq_some_iff.mp hLast
    cases init with
    | nil => exact ⟨List.Perm.refl _, rfl, fun i hi => rfl⟩
    | cons first rest => exact absurd hLast (hNot first rest last (by rw [List.dropLast_concat]))

end Heap

/-- A list in which no element comes before its parent. -/
structure BinaryHeap {α : Type} (lt : α → α → Bool) where
  items : List α
  ordered : Heap.IsHeap lt items

namespace BinaryHeap

variable {α : Type} {lt : α → α → Bool} (hlt : Merge.Weak lt)

def empty : BinaryHeap lt := { items := [], ordered := fun _ _ => rfl }

def push (h : BinaryHeap lt) (x : α) : BinaryHeap lt :=
  { items := Heap.push lt h.items x, ordered := Heap.push_isHeap hlt h.ordered x }

def pop (h : BinaryHeap lt) : Option (α × BinaryHeap lt) :=
  match hPop : Heap.pop lt h.items with
  | none => none
  | some (x, items) =>
    some (x, { items, ordered := (Heap.pop_spec hlt h.ordered hPop).2.2 })

theorem pop_eq_none {h : BinaryHeap lt} (hPop : h.pop hlt = none) : h.items = [] := by
  unfold pop at hPop
  split at hPop
  · next hNone => exact Heap.pop_eq_none hNone
  · contradiction

theorem pop_eq_some {h h' : BinaryHeap lt} {x : α} (hPop : h.pop hlt = some (x, h')) :
    h.items.Perm (x :: h'.items) ∧ h.items.head? = some x := by
  unfold pop at hPop
  split at hPop
  · contradiction
  · next x' items hSome =>
    obtain ⟨rfl, rfl⟩ := Prod.mk.inj (Option.some.inj hPop)
    obtain ⟨hPerm, hHead, -⟩ := Heap.pop_spec hlt h.ordered hSome
    exact ⟨hPerm, hHead⟩

/-- A binary heap is a priority queue. -/
def queue : Merge.PriorityQueue α lt where
  Heap := BinaryHeap lt
  empty := empty
  push := push hlt
  pop := pop hlt
  peek h := h.items.head?
  items h := h.items
  items_empty := rfl
  items_push h x := Multiset.coe_eq_coe.mpr (Heap.push_perm h.items x)
  pop_none h hPop := by rw [pop_eq_none hlt hPop, Multiset.coe_nil]
  pop_some h x h' hPop := by
    obtain ⟨hPerm, hHead⟩ := pop_eq_some hlt hPop
    refine ⟨Multiset.coe_eq_coe.mpr hPerm, fun y hy => ?_⟩
    obtain ⟨rest, hItems⟩ := List.head?_eq_some_iff.mp hHead
    apply Heap.IsHeap.least hlt (hItems ▸ h.ordered)
    rwa [← hItems]
  peek_eq h := by
    cases hPop : h.pop hlt with
    | none => rw [pop_eq_none hlt hPop]; rfl
    | some r => exact (pop_eq_some hlt (x := r.1) hPop).2

end BinaryHeap
