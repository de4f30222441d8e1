import Mathlib.Data.List.Sort
import MulanLsm.Skiplist

/-! Runs of inserts into a skip list.  Whatever heights are drawn, its levels are ordered lists,
each within the one below, and the lowest holds all pairs in the order of their keys. -/

namespace MulanLsm

namespace Skiplist

variable {κ ν : Type}

/-- The value of the first node with the key `key`. -/
def get [DecidableEq κ] (lt : κ → κ → Bool) (s : Skiplist κ ν) (key : κ) : Option (Option ν) := do
  let cur ← s.descend lt key s.maxHeight headIndex
  match ← s.next cur 0 with
  | none => return none
  | some n =>
    let node ← s.nodes[n]?
    return if node.key = key then some node.value else none

/-- The nodes of a level from a node on, at most `fuel` of them. -/
def levelFrom (s : Skiplist κ ν) (level : Nat) : Nat → Option Nat → Option (List Nat)
  | _, none => some []
  | 0, some _ => none
  | fuel + 1, some n => do
    let succ ← s.next n level
    let rest ← levelFrom s level fuel succ
    return n :: rest

/-- The nodes of a level, one behind the other. -/
def level (s : Skiplist κ ν) (level : Nat) : Option (List Nat) := do
  let first ← s.next headIndex level
  s.levelFrom level s.nodes.length first

/-- The list after some inserts, each with the draws for the height of its node. -/
def insertAll (lt : κ → κ → Bool) (s : Skiplist κ ν) (ops : List ((κ × ν) × (Nat → Nat))) :
    Option (Skiplist κ ν) :=
  ops.foldlM (fun s op => s.insert lt op.2 op.1.1 op.1.2) s

section Levels

variable {lt : κ → κ → Bool} {s : Skiplist κ ν} {order : List Nat} {level : Nat}

/-- Following a level gives the nodes that are high enough, in their order. -/
theorem levelFrom_spec (h : s.Linked order) (fuel : Nat) {as bs : List Nat}
    (hSplit : order = as ++ bs) (hFuel : bs.length ≤ fuel) :
    s.levelFrom level fuel (bs.find? fun j => level < s.height j) =
      some (bs.filter fun j => level < s.height j) := by
  induction fuel generalizing as bs with
  | zero =>
    obtain rfl : bs = [] := List.length_eq_zero_iff.mp (Nat.le_zero.mp hFuel)
    rfl
  | succ fuel ih =>
    cases hFind : bs.find? fun j => level < s.height j with
    | none =>
      have hNone : (bs.filter fun j => level < s.height j) = [] :=
        List.filter_eq_nil_iff.mpr (List.find?_eq_none.mp hFind)
      rw [hNone, levelFrom]
    | some i =>
      obtain ⟨hi, front, back, rfl, hFront⟩ := List.find?_eq_some_iff_append.mp hFind
      have hNext := h.links (headIndex :: as ++ front) i back (by simp [hSplit]) level
        (of_decide_eq_true hi)
      have hSplit' : order = (as ++ front ++ [i]) ++ back := by simp [hSplit]
      have hRest := ih hSplit' (by
        rw [List.length_append, List.length_cons] at hFuel
        omega)
      have hFiltered : (front.filter fun j => level < s.height j) = [] :=
        List.filter_eq_nil_iff.mpr fun j hj => by simpa using hFront j hj
      simp only [levelFrom, hNext, Option.bind_eq_bind, Option.bind_some, hRest]
      rw [List.filter_append, hFiltered, List.nil_append, List.filter_cons, if_pos hi]
      rfl

theorem Linked.level_eq (h : s.Linked order) (hLevel : level < maxLevels) :
    s.level level = some (order.filter fun j => level < s.height j) := by
  have hFirst := h.links [] headIndex order rfl level (h.head ▸ hLevel)
  have hLength := h.perm.length_eq
  rw [List.length_cons, List.length_range] at hLength
  simp only [Skiplist.level, hFirst, Option.bind_eq_bind, Option.bind_some]
  exact levelFrom_spec h _ (List.nil_append order).symm (by omega)

/-- Each height is drawn by some draws. -/
theorem randomHeight_surjective {height : Nat} (hPos : 0 < height) (hMax : height ≤ maxLevels) :
    ∃ draws, randomHeight draws = height := by
  refine ⟨fun i => if i < height then 0 else 1, ?_⟩
  have hLoop : ∀ n i, i ≤ height → height ≤ i + n →
      heightLoop (fun i => if i < height then 0 else 1) n i = height := by
    intro n
    induction n with
    | zero =>
      intro i hLow hHigh
      rw [heightLoop]
      omega
    | succ n ih =>
      intro i hLow hHigh
      rw [heightLoop]
      by_cases hi : i < height
      · rw [if_pos (if_pos hi)]
        exact ih (i + 1) hi (by omega)
      · rw [if_neg (by rw [if_neg hi]; decide)]
        omega
  exact hLoop (maxLevels - 1) 1 hPos (by unfold maxLevels at *; omega)

end Levels

section Runs

variable [LinearOrder κ]

/-- The order of the keys, as the list compares them. -/
def less (a b : κ) : Bool := a < b

/-- The pairs in the order of their keys, and of those with one key the latest first. -/
def inKeyOrder (pairs : List (κ × ν)) : List (κ × ν) :=
  pairs.reverse.insertionSort fun x y => x.1 ≤ y.1

/-- The levels of a list are ordered, and each is within the one below; the lowest has these
pairs. -/
structure Layered (s : Skiplist κ ν) (es : List (κ × ν)) : Prop where
  sorted : ∀ level < maxLevels, ∃ (is : List Nat) (xs : List (κ × ν)), s.level level = some is ∧
    is.map s.entry = xs.map some ∧ xs.Pairwise fun x y => x.1 ≤ y.1
  sublist : ∀ level, level + 1 < maxLevels → ∃ is is', s.level level = some is ∧
    s.level (level + 1) = some is' ∧ is'.Sublist is
  lowest : ∃ is, s.level 0 = some is ∧ is.Nodup ∧ is.map s.entry = es.map some

variable {s : Skiplist κ ν} {es pairs : List (κ × ν)} {k : κ}

theorem less_trans (x y z : κ) (h : less y x = false) (h' : less z y = false) :
    less z x = false := by
  simp only [less, decide_eq_false_iff_not, not_lt] at h h' ⊢
  exact h.trans h'

theorem less_asymm (x y : κ) (h : less x y = true) : less y x = false := by
  simp only [less, decide_eq_true_eq, decide_eq_false_iff_not, not_lt] at h ⊢
  exact h.le

theorem Holds.pairwise_le (h : Holds less s es) : es.Pairwise fun x y => x.1 ≤ y.1 :=
  h.sorted.imp fun hxy => by simpa [less] using hxy

theorem Holds.layered (h : Holds less s es) : s.Layered es := by
  have ⟨⟨order, hLinked, hEntries⟩, hSorted⟩ := h
  have hLowest : (order.filter fun j => 0 < s.height j) = order :=
    List.filter_eq_self.mpr fun j hj => decide_eq_true (hLinked.heights j hj).1
  refine ⟨fun level hLevel => ?_, fun level hLevel => ?_, order, ?_, ?_, hEntries⟩
  · have hSub := (List.filter_sublist (p := fun j => level < s.height j) (l := order)).map s.entry
    rw [hEntries] at hSub
    obtain ⟨xs, hXs, hMap⟩ := List.sublist_map_iff.mp hSub
    exact ⟨_, xs, hLinked.level_eq hLevel, hMap, h.pairwise_le.sublist hXs⟩
  · refine ⟨_, _, hLinked.level_eq (by omega), hLinked.level_eq hLevel, ?_⟩
    refine List.monotone_filter_right order fun j hj => ?_
    rw [decide_eq_true_eq] at hj ⊢
    omega
  · rw [hLinked.level_eq (by decide), hLowest]
  · have hNodup := hLinked.nodup
    exact (List.nodup_cons.mp hNodup).2

/-- An insert puts its pair in front of all with a key that is not less. -/
theorem Holds.insert_inKeyOrder [Inhabited κ] [Inhabited ν] (h : Holds less s (inKeyOrder pairs))
    (draws : Nat → Nat) (e : κ × ν) :
    ∃ s', s.insert less draws e.1 e.2 = some s' ∧ Holds less s' (inKeyOrder (pairs ++ [e])) := by
  obtain ⟨s', hInsert, hHolds⟩ := h.insert less_trans less_asymm draws e.1 e.2
  refine ⟨s', hInsert, ?_⟩
  have hLess : (fun x : κ × ν => less x.1 e.1) = fun x => decide ¬e.1 ≤ x.1 := by
    funext x
    rw [less, decide_eq_decide, not_le]
  have hOrder : inKeyOrder (pairs ++ [e]) =
      (inKeyOrder pairs).orderedInsert (fun x y => x.1 ≤ y.1) e := by
    rw [inKeyOrder, List.reverse_append, List.reverse_singleton, List.singleton_append,
      List.insertionSort_cons, inKeyOrder]
  rwa [hOrder, List.orderedInsert_eq_take_drop, ← hLess]

theorem Holds.insertAll [Inhabited κ] [Inhabited ν] (h : Holds less s (inKeyOrder pairs))
    (ops : List ((κ × ν) × (Nat → Nat))) :
    ∃ s', insertAll less s ops = some s' ∧
      Holds less s' (inKeyOrder (pairs ++ ops.map Prod.fst)) := by
  induction ops generalizing s pairs with
  | nil => exact ⟨s, rfl, by simpa using h⟩
  | cons op ops ih =>
    obtain ⟨s₁, hInsert, hHolds⟩ := h.insert_inKeyOrder op.2 op.1
    obtain ⟨s', hRest, hAll⟩ := ih hHolds
    refine ⟨s', ?_, by simpa using hAll⟩
    simp only [Skiplist.insertAll, List.foldlM_cons, hInsert, Option.bind_eq_bind, Option.bind_some]
    exact hRest

/-- The pairs with one key are in the order from the latest to the first. -/
theorem filter_inKeyOrder (pairs : List (κ × ν)) (k : κ) :
    (inKeyOrder pairs).filter (fun e => e.1 = k) = pairs.reverse.filter fun e => e.1 = k := by
  have hEqual : (pairs.reverse.filter fun e => e.1 = k).Pairwise fun x y => x.1 ≤ y.1 := by
    refine List.Pairwise.imp_of_mem (R := fun _ _ => True) (fun {x y} hx hy _ => ?_)
      (List.pairwise_of_forall fun _ _ => trivial)
    have hxk : x.1 = k := by simpa using (List.mem_filter.mp hx).2
    have hyk : y.1 = k := by simpa using (List.mem_filter.mp hy).2
    rw [hxk, hyk]
  have hSub : (pairs.reverse.filter fun e => e.1 = k).Sublist (inKeyOrder pairs) :=
    List.sublist_insertionSort hEqual List.filter_sublist
  have hBoth := hSub.filter fun e => e.1 = k
  rw [List.filter_filter] at hBoth
  simp only [Bool.and_self] at hBoth
  refine (hBoth.eq_of_length ?_).symm
  exact ((List.perm_insertionSort _ _).filter _).length_eq.symm

/-- A key is found where a search for it ends, if anywhere. -/
theorem find?_key (h : es.Pairwise fun x y => x.1 ≤ y.1) (k : κ) :
    (es.find? fun e => e.1 = k) = (es.find? fun e => k ≤ e.1).filter fun e => e.1 = k := by
  induction es with
  | nil => rfl
  | cons e es ih =>
    obtain ⟨hFirst, hRest⟩ := List.pairwise_cons.mp h
    rcases lt_trichotomy e.1 k with hLt | rfl | hGt
    · rw [List.find?_cons_of_neg (by simpa using hLt.ne),
        List.find?_cons_of_neg (by simpa using hLt)]
      exact ih hRest
    · simp [Option.filter]
    · rw [List.find?_cons_of_neg (by simpa using hGt.ne'),
        List.find?_cons_of_pos (by simpa using hGt.le), Option.filter_some, if_neg (by
          simpa using hGt.ne'), List.find?_eq_none]
      intro x hx
      simpa using (hGt.trans_le (hFirst x hx)).ne'

theorem Holds.lowerBound_find (h : Holds less s es) (k : κ) :
    s.lowerBound less k = some (es.find? fun e => k ≤ e.1) := by
  have hNot : (fun e : κ × ν => !decide (k ≤ e.1)) = fun e => less e.1 k := by
    funext e
    rw [less, ← decide_not, decide_eq_decide, not_le]
  rw [h.lowerBound less_trans, List.find?_eq_head?_dropWhile_not, hNot]

/-- An exact search ends where the search for a lower bound does. -/
theorem get_eq (s : Skiplist κ ν) (k : κ) : s.get less k =
    (s.lowerBound less k).map fun r => (r.filter fun e => e.1 = k).map (·.2) := by
  simp only [get, Skiplist.lowerBound, Option.bind_eq_bind]
  cases s.descend less k s.maxHeight headIndex with
  | none => rfl
  | some cur =>
    simp only [Option.bind_some]
    cases s.next cur 0 with
    | none => rfl
    | some succ =>
      cases succ with
      | none => rfl
      | some n =>
        simp only [Option.bind_some]
        cases s.nodes[n]? with
        | none => rfl
        | some node => by_cases hk : node.key = k <;> simp [hk, Option.filter]

/-- Every height can be drawn.  Any inserts, with any heights, give a list whose levels are ordered,
each within the one below.  Going over it gives the pairs in the order of their keys, the latest
first among equal keys; a key is found with its latest value, and so is the first pair from a key
on. -/
theorem inserts_keep_order [Inhabited κ] [Inhabited ν] :
    (∀ height, 0 < height → height ≤ maxLevels → ∃ draws, randomHeight draws = height) ∧
    ∀ ops : List ((κ × ν) × (Nat → Nat)), ∃ s, insertAll less .new ops = some s ∧
      s.Layered (inKeyOrder (ops.map Prod.fst)) ∧
      (inKeyOrder (ops.map Prod.fst)).Perm (ops.map Prod.fst) ∧
      (inKeyOrder (ops.map Prod.fst)).Pairwise (fun x y => x.1 ≤ y.1) ∧
      (∀ k, (inKeyOrder (ops.map Prod.fst)).filter (fun e => e.1 = k) =
        (ops.map Prod.fst).reverse.filter fun e => e.1 = k) ∧
      s.iter = some (inKeyOrder (ops.map Prod.fst)) ∧
      (∀ k, s.get less k =
        some (((ops.map Prod.fst).reverse.find? fun e => e.1 = k).map (·.2))) ∧
      ∀ k, s.lowerBound less k =
        some ((inKeyOrder (ops.map Prod.fst)).find? fun e => k ≤ e.1) := by
  refine ⟨fun height => randomHeight_surjective, fun ops => ?_⟩
  have hNew : Holds less (Skiplist.new : Skiplist κ ν) (inKeyOrder []) := Holds.new
  obtain ⟨s, hInserts, hHolds⟩ := hNew.insertAll ops
  rw [List.nil_append] at hHolds
  have hFilter := filter_inKeyOrder (ops.map Prod.fst)
  refine ⟨s, hInserts, hHolds.layered, ?_, hHolds.pairwise_le, hFilter, hHolds.iter, fun k => ?_,
    hHolds.lowerBound_find⟩
  · exact (List.perm_insertionSort _ _).trans (List.reverse_perm _)
  · rw [get_eq, hHolds.lowerBound_find, Option.map_some, ← find?_key hHolds.pairwise_le,
      ← List.head?_filter, hFilter, List.head?_filter]

/-- Three pairs, two with one key, as they are gone over. -/
example :
    (insertAll less .new [((2, 0), fun _ => 0), ((1, 1), fun n => n), ((2, 2), fun _ => 1)]).bind
    iter = some [(1, 1), (2, 2), (2, 0)] := by decide

end Runs

end Skiplist

end MulanLsm
