import Mathlib.Data.List.Basic
import Mathlib.Data.List.Perm.Basic
import Mathlib.Data.List.Nodup
import Mathlib.Data.List.TakeWhile
import Mathlib.Order.Nat
import Mathlib.Tactic.Common

/-! The skip list.  Nodes stand in an arena and name one another by their index, each with a
successor on every level up to its height.  Whatever the heights are, a list whose nodes are linked
in the order of their keys is searched as that ordered sequence is, and stays so when a node is
inserted. -/

namespace MulanLsm

/-- The heights that a node may have. -/
def maxLevels : Nat := 12

/-- The index of the node in front of all others. -/
def headIndex : Nat := 0

/-- A node.  It has as many successors as it is high; there may be none on a level. -/
structure Node (κ ν : Type) where
  key : κ
  value : ν
  next : List (Option Nat)

structure Skiplist (κ ν : Type) where
  nodes : List (Node κ ν)
  maxHeight : Nat

namespace Skiplist

variable {κ ν : Type} (lt : κ → κ → Bool)

/-- A list of the head alone, with a key and a value that nothing looks at. -/
def new [Inhabited κ] [Inhabited ν] : Skiplist κ ν :=
  { nodes := [{ key := default, value := default, next := List.replicate maxLevels none }]
    maxHeight := 1 }

/-- The successor of a node on a level.  An index out of range is a panic. -/
def nextIn (nodes : List (Node κ ν)) (cur level : Nat) : Option (Option Nat) := do
  let node ← nodes[cur]?
  node.next[level]?

def next (s : Skiplist κ ν) (cur level : Nat) : Option (Option Nat) := nextIn s.nodes cur level

/-- Walk along a level as long as the key of the successor is less, at most `fuel` steps. -/
def walk (s : Skiplist κ ν) (key : κ) (level : Nat) : Nat → Nat → Option Nat
  | 0, _ => none
  | fuel + 1, cur => do
    match ← s.next cur level with
    | none => return cur
    | some n =>
      let node ← s.nodes[n]?
      if lt node.key key then walk s key level fuel n else return cur

/-- The last node in front of `key` on each of the lowest levels, walking down from `cur`. -/
def findPrevLoop (s : Skiplist κ ν) (key : κ) : Nat → Nat → List Nat → Option (List Nat)
  | 0, _, prev => some prev
  | level + 1, cur, prev => do
    let cur ← s.walk lt key level s.nodes.length cur
    findPrevLoop s key level cur (prev.set level cur)

def findPrev (s : Skiplist κ ν) (key : κ) : Option (List Nat) :=
  s.findPrevLoop lt key s.maxHeight headIndex (List.replicate maxLevels 0)

/-- The last node in front of `key`, walking down from `cur`. -/
def descend (s : Skiplist κ ν) (key : κ) : Nat → Nat → Option Nat
  | 0, cur => some cur
  | level + 1, cur => do
    let cur ← s.walk lt key level s.nodes.length cur
    descend s key level cur

/-- The first entry whose key is not less than `key`. -/
def lowerBound (s : Skiplist κ ν) (key : κ) : Option (Option (κ × ν)) := do
  let cur ← s.descend lt key s.maxHeight headIndex
  match ← s.next cur 0 with
  | none => return none
  | some n =>
    let node ← s.nodes[n]?
    return some (node.key, node.value)

/-- The height goes up as long as the draws are zero. -/
def heightLoop (draws : Nat → Nat) : Nat → Nat → Nat
  | 0, height => height
  | n + 1, height => if draws height = 0 then heightLoop draws n (height + 1) else height

/-- The height of a new node, by draws from the numbers below four. -/
def randomHeight (draws : Nat → Nat) : Nat := heightLoop draws (maxLevels - 1) 1

/-- Put the new node `index` behind its predecessors on the lowest levels; its successors are what
came behind them. -/
def stitch (prev : List Nat) (index : Nat) :
    Nat → List (Node κ ν) → Option (List (Node κ ν) × List (Option Nat))
  | 0, nodes => some (nodes, [])
  | level + 1, nodes => do
    let (nodes, next) ← stitch prev index level nodes
    let p ← prev[level]?
    let node ← nodes[p]?
    let succ ← node.next[level]?
    return (nodes.set p { node with next := node.next.set level (some index) }, next ++ [succ])

/-- Insert a node of the height that is drawn.  Keys may repeat. -/
def insert (s : Skiplist κ ν) (draws : Nat → Nat) (key : κ) (value : ν) :
    Option (Skiplist κ ν) := do
  let height := randomHeight draws
  let prev ← s.findPrev lt key
  let (nodes, next) ← stitch prev s.nodes.length height s.nodes
  return { nodes := nodes ++ [{ key, value, next }]
           maxHeight := if height > s.maxHeight then height else s.maxHeight }

/-- The entries from a node on, along the lowest level. -/
def iterFrom (s : Skiplist κ ν) : Nat → Option Nat → Option (List (κ × ν))
  | _, none => some []
  | 0, some _ => none
  | fuel + 1, some n => do
    let node ← s.nodes[n]?
    let succ ← node.next[0]?
    let rest ← iterFrom s fuel succ
    return (node.key, node.value) :: rest

def iter (s : Skiplist κ ν) : Option (List (κ × ν)) := do
  let first ← s.next headIndex 0
  s.iterFrom s.nodes.length first

/-- The height of a node. -/
def height (s : Skiplist κ ν) (i : Nat) : Nat := (s.nodes[i]?.map (·.next.length)).getD 0

/-- The entry of a node. -/
def entry (s : Skiplist κ ν) (i : Nat) : Option (κ × ν) := s.nodes[i]?.map fun n => (n.key, n.value)

/-- The nodes follow one another in the order `order`, behind the head.  The successor of a node on
a level is the next that is high enough. -/
structure Linked (s : Skiplist κ ν) (order : List Nat) : Prop where
  perm : (headIndex :: order).Perm (List.range s.nodes.length)
  head : s.height headIndex = maxLevels
  heights : ∀ i ∈ order, 0 < s.height i ∧ s.height i ≤ s.maxHeight
  maxHeight : 0 < s.maxHeight ∧ s.maxHeight ≤ maxLevels
  links : ∀ as i bs, headIndex :: order = as ++ i :: bs → ∀ level < s.height i,
    s.next i level = some (bs.find? fun j => level < s.height j)

/-- The list holds these entries, in the order of their keys. -/
structure Holds (s : Skiplist κ ν) (es : List (κ × ν)) : Prop where
  linked : ∃ order, s.Linked order ∧ order.map s.entry = es.map some
  sorted : es.Pairwise fun x y => lt y.1 x.1 = false

section Searching

variable {lt} {s : Skiplist κ ν} {order less rest : List Nat} {key : κ}

theorem Linked.lt_length {i : Nat} (h : s.Linked order) (hi : i ∈ headIndex :: order) :
    i < s.nodes.length :=
  List.mem_range.mp (h.perm.subset hi)

theorem Linked.nodup (h : s.Linked order) : (headIndex :: order).Nodup :=
  h.perm.nodup_iff.mpr List.nodup_range

theorem Linked.entry_of_mem (h : s.Linked order) {i : Nat} (hi : i ∈ order) :
    ∃ node, s.nodes[i]? = some node :=
  ⟨_, List.getElem?_eq_getElem (h.lt_length (List.mem_cons_of_mem _ hi))⟩

/-- The key of a node is less than `key`. -/
def Below (lt : κ → κ → Bool) (s : Skiplist κ ν) (key : κ) (i : Nat) : Prop :=
  ∃ node, s.nodes[i]? = some node ∧ lt node.key key = true

/-- The nodes are those below `key` and then the others. -/
structure Parted (lt : κ → κ → Bool) (s : Skiplist κ ν) (key : κ) (less rest : List Nat) :
    Prop where
  less : ∀ i ∈ less, Below lt s key i
  rest : ∀ i ∈ rest, ¬Below lt s key i

/-- On a level, `r` is the last node below the key. -/
def LastBelow (s : Skiplist κ ν) (less : List Nat) (level r : Nat) : Prop :=
  ∃ as bs, headIndex :: less = as ++ r :: bs ∧ level < s.height r ∧ ∀ j ∈ bs, s.height j ≤ level

/-- What stands behind a node stands behind the head. -/
theorem mem_of_behind {as bs : List Nat} {cur j : Nat} (h : headIndex :: less = as ++ cur :: bs)
    (hj : j ∈ bs) : j ∈ less := by
  cases as with
  | nil =>
    obtain ⟨-, rfl⟩ := List.cons.inj h
    exact hj
  | cons a as =>
    obtain ⟨-, rfl⟩ := List.cons.inj h
    exact List.mem_append_right _ (List.mem_cons_of_mem _ hj)

/-- A walk ends at the last node below the key. -/
theorem walk_spec (h : s.Linked (less ++ rest)) (hParted : Parted lt s key less rest) {level : Nat}
    (fuel : Nat) {cur : Nat} {as bs : List Nat} (hSplit : headIndex :: less = as ++ cur :: bs)
    (hCur : level < s.height cur) (hFuel : bs.length < fuel) :
    ∃ r, s.walk lt key level fuel cur = some r ∧ LastBelow s less level r := by
  induction fuel generalizing as cur bs with
  | zero => omega
  | succ fuel ih =>
    have hNext := h.links as cur (bs ++ rest) (by rw [← List.cons_append, hSplit]; simp) level hCur
    rw [List.find?_append] at hNext
    simp only [walk, hNext, Option.bind_eq_bind, Option.bind_some]
    cases hFind : bs.find? fun j => level < s.height j with
    | some j =>
      -- The successor is below the key as well.
      obtain ⟨hj, front, back, rfl, -⟩ := List.find?_eq_some_iff_append.mp hFind
      obtain ⟨node, hNode, hLt⟩ := hParted.less j (mem_of_behind hSplit (by simp))
      simp only [Option.some_or, hNode, Option.bind_some, hLt, if_true]
      have hSplit' : headIndex :: less = (as ++ cur :: front) ++ j :: back := by
        rw [hSplit]
        simp
      apply ih hSplit' (by simpa using hj)
      rw [List.length_append, List.length_cons] at hFuel
      omega
    | none =>
      have hLast : LastBelow s less level cur := by
        refine ⟨as, bs, hSplit, hCur, fun j hj => ?_⟩
        simpa using List.find?_eq_none.mp hFind j hj
      refine ⟨cur, ?_, hLast⟩
      rw [Option.none_or]
      cases hRest : rest.find? fun j => level < s.height j with
      | none => rfl
      | some j =>
        have hj := List.mem_of_find?_eq_some hRest
        obtain ⟨node, hNode⟩ := h.entry_of_mem (List.mem_append_right _ hj)
        have hNot : ¬lt node.key key = true := fun hlt => hParted.rest j hj ⟨node, hNode, hlt⟩
        simp [hNode, hNot]

theorem length_less (h : s.Linked (less ++ rest)) {as bs : List Nat} {cur : Nat}
    (hSplit : headIndex :: less = as ++ cur :: bs) : bs.length < s.nodes.length := by
  have hLength := h.perm.length_eq
  have hLess := congrArg List.length hSplit
  simp only [List.length_cons, List.length_append, List.length_range] at hLength hLess
  omega

/-- Below its height a node can be walked from down to the lowest level. -/
theorem descend_spec (h : s.Linked (less ++ rest)) (hParted : Parted lt s key less rest)
    (n : Nat) {cur : Nat} {as bs : List Nat} (hSplit : headIndex :: less = as ++ cur :: bs)
    (hCur : n ≤ s.height cur) :
    ∃ r, s.descend lt key n cur = some r ∧ (n = 0 → r = cur) ∧ (0 < n → LastBelow s less 0 r) := by
  induction n generalizing cur as bs with
  | zero => exact ⟨cur, rfl, fun _ => rfl, fun h => absurd h (Nat.lt_irrefl 0)⟩
  | succ n ih =>
    obtain ⟨r, hWalk, hLast⟩ := walk_spec h hParted s.nodes.length hSplit hCur
      (length_less h hSplit)
    have ⟨as', bs', hSplit', hHeight, _⟩ := hLast
    obtain ⟨r', hDescend, hSame, hZero⟩ := ih hSplit' (Nat.le_of_lt hHeight)
    refine ⟨r', ?_, by simp, fun _ => ?_⟩
    · simp only [descend, hWalk, Option.bind_eq_bind, Option.bind_some, hDescend]
    · rcases Nat.eq_zero_or_pos n with rfl | hn
      · rw [hSame rfl]
        exact hLast
      · exact hZero hn

/-- The search for a key ends at the last node below it. -/
theorem search_spec (h : s.Linked (less ++ rest)) (hParted : Parted lt s key less rest) :
    ∃ r, s.descend lt key s.maxHeight headIndex = some r ∧ LastBelow s less 0 r := by
  obtain ⟨r, hDescend, -, hLast⟩ := descend_spec h hParted s.maxHeight
    (List.nil_append (headIndex :: less)).symm (h.head ▸ h.maxHeight.2)
  exact ⟨r, hDescend, hLast h.maxHeight.1⟩

/-- Behind the last node below the key comes the first of the others. -/
theorem next_lastBelow (h : s.Linked (less ++ rest)) {level r : Nat}
    (hLast : LastBelow s less level r) :
    s.next r level = some (rest.find? fun j => level < s.height j) := by
  obtain ⟨as, bs, hSplit, hHeight, hBehind⟩ := hLast
  rw [h.links as r (bs ++ rest) (by rw [← List.cons_append, hSplit]; simp) level hHeight,
    List.find?_append]
  have hNone : (bs.find? fun j => level < s.height j) = none :=
    List.find?_eq_none.mpr fun j hj => by simpa using hBehind j hj
  rw [hNone, Option.none_or]

theorem find_lowest (h : s.Linked (less ++ rest)) :
    (rest.find? fun j => 0 < s.height j) = rest.head? := by
  cases rest with
  | nil => rfl
  | cons i rest => simp [(h.heights i (by simp)).1]

end Searching

section Inserting

variable {lt} {s : Skiplist κ ν} {order less rest : List Nat} {key : κ} {value : ν}

theorem heightLoop_le (draws : Nat → Nat) (n height : Nat) :
    height ≤ heightLoop draws n height ∧ heightLoop draws n height ≤ height + n := by
  induction n generalizing height with
  | zero => exact ⟨Nat.le_refl _, Nat.le_refl _⟩
  | succ n ih =>
    rw [heightLoop]
    split
    · have := ih (height + 1)
      omega
    · omega

theorem randomHeight_bounds (draws : Nat → Nat) :
    0 < randomHeight draws ∧ randomHeight draws ≤ maxLevels :=
  heightLoop_le draws (maxLevels - 1) 1

/-- The predecessors that are found on the levels below `n` are the last nodes below the key. -/
theorem findPrevLoop_spec (h : s.Linked (less ++ rest)) (hParted : Parted lt s key less rest)
    (n : Nat) {cur : Nat} {as bs prev : List Nat} (hSplit : headIndex :: less = as ++ cur :: bs)
    (hCur : n ≤ s.height cur) (hn : n ≤ prev.length) :
    ∃ prev', s.findPrevLoop lt key n cur prev = some prev' ∧
      (∀ level < n, ∃ r, prev'[level]? = some r ∧ LastBelow s less level r) ∧
      ∀ level, n ≤ level → prev'[level]? = prev[level]? := by
  induction n generalizing cur as bs prev with
  | zero => exact ⟨prev, rfl, by simp, fun _ _ => rfl⟩
  | succ n ih =>
    obtain ⟨r, hWalk, hLast⟩ := walk_spec h hParted s.nodes.length hSplit hCur
      (length_less h hSplit)
    have ⟨as', bs', hSplit', hHeight, _⟩ := hLast
    have hLength : n ≤ (prev.set n r).length := by
      rw [List.length_set]
      omega
    obtain ⟨prev', hLoop, hBelow, hAbove⟩ := ih hSplit' (Nat.le_of_lt hHeight) hLength
    refine ⟨prev', ?_, fun level hLevel => ?_, fun level hLevel => ?_⟩
    · simp only [findPrevLoop, hWalk, Option.bind_eq_bind, Option.bind_some, hLoop]
    · rcases Nat.lt_succ_iff_lt_or_eq.mp hLevel with hLevel | rfl
      · exact hBelow level hLevel
      · refine ⟨r, ?_, hLast⟩
        rw [hAbove level (Nat.le_refl _), List.getElem?_set_self (by omega)]
    · rw [hAbove level (by omega), List.getElem?_set_ne (by omega)]

/-- Above the height of the list the head is the last node below any key. -/
theorem findPrev_spec (h : s.Linked (less ++ rest)) (hParted : Parted lt s key less rest) :
    ∃ prev, s.findPrev lt key = some prev ∧
      ∀ level < maxLevels, ∃ r, prev[level]? = some r ∧ LastBelow s less level r := by
  have hLength : s.maxHeight ≤ (List.replicate maxLevels 0).length := by
    simpa using h.maxHeight.2
  obtain ⟨prev, hLoop, hBelow, hAbove⟩ := findPrevLoop_spec h hParted s.maxHeight
    (List.nil_append (headIndex :: less)).symm (h.head ▸ h.maxHeight.2) hLength
  refine ⟨prev, hLoop, fun level hLevel => ?_⟩
  by_cases hHigh : level < s.maxHeight
  · exact hBelow level hHigh
  · refine ⟨headIndex, ?_, [], less, rfl, h.head ▸ hLevel, fun j hj => ?_⟩
    · rw [hAbove level (by omega), List.getElem?_replicate, if_pos hLevel]
      rfl
    · have := (h.heights j (List.mem_append_left _ hj)).2
      omega

/-- The nodes `nodes'` are `nodes` with `index` put behind the predecessors on the levels below `n`,
and `next` is what came behind these. -/
structure Stitched (prev : List Nat) (index n : Nat) (nodes nodes' : List (Node κ ν))
    (next : List (Option Nat)) : Prop where
  length : nodes'.length = nodes.length
  same : ∀ i : Nat, nodes'[i]?.map (fun node => (node.key, node.value, node.next.length)) =
    nodes[i]?.map fun node => (node.key, node.value, node.next.length)
  links : ∀ i level, nextIn nodes' i level =
    if level < n ∧ prev[level]? = some i then some (some index) else nextIn nodes i level
  lengthNext : next.length = n
  next : ∀ level < n, ∀ r, prev[level]? = some r → next[level]? = nextIn nodes r level

/-- Setting the successor of a node on a level changes no other. -/
theorem nextIn_set {nodes : List (Node κ ν)} {r n : Nat} {node : Node κ ν}
    (hNode : nodes[r]? = some node) (hn : n < node.next.length) (succ : Option Nat)
    (i level : Nat) :
    nextIn (nodes.set r { node with next := node.next.set n succ }) i level =
      if level = n ∧ i = r then some succ else nextIn nodes i level := by
  obtain ⟨hr, -⟩ := List.getElem?_eq_some_iff.mp hNode
  by_cases hi : i = r
  · subst hi
    by_cases hLevel : level = n
    · subst hLevel
      simp [nextIn, List.getElem?_set_self hr, List.getElem?_set_self hn]
    · simp [nextIn, List.getElem?_set_self hr, List.getElem?_set_ne (Ne.symm hLevel), hNode, hLevel]
  · simp [nextIn, List.getElem?_set_ne (Ne.symm hi), hi]

theorem stitch_spec {prev : List Nat} (index n : Nat) (nodes : List (Node κ ν))
    (hPrev : ∀ level < n, ∃ r succ, prev[level]? = some r ∧ nextIn nodes r level = some succ) :
    ∃ nodes' next, stitch prev index n nodes = some (nodes', next) ∧
      Stitched prev index n nodes nodes' next := by
  induction n with
  | zero => exact ⟨nodes, [], rfl, rfl, fun _ => rfl, by simp, rfl, by simp⟩
  | succ n ih =>
    obtain ⟨nodes₁, next₁, hStitch, h⟩ := ih fun level hLevel => hPrev level (by omega)
    obtain ⟨r, succ, hr, hSucc⟩ := hPrev n (Nat.lt_succ_self n)
    have hSucc₁ : nextIn nodes₁ r n = some succ := by
      rw [h.links, if_neg (by simp), hSucc]
    obtain ⟨node, hNode, hNodeSucc⟩ := Option.bind_eq_some_iff.mp hSucc₁
    obtain ⟨hrLt, -⟩ := List.getElem?_eq_some_iff.mp hNode
    obtain ⟨hnLt, -⟩ := List.getElem?_eq_some_iff.mp hNodeSucc
    refine ⟨nodes₁.set r { node with next := node.next.set n (some index) }, next₁ ++ [succ],
      ?_, ?_,
      fun i => ?_, fun i level => ?_, ?_, fun level hLevel r' hr' => ?_⟩
    · simp [stitch, hStitch, hr, hNode, hNodeSucc]
    · rw [List.length_set, h.length]
    · rw [← h.same i]
      by_cases hi : i = r
      · subst hi
        simp [List.getElem?_set_self hrLt, hNode]
      · rw [List.getElem?_set_ne (Ne.symm hi)]
    · rw [nextIn_set hNode hnLt, h.links]
      by_cases hLevel : level = n
      · subst hLevel
        simp [hr, eq_comm]
      · have : level < n + 1 ↔ level < n := by omega
        simp [hLevel, this]
    · rw [List.length_append, h.lengthNext, List.length_singleton]
    · by_cases hLt : level < n
      · rw [List.getElem?_append_left (by rw [h.lengthNext]; exact hLt)]
        exact h.next level hLt r' hr'
      · obtain rfl : level = n := by omega
        obtain rfl : r = r' := by rw [hr] at hr'; exact Option.some.inj hr'
        rw [List.getElem?_append_right (by rw [h.lengthNext]), h.lengthNext, Nat.sub_self, hSucc]
        rfl

/-- A node is the last below the key on a level exactly when none behind it there is high enough. -/
theorem LastBelow.eq_iff {level r i : Nat} {as bs : List Nat} (h : LastBelow s less level r)
    (hNodup : (headIndex :: less).Nodup) (hSplit : headIndex :: less = as ++ i :: bs)
    (hHeight : level < s.height i) : r = i ↔ ∀ j ∈ bs, s.height j ≤ level := by
  obtain ⟨as', bs', hSplit', hHeight', hBehind⟩ := h
  have hBoth : as ++ i :: bs = as' ++ r :: bs' := hSplit ▸ hSplit'
  rcases List.append_eq_append_iff.mp hBoth with ⟨cs, rfl, hcs⟩ | ⟨cs, rfl, hcs⟩
  · cases cs with
    | nil =>
      obtain ⟨rfl, rfl⟩ := List.cons.inj hcs
      exact iff_of_true rfl hBehind
    | cons c cs =>
      -- `r` stands behind `i`, and is high enough.
      obtain ⟨rfl, rfl⟩ := List.cons.inj hcs
      refine iff_of_false ?_ fun hAll => absurd (hAll r (by simp)) (by omega)
      rintro rfl
      rw [hSplit, List.nodup_append] at hNodup
      exact (List.nodup_cons.mp hNodup.2.1).1 (by simp)
  · cases cs with
    | nil =>
      obtain ⟨rfl, rfl⟩ := List.cons.inj hcs
      exact iff_of_true rfl hBehind
    | cons c cs =>
      -- `i` stands behind `r`, and would have to be lower.
      obtain ⟨rfl, rfl⟩ := List.cons.inj hcs
      exact absurd (hBehind i (by simp)) (by omega)

end Inserting

section Abstract

variable {lt} {s : Skiplist κ ν} {es : List (κ × ν)}

/-- The nodes below `key` hold the entries with lesser keys, and the others the rest. -/
theorem Holds.parted (hlt : ∀ x y z, lt y x = false → lt z y = false → lt z x = false)
    (h : Holds lt s es) (key : κ) : ∃ less rest, s.Linked (less ++ rest) ∧
      Parted lt s key less rest ∧ less.map s.entry = (es.takeWhile (lt ·.1 key)).map some ∧
      rest.map s.entry = (es.dropWhile (lt ·.1 key)).map some := by
  obtain ⟨⟨order, hLinked, hEntries⟩, hSorted⟩ := h
  rw [← List.takeWhile_append_dropWhile (p := fun e => lt e.1 key) (l := es), List.map_append,
    List.map_eq_append_iff] at hEntries
  obtain ⟨less, rest, rfl, hLess, hRest⟩ := hEntries
  refine ⟨less, rest, hLinked, ⟨fun i hi => ?_, fun i hi => ?_⟩, hLess, hRest⟩
  · have hMem := List.mem_map_of_mem (f := s.entry) hi
    rw [hLess] at hMem
    obtain ⟨e, he, hEntry⟩ := List.mem_map.mp hMem
    obtain ⟨node, hNode, rfl⟩ := Option.map_eq_some_iff.mp hEntry.symm
    exact ⟨node, hNode, List.mem_takeWhile_imp (p := fun e : κ × ν => lt e.1 key) he⟩
  · have hMem := List.mem_map_of_mem (f := s.entry) hi
    rw [hRest] at hMem
    obtain ⟨e, he, hEntry⟩ := List.mem_map.mp hMem
    rintro ⟨node, hNode, hLt⟩
    rw [entry, hNode, Option.map_some, Option.some.injEq] at hEntry
    subst hEntry
    -- The first of the rest is not less than the key, and no later one is less than that.
    cases hDrop : es.dropWhile (lt ·.1 key) with
    | nil => simp [hDrop] at he
    | cons x xs =>
      have hx : lt x.1 key = false := by
        have hHead := List.head?_dropWhile_not (fun e => lt e.1 key) es
        rw [hDrop] at hHead
        simpa using hHead
      rw [hDrop] at he
      rcases List.mem_cons.mp he with rfl | he
      · rw [hx] at hLt
        cases hLt
      · have hPair := hSorted.sublist (List.dropWhile_sublist fun e => lt e.1 key)
        rw [hDrop, List.pairwise_cons] at hPair
        have hNot := hlt key x.1 node.key hx (hPair.1 _ he)
        rw [hNot] at hLt
        cases hLt

theorem entry_of_map {order : List Nat} (h : order.map s.entry = es.map some) :
    order.head?.bind s.entry = es.head? := by
  cases order with
  | nil =>
    obtain rfl : es = [] := by simpa using h.symm
    rfl
  | cons i order =>
    cases es with
    | nil => simp at h
    | cons e es => simpa using (List.cons.inj h).1

/-- The search finds the first entry whose key is not less than `key`. -/
theorem Holds.lowerBound (hlt : ∀ x y z, lt y x = false → lt z y = false → lt z x = false)
    (h : Holds lt s es) (key : κ) :
    s.lowerBound lt key = some (es.dropWhile (lt ·.1 key)).head? := by
  obtain ⟨less, rest, hLinked, hParted, -, hRest⟩ := h.parted hlt key
  obtain ⟨r, hDescend, hLast⟩ := search_spec hLinked hParted
  have hNext := next_lastBelow hLinked hLast
  rw [find_lowest hLinked] at hNext
  rw [← entry_of_map hRest]
  simp only [Skiplist.lowerBound, hDescend, Option.bind_eq_bind, Option.bind_some, hNext]
  cases hHead : rest.head? with
  | none => rfl
  | some i =>
    obtain ⟨node, hNode⟩ := hLinked.entry_of_mem
      (List.mem_append_right less (List.mem_of_head? hHead))
    simp [entry, hNode]

/-- Following the lowest level gives all entries in their order. -/
theorem iterFrom_spec {order : List Nat} (hLinked : s.Linked order) (fuel : Nat)
    {as bs : List Nat} (hSplit : order = as ++ bs) (hFuel : bs.length ≤ fuel)
    {xs : List (κ × ν)} (hEntries : bs.map s.entry = xs.map some) :
    s.iterFrom fuel bs.head? = some xs := by
  induction fuel generalizing as bs xs with
  | zero =>
    obtain rfl : bs = [] := List.length_eq_zero_iff.mp (Nat.le_zero.mp hFuel)
    obtain rfl : xs = [] := by simpa using hEntries.symm
    rfl
  | succ fuel ih =>
    cases bs with
    | nil =>
      obtain rfl : xs = [] := by simpa using hEntries.symm
      rfl
    | cons i bs =>
      cases xs with
      | nil => simp at hEntries
      | cons x xs =>
        obtain ⟨hEntry, hRest⟩ := List.cons.inj hEntries
        have hi : i ∈ order := by rw [hSplit]; simp
        obtain ⟨node, hNode⟩ := hLinked.entry_of_mem hi
        have hLink := hLinked.links (headIndex :: as) i bs (by rw [hSplit]; rfl) 0
          (hLinked.heights i hi).1
        have hSucc : node.next[0]? = some bs.head? := by
          have hFind : (bs.find? fun j => 0 < s.height j) = bs.head? := by
            cases bs with
            | nil => rfl
            | cons j bs => simp [(hLinked.heights j (by rw [hSplit]; simp)).1]
          rw [← hFind, ← hLink]
          simp [Skiplist.next, nextIn, hNode]
        have hSplit' : order = (as ++ [i]) ++ bs := by simp [hSplit]
        have hMore := ih hSplit' (Nat.le_of_succ_le_succ hFuel) hRest
        have hValue : (node.key, node.value) = x := by
          simpa [entry, hNode] using hEntry
        simp [iterFrom, hNode, hSucc, hMore, hValue]

theorem Holds.iter (h : Holds lt s es) : s.iter = some es := by
  obtain ⟨⟨order, hLinked, hEntries⟩, -⟩ := h
  have hFirst := hLinked.links [] headIndex order rfl 0 (by rw [hLinked.head]; decide)
  have hFind : (order.find? fun j => 0 < s.height j) = order.head? :=
    find_lowest ((List.nil_append order).symm ▸ hLinked)
  have hLength := hLinked.perm.length_eq
  rw [List.length_cons, List.length_range] at hLength
  rw [hFind] at hFirst
  simp only [Skiplist.iter, hFirst, Option.bind_eq_bind, Option.bind_some]
  exact iterFrom_spec hLinked _ (List.nil_append order).symm (by omega) hEntries

end Abstract

section Inserted

variable {lt} {s : Skiplist κ ν} {es : List (κ × ν)} {less rest : List Nat} {key : κ} {value : ν}

/-- A list with a new node, the last of the arena, behind the nodes `less`. -/
structure Inserted (s : Skiplist κ ν) (less : List Nat) (key : κ) (value : ν) (height : Nat)
    (s' : Skiplist κ ν) : Prop where
  length : s'.nodes.length = s.nodes.length + 1
  maxHeight : s'.maxHeight = max height s.maxHeight
  heights : ∀ i < s.nodes.length, s'.height i = s.height i
  heightNew : s'.height s.nodes.length = height
  entries : ∀ i < s.nodes.length, s'.entry i = s.entry i
  entryNew : s'.entry s.nodes.length = some (key, value)
  links : ∀ i < s.nodes.length, ∀ level, ∃ r, (level < height → LastBelow s less level r) ∧
    s'.next i level =
      if level < height ∧ r = i then some (some s.nodes.length) else s.next i level
  nextNew : ∀ level < height, ∃ r, LastBelow s less level r ∧
    s'.next s.nodes.length level = s.next r level

theorem insert_spec (h : s.Linked (less ++ rest)) (hParted : Parted lt s key less rest)
    (draws : Nat → Nat) (value : ν) :
    ∃ s', s.insert lt draws key value = some s' ∧
      Inserted s less key value (randomHeight draws) s' := by
  obtain ⟨hPos, hMax⟩ := randomHeight_bounds draws
  obtain ⟨prev, hFind, hPrev⟩ := findPrev_spec h hParted
  have hLinks : ∀ level < randomHeight draws, ∃ r succ, prev[level]? = some r ∧
      nextIn s.nodes r level = some succ := by
    intro level hLevel
    obtain ⟨r, hr, hLast⟩ := hPrev level (by omega)
    exact ⟨r, _, hr, next_lastBelow h hLast⟩
  obtain ⟨nodes', next, hStitch, hNodes⟩ := stitch_spec s.nodes.length (randomHeight draws)
    s.nodes hLinks
  have hOld : ∀ (node : Node κ ν) i, i < s.nodes.length → (nodes' ++ [node])[i]? = nodes'[i]? :=
    fun node i hi => List.getElem?_append_left (by rw [hNodes.length]; exact hi)
  have hNew : ∀ node : Node κ ν, (nodes' ++ [node])[s.nodes.length]? = some node := by
    intro node
    rw [← hNodes.length, List.getElem?_concat_length]
  refine ⟨{ nodes := nodes' ++ [{ key, value, next }]
            maxHeight :=
              if randomHeight draws > s.maxHeight then randomHeight draws else s.maxHeight },
    ?_, ?_, ?_, fun i hi => ?_, ?_, fun i hi => ?_, ?_, fun i hi level => ?_,
    fun level hLevel => ?_⟩
  · simp [insert, hFind, hStitch]
  · rw [List.length_append, hNodes.length, List.length_singleton]
  · show (if randomHeight draws > s.maxHeight then _ else _) = _
    split <;> omega
  · have hSame := congrArg (Option.map fun x : κ × ν × Nat => x.2.2) (hNodes.same i)
    simp only [Option.map_map, Function.comp_def] at hSame
    simp only [height, hOld _ i hi, hSame]
  · simp [height, hNew, hNodes.lengthNext]
  · have hSame := congrArg (Option.map fun x : κ × ν × Nat => (x.1, x.2.1)) (hNodes.same i)
    simp only [Option.map_map, Function.comp_def] at hSame
    simp only [entry, hOld _ i hi, hSame]
  · simp [entry, hNew]
  · have hNext : nextIn (nodes' ++ [⟨key, value, next⟩]) i level = nextIn nodes' i level := by
      simp only [nextIn, hOld _ i hi]
    by_cases hLevel : level < randomHeight draws
    · obtain ⟨r, hr, hLast⟩ := hPrev level (by omega)
      refine ⟨r, fun _ => hLast, ?_⟩
      simp only [Skiplist.next, hNext, hNodes.links, hr, Option.some.injEq]
    · refine ⟨0, fun h => absurd h hLevel, ?_⟩
      simp only [Skiplist.next, hNext, hNodes.links, hLevel, false_and, if_false]
  · obtain ⟨r, hr, hLast⟩ := hPrev level (by omega)
    refine ⟨r, hLast, ?_⟩
    simp only [Skiplist.next]
    rw [← hNodes.next level hLevel r hr]
    simp [nextIn, hNew]

theorem find_height_congr {s' : Skiplist κ ν} {js : List Nat}
    (h : ∀ j ∈ js, s'.height j = s.height j) (level : Nat) :
    (js.find? fun j => level < s'.height j) = js.find? fun j => level < s.height j := by
  induction js with
  | nil => rfl
  | cons j js ih =>
    simp only [List.find?_cons, h j List.mem_cons_self,
      ih fun i hi => h i (List.mem_cons_of_mem _ hi)]

theorem Inserted.find_height {s' : Skiplist κ ν} {height : Nat} {js : List Nat}
    (hIns : Inserted s less key value height s') (h : s.Linked (less ++ rest))
    (hjs : ∀ j ∈ js, j ∈ less ++ rest) (level : Nat) :
    (js.find? fun j => level < s'.height j) = js.find? fun j => level < s.height j :=
  find_height_congr
    (fun j hj => hIns.heights j (h.lt_length (List.mem_cons_of_mem _ (hjs j hj)))) level

theorem Inserted.next_new {s' : Skiplist κ ν} {height level : Nat}
    (hIns : Inserted s less key value height s') (h : s.Linked (less ++ rest))
    (hLevel : level < height) :
    s'.next s.nodes.length level = some (rest.find? fun j => level < s'.height j) := by
  obtain ⟨r, hLast, hNext⟩ := hIns.nextNew level hLevel
  rw [hNext, next_lastBelow h hLast, hIns.find_height h (by simp +contextual)]

/-- A node behind the new one keeps its successors. -/
theorem Inserted.next_rest {s' : Skiplist κ ν} {height i level : Nat} {as bs : List Nat}
    (hIns : Inserted s less key value height s') (h : s.Linked (less ++ rest))
    (hRest : rest = as ++ i :: bs) (hLevel : level < s'.height i) :
    s'.next i level = some (bs.find? fun j => level < s'.height j) := by
  subst hRest
  have hi : i < s.nodes.length := h.lt_length (by simp)
  obtain ⟨r, hLast, hNext⟩ := hIns.links i hi level
  have hNe : ¬(level < height ∧ r = i) := by
    rintro ⟨hLt, rfl⟩
    obtain ⟨as', bs', hSplitLess, -⟩ := hLast hLt
    have hMem : r ∈ headIndex :: less := by rw [hSplitLess]; simp
    have hNodup := h.nodup
    rw [← List.cons_append, List.nodup_append] at hNodup
    exact hNodup.2.2 r hMem r (by simp) rfl
  rw [hIns.heights i hi] at hLevel
  rw [hNext, if_neg hNe, hIns.find_height h (by simp +contextual),
    h.links (headIndex :: less ++ as) i bs (by simp) level hLevel]

/-- A node in front of the new one gets it as successor on the levels where it was the last. -/
theorem Inserted.next_less {s' : Skiplist κ ν} {height i level : Nat} {as bs : List Nat}
    (hIns : Inserted s less key value height s') (h : s.Linked (less ++ rest))
    (hLess : headIndex :: less = as ++ i :: bs) (hLevel : level < s'.height i) :
    s'.next i level = some ((bs ++ s.nodes.length :: rest).find? fun j => level < s'.height j) := by
  have hi : i < s.nodes.length := by
    refine h.lt_length ?_
    rw [← List.cons_append, hLess]
    simp
  have hNodup : (headIndex :: less).Nodup := by
    have := h.nodup
    rw [← List.cons_append, List.nodup_append] at this
    exact this.1
  obtain ⟨r, hLast, hNext⟩ := hIns.links i hi level
  rw [hIns.heights i hi] at hLevel
  rw [hNext, h.links as i (bs ++ rest) (by rw [← List.cons_append, hLess]; simp) level hLevel,
    List.find?_append, List.find?_append,
    hIns.find_height h fun j hj => List.mem_append_left _ (mem_of_behind hLess hj)]
  by_cases hHeight : level < height
  · have hIff := (hLast hHeight).eq_iff hNodup hLess hLevel
    rw [List.find?_cons_of_pos (by simpa [hIns.heightNew] using hHeight)]
    by_cases hr : r = i
    · have hNone : (bs.find? fun j => level < s.height j) = none :=
        List.find?_eq_none.mpr fun j hj => by simpa using hIff.mp hr j hj
      rw [if_pos ⟨hHeight, hr⟩, hNone, Option.none_or]
    · have hSome : (bs.find? fun j => level < s.height j).isSome := by
        rw [List.find?_isSome]
        by_contra hNone
        exact hr (hIff.mpr fun j hj => by
          by_contra hj'
          exact hNone ⟨j, hj, by simpa using hj'⟩)
      obtain ⟨j, hj⟩ := Option.isSome_iff_exists.mp hSome
      rw [if_neg fun hc => hr hc.2, hj, Option.some_or, Option.some_or]
  · rw [if_neg fun hc => hHeight hc.1, List.find?_cons_of_neg
      (by simpa [hIns.heightNew] using hHeight), hIns.find_height h (by simp +contextual)]

/-- The nodes of the new list are linked in the old order, with the new one behind those below its
key. -/
theorem Inserted.linked {s' : Skiplist κ ν} {height : Nat}
    (hIns : Inserted s less key value height s') (h : s.Linked (less ++ rest)) (hPos : 0 < height)
    (hMax : height ≤ maxLevels) : s'.Linked (less ++ s.nodes.length :: rest) := by
  refine ⟨?_, ?_, fun i hi => ?_, ?_, ?_⟩
  · rw [hIns.length, List.range_succ]
    have hMove : (headIndex :: (less ++ s.nodes.length :: rest)).Perm
        (s.nodes.length :: headIndex :: (less ++ rest)) := by
      rw [← List.cons_append, ← List.cons_append]
      exact List.perm_middle
    exact hMove.trans ((h.perm.cons _).trans (List.perm_append_singleton _ _).symm)
  · rw [hIns.heights _ (h.lt_length List.mem_cons_self), h.head]
  · rw [hIns.maxHeight]
    have hOld : ∀ j ∈ less ++ rest, 0 < s'.height j ∧ s'.height j ≤ max height s.maxHeight := by
      intro j hj
      rw [hIns.heights j (h.lt_length (List.mem_cons_of_mem _ hj))]
      have := h.heights j hj
      omega
    rcases List.mem_append.mp hi with hi | hi
    · exact hOld i (List.mem_append_left _ hi)
    · rcases List.mem_cons.mp hi with rfl | hi
      · rw [hIns.heightNew]
        omega
      · exact hOld i (List.mem_append_right _ hi)
  · rw [hIns.maxHeight]
    have := h.maxHeight
    omega
  · intro as i bs hSplit level hLevel
    have hSplit' : (headIndex :: less) ++ s.nodes.length :: rest = as ++ i :: bs := hSplit
    rcases List.append_eq_append_iff.mp hSplit' with ⟨cs, has, hcs⟩ | ⟨cs, has, hcs⟩
    · cases cs with
      | nil =>
        obtain ⟨rfl, rfl⟩ := List.cons.inj hcs
        exact hIns.next_new h (hIns.heightNew ▸ hLevel)
      | cons c cs =>
        obtain ⟨rfl, hRest⟩ := List.cons.inj hcs
        exact hIns.next_rest h hRest hLevel
    · cases cs with
      | nil =>
        obtain ⟨rfl, rfl⟩ := List.cons.inj hcs
        exact hIns.next_new h (hIns.heightNew ▸ hLevel)
      | cons c cs =>
        obtain ⟨rfl, rfl⟩ := List.cons.inj hcs
        exact hIns.next_less h has hLevel

/-- Inserting an entry puts it in front of the first one whose key is not less. -/
theorem Holds.insert (hlt : ∀ x y z, lt y x = false → lt z y = false → lt z x = false)
    (hasymm : ∀ x y, lt x y = true → lt y x = false) (h : Holds lt s es) (draws : Nat → Nat)
    (key : κ) (value : ν) : ∃ s', s.insert lt draws key value = some s' ∧
      Holds lt s' (es.takeWhile (lt ·.1 key) ++ (key, value) :: es.dropWhile (lt ·.1 key)) := by
  obtain ⟨less, rest, hLinked, hParted, hLess, hRest⟩ := h.parted hlt key
  obtain ⟨hPos, hMax⟩ := randomHeight_bounds draws
  obtain ⟨s', hInsert, hIns⟩ := insert_spec hLinked hParted draws value
  refine ⟨s', hInsert, ⟨_, hIns.linked hLinked hPos hMax, ?_⟩, ?_⟩
  · have hOld : ∀ js : List Nat, (∀ j ∈ js, j ∈ less ++ rest) →
        js.map s'.entry = js.map s.entry := by
      intro js hjs
      refine List.map_congr_left fun j hj => hIns.entries j ?_
      exact hLinked.lt_length (List.mem_cons_of_mem _ (hjs j hj))
    rw [List.map_append, List.map_cons, hOld less (by simp +contextual),
      hOld rest (by simp +contextual), hLess, hRest, hIns.entryNew]
    simp
  · have hBelow : ∀ e ∈ es.takeWhile (lt ·.1 key), lt e.1 key = true := fun e he =>
      List.mem_takeWhile_imp (p := fun e : κ × ν => lt e.1 key) he
    have hRest' : ∀ e ∈ es.dropWhile (lt ·.1 key), lt e.1 key = false := by
      intro e he
      have hMem := List.mem_map_of_mem (f := some) he
      rw [← hRest] at hMem
      obtain ⟨i, hi, hEntry⟩ := List.mem_map.mp hMem
      obtain ⟨node, hNode, rfl⟩ := Option.map_eq_some_iff.mp hEntry
      rw [← Bool.not_eq_true]
      exact fun hLt => hParted.rest i hi ⟨node, hNode, hLt⟩
    have hSorted := h.sorted
    rw [← List.takeWhile_append_dropWhile (p := fun e => lt e.1 key) (l := es),
      List.pairwise_append] at hSorted
    refine List.pairwise_append.mpr ⟨hSorted.1, List.pairwise_cons.mpr ⟨hRest', hSorted.2.1⟩, ?_⟩
    intro x hx y hy
    rcases List.mem_cons.mp hy with rfl | hy
    · exact hasymm _ _ (hBelow x hx)
    · exact hSorted.2.2 x hx y hy

theorem Holds.new [Inhabited κ] [Inhabited ν] : Holds lt (Skiplist.new : Skiplist κ ν) [] := by
  refine ⟨⟨[], ⟨?_, rfl, by simp, ⟨Nat.one_pos, ?_⟩, ?_⟩, rfl⟩, List.Pairwise.nil⟩
  · exact List.Perm.refl _
  · show 1 ≤ maxLevels
    decide
  · intro as i bs hSplit level hLevel
    cases as with
    | cons a as => simp at hSplit
    | nil =>
      obtain ⟨rfl, rfl⟩ := List.cons.inj hSplit
      have hLt : level < maxLevels := by simpa [height, Skiplist.new, headIndex] using hLevel
      simp [Skiplist.next, nextIn, Skiplist.new, headIndex, hLt]

end Inserted

end Skiplist

end MulanLsm
