import MulanLsm.MemTable
import MulanLsm.Skiplist

/-! The memory table on its skip list.  It does what the memory table does on an ordered sequence,
whatever the heights of the nodes are.  Writes with distinct sequence numbers, in any order, make it
a map with many versions of each key. -/

namespace MulanLsm

/-- The order of internal keys, as the skip list compares them. -/
def keyBefore (a b : InternalKey) : Bool := a.ord b = .lt

instance : Inhabited InternalKey := ⟨{ userKey := [], seq := 0, vtype := .put }⟩

structure LinkedMemTable where
  skiplist : Skiplist InternalKey Bytes
  seq : Nat
  entries : Nat
  approxBytes : Nat

namespace LinkedMemTable

def withInitialSequence (seq : Nat) : LinkedMemTable :=
  { skiplist := .new, seq, entries := 0, approxBytes := 0 }

def new : LinkedMemTable := withInitialSequence 0

/-- A new version of a key.  The sequence number wraps. -/
def put (m : LinkedMemTable) (draws : Nat → Nat) (key value : Bytes) : Option LinkedMemTable := do
  let seq := (m.seq + 1) % 2 ^ 64
  let skiplist ← m.skiplist.insert keyBefore draws { userKey := key, seq, vtype := .put } value
  return { skiplist, seq, entries := m.entries + 1
           approxBytes := m.approxBytes + (key.length + value.length) }

/-- A deletion is a version without a value. -/
def delete (m : LinkedMemTable) (draws : Nat → Nat) (key : Bytes) : Option LinkedMemTable := do
  let seq := (m.seq + 1) % 2 ^ 64
  let skiplist ← m.skiplist.insert keyBefore draws { userKey := key, seq, vtype := .delete } []
  return { skiplist, seq, entries := m.entries + 1, approxBytes := m.approxBytes + key.length }

/-- Take one more write, with the sequence number that it has. -/
def apply (m : LinkedMemTable) (draws : Nat → Nat) (vtype : ValueType) (seq : Nat)
    (key value : Bytes) : Option LinkedMemTable := do
  let skiplist ← m.skiplist.insert keyBefore draws { userKey := key, seq, vtype } value
  return { skiplist, seq := if seq > m.seq then seq else m.seq, entries := m.entries + 1
           approxBytes := m.approxBytes + (key.length + value.length) }

/-- The newest version of `key` up to `snapshotSeq`: its type and its value. -/
def getEntry (m : LinkedMemTable) (key : Bytes) (snapshotSeq : Nat) :
    Option (Option (ValueType × Bytes)) := do
  let lookup : InternalKey := { userKey := key, seq := snapshotSeq, vtype := .put }
  match ← m.skiplist.lowerBound keyBefore lookup with
  | none => return none
  | some (ik, value) => return if ik.userKey = key then some (ik.vtype, value) else none

/-- All versions up to `snapshotSeq`, with their keys as bytes. -/
def snapshotEntries (m : LinkedMemTable) (snapshotSeq : Nat) : Option (List (Bytes × Bytes)) := do
  let entries ← m.skiplist.iter
  return (entries.filter (·.1.seq ≤ snapshotSeq)).map fun e => (e.1.encode, e.2)

end LinkedMemTable

/-- A write to a memory table. -/
inductive MemOp
  | put (key value : Bytes)
  | delete (key : Bytes)
  | apply (vtype : ValueType) (seq : Nat) (key value : Bytes)

namespace MemOp

/-- The version that a write adds when the last sequence number is `seq`. -/
def entry (seq : Nat) : MemOp → Entry
  | put key value => ({ userKey := key, seq := (seq + 1) % 2 ^ 64, vtype := .put }, value)
  | delete key => ({ userKey := key, seq := (seq + 1) % 2 ^ 64, vtype := .delete }, [])
  | apply vtype seq key value => ({ userKey := key, seq, vtype }, value)

/-- The last sequence number after the write. -/
def seqAfter (seq : Nat) : MemOp → Nat
  | put _ _ | delete _ => (seq + 1) % 2 ^ 64
  | apply _ opSeq _ _ => if opSeq > seq then opSeq else seq

def run (draws : Nat → Nat) (m : LinkedMemTable) : MemOp → Option LinkedMemTable
  | put key value => m.put draws key value
  | delete key => m.delete draws key
  | apply vtype seq key value => m.apply draws vtype seq key value

/-- The versions that some writes add. -/
def entries : Nat → List MemOp → List Entry
  | _, [] => []
  | seq, op :: ops => op.entry seq :: entries (op.seqAfter seq) ops

/-- The memory table after some writes, each with the draws for the height of its node. -/
def runAll (m : LinkedMemTable) (ops : List (MemOp × (Nat → Nat))) : Option LinkedMemTable :=
  ops.foldlM (fun m op => op.1.run op.2 m) m

end MemOp

section Refinement

theorem keyBefore_eq_false {a b : InternalKey} : keyBefore a b = false ↔ ¬Before a b := by
  simp [keyBefore, Before]

theorem keyBefore_trans (x y z : InternalKey) (h : keyBefore y x = false)
    (h' : keyBefore z y = false) : keyBefore z x = false := by
  rw [keyBefore_eq_false] at h h' ⊢
  exact not_before_trans h h'

theorem keyBefore_asymm (x y : InternalKey) (h : keyBefore x y = true) : keyBefore y x = false := by
  rw [keyBefore_eq_false]
  intro hyx
  exact Before.irrefl y (hyx.trans (of_decide_eq_true h))

theorem SkipList.insert_eq (key : InternalKey) (value : Bytes) (es : List Entry) :
    SkipList.insert key value es =
      es.takeWhile (keyBefore ·.1 key) ++ (key, value) :: es.dropWhile (keyBefore ·.1 key) := by
  induction es with
  | nil => rfl
  | cons e es ih =>
    rw [SkipList.insert]
    split
    · next h =>
      rw [List.takeWhile_cons_of_pos (by simpa [keyBefore] using h),
        List.dropWhile_cons_of_pos (by simpa [keyBefore] using h), ih, List.cons_append]
    · next h =>
      rw [List.takeWhile_cons_of_neg (by simpa [keyBefore] using h),
        List.dropWhile_cons_of_neg (by simpa [keyBefore] using h), List.nil_append]

theorem SkipList.lowerBound_eq (target : InternalKey) (es : List Entry) :
    SkipList.lowerBound target es = (es.dropWhile (keyBefore ·.1 target)).head? := by
  unfold SkipList.lowerBound
  induction es with
  | nil => rfl
  | cons e es ih =>
    by_cases h : e.1.ord target = .lt
    · rw [List.dropWhile_cons_of_pos (by simpa [keyBefore] using h), ← ih,
        List.find?_cons_of_neg (by simpa using h)]
    · rw [List.dropWhile_cons_of_neg (by simpa [keyBefore] using h),
        List.find?_cons_of_pos (by simpa using h), List.head?_cons]

/-- The skip list of `m` holds the sequence of `m'`, and their counters agree. -/
structure LinkedMemTable.Refines (m : LinkedMemTable) (m' : MemTable) : Prop where
  skiplist : Skiplist.Holds keyBefore m.skiplist m'.skiplist
  seq : m.seq = m'.seq
  entries : m.entries = m'.entries
  approxBytes : m.approxBytes = m'.approxBytes

variable {m : LinkedMemTable} {m' : MemTable}

theorem LinkedMemTable.Refines.withInitialSequence (seq : Nat) :
    (LinkedMemTable.withInitialSequence seq).Refines (.withInitialSequence seq) :=
  ⟨Skiplist.Holds.new, rfl, rfl, rfl⟩

/-- A write does to the skip list what it does to the sequence. -/
theorem LinkedMemTable.Refines.apply (h : m.Refines m') (draws : Nat → Nat) (vtype : ValueType)
    (seq : Nat) (key value : Bytes) : ∃ n, m.apply draws vtype seq key value = some n ∧
      n.Refines (m'.apply vtype seq key value) := by
  obtain ⟨skiplist, hInsert, hHolds⟩ := h.skiplist.insert keyBefore_trans keyBefore_asymm draws
    { userKey := key, seq, vtype } value
  rw [← SkipList.insert_eq] at hHolds
  refine ⟨_, by simp only [LinkedMemTable.apply, hInsert]; rfl, hHolds, ?_, ?_, ?_⟩
  · simp only [MemTable.apply, h.seq]
  · simp only [MemTable.apply, h.entries]
  · simp only [MemTable.apply, h.approxBytes]

theorem LinkedMemTable.Refines.getEntry (h : m.Refines m') (key : Bytes) (snapshotSeq : Nat) :
    m.getEntry key snapshotSeq = some (m'.getEntry key snapshotSeq) := by
  simp only [LinkedMemTable.getEntry, h.skiplist.lowerBound keyBefore_trans,
    ← SkipList.lowerBound_eq, MemTable.getEntry, Option.bind_eq_bind, Option.bind_some]
  cases SkipList.lowerBound { userKey := key, seq := snapshotSeq, vtype := .put } m'.skiplist <;>
    rfl

/-- A flush goes over the entries of the sequence. -/
theorem LinkedMemTable.Refines.iter (h : m.Refines m') : m.skiplist.iter = some m'.skiplist :=
  h.skiplist.iter

end Refinement

section Versions

/-- The skip list of a memory table holds the versions `es`, and its last sequence number is
`seq`. -/
structure LinkedMemTable.Has (m : LinkedMemTable) (seq : Nat) (es : List Entry) : Prop where
  seq : m.seq = seq
  skiplist : ∃ xs, Skiplist.Holds keyBefore m.skiplist xs ∧ xs.Perm es

theorem LinkedMemTable.Has.insert {m : LinkedMemTable} {seq : Nat} {es : List Entry}
    (h : m.Has seq es) (draws : Nat → Nat) (key : InternalKey) (value : Bytes) :
    ∃ skiplist, m.skiplist.insert keyBefore draws key value = some skiplist ∧
      ∃ xs, Skiplist.Holds keyBefore skiplist xs ∧ xs.Perm ((key, value) :: es) := by
  obtain ⟨xs, hHolds, hPerm⟩ := h.skiplist
  obtain ⟨skiplist, hInsert, hNew⟩ := hHolds.insert keyBefore_trans keyBefore_asymm draws key value
  rw [← SkipList.insert_eq] at hNew
  exact ⟨skiplist, hInsert, _, hNew, (SkipList.insert_perm key value xs).trans (hPerm.cons _)⟩

/-- A write adds its version. -/
theorem LinkedMemTable.Has.run {m : LinkedMemTable} {seq : Nat} {es : List Entry} (h : m.Has seq es)
    (op : MemOp) (draws : Nat → Nat) :
    ∃ n, op.run draws m = some n ∧ n.Has (op.seqAfter seq) (op.entry seq :: es) := by
  obtain rfl := h.seq
  cases op with
  | put key value =>
    obtain ⟨skiplist, hInsert, hHolds⟩ := h.insert draws
      { userKey := key, seq := (m.seq + 1) % 2 ^ 64, vtype := .put } value
    exact ⟨_, by simp only [MemOp.run, LinkedMemTable.put, hInsert]; rfl, rfl, hHolds⟩
  | delete key =>
    obtain ⟨skiplist, hInsert, hHolds⟩ := h.insert draws
      { userKey := key, seq := (m.seq + 1) % 2 ^ 64, vtype := .delete } []
    exact ⟨_, by simp only [MemOp.run, LinkedMemTable.delete, hInsert]; rfl, rfl, hHolds⟩
  | apply vtype seq key value =>
    obtain ⟨skiplist, hInsert, hHolds⟩ := h.insert draws { userKey := key, seq, vtype } value
    exact ⟨_, by simp only [MemOp.run, LinkedMemTable.apply, hInsert]; rfl, rfl, hHolds⟩

theorem LinkedMemTable.Has.runAll {m : LinkedMemTable} {seq : Nat} {es : List Entry}
    (h : m.Has seq es) (ops : List (MemOp × (Nat → Nat))) :
    ∃ n seq', MemOp.runAll m ops = some n ∧
      ∃ xs, n.Has seq' xs ∧ xs.Perm (MemOp.entries seq (ops.map Prod.fst) ++ es) := by
  induction ops generalizing m seq es with
  | nil => exact ⟨m, seq, rfl, es, h, List.Perm.refl _⟩
  | cons op ops ih =>
    obtain ⟨n, hRun, hHas⟩ := h.run op.1 op.2
    obtain ⟨n', seq', hAll, xs, hHas', hPerm⟩ := ih hHas
    refine ⟨n', seq', ?_, xs, hHas', ?_⟩
    · simp only [MemOp.runAll, List.foldlM_cons, hRun, Option.bind_eq_bind, Option.bind_some]
      exact hAll
    · exact hPerm.trans List.perm_middle

theorem LinkedMemTable.Has.getEntry {m : LinkedMemTable} {seq : Nat} {es : List Entry}
    (h : m.Has seq es) (k : Bytes) (s : Nat) :
    ∃ r, m.getEntry k s = some r ∧
      ((∃ e, Versioned.Newest (versions es) k s e ∧ r = some (e.1.vtype, e.2)) ∨
        (∀ e, ¬Versioned.Visible (versions es) k s e) ∧ r = none) := by
  obtain ⟨xs, hHolds, hPerm⟩ := h.skiplist
  have hSorted : Sorted xs := hHolds.sorted.imp keyBefore_eq_false.mp
  have hVersions : versions es = versions xs := Set.ext fun e => hPerm.symm.mem_iff
  let m' : MemTable := { skiplist := xs, seq := m.seq, entries := m.entries
                         approxBytes := m.approxBytes }
  have hRefines : m.Refines m' := ⟨hHolds, rfl, rfl, rfl⟩
  refine ⟨_, hRefines.getEntry k s, ?_⟩
  rw [m'.getEntry_eq, hVersions]
  cases hSeek : seek xs k s with
  | some e => exact .inl ⟨e, hSorted.seek_some hSeek, rfl⟩
  | none => exact .inr ⟨hSorted.seek_none hSeek, rfl⟩

theorem LinkedMemTable.Has.snapshotEntries {m : LinkedMemTable} {seq : Nat} {es : List Entry}
    (h : m.Has seq es) (hDistinct : (es.map (·.1.seq)).Nodup) (s : Nat) :
    ∃ xs : List Entry, m.snapshotEntries s = some (xs.map fun e => (e.1.encode, e.2)) ∧
      xs.Perm (es.filter (·.1.seq ≤ s)) ∧ xs.Pairwise fun a b => a.1.ord b.1 = .lt := by
  obtain ⟨xs, hHolds, hPerm⟩ := h.skiplist
  refine ⟨xs.filter (·.1.seq ≤ s), ?_, hPerm.filter _, List.Pairwise.sublist List.filter_sublist ?_⟩
  · simp only [LinkedMemTable.snapshotEntries, hHolds.iter]
    rfl
  · have hSeqs : xs.Pairwise fun a b => a.1.seq ≠ b.1.seq :=
      List.pairwise_map.mp ((hPerm.map _).nodup_iff.mpr hDistinct)
    refine (hHolds.sorted.and hSeqs).imp fun {a b} hab => ?_
    rcases Before.eq_or (keyBefore_eq_false.mp hab.1) with hEq | hBefore
    · exact absurd (congrArg InternalKey.seq hEq) hab.2
    · exact hBefore

/-- After writes with distinct sequence numbers, in whatever order and with whatever heights of
nodes, a reader of a key up to some sequence number gets its newest version up to that, and the
snapshot lists every version up to it, once, in the order of the keys. -/
theorem memTable_multiVersion (seq : Nat) (ops : List (MemOp × (Nat → Nat)))
    (hDistinct : ((MemOp.entries seq (ops.map Prod.fst)).map (·.1.seq)).Nodup) :
    ∃ m, MemOp.runAll (.withInitialSequence seq) ops = some m ∧
      (∀ k s, ∃ r, m.getEntry k s = some r ∧
        ((∃ e, Versioned.Newest (versions (MemOp.entries seq (ops.map Prod.fst))) k s e ∧
            r = some (e.1.vtype, e.2)) ∨
          (∀ e, ¬Versioned.Visible (versions (MemOp.entries seq (ops.map Prod.fst))) k s e) ∧
            r = none)) ∧
      ∀ s, ∃ xs : List Entry, m.snapshotEntries s = some (xs.map fun e => (e.1.encode, e.2)) ∧
        xs.Perm ((MemOp.entries seq (ops.map Prod.fst)).filter (·.1.seq ≤ s)) ∧
        xs.Pairwise fun a b => a.1.ord b.1 = .lt := by
  have hStart : (LinkedMemTable.withInitialSequence seq).Has seq [] :=
    ⟨rfl, [], Skiplist.Holds.new, List.Perm.refl _⟩
  obtain ⟨m, seq', hRun, xs, hHas, hPerm⟩ := hStart.runAll ops
  rw [List.append_nil] at hPerm
  have hVersions : versions (MemOp.entries seq (ops.map Prod.fst)) = versions xs :=
    Set.ext fun e => hPerm.symm.mem_iff
  refine ⟨m, hRun, fun k s => ?_, fun s => ?_⟩
  · rw [hVersions]
    exact hHas.getEntry k s
  · obtain ⟨ys, hEntries, hYs, hAscending⟩ := hHas.snapshotEntries
      ((hPerm.map _).nodup_iff.mpr hDistinct) s
    exact ⟨ys, hEntries, hYs.trans (hPerm.filter _), hAscending⟩

/-- A deletion that is applied late, below a newer version. -/
theorem memTable_multiVersion_late :
    ((MemOp.entries 5 [.put [107] [1], .apply .delete 3 [107] [], .put [107, 0] []]).map
      (·.1.seq)).Nodup ∧
    ∃ m, MemOp.runAll (.withInitialSequence 5)
        [(.put [107] [1], fun _ => 0), (.apply .delete 3 [107] [], fun n => n),
          (.put [107, 0] [], fun n => n - 2)] = some m ∧
      ∃ r, m.getEntry [107] 5 = some r ∧
        ((∃ e, Versioned.Newest (versions (MemOp.entries 5
            [.put [107] [1], .apply .delete 3 [107] [], .put [107, 0] []])) [107] 5 e ∧
            r = some (e.1.vtype, e.2)) ∨
          (∀ e, ¬Versioned.Visible (versions (MemOp.entries 5
            [.put [107] [1], .apply .delete 3 [107] [], .put [107, 0] []])) [107] 5 e) ∧
            r = none) := by
  refine ⟨by decide, ?_⟩
  obtain ⟨m, hRun, hGet, -⟩ := memTable_multiVersion 5
    [(.put [107] [1], fun _ => 0), (.apply .delete 3 [107] [], fun n => n),
      (.put [107, 0] [], fun n => n - 2)] (by decide)
  exact ⟨m, hRun, hGet [107] 5⟩

end Versions

end MulanLsm
