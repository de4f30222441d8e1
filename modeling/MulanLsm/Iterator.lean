import MulanLsm.KeyBytes
import MulanLsm.Runs

/-! Scans.  An iterator goes over the merged entries of the memory table and of all tables; of each
user key it gives out the newest version that its snapshot sees, unless that is a deletion. -/

namespace MulanLsm

open Merge (Merger)
open Versioned (Reads)

/-- The order in which the entries of tables are merged. -/
def entryLt (a b : Bytes × Bytes) : Bool := internalKeyBytesCmp a.1 b.1 = .lt

/-- An iterator: the merger of what is left, the sequence number of the snapshot, and the item that
is given out next. -/
structure DBIter where
  inner : Merger (Bytes × Bytes)
  snapshotSeq : Nat
  pending : Option (Bytes × Bytes)

namespace DBIter

/-- Leave out the entries of a user key. -/
def skipVersions (userKey : Bytes) : Nat → Merger (Bytes × Bytes) → Merger (Bytes × Bytes)
  | 0, m => m
  | fuel + 1, m =>
    match m.peek entryLt with
    | none => m
    | some (peekKey, _) =>
      if userKeyOfInternalKey peekKey = userKey then
        match m.next entryLt with
        | none => m
        | some (_, m) => skipVersions userKey fuel m
      else m

/-- The loop of `advance`, in which every turn takes an entry. -/
def advanceLoop : Nat → DBIter → DBIter
  | 0, it => it
  | fuel + 1, it =>
    match it.inner.next entryLt with
    | none => it
    | some ((ik, value), inner) =>
      match seqOfInternalKey ik with
      | none => advanceLoop fuel { it with inner }
      | some seq =>
        if seq > it.snapshotSeq then advanceLoop fuel { it with inner }
        else
          match vtypeOfInternalKey ik with
          | none => advanceLoop fuel { it with inner }
          | some vtype =>
            let userKey := userKeyOfInternalKey ik
            let inner := skipVersions userKey inner.left.length inner
            match vtype with
            | .put => { it with inner, pending := some (userKey, value) }
            | .delete => advanceLoop fuel { it with inner }

/-- Go on to the next user key whose newest version that the snapshot sees is a value. -/
def advance (it : DBIter) : DBIter :=
  advanceLoop it.inner.left.length { it with pending := none }

def new (inner : Merger (Bytes × Bytes)) (snapshotSeq : Nat) : DBIter :=
  advance { inner, snapshotSeq, pending := none }

def peek (it : DBIter) : Option (Bytes × Bytes) := it.pending

def next (it : DBIter) : Option ((Bytes × Bytes) × DBIter) :=
  it.pending.map fun item => (item, advance { it with pending := none })

/-- The items that an iterator gives out, at most `fuel` of them. -/
def itemsLoop : Nat → DBIter → List (Bytes × Bytes)
  | 0, _ => []
  | fuel + 1, it =>
    match it.next with
    | none => []
    | some (item, it) => item :: itemsLoop fuel it

/-- All items that an iterator gives out. -/
def items (it : DBIter) : List (Bytes × Bytes) := itemsLoop (it.inner.left.length + 1) it

end DBIter

/-- The entries up to `snapshotSeq`. -/
def MemTable.snapshotEntries (m : MemTable) (snapshotSeq : Nat) : List (Bytes × Bytes) :=
  (m.skiplist.filter (·.1.seq ≤ snapshotSeq)).map Entry.encode

/-- An iterator over the memory table and the tables of all files, at a snapshot. -/
def Db.newIteratorAt (snapSeq : Nat) : St Db DBIter := do
  let db ← self
  let memItems := db.memtable.snapshotEntries snapSeq
  let tables ← openAll ((List.range numLevels).flatMap db.versionSet.current.filesAt)
  let iters := (if memItems = [] then [] else [memItems]) ++ tables.map (·.map Entry.encode)
  return DBIter.new (Merger.new iters) snapSeq

section Keys

variable {e : Entry} {es : List Entry} {k : Bytes} {s : Nat} {r : Option Bytes}

/-- The entries behind those of the user key of `e`. -/
def behind (e : Entry) (es : List Entry) : List Entry :=
  es.dropWhile fun x => x.1.userKey = e.1.userKey

theorem behind_sublist : (behind e es).Sublist es := List.dropWhile_sublist _

theorem lt_of_mem_behind (h : Ascending (e :: es)) {x : Entry} (hx : x ∈ behind e es) :
    e.1.userKey < x.1.userKey := by
  obtain ⟨he, hes⟩ := List.pairwise_cons.mp h
  induction es with
  | nil => contradiction
  | cons y es ih =>
    obtain ⟨hy, hes'⟩ := List.pairwise_cons.mp hes
    unfold behind at hx
    rw [List.dropWhile_cons] at hx
    split at hx
    · exact ih (List.pairwise_cons.mpr ⟨fun z hz => he z (List.mem_cons_of_mem _ hz), hes'⟩) hx
        (fun z hz => he z (List.mem_cons_of_mem _ hz)) hes'
    · next hne =>
      have hlt : e.1.userKey < y.1.userKey :=
        lt_of_le_of_ne (he y List.mem_cons_self).userKey_le fun h => hne (decide_eq_true h.symm)
      rcases List.mem_cons.mp hx with rfl | hx
      · exact hlt
      · exact hlt.trans_le (hy x hx).userKey_le

theorem mem_behind (hk : k ≠ e.1.userKey) {x : Entry} (hx : x ∈ es) (hxk : x.1.userKey = k) :
    x ∈ behind e es := by
  induction es with
  | nil => contradiction
  | cons y es ih =>
    unfold behind
    rw [List.dropWhile_cons]
    split
    · next hy =>
      rcases List.mem_cons.mp hx with rfl | hx
      · exact absurd (hxk.symm.trans (of_decide_eq_true hy)) hk
      · exact ih hx
    · exact hx

theorem versions_cons : versions (e :: es) = {e} ∪ versions es := by
  ext x
  exact List.mem_cons

/-- The entry that comes first is the newest version of its key. -/
theorem reads_cons_self (h : Ascending (e :: es)) (hs : e.1.seq ≤ s) :
    Reads (versions (e :: es)) e.1.userKey s e.value := by
  rw [versions_cons]
  refine Reads.insert_self (x := e) (fun y hy hk => ?_) hs
  exact (((List.pairwise_cons.mp h).1 y hy).resolve_left fun hlt => absurd hk hlt.ne').2

/-- The other keys are those of the entries behind it. -/
theorem reads_cons_ne (h : k ≠ e.1.userKey) :
    Reads (versions (e :: es)) k s r ↔ Reads (versions (behind e es)) k s r := by
  refine Reads.congr fun x hk _ => ?_
  constructor
  · intro hx
    rcases List.mem_cons.mp hx with rfl | hx
    · exact absurd hk.symm h
    · exact mem_behind h hx hk
  · exact fun hx => List.mem_cons_of_mem _ (behind_sublist.subset hx)

end Keys

section Scanning

variable {m : Merger (Bytes × Bytes)} {es : List Entry} {s : Nat}

theorem entryLt_weak : Merge.Weak entryLt :=
  internalKeyCmp_weak.comap fun a : Bytes × Bytes => (keyOf a.1, a.2)

/-- The merger has the entries `es` left. -/
structure Leaves (m : Merger (Bytes × Bytes)) (es : List Entry) : Prop where
  inOrder : Merge.InOrder entryLt m
  drain : m.drain entryLt = es.map Entry.encode
  ascending : Ascending es
  seqs : ∀ e ∈ es, e.1.seq < 2 ^ 64

theorem Leaves.length (h : Leaves m es) : m.left.length = es.length := by
  rw [← Merge.length_drain entryLt_weak h.inOrder, h.drain, List.length_map]

theorem Leaves.next_nil (h : Leaves m []) : m.next entryLt = none := by
  cases hNext : m.next entryLt with
  | none => rfl
  | some r =>
    have := h.drain
    rw [Merge.drain_of_next hNext] at this
    contradiction

theorem Leaves.next_cons {e : Entry} (h : Leaves m (e :: es)) :
    ∃ m', m.next entryLt = some (e.encode, m') ∧ Leaves m' es := by
  have hDrain := h.drain
  cases hNext : m.next entryLt with
  | none =>
    rw [Merge.drain_of_next_none h.inOrder hNext] at hDrain
    contradiction
  | some r =>
    obtain ⟨x, m'⟩ := r
    rw [Merge.drain_of_next hNext, List.map_cons] at hDrain
    obtain ⟨rfl, hRest⟩ := List.cons.inj hDrain
    exact ⟨m', rfl, Merge.next_inOrder h.inOrder hNext, hRest,
      (List.pairwise_cons.mp h.ascending).2, fun x hx => h.seqs x (List.mem_cons_of_mem _ hx)⟩

/-- Skipping the versions of the key of `e` leaves what is behind them. -/
theorem Leaves.skipVersions {fuel : Nat} (e : Entry) (h : Leaves m es) (hFuel : es.length ≤ fuel) :
    Leaves (DBIter.skipVersions e.1.userKey fuel m) (behind e es) := by
  induction fuel generalizing m es with
  | zero =>
    rw [List.length_eq_zero_iff.mp (Nat.le_zero.mp hFuel)] at h ⊢
    exact h
  | succ fuel ih =>
    rw [DBIter.skipVersions, Merge.peek_eq h.inOrder, h.drain]
    cases es with
    | nil => exact h
    | cons x es =>
      rw [List.map_cons, List.head?_cons]
      unfold behind
      simp only [Entry.encode, userKeyOf_encode, List.dropWhile_cons, decide_eq_true_eq]
      split
      · obtain ⟨m', hNext, hRest⟩ := h.next_cons
        rw [hNext]
        exact ih hRest (by rw [List.length_cons] at hFuel; omega)
      · exact h

/-- Without entries a reader finds nothing. -/
theorem reads_nil (k : Bytes) (s : Nat) : Reads (versions []) k s none :=
  Versioned.reads_none fun _ hx => List.not_mem_nil hx.1

/-- A reader finds nothing of a key in front of all entries. -/
theorem reads_front {k : Bytes} (h : ∀ e ∈ es, k < e.1.userKey) : Reads (versions es) k s none :=
  Versioned.reads_none fun x hx => (h x hx.1).ne' hx.2.1

/-- What is found once a scan of the entries `es` comes to `pending`, with `rest` left: nothing in
front of it, and behind it what is found in `rest`. -/
def Arrived (es : List Entry) (s : Nat) (rest : List Entry) : Option (Bytes × Bytes) → Prop
  | none => ∀ k, Reads (versions es) k s none
  | some (k, v) => (∀ e ∈ rest, k < e.1.userKey) ∧ Reads (versions es) k s (some v) ∧
    (∀ k' < k, Reads (versions es) k' s none) ∧
    ∀ k', k < k' → ∀ r, Reads (versions es) k' s r ↔ Reads (versions rest) k' s r

theorem Arrived.of_iff {es' rest : List Entry} {pending : Option (Bytes × Bytes)}
    (h : Arrived es' s rest pending)
    (hIff : ∀ k r, Reads (versions es) k s r ↔ Reads (versions es') k s r) :
    Arrived es s rest pending := by
  cases pending with
  | none => exact fun k => (hIff k none).mpr (h k)
  | some item =>
    obtain ⟨hRest, hSelf, hFront, hBehind⟩ := h
    exact ⟨hRest, (hIff _ _).mpr hSelf, fun k' hk' => (hIff _ _).mpr (hFront k' hk'),
      fun k' hk' r => (hIff _ _).trans (hBehind k' hk' r)⟩

/-- A deletion that comes first hides the versions of its key. -/
theorem Arrived.of_behind {e : Entry} {rest : List Entry} {pending : Option (Bytes × Bytes)}
    (hAsc : Ascending (e :: es)) (hs : e.1.seq ≤ s) (hDelete : e.value = none)
    (h : Arrived (behind e es) s rest pending) : Arrived (e :: es) s rest pending := by
  have hSelf : Reads (versions (e :: es)) e.1.userKey s none := hDelete ▸ reads_cons_self hAsc hs
  have hOther : ∀ {k r}, k ≠ e.1.userKey →
      (Reads (versions (e :: es)) k s r ↔ Reads (versions (behind e es)) k s r) := reads_cons_ne
  have hNone : ∀ k, Reads (versions (behind e es)) k s none →
      Reads (versions (e :: es)) k s none := by
    intro k hk
    by_cases he : k = e.1.userKey
    · exact he ▸ hSelf
    · exact (hOther he).mpr hk
  cases pending with
  | none => exact fun k => hNone k (h k)
  | some item =>
    obtain ⟨k, v⟩ := item
    obtain ⟨hRest, hk, hFront, hBehind⟩ := h
    have hlt : e.1.userKey < k := by
      by_contra hle
      have hNothing := reads_front (s := s) fun x hx =>
        (not_lt.mp hle).trans_lt (lt_of_mem_behind hAsc hx)
      have hBehindAsc : Ascending (behind e es) :=
        (List.pairwise_cons.mp hAsc).2.sublist behind_sublist
      have := hk.unique hBehindAsc.distinct hNothing
      contradiction
    exact ⟨hRest, (hOther hlt.ne').mpr hk, fun k' hk' => hNone k' (hFront k' hk'),
      fun k' hk' r => (hOther (hlt.trans hk').ne').trans (hBehind k' hk' r)⟩

theorem DBIter.advanceLoop_spec {fuel : Nat} (h : Leaves m es) (hFuel : es.length ≤ fuel) :
    ∃ m' rest pending, advanceLoop fuel { inner := m, snapshotSeq := s, pending := none } =
        { inner := m', snapshotSeq := s, pending } ∧
      Leaves m' rest ∧ Arrived es s rest pending ∧ (pending.isSome → rest.length < es.length) := by
  induction fuel generalizing m es with
  | zero =>
    obtain rfl := List.length_eq_zero_iff.mp (Nat.le_zero.mp hFuel)
    exact ⟨m, [], none, rfl, h, fun k => reads_nil k s, fun h => absurd h Bool.false_ne_true⟩
  | succ fuel ih =>
    cases es with
    | nil =>
      rw [advanceLoop, h.next_nil]
      exact ⟨m, [], none, rfl, h, fun k => reads_nil k s, fun h => absurd h Bool.false_ne_true⟩
    | cons e es =>
      obtain ⟨m₁, hNext, hRest⟩ := h.next_cons
      rw [List.length_cons] at hFuel
      simp only [advanceLoop, hNext, Entry.encode, seqOf_encode (h.seqs e List.mem_cons_self),
        vtypeOf_encode, userKeyOf_encode]
      split
      · next hSeq =>
        obtain ⟨m', rest, pending, hRun, hLeaves, hArrived, hLen⟩ := ih hRest (by omega)
        refine ⟨m', rest, pending, hRun, hLeaves, hArrived.of_iff fun k r => ?_, fun h => ?_⟩
        · rw [versions_cons]
          exact Reads.insert_later hSeq
        · have := hLen h
          rw [List.length_cons]
          omega
      · next hSeq =>
        have hBehind := hRest.skipVersions e hRest.length.ge
        have hLe : (behind e es).length ≤ es.length := behind_sublist.length_le
        cases hType : e.1.vtype with
        | put =>
          refine ⟨_, _, _, rfl, hBehind, ⟨fun x hx => lt_of_mem_behind h.ascending hx, ?_,
            fun k hk => reads_front fun x hx => hk.trans_le ?_,
            fun k hk r => reads_cons_ne hk.ne'⟩, fun _ => ?_⟩
          · have := reads_cons_self h.ascending (not_lt.mp hSeq)
            rwa [Entry.value, hType] at this
          · rcases List.mem_cons.mp hx with rfl | hx
            · exact le_rfl
            · exact ((List.pairwise_cons.mp h.ascending).1 x hx).userKey_le
          · rw [List.length_cons]
            omega
        | delete =>
          obtain ⟨m', rest, pending, hRun, hLeaves, hArrived, hLen⟩ := ih hBehind (by omega)
          refine ⟨m', rest, pending, hRun, hLeaves,
            hArrived.of_behind h.ascending (not_lt.mp hSeq) (by rw [Entry.value, hType]),
            fun h => ?_⟩
          have := hLen h
          rw [List.length_cons]
          omega

/-- The items are in strictly ascending order of their keys, and are what a reader finds. -/
structure Scanned (S : Set Entry) (s : Nat) (items : List (Bytes × Bytes)) : Prop where
  ascending : items.Pairwise fun a b => a.1 < b.1
  mem : ∀ k v, (k, v) ∈ items ↔ Reads S k s (some v)

theorem Scanned.nil (hAsc : Ascending es) (h : ∀ k, Reads (versions es) k s none) :
    Scanned (versions es) s [] := by
  refine ⟨List.Pairwise.nil, fun k v => ⟨fun hMem => absurd hMem List.not_mem_nil,
    fun hReads => ?_⟩⟩
  have := (h k).unique hAsc.distinct hReads
  contradiction

theorem Scanned.cons {rest : List Entry} {k v : Bytes} {items : List (Bytes × Bytes)}
    (hAsc : Ascending es) (h : Arrived es s rest (some (k, v)))
    (hItems : Scanned (versions rest) s items) : Scanned (versions es) s ((k, v) :: items) := by
  obtain ⟨hRest, hSelf, hFront, hBehind⟩ := h
  have hTail : ∀ item ∈ items, k < item.1 := by
    rintro ⟨k', v'⟩ hItem
    rcases (hItems.mem k' v').mp hItem with ⟨x, hx, -⟩ | ⟨-, hNone⟩
    · rw [← hx.1.2.1]
      exact hRest x hx.1.1
    · contradiction
  refine ⟨List.pairwise_cons.mpr ⟨hTail, hItems.ascending⟩, fun k' v' => ?_⟩
  rw [List.mem_cons, Prod.mk.injEq]
  rcases lt_trichotomy k' k with hlt | rfl | hlt
  · constructor
    · rintro (⟨rfl, -⟩ | hItem)
      · exact absurd hlt (lt_irrefl _)
      · exact absurd hlt (hTail _ hItem).asymm
    · intro hReads
      have := hReads.unique hAsc.distinct (hFront k' hlt)
      contradiction
  · constructor
    · rintro (⟨-, rfl⟩ | hItem)
      · exact hSelf
      · exact absurd (hTail _ hItem) (lt_irrefl _)
    · intro hReads
      exact .inl ⟨rfl, Option.some.inj (hReads.unique hAsc.distinct hSelf)⟩
  · rw [hBehind k' hlt, ← hItems.mem]
    exact ⟨fun h => h.resolve_left fun h => absurd (h.1 ▸ hlt) (lt_irrefl _), .inr⟩

theorem DBIter.itemsLoop_spec {fuel : Nat} {rest : List Entry} {pending : Option (Bytes × Bytes)}
    (h : Leaves m rest) (hAsc : Ascending es) (hArrived : Arrived es s rest pending)
    (hFuel : rest.length < fuel) :
    Scanned (versions es) s (itemsLoop fuel { inner := m, snapshotSeq := s, pending }) := by
  induction fuel generalizing m es rest pending with
  | zero => exact absurd hFuel (Nat.not_lt_zero _)
  | succ fuel ih =>
    cases pending with
    | none => exact .nil hAsc hArrived
    | some item =>
      obtain ⟨m', rest', pending', hRun, hLeaves, hArrived', hLen⟩ :=
        advanceLoop_spec (s := s) h h.length.ge
      have hItems : itemsLoop (fuel + 1) { inner := m, snapshotSeq := s, pending := some item } =
          item :: itemsLoop fuel { inner := m', snapshotSeq := s, pending := pending' } := by
        simp only [itemsLoop, DBIter.next, Option.map_some, advance, hRun]
      rw [hItems]
      apply Scanned.cons hAsc hArrived
      cases pending' with
      | none =>
        cases fuel with
        | zero => exact .nil h.ascending hArrived'
        | succ fuel => exact .nil h.ascending hArrived'
      | some item' => exact ih hLeaves h.ascending hArrived' ((hLen rfl).trans_le (by omega))

/-- A scan of the entries `es` gives out what a reader finds in them. -/
theorem DBIter.items_new (h : Leaves m es) : Scanned (versions es) s (DBIter.new m s).items := by
  obtain ⟨m', rest, pending, hRun, hLeaves, hArrived, -⟩ := advanceLoop_spec (s := s) h h.length.ge
  rw [DBIter.new, advance, hRun, items]
  exact itemsLoop_spec hLeaves h.ascending hArrived
    (by rw [hLeaves.length]; exact Nat.lt_succ_self _)

end Scanning

section Sources

variable {d : Dir} {db : Db} {s : Nat} {sources : List (List Entry)}

/-- The merger of ascending sources leaves their entries, in ascending order. -/
theorem leaves_new (hAsc : ∀ es ∈ sources, Ascending es)
    (hDistinct : DistinctVersions sources.flatten)
    (hSeqs : ∀ e ∈ sources.flatten, e.1.seq < 2 ^ 64) :
    ∃ es, Leaves (Merger.new (sources.map (·.map Entry.encode))) es ∧ es.Perm sources.flatten := by
  have hLt : ∀ {x y : Entry}, x.1.seq < 2 ^ 64 → y.1.seq < 2 ^ 64 →
      (entryLt y.encode x.encode = false ↔ ¬KeyLt y.1 x.1) := by
    intro x y hx hy
    rw [entryLt, Entry.encode, Entry.encode, internalKeyBytesCmp_encode hy hx,
      decide_eq_false_iff_not, internalKeyCmp_lt]
  have hSorted : ∀ iter ∈ sources.map (·.map Entry.encode),
      iter.Pairwise fun x y => entryLt y x = false := by
    intro iter hIter
    obtain ⟨es, hes, rfl⟩ := List.mem_map.mp hIter
    refine List.pairwise_map.mpr ((hAsc es hes).imp_of_mem fun {x y} hx hy hxy => ?_)
    have hMem : ∀ {z}, z ∈ es → z.1.seq < 2 ^ 64 := fun hz =>
      hSeqs _ (List.mem_flatten.mpr ⟨es, hes, hz⟩)
    exact (hLt (hMem hx) (hMem hy)).mpr hxy.asymm
  obtain ⟨hPerm, hOrder⟩ := Merge.drain_new entryLt_weak hSorted
  rw [← List.map_flatten] at hPerm
  obtain ⟨es, hes, hPerm⟩ := (funext_iff.mp (funext_iff.mp
    (List.eq_map_comp_perm Entry.encode) _) _).mpr hPerm
  rw [hes, List.pairwise_map] at hOrder
  have hMem : ∀ {z}, z ∈ es → z.1.seq < 2 ^ 64 := fun hz => hSeqs _ (hPerm.mem_iff.mp hz)
  refine ⟨es, ⟨Merge.new_inOrder hSorted, hes, ?_, fun e he => hMem he⟩, hPerm⟩
  have hNodup : es.Nodup := hPerm.nodup_iff.mpr hDistinct.nodup
  refine (hOrder.and hNodup).imp_of_mem fun {x y} hx hy hxy => ?_
  have hNot := (hLt (hMem hx) (hMem hy)).mp hxy.1
  by_contra hxyLt
  obtain ⟨hk, hs⟩ := KeyLt.total hxyLt hNot
  exact hxy.2 (hDistinct.distinct x (hPerm.mem_iff.mp hx) y (hPerm.mem_iff.mp hy) hk hs)

theorem mem_contents {e : Entry} : e ∈ db.contents d ↔
    e ∈ db.memtable.skiplist ++ entriesIn d db.versionSet.current.allFiles := by
  rw [List.mem_append, mem_entriesIn]
  apply or_congr Iff.rfl
  constructor
  · rintro ⟨level, f, hf, he⟩
    exact ⟨f, mem_allFiles.mpr ⟨level, hf⟩, he⟩
  · rintro ⟨f, hf, he⟩
    obtain ⟨level, hf⟩ := mem_allFiles.mp hf
    exact ⟨level, f, hf, he⟩

/-- What is merged: what the snapshot sees of the memory table, unless that is nothing, and the
tables. -/
def sourcesAt (s : Nat) (d : Dir) (db : Db) : List (List Entry) :=
  let mem := db.memtable.skiplist.filter (·.1.seq ≤ s)
  (if mem = [] then [] else [mem]) ++
    db.versionSet.current.allFiles.map fun f => d.entries f.number

theorem newIteratorAt_spec {A : Outcome → Prop}
    (hTable : ∀ f ∈ db.versionSet.current.allFiles, d.table f.number = some (d.entries f.number)) :
    Spec A (Db.newIteratorAt s)
      (fun it db' d' => it = DBIter.new
        (Merger.new ((sourcesAt s d db).map (·.map Entry.encode))) s ∧
        db' = db ∧ d' = d)
      (fun f db' d' => Fails A f ∧ db' = db ∧ d' = d) db d := by
  refine Spec.bind (Spec.self (Spec.bind ((openAll_spec hTable).mono ?_ ?_)))
  · rintro tables db' d' ⟨rfl, rfl, rfl⟩
    refine Spec.pure ⟨?_, rfl, rfl⟩
    simp only [sourcesAt, List.map_append, MemTable.snapshotEntries, List.map_eq_nil_iff,
      apply_ite (List.map _), List.map_nil, List.map_cons]
  · rintro f db' d' ⟨rfl, hFails, rfl⟩
    exact ⟨hFails, rfl, rfl⟩

theorem flatten_sourcesAt : (sourcesAt s d db).flatten =
    db.memtable.skiplist.filter (·.1.seq ≤ s) ++ entriesIn d db.versionSet.current.allFiles := by
  rw [sourcesAt, List.flatten_append]
  congr 1
  split
  · next h => exact h.symm
  · exact List.append_nil _

theorem sourcesAt_sublist : (sourcesAt s d db).flatten.Sublist
    (db.memtable.skiplist ++ entriesIn d db.versionSet.current.allFiles) :=
  flatten_sourcesAt ▸ List.filter_sublist.append_right _

/-- A scan at a snapshot gives out each key with the value that a reader at the snapshot finds, in
ascending order. -/
theorem scan_gives_snapshot (s : Nat) (hMem : Sorted db.memtable.skiplist)
    (hTables : ∀ level, ∀ f ∈ db.versionSet.current.filesAt level,
      ∃ es, d.table f.number = some es ∧ Ascending es)
    (hDistinct : DistinctVersions
      (db.memtable.skiplist ++ entriesIn d db.versionSet.current.allFiles))
    (hSeqs : ∀ e ∈ db.contents d, e.1.seq < 2 ^ 64) :
    ∃ it w, Db.newIteratorAt s (db, ⟨d, []⟩) = .ok it (db, w) ∧
      it.items.Pairwise (fun a b => a.1 < b.1) ∧
      ∀ k v, (k, v) ∈ it.items ↔ Reads (db.contents d) k s (some v) := by
  have hTable : ∀ f ∈ db.versionSet.current.allFiles,
      d.table f.number = some (d.entries f.number) ∧ Ascending (d.entries f.number) := by
    intro f hf
    obtain ⟨level, hf⟩ := mem_allFiles.mp hf
    obtain ⟨es, hes, hAsc⟩ := hTables level f hf
    rw [Dir.entries, hes]
    exact ⟨rfl, hAsc⟩
  have hMemDistinct : DistinctVersions db.memtable.skiplist :=
    List.Pairwise.sublist (List.sublist_append_left _ _) hDistinct
  have hAsc : ∀ es ∈ sourcesAt s d db, Ascending es := by
    intro es hes
    rcases List.mem_append.mp hes with hes | hes
    · split at hes
      · contradiction
      · rw [List.mem_singleton.mp hes]
        exact List.Pairwise.filter _ (hMem.ascending hMemDistinct.nodup hMemDistinct.distinct)
    · obtain ⟨f, hf, rfl⟩ := List.mem_map.mp hes
      exact (hTable f hf).2
  obtain ⟨es, hLeaves, hPerm⟩ := leaves_new hAsc
    (List.Pairwise.sublist sourcesAt_sublist hDistinct) fun e he =>
      hSeqs e (mem_contents.mpr (sourcesAt_sublist.subset he))
  obtain ⟨it, db', w, hRun, rfl, rfl, hd⟩ := ((newIteratorAt_spec (A := Quiet) (s := s)
    fun f hf => (hTable f hf).1).quiet fun _ _ _ h => h.1).run
  obtain ⟨hOrder, hItems⟩ := DBIter.items_new (s := s) hLeaves
  refine ⟨_, w, hRun, hOrder, fun k v => (hItems k v).trans (Reads.congr fun x _ hs => ?_)⟩
  -- What the snapshot does not see of the memory table is not merged.
  rw [mem_contents, mem_versions, hPerm.mem_iff, flatten_sourcesAt, List.mem_append,
    List.mem_append, List.mem_filter, decide_eq_true_eq]
  exact or_congr_left (and_iff_left hs)

end Sources

/-- A key that is overwritten behind the snapshot, and one that is deleted. -/
theorem scan_gives_snapshot_run :
    ∃ s0, opened eager ∅ = some s0 ∧ ∃ s,
      opsRun [.put [97] [1], .put [98] [2], .compact, .delete [98], .put [97] [3]] s0 = some s ∧
        ∃ it w, Db.newIteratorAt 3 (s.db, ⟨s.dir, []⟩) = .ok it (s.db, w) ∧
          it.items.Pairwise (fun a b => a.1 < b.1) ∧
          ∀ k v, (k, v) ∈ it.items ↔ Reads (s.db.contents s.dir) k 3 (some v) := by
  have h : ((opened eager ∅).bind (opsRun
      [.put [97] [1], .put [98] [2], .compact, .delete [98], .put [97] [3]])).any (fun s =>
        Ascending s.db.memtable.skiplist ∧
        (∀ f ∈ s.db.versionSet.current.allFiles, (s.dir.table f.number).isSome ∧
          Ascending (s.dir.entries f.number)) ∧
        DistinctVersions
          (s.db.memtable.skiplist ++ entriesIn s.dir s.db.versionSet.current.allFiles) ∧
        ∀ e ∈ s.db.memtable.skiplist ++ entriesIn s.dir s.db.versionSet.current.allFiles,
          e.1.seq < 2 ^ 64) = true := by
    decide +kernel
  obtain ⟨s, hRun, h⟩ := (Option.any_eq_true _ _).mp h
  obtain ⟨s0, hStart, hRun⟩ := Option.bind_eq_some_iff.mp hRun
  obtain ⟨hMem, hTables, hDistinct, hSeqs⟩ := of_decide_eq_true h
  refine ⟨s0, hStart, s, hRun, scan_gives_snapshot 3 hMem.sorted (fun level f hf => ?_) hDistinct
    fun e he => hSeqs e (mem_contents.mp he)⟩
  obtain ⟨hSome, hAsc⟩ := hTables f (mem_allFiles.mpr ⟨level, hf⟩)
  obtain ⟨es, hes⟩ := Option.isSome_iff_exists.mp hSome
  rw [Dir.entries, hes] at hAsc
  exact ⟨es, hes, hAsc⟩

end MulanLsm
