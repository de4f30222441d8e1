import MulanLsm.CompactionSpec

/-! The cache of open tables.  It keeps as many tables as its capacity allows, and gives up the one
that was used longest ago; with no capacity every table is opened anew.  A cache whose tables are
those of the files gives what the files hold. -/

namespace MulanLsm

structure TableCache where
  entries : AList fun _ : Nat => TableReader
  order : List Nat
  capacity : Nat

namespace TableCache

def withCapacity (capacity : Nat) : TableCache := { entries := ∅, order := [], capacity }

/-- The cache without its oldest table, if it is full. -/
def makeRoom (cache : TableCache) : TableCache :=
  if cache.entries.keys.length ≥ cache.capacity then
    match cache.order with
    | [] => cache
    | old :: order => { cache with entries := cache.entries.erase old, order }
  else cache

def insert (cache : TableCache) (number : Nat) (reader : TableReader) : TableCache :=
  let cache := cache.makeRoom
  { cache with entries := cache.entries.insert number reader, order := cache.order ++ [number] }

/-- The table of the file `number`, from the cache or opened. -/
def get (number : Nat) : St TableCache TableReader := do
  let cache ← self
  if cache.capacity = 0 then TableReader.open number
  else
    match cache.entries.lookup number with
    | some reader =>
      update fun cache =>
        { cache with order := cache.order.filter (· ≠ number) ++ [number] }
      return reader
    | none => do
      let reader ← TableReader.open number
      update fun cache => cache.insert number reader
      return reader

def evict (cache : TableCache) (number : Nat) : TableCache :=
  { cache with entries := cache.entries.erase number, order := cache.order.filter (· ≠ number) }

end TableCache

/-- Every table in the cache is that of a file with a number below `next`. -/
def TableCache.Agrees (cache : TableCache) (d : Dir) (next : Nat) : Prop :=
  ∀ n r, cache.entries.lookup n = some r → n < next ∧ d.reader n = some r

section Agreement

variable {cache : TableCache} {d d' : Dir} {next next' : Nat}

theorem TableCache.Agrees.empty (capacity : Nat) (d : Dir) (next : Nat) :
    (TableCache.withCapacity capacity).Agrees d next := by
  intro n r h
  simp [TableCache.withCapacity] at h

theorem TableCache.Agrees.mono (h : cache.Agrees d next) (hNext : next ≤ next')
    (hTables : ∀ n < next, d'.reader n = d.reader n) : cache.Agrees d' next' := by
  intro n r hr
  obtain ⟨hn, ht⟩ := h n r hr
  exact ⟨by omega, by rw [hTables n hn, ht]⟩

theorem TableCache.Agrees.erase (h : cache.Agrees d next) (n : Nat) (order : List Nat) :
    TableCache.Agrees { cache with entries := cache.entries.erase n, order } d next := by
  intro m r hr
  by_cases hm : m = n
  · subst hm
    simp at hr
  · rw [AList.lookup_erase_ne hm] at hr
    exact h m r hr

theorem TableCache.Agrees.evict (h : cache.Agrees d next) (n : Nat) :
    (cache.evict n).Agrees d next :=
  h.erase n _

theorem TableCache.Agrees.insert (h : cache.Agrees d next) {n : Nat} {r : TableReader}
    (hn : n < next) (hr : d.reader n = some r) : (cache.insert n r).Agrees d next := by
  have hRoom : cache.makeRoom.Agrees d next := by
    unfold TableCache.makeRoom
    split
    · split
      · exact h
      · exact h.erase _ _
    · exact h
  intro m r' hm
  by_cases hmn : m = n
  · subst hmn
    simp only [TableCache.insert, AList.lookup_insert, Option.some.injEq] at hm
    subst hm
    exact ⟨hn, hr⟩
  · simp only [TableCache.insert, AList.lookup_insert_ne hmn] at hm
    exact hRoom m r' hm

/-- A table that the cache gives is that of the file. -/
theorem TableCache.get_spec {A : Outcome → Prop} {n : Nat} {r : TableReader}
    (h : cache.Agrees d next) (hn : n < next) (hReader : d.reader n = some r) :
    Spec A (TableCache.get n)
      (fun r' cache' d' => r' = r ∧ cache'.Agrees d next ∧ d' = d)
      (fun f cache' d' => Fails A f ∧ cache' = cache ∧ d' = d) cache d := by
  refine Spec.bind (Spec.self ?_)
  split
  · refine (open_spec hReader).mono ?_ fun _ _ _ h => ⟨h.2.1, h.1, h.2.2⟩
    rintro r' y d' ⟨rfl, rfl, rfl⟩
    exact ⟨rfl, h, rfl⟩
  · split
    · next r' hr' =>
      refine Spec.bind (Spec.update (Spec.pure ⟨?_, h, rfl⟩))
      exact Option.some.inj ((h n r' hr').2.symm.trans hReader)
    · refine Spec.bind ((open_spec hReader).mono ?_ fun _ _ _ h => ⟨h.2.1, h.1, h.2.2⟩)
      rintro r' y d' ⟨rfl, rfl, rfl⟩
      exact Spec.bind (Spec.update (Spec.pure ⟨rfl, h.insert hn hReader, rfl⟩))

end Agreement

end MulanLsm
