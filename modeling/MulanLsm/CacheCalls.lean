import MulanLsm.Library.Steps
import MulanLsm.TableCache

/-! Readers that share a cache of tables.  A call finds its table under the lock, or gives the lock
up, opens the file, and takes the lock again to put the table in; other calls do the same meanwhile,
and files are evicted.  The queue names the cached tables, each once, and the cache keeps to its
capacity, exactly as long as no reader puts in a table that is there already. -/

namespace MulanLsm

/-- The files that the order names are those in the cache, each once, and there are no more of them
than the capacity. -/
structure TableCache.Kept (cache : TableCache) : Prop where
  nodup : cache.order.Nodup
  mem : ∀ n, n ∈ cache.order ↔ n ∈ cache.entries
  bounded : cache.entries.keys.length ≤ cache.capacity

/-- A table that was used goes to the end of the order. -/
def TableCache.touch (cache : TableCache) (number : Nat) : TableCache :=
  { cache with order := cache.order.filter (· ≠ number) ++ [number] }

/-- A cache, with the files that calls have missed in it and are opening. -/
structure CacheCalls where
  cache : TableCache
  opening : List Nat

/-- What a call does while it holds the lock: `get` looks for its table and later inserts it, or
gives up if the file does not open. -/
inductive CacheStep
  | look (number : Nat)
  | insert (number : Nat) (reader : TableReader)
  | giveUp (number : Nat)
  | evict (number : Nat)
  deriving DecidableEq

def CacheCalls.step (s : CacheCalls) : CacheStep → Option CacheCalls
  | .look number =>
    match s.cache.entries.lookup number with
    | some _ => some { s with cache := s.cache.touch number }
    | none => some { s with opening := number :: s.opening }
  | .insert number reader =>
    if number ∈ s.opening then
      some { cache := s.cache.insert number reader, opening := s.opening.erase number }
    else none
  | .giveUp number =>
    if number ∈ s.opening then some { s with opening := s.opening.erase number } else none
  | .evict number => some { s with cache := s.cache.evict number }

/-- The state before any call, with an empty cache. -/
def CacheCalls.withCapacity (capacity : Nat) : CacheCalls :=
  { cache := .withCapacity capacity, opening := [] }

/-- A table that is put in is not there, or is the one that a full cache gives up for it. -/
def CacheStep.Fresh : CacheStep → CacheCalls → Prop
  | insert number _, s => number ∈ s.cache.entries →
    s.cache.capacity ≤ s.cache.entries.keys.length ∧ s.cache.order.head? = some number
  | _, _ => True

section Kept

variable {cache : TableCache}

theorem TableCache.Kept.withCapacity (capacity : Nat) :
    (TableCache.withCapacity capacity).Kept where
  nodup := List.nodup_nil
  mem n := by simp [TableCache.withCapacity]
  bounded := Nat.zero_le _

/-- The order is the keys of the entries, up to a permutation. -/
theorem TableCache.Kept.perm (h : cache.Kept) : cache.order.Perm cache.entries.keys := by
  apply (List.perm_ext_iff_of_nodup h.nodup cache.entries.keys_nodup).mpr
  intro n
  rw [h.mem, AList.mem_keys]

theorem TableCache.Kept.touch (h : cache.Kept) {n : Nat} (hn : n ∈ cache.entries) :
    (cache.touch n).Kept := by
  have hFilter : n ∉ cache.order.filter (· ≠ n) := by simp
  refine ⟨?_, fun m => ?_, h.bounded⟩
  · show (cache.order.filter (· ≠ n) ++ [n]).Nodup
    rw [← List.concat_eq_append]
    exact (h.nodup.filter _).concat hFilter
  · show m ∈ cache.order.filter (· ≠ n) ++ [n] ↔ m ∈ cache.entries
    rw [← h.mem m]
    by_cases hm : m = n
    · simp [hm, (h.mem n).mpr hn]
    · simp [hm]

theorem TableCache.Kept.evict (h : cache.Kept) (n : Nat) : (cache.evict n).Kept := by
  refine ⟨h.nodup.filter _, fun m => ?_, ?_⟩
  · show m ∈ cache.order.filter (· ≠ n) ↔ m ∈ cache.entries.erase n
    simp [AList.mem_erase, h.mem, and_comm]
  · show (cache.entries.erase n).keys.length ≤ cache.capacity
    rw [AList.keys_erase]
    exact (List.length_erase_le).trans h.bounded

@[simp] theorem TableCache.capacity_makeRoom : cache.makeRoom.capacity = cache.capacity := by
  unfold TableCache.makeRoom
  split
  · split <;> rfl
  · rfl

/-- A full cache gives up a table, so that there is room for another. -/
theorem TableCache.Kept.makeRoom (h : cache.Kept) (hCapacity : 0 < cache.capacity) :
    cache.makeRoom.Kept ∧ cache.makeRoom.entries.keys.length < cache.capacity := by
  unfold TableCache.makeRoom
  split
  · next hFull =>
    have hLength := h.perm.length_eq
    split
    · next hOrder =>
      rw [hOrder, List.length_nil] at hLength
      omega
    · next old order hOrder =>
      have hNodup := h.nodup
      rw [hOrder, List.nodup_cons] at hNodup
      have hOld : old ∈ cache.entries.keys := h.perm.subset (by simp [hOrder])
      have hErased : (cache.entries.erase old).keys.length < cache.capacity := by
        rw [AList.keys_erase, List.length_erase_of_mem hOld]
        have := h.bounded
        have := List.length_pos_of_mem hOld
        omega
      refine ⟨⟨hNodup.2, fun m => ?_, hErased.le⟩, hErased⟩
      show m ∈ order ↔ m ∈ cache.entries.erase old
      rw [AList.mem_erase, ← h.mem m, hOrder, List.mem_cons]
      by_cases hm : m = old
      · simp [hm, hNodup.1]
      · simp [hm]
  · next hRoom => exact ⟨h, by omega⟩

theorem TableCache.notMem_makeRoom (n : Nat) :
    n ∉ cache.makeRoom.entries ↔ (n ∈ cache.entries →
      cache.capacity ≤ cache.entries.keys.length ∧ cache.order.head? = some n) := by
  unfold TableCache.makeRoom
  split
  · next hFull =>
    split
    · next hOrder => simp [hOrder]
    · next old order hOrder =>
      have hLe : cache.capacity ≤ cache.entries.keys.length := hFull
      show n ∉ cache.entries.erase old ↔ _
      rw [AList.mem_erase, hOrder, List.head?_cons, Option.some.injEq]
      tauto
  · next hRoom =>
    have hNot : ¬cache.capacity ≤ cache.entries.keys.length := hRoom
    simp [hNot]

/-- A table that is put in leaves the cache in order exactly when it was not there. -/
theorem TableCache.Kept.insert_iff (h : cache.Kept) (hCapacity : 0 < cache.capacity) (n : Nat)
    (r : TableReader) : (cache.insert n r).Kept ↔ n ∉ cache.makeRoom.entries := by
  obtain ⟨hKept, hRoom⟩ := h.makeRoom hCapacity
  rw [← hKept.mem]
  constructor
  · intro hInsert
    have hNodup : (cache.makeRoom.order ++ [n]).Nodup := hInsert.nodup
    have hDisjoint := (List.nodup_append.mp hNodup).2.2
    intro hn
    exact hDisjoint n hn n (by simp) rfl
  · intro hn
    refine ⟨?_, fun m => ?_, ?_⟩
    · show (cache.makeRoom.order ++ [n]).Nodup
      rw [← List.concat_eq_append]
      exact hKept.nodup.concat hn
    · show m ∈ cache.makeRoom.order ++ [n] ↔ m ∈ cache.makeRoom.entries.insert n r
      rw [List.mem_append, List.mem_singleton, AList.mem_insert, hKept.mem, or_comm]
    · show (cache.makeRoom.entries.insert n r).keys.length ≤ cache.makeRoom.capacity
      rw [hKept.mem] at hn
      rw [AList.keys_insert, List.erase_of_not_mem hn, List.length_cons,
        TableCache.capacity_makeRoom]
      exact hRoom

end Kept

theorem CacheCalls.capacity_step {s s' : CacheCalls} {a : CacheStep} (hStep : s.step a = some s') :
    s'.cache.capacity = s.cache.capacity := by
  cases a with
  | look n =>
    simp only [CacheCalls.step] at hStep
    split at hStep <;> exact Option.some.inj hStep ▸ rfl
  | insert n r =>
    simp only [CacheCalls.step, Option.ite_none_right_eq_some, Option.some.injEq] at hStep
    obtain ⟨-, rfl⟩ := hStep
    exact TableCache.capacity_makeRoom
  | giveUp n =>
    simp only [CacheCalls.step, Option.ite_none_right_eq_some, Option.some.injEq] at hStep
    obtain ⟨-, rfl⟩ := hStep
    rfl
  | evict n => exact Option.some.inj hStep ▸ rfl

/-- A section of a call leaves the cache in order exactly when what it puts in is fresh. -/
theorem CacheCalls.kept_step {s s' : CacheCalls} {a : CacheStep} (hCapacity : 0 < s.cache.capacity)
    (h : s.cache.Kept) (hStep : s.step a = some s') : s'.cache.Kept ↔ a.Fresh s := by
  cases a with
  | look n =>
    simp only [CacheCalls.step] at hStep
    split at hStep
    · next r hr =>
      obtain rfl := Option.some.inj hStep
      have hn : n ∈ s.cache.entries := AList.lookup_isSome.mp (by rw [hr]; rfl)
      exact iff_of_true (h.touch hn) trivial
    · obtain rfl := Option.some.inj hStep
      exact iff_of_true h trivial
  | insert n r =>
    simp only [CacheCalls.step, Option.ite_none_right_eq_some, Option.some.injEq] at hStep
    obtain ⟨-, rfl⟩ := hStep
    exact (h.insert_iff hCapacity n r).trans (TableCache.notMem_makeRoom n)
  | giveUp n =>
    simp only [CacheCalls.step, Option.ite_none_right_eq_some, Option.some.injEq] at hStep
    obtain ⟨-, rfl⟩ := hStep
    exact iff_of_true h trivial
  | evict n =>
    obtain rfl := Option.some.inj hStep
    exact iff_of_true (h.evict n) trivial

/-- However calls interleave, the cache is in order after each of their sections exactly when none
puts in a table that is there already, but for the one that a full cache gives up for it. -/
theorem cache_kept_iff {capacity : Nat} (hCapacity : 0 < capacity) (steps : List CacheStep) :
    Steps.Everywhere CacheCalls.step (fun s => s.cache.Kept) steps (.withCapacity capacity) ↔
      Steps.Always CacheCalls.step CacheStep.Fresh steps (.withCapacity capacity) := by
  apply Steps.everywhere_iff (J := fun s => 0 < s.cache.capacity)
  · intro s a s' h hStep
    rwa [CacheCalls.capacity_step hStep]
  · intro s a s' h hKept hStep
    exact CacheCalls.kept_step h hKept hStep
  · exact hCapacity
  · exact .withCapacity capacity

section Deciding

theorem TableCache.kept_iff (cache : TableCache) : cache.Kept ↔
    cache.order.Nodup ∧ cache.order.Perm cache.entries.keys ∧
      cache.entries.keys.length ≤ cache.capacity :=
  ⟨fun h => ⟨h.nodup, h.perm, h.bounded⟩,
    fun h => ⟨h.1, fun _ => h.2.1.mem_iff.trans AList.mem_keys.symm, h.2.2⟩⟩

instance (cache : TableCache) : Decidable cache.Kept := decidable_of_iff' _ cache.kept_iff

instance : ∀ (a : CacheStep) (s : CacheCalls), Decidable (a.Fresh s)
  | .insert number _, s => inferInstanceAs (Decidable (number ∈ s.cache.entries →
    s.cache.capacity ≤ s.cache.entries.keys.length ∧ s.cache.order.head? = some number))
  | .look _, _ | .giveUp _, _ | .evict _, _ => isTrue trivial

end Deciding

/-- Two readers of one file that both missed it, and readers of three more files after them. -/
def crowding : List CacheStep :=
  let reader : TableReader := { data := [], entries := [] }
  [.look 1, .look 1, .insert 1 reader, .insert 1 reader, .look 2, .insert 2 reader, .look 3,
    .insert 3 reader, .look 4, .insert 4 reader]

/-- A cache for one table is in order even after `crowding`. -/
theorem cache_kept_one :
    0 < 1 ∧ Steps.Everywhere CacheCalls.step (fun s => s.cache.Kept) crowding (.withCapacity 1) :=
  ⟨by decide, (cache_kept_iff (by decide) crowding).mpr (by decide)⟩

/-- A cache for two tables names the first file twice, and in the end keeps three tables. -/
theorem cache_crowded : ¬(∀ capacity > 0, ∀ steps, Steps.Everywhere CacheCalls.step
      (fun s => s.cache.Kept) steps (.withCapacity capacity)) ∧
    (Steps.run CacheCalls.step (crowding.take 4) (.withCapacity 2)).map
      (fun s => (s.cache.order, s.cache.entries.keys)) = some ([1, 1], [1]) ∧
    (Steps.run CacheCalls.step crowding (.withCapacity 2)).map
      (fun s => s.cache.entries.keys) = some [4, 3, 2] :=
  ⟨fun h => absurd (h 2 (by decide) crowding) (by decide), by decide, by decide⟩

/-- A call with the cache to itself is its first section and, after a miss, its second. -/
theorem TableCache.get_steps {A : Outcome → Prop} {cache : TableCache} {d : Dir} (n : Nat)
    (hCapacity : cache.capacity ≠ 0) :
    Spec A (TableCache.get n)
      (fun r cache' _ => ∃ steps ∈ [[.look n], [.look n, .insert n r]],
        Steps.run CacheCalls.step steps ⟨cache, []⟩ = some ⟨cache', []⟩)
      (fun _ cache' _ =>
        Steps.run CacheCalls.step [.look n, .giveUp n] ⟨cache, []⟩ = some ⟨cache', []⟩)
      cache d := by
  refine Spec.bind (Spec.self ?_)
  rw [if_neg hCapacity]
  split
  · next r hr =>
    refine Spec.bind (Spec.update (Spec.pure ⟨[.look n], by simp, ?_⟩))
    simp [Steps.run, CacheCalls.step, hr, TableCache.touch]
  · next hr =>
    have hGiveUp : Steps.run CacheCalls.step [.look n, .giveUp n] ⟨cache, []⟩ =
        some ⟨cache, []⟩ := by
      simp [Steps.run, CacheCalls.step, hr]
    refine Spec.bind ((open_reader n).mono ?_ ?_)
    · rintro r _ _ ⟨-, rfl, -⟩
      refine Spec.bind (Spec.update (Spec.pure ⟨[.look n, .insert n r], by simp, ?_⟩))
      simp [Steps.run, CacheCalls.step, hr]
    · rintro _ _ _ ⟨-, rfl, -⟩
      exact hGiveUp

end MulanLsm
