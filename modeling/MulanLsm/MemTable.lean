import MulanLsm.Table

/-! The memory table: the writes since the last flush, in the order of their keys, newest version of
a user key first.  A table of any kind is read by seeking the newest version that the reader may
see. -/

namespace MulanLsm

namespace SkipList

/-- A new node goes in front of the first one that is not before it. -/
def insert (key : InternalKey) (value : Bytes) : List Entry → List Entry
  | [] => [(key, value)]
  | e :: es => if e.1.ord key = .lt then e :: insert key value es else (key, value) :: e :: es

/-- The first node at `target` or after it. -/
def lowerBound (target : InternalKey) (es : List Entry) : Option Entry :=
  es.find? fun e => e.1.ord target ≠ .lt

end SkipList

structure MemTable where
  skiplist : List Entry
  seq : Nat
  entries : Nat
  approxBytes : Nat

/-- The keys of the first and the last entry of a table that was flushed. -/
structure FlushResult where
  smallest : Option InternalKey
  largest : Option InternalKey

namespace MemTable

def new : MemTable := { skiplist := [], seq := 0, entries := 0, approxBytes := 0 }

def withInitialSequence (seq : Nat) : MemTable :=
  { skiplist := [], seq, entries := 0, approxBytes := 0 }

/-- Take one more write, with the sequence number that it has. -/
def apply (m : MemTable) (vtype : ValueType) (seq : Nat) (key value : Bytes) : MemTable :=
  { skiplist := SkipList.insert { userKey := key, seq, vtype } value m.skiplist
    seq := if seq > m.seq then seq else m.seq
    entries := m.entries + 1
    approxBytes := m.approxBytes + (key.length + value.length) }

/-- The newest version of `key` up to `snapshotSeq`: its type and its value. -/
def getEntry (m : MemTable) (key : Bytes) (snapshotSeq : Nat) : Option (ValueType × Bytes) :=
  match SkipList.lowerBound { userKey := key, seq := snapshotSeq, vtype := .put } m.skiplist with
  | some e => if e.1.userKey = key then some (e.1.vtype, e.2) else none
  | none => none

/-- The loop of a flush over the entries. -/
def flushLoop : List Entry → FlushResult → St TableBuilder FlushResult
  | [], r => pure r
  | e :: es, r => do
    TableBuilder.add e.1 e.2
    flushLoop es { smallest := if r.smallest.isNone then some e.1 else r.smallest
                   largest := some e.1 }

/-- Write the memory table to the table file `number`. -/
def flushToSstable {σ : Type} (m : MemTable) (number blockTarget bitsPerKey : Nat) :
    St σ FlushResult := do
  createFile (.sst number)
  let builder := TableBuilder.withOptions number blockTarget bitsPerKey
  let (r, _) ← runOn builder do
    let r ← flushLoop m.skiplist { smallest := none, largest := none }
    TableBuilder.finish
    return r
  return r

end MemTable

section Order

variable {a b c : InternalKey}

/-- `a` comes strictly before `b` in the order of internal keys. -/
def Before (a b : InternalKey) : Prop := a.ord b = .lt

instance : DecidableRel Before := fun a b => by unfold Before; infer_instance

/-- Of two keys with one user key and one sequence number, a put comes before a deletion. -/
theorem before_iff : Before a b ↔
    KeyLt a b ∨ (a.userKey = b.userKey ∧ a.seq = b.seq) ∧ a.vtype = .put ∧ b.vtype = .delete := by
  have hType : cmp a.vtype.toU8 b.vtype.toU8 = .lt ↔ a.vtype = .put ∧ b.vtype = .delete := by
    cases a.vtype <;> cases b.vtype <;> decide
  unfold Before InternalKey.ord KeyLt
  rcases lt_trichotomy a.userKey b.userKey with hk | hk | hk
  · rw [cmp_bytes_lt.mpr hk]
    simp [hk]
  · rw [hk, cmp_bytes_self, cmp_swap]
    rcases lt_trichotomy b.seq a.seq with hs | hs | hs
    · rw [hs.cmp_eq_lt]
      simp [hs]
    · rw [hs, cmp_self_eq_eq]
      dsimp only
      rw [hType]
      simp
    · rw [hs.cmp_eq_gt]
      simp [hs.not_gt, hs.ne]
  · rw [cmp_bytes_gt.mpr hk]
    simp [hk.not_gt, hk.ne']

theorem KeyLt.before (h : KeyLt a b) : Before a b := before_iff.mpr (.inl h)

theorem Before.not_keyLt (h : Before a b) : ¬KeyLt b a := by
  rcases before_iff.mp h with h | ⟨⟨hk, hs⟩, -⟩
  · exact h.asymm
  · rintro (h' | ⟨-, h'⟩)
    · exact absurd hk.symm h'.ne
    · exact absurd hs h'.ne

theorem Before.trans (h : Before a b) (h' : Before b c) : Before a c := by
  rcases before_iff.mp h with h | ⟨⟨hk, hs⟩, ha, hb⟩
  · rcases before_iff.mp h' with h' | ⟨⟨hk', hs'⟩, -⟩
    · exact (h.trans h').before
    · apply KeyLt.before
      unfold KeyLt at h ⊢
      rwa [← hk', ← hs']
  · rcases before_iff.mp h' with h' | ⟨-, hb', -⟩
    · apply KeyLt.before
      unfold KeyLt at h' ⊢
      rwa [hk, hs]
    · rw [hb] at hb'
      contradiction

theorem Before.irrefl (a : InternalKey) : ¬Before a a := by
  rw [before_iff]
  rintro (h | ⟨-, hp, hd⟩)
  · exact KeyLt.irrefl a h
  · rw [hp] at hd
    contradiction

theorem Before.eq_or (h : ¬Before a b) : b = a ∨ Before b a := by
  by_cases h' : Before b a
  · exact .inr h'
  · rw [before_iff, not_or] at h h'
    obtain ⟨hk, hs⟩ := KeyLt.total h.1 h'.1
    obtain ⟨ka, sa, va⟩ := a
    obtain ⟨kb, sb, vb⟩ := b
    obtain rfl : ka = kb := hk
    obtain rfl : sa = sb := hs
    cases va <;> cases vb <;> simp_all

/-- That `a` is not past `b` is transitive. -/
theorem not_before_trans (h : ¬Before b a) (h' : ¬Before c b) : ¬Before c a := by
  intro hca
  rcases Before.eq_or h with rfl | h
  · exact h' hca
  · exact h' (hca.trans h)

/-- A lookup key for a user key comes before all its versions up to the lookup's sequence number. -/
theorem not_before_lookup {k : Bytes} {s : Nat} :
    ¬Before a { userKey := k, seq := s, vtype := .put } ↔
      k < a.userKey ∨ a.userKey = k ∧ a.seq ≤ s := by
  simp only [before_iff, KeyLt, not_or, not_and, not_lt]
  constructor
  · rintro ⟨⟨hk, hs⟩, -⟩
    rcases hk.eq_or_lt with hk | hk
    · exact .inr ⟨hk.symm, hs hk.symm⟩
    · exact .inl hk
  · rintro (hk | ⟨hk, hs⟩)
    · exact ⟨⟨hk.le, fun h => absurd h hk.ne'⟩, fun h => absurd h.1 hk.ne'⟩
    · exact ⟨⟨hk.ge, fun _ => hs⟩, fun _ _ => by simp⟩

end Order

/-- The newest version of `k` up to `s` in a table, as the table's order finds it. -/
def seek (es : List Entry) (k : Bytes) (s : Nat) : Option Entry :=
  (SkipList.lowerBound { userKey := k, seq := s, vtype := .put } es).filter (·.1.userKey = k)

/-- What a reader makes of the version it found: its type and its value. -/
def typed (e : Entry) : ValueType × Bytes := (e.1.vtype, e.2)

theorem MemTable.getEntry_eq (m : MemTable) (k : Bytes) (s : Nat) :
    m.getEntry k s = (seek m.skiplist k s).map typed := by
  unfold MemTable.getEntry seek
  split
  · next e he =>
    rw [he, Option.filter_some]
    split <;> simp_all [typed]
  · next he => rw [he, Option.filter_none, Option.map_none]

/-- A lookup key has the same place in a table file as in a memory table. -/
theorem find?_lookup (es : List Entry) (k : Bytes) (s : Nat) :
    (es.find? fun e => internalKeyCmp { userKey := k, seq := s, vtype := .put } e.1 ≠ .gt) =
      SkipList.lowerBound { userKey := k, seq := s, vtype := .put } es := by
  have hLookup : ∀ e : Entry,
      internalKeyCmp { userKey := k, seq := s, vtype := .put } e.1 ≠ .gt ↔
        e.1.ord { userKey := k, seq := s, vtype := .put } ≠ .lt := by
    intro e
    refine Iff.trans ?_ (not_before_lookup (a := e.1)).symm
    unfold internalKeyCmp
    by_cases h : k = e.1.userKey
    · subst h
      rw [if_neg (not_not.mpr rfl), Ne, Ordering.swap_eq_gt, cmp_eq_lt_iff, not_lt]
      simp
    · rw [if_pos h, Ne, cmp_bytes_gt, not_lt]
      exact ⟨fun hle => .inl (lt_of_le_of_ne hle h),
        fun hor => (hor.resolve_right fun hk => h hk.1.symm).le⟩
  unfold SkipList.lowerBound
  simp only [hLookup]

/-- Entries in the order of a memory table, where keys may repeat. -/
def Sorted (es : List Entry) : Prop := es.Pairwise fun a b => ¬Before b.1 a.1

theorem Ascending.sorted {es : List Entry} (h : Ascending es) : Sorted es :=
  h.imp fun hab hba => hba.not_keyLt hab

theorem Sorted.inOrder {es : List Entry} (h : Sorted es) : InOrder es :=
  h.imp fun hba hlt => hba hlt.before

theorem SkipList.insert_perm (key : InternalKey) (value : Bytes) (es : List Entry) :
    (SkipList.insert key value es).Perm ((key, value) :: es) := by
  induction es with
  | nil => exact List.Perm.refl _
  | cons e es ih =>
    rw [SkipList.insert]
    split
    · exact (ih.cons e).trans (List.Perm.swap _ _ _)
    · exact List.Perm.refl _

theorem SkipList.mem_insert {key : InternalKey} {value : Bytes} {es : List Entry} {e : Entry} :
    e ∈ SkipList.insert key value es ↔ e = (key, value) ∨ e ∈ es :=
  (SkipList.insert_perm key value es).mem_iff.trans List.mem_cons

theorem SkipList.insert_sorted {key : InternalKey} {value : Bytes} {es : List Entry}
    (h : Sorted es) : Sorted (SkipList.insert key value es) := by
  induction es with
  | nil => exact List.pairwise_singleton _ _
  | cons e es ih =>
    obtain ⟨he, hes⟩ := List.pairwise_cons.mp h
    rw [SkipList.insert]
    split
    · next hlt =>
      refine List.pairwise_cons.mpr ⟨fun x hx => ?_, ih hes⟩
      rcases SkipList.mem_insert.mp hx with rfl | hx
      · exact fun hgt => Before.irrefl _ (Before.trans hlt hgt)
      · exact he x hx
    · next hlt =>
      refine List.pairwise_cons.mpr ⟨fun x hx => ?_, h⟩
      rcases List.mem_cons.mp hx with rfl | hx
      · exact hlt
      · exact not_before_trans hlt (he x hx)

/-- Entries with distinct sequence numbers for each user key are strictly ascending once sorted. -/
theorem Sorted.ascending {es : List Entry} (h : Sorted es) (hNodup : es.Nodup)
    (hd : Versioned.Distinct (versions es)) : Ascending es := by
  refine (h.and hNodup).imp_of_mem fun {a b} ha hb hab => ?_
  by_contra hLt
  have hLt' : ¬KeyLt b.1 a.1 := fun hba => hab.1 hba.before
  obtain ⟨hk, hs⟩ := KeyLt.total hLt hLt'
  exact hab.2 (hd a ha b hb hk hs)

section Seeking

variable {es : List Entry} {e : Entry} {k : Bytes} {s : Nat}

theorem Sorted.lowerBound (h : Sorted es) {target : InternalKey}
    (he : SkipList.lowerBound target es = some e) :
    ∀ x ∈ es, ¬Before x.1 target → x = e ∨ ¬Before x.1 e.1 := by
  obtain ⟨-, as, bs, rfl, has⟩ := List.find?_eq_some_iff_append.mp he
  intro x hx hNot
  rcases List.mem_append.mp hx with hx | hx
  · exact absurd (by simpa [Before] using has x hx) hNot
  · rcases List.mem_cons.mp hx with rfl | hx
    · exact .inl rfl
    · exact .inr ((List.pairwise_cons.mp (List.pairwise_append.mp h).2.1).1 x hx)

/-- A reader finds the newest version that it may see. -/
theorem Sorted.seek_some (h : Sorted es) (he : seek es k s = some e) :
    Versioned.Newest (versions es) k s e := by
  obtain ⟨hFind, hk⟩ := Option.filter_eq_some_iff.mp he
  have hMem := List.mem_of_find?_eq_some hFind
  have hNot := List.find?_some hFind
  simp only [ne_eq, decide_not, Bool.not_eq_true', decide_eq_false_iff_not] at hNot
  have hk' : e.1.userKey = k := by simpa using hk
  have hs : e.1.seq ≤ s := by
    rcases not_before_lookup.mp hNot with h | h
    · exact absurd hk' h.ne'
    · exact h.2
  refine ⟨⟨hMem, hk', hs⟩, ?_⟩
  rintro x ⟨hx, hxk, hxs⟩
  rcases h.lowerBound hFind x hx (not_before_lookup.mpr (.inr ⟨hxk, hxs⟩)) with rfl | hxe
  · exact le_rfl
  · by_contra hlt
    exact hxe (KeyLt.before (.inr ⟨hxk.trans hk'.symm, by simpa using hlt⟩))

theorem Sorted.seek_none (h : Sorted es) (hn : seek es k s = none) (x : Entry) :
    ¬Versioned.Visible (versions es) k s x := by
  rintro ⟨hx, hxk, hxs⟩
  have hxNot := not_before_lookup.mpr (.inr ⟨hxk, hxs⟩)
  cases hFind : SkipList.lowerBound { userKey := k, seq := s, vtype := .put } es with
  | none => exact absurd (by simpa [Before] using List.find?_eq_none.mp hFind x hx) hxNot
  | some e =>
    have hNot := List.find?_some hFind
    simp only [ne_eq, decide_not, Bool.not_eq_true', decide_eq_false_iff_not] at hNot
    have hk : ¬e.1.userKey = k := fun hk => by simp [seek, hFind, hk] at hn
    rcases h.lowerBound hFind x hx hxNot with rfl | hxe
    · exact hk hxk
    · rcases not_before_lookup.mp hNot with hlt | ⟨hk', -⟩
      · exact hxe (KeyLt.before (.inl (hxk.trans_lt hlt)))
      · exact hk hk'

theorem seek_mem (he : seek es k s = some e) : e ∈ es ∧ e.1.userKey = k := by
  obtain ⟨hFind, hk⟩ := Option.filter_eq_some_iff.mp he
  exact ⟨List.mem_of_find?_eq_some hFind, by simpa using hk⟩

/-- A key without a version is not found. -/
theorem seek_none_of_ne (h : ∀ e ∈ es, e.1.userKey ≠ k) : seek es k s = none := by
  by_contra hNot
  obtain ⟨e, he⟩ := Option.ne_none_iff_exists'.mp hNot
  obtain ⟨hMem, hKey⟩ := seek_mem he
  exact h e hMem hKey

theorem seek_cons_pos (h : ¬Before e.1 { userKey := k, seq := s, vtype := .put }) :
    seek (e :: es) k s = if e.1.userKey = k then some e else none := by
  rw [seek, SkipList.lowerBound, List.find?_cons_of_pos (by simpa [Before] using h),
    Option.filter_some]
  simp

theorem seek_cons_neg (h : Before e.1 { userKey := k, seq := s, vtype := .put }) :
    seek (e :: es) k s = seek es k s := by
  rw [seek, SkipList.lowerBound, List.find?_cons_of_neg (by simpa [Before] using h)]
  rfl

/-- A version that is added is found if the reader may see it and the version that was found before
does not come before it. -/
theorem seek_insert (h : Sorted es) (key : InternalKey) (value : Bytes) (k : Bytes) (s : Nat) :
    seek (SkipList.insert key value es) k s =
      if key.userKey = k ∧ key.seq ≤ s ∧ ∀ x ∈ seek es k s, ¬Before x.1 key then some (key, value)
      else seek es k s := by
  -- The new version itself, at the front of a list that holds nothing before it.
  have hFront : ∀ es : List Entry, (∀ x ∈ es, ¬Before x.1 key) →
      seek ((key, value) :: es) k s =
        if key.userKey = k ∧ key.seq ≤ s ∧ ∀ x ∈ seek es k s, ¬Before x.1 key
        then some (key, value) else seek es k s := by
    intro es hes
    by_cases hNew : Before key { userKey := k, seq := s, vtype := .put }
    · rw [seek_cons_neg hNew, if_neg]
      exact fun hc => not_before_lookup.mpr (.inr ⟨hc.1, hc.2.1⟩) hNew
    · rw [seek_cons_pos hNew]
      rcases not_before_lookup.mp hNew with hk | hk
      · rw [if_neg hk.ne', if_neg fun hc => hk.ne' hc.1]
        cases hx : seek es k s with
        | none => rfl
        | some x =>
          obtain ⟨hMem, hxk⟩ := seek_mem hx
          exact absurd (KeyLt.before (.inl (by rw [hxk]; exact hk))) (hes x hMem)
      · rw [if_pos hk.1, if_pos ⟨hk.1, hk.2, fun x hx => hes x (seek_mem hx).1⟩]
  induction es with
  | nil => exact hFront [] (by simp)
  | cons e es ih =>
    obtain ⟨he, hes⟩ := List.pairwise_cons.mp h
    rw [SkipList.insert]
    split
    · next hlt =>
      by_cases hFirst : Before e.1 { userKey := k, seq := s, vtype := .put }
      · rw [seek_cons_neg hFirst, seek_cons_neg hFirst, ih hes]
      · rw [seek_cons_pos hFirst, seek_cons_pos hFirst]
        refine (if_neg ?_).symm
        rintro ⟨hk, -, hc⟩
        rcases not_before_lookup.mp hFirst with hke | ⟨hke, -⟩
        · exact (Before.not_keyLt hlt) (.inl (by rw [hk]; exact hke))
        · exact hc e (by simp [hke]) hlt
    · next hlt =>
      refine hFront (e :: es) fun x hx => ?_
      rcases List.mem_cons.mp hx with rfl | hx
      · exact hlt
      · exact not_before_trans hlt (he x hx)

end Seeking

section Flushing

variable {A : Outcome → Prop} {σ : Type} {x : σ} {d : Dir} {b : TableBuilder} {n : Nat}

theorem foldl_added_number (b : TableBuilder) (es : List Entry) :
    (es.foldl TableBuilder.added b).number = b.number := by
  induction es generalizing b with
  | nil => rfl
  | cons e es ih => rw [List.foldl_cons, ih, added_number]

theorem foldl_added_entries (b : TableBuilder) (es : List Entry) :
    (es.foldl TableBuilder.added b).entries = b.entries ++ es := by
  induction es generalizing b with
  | nil => simp
  | cons e es ih =>
    rw [List.foldl_cons, ih, added_entries, List.append_assoc, List.singleton_append]

/-- The keys of the first and the last entry, after those of `r`. -/
def bounds (r : FlushResult) (es : List Entry) : FlushResult :=
  es.foldl (fun r e =>
    { smallest := if r.smallest.isNone then some e.1 else r.smallest, largest := some e.1 }) r

theorem flushLoop_spec (hn : b.number = n) (hMem : .sst n ∈ d) (es : List Entry)
    (r : FlushResult) :
    BuildsTo A n (MemTable.flushLoop es r) b d (bounds r es) (es.foldl TableBuilder.added b) := by
  induction es generalizing b d r with
  | nil => exact Spec.pure ⟨⟨rfl, rfl⟩, hMem, Dir.Frame.refl _ _⟩
  | cons e es ih =>
    refine (add_spec hn hMem e).bind (fun _ _ _ h => h) fun d' hMem' hFrame => ?_
    refine (ih ((added_number b e).trans hn) hMem' _).mono ?_
      fun _ _ _ h => ⟨h.1, hFrame.trans h.2⟩
    rintro a y d'' ⟨h, hMem'', hFrame'⟩
    exact ⟨h, hMem'', hFrame.trans hFrame'⟩

theorem bounds_cons (e : Entry) (es : List Entry) :
    bounds { smallest := none, largest := none } (e :: es) =
      { smallest := some e.1, largest := some ((e :: es).getLast (by simp)).1 } := by
  have h : ∀ (es : List Entry) (k : InternalKey) (e : Entry),
      bounds { smallest := some k, largest := some e.1 } es =
        { smallest := some k, largest := some ((e :: es).getLast (by simp)).1 } := by
    intro es
    induction es with
    | nil => intro k e; rfl
    | cons x es ih => intro k e; exact (ih k x).trans (by rw [List.getLast_cons_cons])
  exact h es e.1 e

/-- Once a flush returns, the table file has the entries of the memory table. -/
theorem MemTable.flushToSstable_spec (m : MemTable) (n blockTarget bitsPerKey : Nat) :
    Spec A (m.flushToSstable n blockTarget bitsPerKey)
      (fun r y d' => r = bounds { smallest := none, largest := none } m.skiplist ∧ y = x ∧
        d'.HasTable n m.skiplist ∧ d.Frame {.sst n} d')
      (fun f y d' => y = x ∧ Fails A f ∧ d.Frame {.sst n} d') x d := by
  have hMem : FileName.sst n ∈ d.insert (.sst n) .empty := AList.mem_insert _ |>.mpr (.inl rfl)
  have hFrame : d.Frame {.sst n} (d.insert (.sst n) .empty) :=
    Dir.Frame.insert (Set.mem_singleton _) _ _
  refine Spec.bind (Spec.call ?_ fun n _ h => ⟨rfl, ⟨n, h⟩, Dir.Frame.refl _ _⟩)
  refine Spec.bind (Spec.runOn ?_)
  refine (flushLoop_spec rfl hMem m.skiplist _).bind (fun _ _ _ h => ⟨rfl, h.1, hFrame.trans h.2⟩)
    fun d' hMem' hFrame' => ?_
  refine Spec.bind ((finish_spec (foldl_added_number _ _) hMem').mono ?_
    fun _ _ _ h => ⟨rfl, h.1, hFrame.trans (hFrame'.trans h.2)⟩)
  rintro - - d'' ⟨hTable, hFrame''⟩
  rw [foldl_added_entries] at hTable
  exact Spec.pure (Spec.pure ⟨rfl, rfl, hTable, hFrame.trans (hFrame'.trans hFrame'')⟩)

end Flushing

end MulanLsm
