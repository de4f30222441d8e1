import Mathlib.Data.List.DropRight
import Mathlib.Data.List.Find
import MulanLsm.Opening

/-! The log of writes some of whose syncs failed.  The record of such a write stays in the log, and
the next write gets its sequence number.  The memory table has the writes that returned, and a log
that is replayed has the others too: of two versions of a key with one sequence number, a put comes
before a deletion, and a put that came later before one that came earlier.  So the replay shows a
key that was deleted if its deletion took the number of a put that failed. -/

namespace MulanLsm

/-- A put, or a deletion if there is no value. -/
structure Request where
  key : Bytes
  value : Option Bytes
  deriving DecidableEq

namespace Request

def vtype (r : Request) : ValueType := if r.value.isSome then .put else .delete

/-- The value that is written; a deletion writes an empty one. -/
def bytes (r : Request) : Bytes := r.value.getD []

/-- What is logged under the sequence number `seq`. -/
def entry (r : Request) (seq : Nat) : WalEntry :=
  { vtype := r.vtype, seq, key := r.key, value := r.bytes }

def call [Crc32c] (r : Request) : St Db Unit :=
  match r.value with
  | some value => Db.put r.key value
  | none => Db.delete r.key

@[simp] theorem entry_seq (r : Request) (seq : Nat) : (r.entry seq).entry.1.seq = seq := rfl

@[simp] theorem entry_key (r : Request) (seq : Nat) : (r.entry seq).entry.1.userKey = r.key := rfl

theorem entry_value (r : Request) (seq : Nat) : (r.entry seq).entry.value = r.value := by
  obtain ⟨key, value⟩ := r
  cases value <;> rfl

theorem entry_vtype (r : Request) (seq : Nat) :
    (r.entry seq).vtype = .put ↔ r.value ≠ none := by
  obtain ⟨key, value⟩ := r
  cases value <;> simp [entry, vtype]

theorem call_eq [Crc32c] (r : Request) (h : r.key ≠ []) :
    r.call = Db.write r.key r.bytes r.vtype := by
  obtain ⟨key, value⟩ := r
  cases value with
  | none => exact if_neg h
  | some value => exact if_neg h

end Request

/-- How a request is answered: it is refused; its sync fails when its record is in the log; or it
returns, with the memory table flushed or not. -/
inductive Answer
  | refused
  | unsynced
  | applied
  | flushed
  deriving DecidableEq

/-- The request has returned. -/
def Answer.ok : Answer → Bool
  | refused | unsynced => false
  | applied | flushed => true

structure Attempt where
  request : Request
  answer : Answer
  deriving DecidableEq

section Logs

/-- A log since the last flush: the last sequence number that was given, all entries, and those of
the requests that returned. -/
structure Tally where
  seq : Nat
  logged : List WalEntry
  kept : List WalEntry

/-- The log after one more attempt. -/
def Tally.add (t : Tally) (a : Attempt) : Tally :=
  let e := a.request.entry (t.seq + 1)
  { seq := if a.answer.ok then t.seq + 1 else t.seq
    logged := if a.answer = .refused then t.logged else t.logged ++ [e]
    kept := if a.answer.ok then t.kept ++ [e] else t.kept }

/-- The log that some attempts leave after a flush at the sequence number `seq`. -/
def tally (seq : Nat) (as : List Attempt) : Tally :=
  as.foldl Tally.add { seq, logged := [], kept := [] }

/-- The attempts since the last flush. -/
def unflushed (past : List Attempt) : List Attempt := past.rtakeWhile (·.answer ≠ .flushed)

/-- What the attempts wrote that returned: of each key, what the last of them says. -/
def said (past : List Attempt) : Bytes → Option Bytes :=
  past.foldl (fun m a => if a.answer.ok then Function.update m a.request.key a.request.value else m)
    fun _ => none

variable {seq : Nat} {as past : List Attempt} {a : Attempt} {k : Bytes} {s : Nat}

theorem tally_append (seq : Nat) (as : List Attempt) (a : Attempt) :
    tally seq (as ++ [a]) = (tally seq as).add a := List.foldl_append

theorem said_append (past : List Attempt) (a : Attempt) :
    said (past ++ [a]) = if a.answer.ok then
      Function.update (said past) a.request.key a.request.value else said past := List.foldl_append

theorem unflushed_append (past : List Attempt) (a : Attempt) :
    unflushed (past ++ [a]) = if a.answer = .flushed then [] else unflushed past ++ [a] := by
  unfold unflushed
  rw [List.rtakeWhile_concat]
  by_cases h : a.answer = .flushed <;> simp [h]

/-- The attempts since the last one that returned. -/
def failing (as : List Attempt) : List Attempt := as.rtakeWhile fun b => !b.answer.ok

theorem failing_append (as : List Attempt) (a : Attempt) :
    failing (as ++ [a]) = if a.answer.ok then [] else failing as ++ [a] := by
  unfold failing
  rw [List.rtakeWhile_concat]
  cases a.answer.ok <;> rfl

/-- An attempt with a flush has returned. -/
theorem failing_unflushed (past : List Attempt) : failing (unflushed past) = failing past := by
  induction past using List.reverseRecOn with
  | nil => rfl
  | append_singleton past a ih =>
    rw [unflushed_append, failing_append]
    split
    · next h =>
      rw [h]
      rfl
    · rw [failing_append, ih]

theorem Tally.mem_add_logged {t : Tally} {e : WalEntry} : e ∈ (t.add a).logged ↔
    e ∈ t.logged ∨ a.answer ≠ .refused ∧ e = a.request.entry (t.seq + 1) := by
  simp only [Tally.add]
  split <;> simp_all

theorem Tally.le_add_seq (t : Tally) (a : Attempt) : t.seq ≤ (t.add a).seq := by
  simp only [Tally.add]
  split <;> omega

/-- What a log holds: entries of the attempts, numbered up to the next sequence number. -/
theorem mem_logged {e : WalEntry} (he : e ∈ (tally seq as).logged) :
    (∃ b ∈ as, b.request.key = e.key) ∧ e.seq ≤ (tally seq as).seq + 1 := by
  induction as using List.reverseRecOn with
  | nil => exact absurd he List.not_mem_nil
  | append_singleton as a ih =>
    rw [tally_append] at he ⊢
    have hLe := (tally seq as).le_add_seq a
    rcases Tally.mem_add_logged.mp he with he | ⟨-, rfl⟩
    · obtain ⟨⟨b, hb, hKey⟩, hSeq⟩ := ih he
      exact ⟨⟨b, List.mem_append_left _ hb, hKey⟩, hSeq.trans (Nat.succ_le_succ hLe)⟩
    · exact ⟨⟨a, by simp, rfl⟩, Nat.succ_le_succ hLe⟩

theorem kept_sublist (seq : Nat) (as : List Attempt) :
    (tally seq as).kept.Sublist (tally seq as).logged := by
  induction as using List.reverseRecOn with
  | nil => exact List.Sublist.refl _
  | append_singleton as a ih =>
    rw [tally_append]
    simp only [Tally.add]
    cases a.answer with
    | refused => exact ih
    | unsynced => exact ih.trans (List.sublist_append_left _ _)
    | applied | flushed => exact ih.append_right _

/-- The memory table of what returned goes on with the next sequence number. -/
theorem replayed_kept_seq (seq : Nat) (as : List Attempt) :
    (replayed seq (tally seq as).kept).seq = (tally seq as).seq := by
  induction as using List.reverseRecOn with
  | nil => rfl
  | append_singleton as a ih =>
    rw [tally_append]
    simp only [Tally.add]
    split
    · rw [replayed_seq_append, ih]
      exact max_eq_right (Nat.le_succ _)
    · exact ih

theorem logged_subset (pre post : List Attempt) :
    (tally seq pre).logged ⊆ (tally seq (pre ++ post)).logged := by
  induction post using List.reverseRecOn with
  | nil => rw [List.append_nil]; exact List.Subset.refl _
  | append_singleton post b ih =>
    rw [← List.append_assoc, tally_append]
    exact fun e he => Tally.mem_add_logged.mpr (.inl (ih he))

/-- The entries that have the next sequence number already are those whose sync failed since the
last write that returned. -/
theorem mem_logged_next {e : WalEntry} :
    e ∈ (tally seq as).logged ∧ e.seq = (tally seq as).seq + 1 ↔
      ∃ f ∈ failing as, f.answer = .unsynced ∧ e = f.request.entry ((tally seq as).seq + 1) := by
  induction as using List.reverseRecOn with
  | nil => simp [tally, failing]
  | append_singleton as a ih =>
    rw [tally_append, failing_append, Tally.mem_add_logged]
    by_cases hOk : a.answer.ok = true
    · -- Every entry has a number up to that of the write that returned.
      have hSeq : ((tally seq as).add a).seq = (tally seq as).seq + 1 := if_pos hOk
      rw [hSeq, if_pos hOk]
      constructor
      · rintro ⟨he | ⟨-, rfl⟩, hNext⟩
        · have := (mem_logged he).2
          omega
        · simp [Request.entry] at hNext
      · rintro ⟨f, hf, -⟩
        exact absurd hf List.not_mem_nil
    · have hSeq : ((tally seq as).add a).seq = (tally seq as).seq := if_neg hOk
      rw [hSeq, if_neg hOk, or_and_right, ih]
      constructor
      · rintro (⟨f, hf, hEntry⟩ | ⟨⟨hAnswer, rfl⟩, -⟩)
        · exact ⟨f, List.mem_append_left _ hf, hEntry⟩
        · refine ⟨a, by simp, ?_, rfl⟩
          cases h : a.answer <;> simp_all [Answer.ok]
      · rintro ⟨f, hf, hAnswer, rfl⟩
        rcases List.mem_append.mp hf with hf | hf
        · exact .inl ⟨f, hf, hAnswer, rfl⟩
        · obtain rfl := List.mem_singleton.mp hf
          exact .inr ⟨⟨by simp [hAnswer], rfl⟩, rfl⟩

/-- No put of the key has failed in its sync since the last write that returned. -/
def NoFailedPut (past : List Attempt) (key : Bytes) : Prop :=
  ∀ f ∈ failing past, f.answer = .unsynced → f.request.key = key → f.request.value = none

theorem mem_replayed {log : List WalEntry} {x : Entry} :
    x ∈ (replayed seq log).skiplist ↔ ∃ w ∈ log, w.entry = x := by
  rw [(replayed_perm seq log).mem_iff, List.mem_map]

/-- A later entry of another key changes nothing. -/
theorem seek_replayed_ne {log : List WalEntry} {e : WalEntry} (h : e.key ≠ k) :
    seek (replayed seq (log ++ [e])).skiplist k s = seek (replayed seq log).skiplist k s := by
  rw [replayed_append]
  exact (seek_insert (replayed_sorted seq log) _ _ k s).trans (if_neg fun hc => h hc.1)

/-- A later entry of the key is found unless what was found before comes before it. -/
theorem seek_replayed_eq {log : List WalEntry} {e : WalEntry} (hKey : e.key = k)
    (hSeq : e.seq ≤ s) :
    seek (replayed seq (log ++ [e])).skiplist k s =
      if ∀ x ∈ seek (replayed seq log).skiplist k s, ¬Before x.1 e.entry.1 then some e.entry
      else seek (replayed seq log).skiplist k s := by
  rw [replayed_append]
  refine (seek_insert (replayed_sorted seq log) _ _ k s).trans (if_congr ?_ rfl rfl)
  exact ⟨fun hc => hc.2.2, fun hc => ⟨hKey, hSeq, hc⟩⟩

/-- Attempts at other keys change nothing. -/
theorem seek_logged_append {pre post : List Attempt} (h : ∀ b ∈ post, b.request.key ≠ k) :
    seek (replayed seq (tally seq (pre ++ post)).logged).skiplist k s =
      seek (replayed seq (tally seq pre).logged).skiplist k s := by
  induction post using List.reverseRecOn with
  | nil => rw [List.append_nil]
  | append_singleton post b ih =>
    rw [← List.append_assoc, tally_append, ← ih fun c hc => h c (List.mem_append_left _ hc)]
    simp only [Tally.add]
    split
    · rfl
    · exact seek_replayed_ne (h b (by simp))

/-- A version that is no newer than another one of its key comes before it only if it has the same
number and is a put, and the other one is a deletion. -/
theorem before_next {x : Entry} {e : WalEntry} (hKey : x.1.userKey = e.key)
    (hLe : x.1.seq ≤ e.seq) :
    Before x.1 e.entry.1 ↔ x.1.seq = e.seq ∧ x.1.vtype = .put ∧ e.vtype = .delete := by
  rw [before_iff]
  constructor
  · rintro ((h | ⟨-, h⟩) | ⟨⟨-, hSeq⟩, hTypes⟩)
    · exact absurd hKey h.ne
    · exact absurd hLe (not_le.mpr h)
    · exact ⟨hSeq, hTypes⟩
  · rintro ⟨hSeq, hTypes⟩
    exact .inr ⟨⟨hKey, hSeq⟩, hTypes⟩

/-- A put with the next sequence number that is in the log is found, or another put with it. -/
theorem seek_next {w : WalEntry} (hw : w ∈ (tally seq as).logged) (hPut : w.vtype = .put)
    (hSeq : w.seq = (tally seq as).seq + 1) (hs : w.seq ≤ s) :
    ∃ x ∈ seek (replayed seq (tally seq as).logged).skiplist w.key s,
      x.1.seq = w.seq ∧ x.1.vtype = .put := by
  have hSorted := replayed_sorted seq (tally seq as).logged
  have hMem : w.entry ∈ (replayed seq (tally seq as).logged).skiplist :=
    mem_replayed.mpr ⟨w, hw, rfl⟩
  cases hSeek : seek (replayed seq (tally seq as).logged).skiplist w.key s with
  | none => exact absurd ⟨hMem, rfl, hs⟩ (hSorted.seek_none hSeek w.entry)
  | some x =>
    obtain ⟨hx, hKey⟩ := seek_mem hSeek
    obtain ⟨v, hv, rfl⟩ := mem_replayed.mp hx
    have hLe : v.seq ≤ w.seq := hSeq ▸ (mem_logged hv).2
    have hNot : ¬Before w.entry.1 v.entry.1 := by
      obtain ⟨hFind, -⟩ := Option.filter_eq_some_iff.mp hSeek
      have hVisible := not_before_lookup.mpr (.inr ⟨(rfl : w.entry.1.userKey = w.key), hs⟩)
      rcases hSorted.lowerBound hFind w.entry hMem hVisible with hEq | hNot
      · rw [hEq]
        exact Before.irrefl _
      · exact hNot
    have hEq : v.seq = w.seq := by
      by_contra hNe
      exact hNot (KeyLt.before (.inr ⟨hKey.symm, lt_of_le_of_ne hLe hNe⟩))
    refine ⟨v.entry, rfl, hEq, ?_⟩
    by_contra hDelete
    refine hNot ((before_next (e := v) hKey.symm hEq.ge).mpr ⟨hEq.symm, hPut, ?_⟩)
    have : v.vtype ≠ .put := hDelete
    cases h : v.vtype <;> simp_all

/-- What a replay finds for a key that was written last by a request that returned. -/
theorem seek_logged (hOk : a.answer.ok = true) (hs : (tally seq as).seq + 1 ≤ s) :
    ∃ x, seek (replayed seq (tally seq (as ++ [a])).logged).skiplist a.request.key s = some x ∧
      (x.value = a.request.value ↔
        a.request.value ≠ none ∨ NoFailedPut as a.request.key) := by
  set t := tally seq as with ht
  set e := a.request.entry (t.seq + 1) with he
  have hLogged : (tally seq (as ++ [a])).logged = t.logged ++ [e] := by
    rw [tally_append]
    exact if_neg fun h => by simp [h, Answer.ok] at hOk
  have hOld : ∀ x ∈ seek (replayed seq t.logged).skiplist a.request.key s,
      (Before x.1 e.entry.1 ↔ x.1.seq = e.seq ∧ x.1.vtype = .put ∧ e.vtype = .delete) := by
    intro x hx
    obtain ⟨hMem, hKey⟩ := seek_mem hx
    obtain ⟨w, hw, rfl⟩ := mem_replayed.mp hMem
    exact before_next hKey (mem_logged hw).2
  have hType : e.vtype = .put ↔ a.request.value ≠ none :=
    Request.entry_vtype a.request (t.seq + 1)
  have hKey : e.key = a.request.key := rfl
  rw [hLogged, seek_replayed_eq hKey hs]
  by_cases hPut : e.vtype = .put
  · -- A put comes before all that was logged of its key.
    refine ⟨e.entry, if_pos fun x hx hBefore => ?_, iff_of_true (Request.entry_value _ _)
      (.inl (hType.mp hPut))⟩
    obtain ⟨-, -, hDelete⟩ := (hOld x hx).mp hBefore
    rw [hPut] at hDelete
    cases hDelete
  · have hNone : a.request.value = none := not_not.mp fun h => hPut (hType.mpr h)
    have hDelete : e.vtype = .delete := by
      cases h : e.vtype <;> simp_all
    by_cases hFree : NoFailedPut as a.request.key
    · refine ⟨e.entry, if_pos fun x hx hBefore => ?_, iff_of_true (Request.entry_value _ _)
        (.inr hFree)⟩
      obtain ⟨hSeq, hVtype, -⟩ := (hOld x hx).mp hBefore
      obtain ⟨hMem, hKey⟩ := seek_mem hx
      obtain ⟨w, hw, rfl⟩ := mem_replayed.mp hMem
      obtain ⟨f, hf, hAnswer, rfl⟩ := mem_logged_next.mp ⟨hw, hSeq⟩
      exact (Request.entry_vtype f.request (t.seq + 1)).mp hVtype (hFree f hf hAnswer hKey)
    · obtain ⟨f, hf, hAnswer, hKey, hValue⟩ : ∃ f ∈ failing as, f.answer = .unsynced ∧
          f.request.key = a.request.key ∧ f.request.value ≠ none := by
        simpa [NoFailedPut] using hFree
      obtain ⟨hw, hSeq⟩ := mem_logged_next.mpr ⟨f, hf, hAnswer, rfl⟩
      have hFailed := (Request.entry_vtype f.request (t.seq + 1)).mpr hValue
      obtain ⟨x, hx, hxSeq, hxPut⟩ := seek_next hw hFailed hSeq hs
      rw [show (f.request.entry (t.seq + 1)).key = a.request.key from hKey] at hx
      refine ⟨x, ?_, iff_of_false ?_ ?_⟩
      · refine (if_neg fun hAll => ?_).trans hx
        exact hAll x hx ((hOld x hx).mpr ⟨hxSeq, hxPut, hDelete⟩)
      · rw [hNone, Entry.value, hxPut]
        exact Option.some_ne_none _
      · exact not_or.mpr ⟨not_not.mpr hNone, hFree⟩

/-- What a memory table finds for a key that was written last by a request that returned. -/
theorem seek_kept {post : List Attempt} (hOk : a.answer.ok = true)
    (hLast : ∀ b ∈ post, b.request.key ≠ a.request.key) (hs : (tally seq as).seq + 1 ≤ s) :
    seek (replayed seq (tally seq (as ++ [a] ++ post)).kept).skiplist a.request.key s =
      some (a.request.entry ((tally seq as).seq + 1)).entry := by
  induction post using List.reverseRecOn with
  | nil =>
    have hKept : (tally seq (as ++ [a])).kept =
        (tally seq as).kept ++ [a.request.entry ((tally seq as).seq + 1)] := by
      rw [tally_append]
      exact if_pos hOk
    have hKey : (a.request.entry ((tally seq as).seq + 1)).key = a.request.key := rfl
    rw [List.append_nil, hKept, seek_replayed_eq hKey hs]
    refine if_pos fun x hx hBefore => ?_
    obtain ⟨hMem, hxKey⟩ := seek_mem hx
    obtain ⟨w, hw, rfl⟩ := mem_replayed.mp hMem
    have hLe : w.seq ≤ (tally seq as).seq :=
      ((replayed_seq_ge seq _).2 w hw).trans_eq (replayed_kept_seq seq as)
    have hSeq := ((before_next hxKey (Nat.le_succ_of_le hLe)).mp hBefore).1
    exact absurd hSeq (Nat.lt_succ_of_le hLe).ne
  | append_singleton post b ih =>
    rw [← ih fun c hc => hLast c (List.mem_append_left _ hc), ← List.append_assoc, tally_append]
    simp only [Tally.add]
    split
    · exact seek_replayed_ne (hLast b (by simp))
    · rfl

/-- Every request that returns takes a sequence number. -/
theorem le_seq_tally {post : List Attempt} (hOk : a.answer.ok = true) :
    (tally seq as).seq + 1 ≤ (tally seq (as ++ [a] ++ post)).seq := by
  induction post using List.reverseRecOn with
  | nil =>
    rw [List.append_nil, tally_append]
    exact (if_pos hOk).ge
  | append_singleton post b ih =>
    rw [← List.append_assoc, tally_append]
    exact ih.trans (Tally.le_add_seq _ b)

/-- Attempts without a flush are all in the log. -/
theorem unflushed_append_all {pre post : List Attempt} (h : ∀ b ∈ post, b.answer ≠ .flushed) :
    unflushed (pre ++ post) = unflushed pre ++ post := by
  induction post using List.reverseRecOn with
  | nil => rw [List.append_nil, List.append_nil]
  | append_singleton post b ih =>
    rw [← List.append_assoc, unflushed_append, if_neg (h b (by simp)),
      ih fun c hc => h c (List.mem_append_left _ hc), List.append_assoc]

/-- What is in the log after a flush came after it. -/
theorem mem_unflushed {pre post : List Attempt} (h : ∃ b ∈ a :: post, b.answer = .flushed)
    {c : Attempt} (hc : c ∈ unflushed (pre ++ a :: post)) : c ∈ post := by
  induction post using List.reverseRecOn with
  | nil =>
    obtain ⟨b, hb, hFlushed⟩ := h
    rw [List.mem_singleton.mp hb] at hFlushed
    rw [unflushed_append, if_pos hFlushed] at hc
    exact hc
  | append_singleton post b ih =>
    rw [← List.cons_append, ← List.append_assoc, unflushed_append] at hc
    split at hc
    · exact absurd hc List.not_mem_nil
    · next hb =>
      rcases List.mem_append.mp hc with hc | hc
      · refine List.mem_append_left _ (ih ?_ hc)
        obtain ⟨b', hb', hFlushed⟩ := h
        rcases List.mem_append.mp (List.cons_append ▸ hb') with hb' | hb'
        · exact ⟨b', hb', hFlushed⟩
        · exact absurd (List.mem_singleton.mp hb' ▸ hFlushed) hb
      · exact List.mem_append_right _ hc

theorem said_last {pre post : List Attempt} (hOk : a.answer.ok = true)
    (hLast : ∀ b ∈ post, b.request.key ≠ a.request.key) :
    said (pre ++ a :: post) a.request.key = a.request.value := by
  induction post using List.reverseRecOn with
  | nil => rw [said_append, if_pos hOk, Function.update_self]
  | append_singleton post b ih =>
    rw [← List.cons_append, ← List.append_assoc, said_append]
    have hRest := ih fun c hc => hLast c (List.mem_append_left _ hc)
    split
    · rwa [Function.update_of_ne (hLast b (by simp)).symm]
    · exact hRest

/-- A log without the key gives it no version. -/
theorem seek_replayed_none {log : List WalEntry} (h : ∀ w ∈ log, w.key ≠ k) :
    seek (replayed seq log).skiplist k s = none := by
  refine seek_none_of_ne fun x hx => ?_
  obtain ⟨w, hw, rfl⟩ := mem_replayed.mp hx
  exact h w hw

end Logs

end MulanLsm
