import MulanLsm.CacheCalls
import MulanLsm.CrashRuns
import MulanLsm.Faults
import MulanLsm.LsmRuns

/-! Readers beside writers.  A reader looks in the memory table and takes the version under the lock
of the database, and searches the tables after it has given the lock up.  Meanwhile other calls
write, flush and compact, whether or not their file-system calls succeed, files are evicted from the
cache, and other readers fill it.  A table that a version names stays as it is, so that the reader
gets what it would have got under the lock. -/

namespace MulanLsm

/-- Where a reader is that has given up the lock: it is about to ask the cache for the first of the
files that are left, opens the first, is about to put the table that it read in the cache, has come
to an end, which may be an error in the bytes of a table, or could not open a file. -/
inductive Phase
  | asking (files : List FileMetaData)
  | opening (file : FileMetaData) (files : List FileMetaData)
  | keeping (file : FileMetaData) (reader : TableReader) (files : List FileMetaData)
  | done (result : Result (Option Bytes))
  | failed (outcome : Outcome) (e : MulanError)

/-- A call of `get` or `get_at`.  `atomic` is what the search returns when it runs as a whole under
the lock, without an I/O error. -/
structure Reader where
  seq : Nat
  key : Bytes
  atomic : Option (Result (Option Bytes))
  phase : Phase

/-- A call that has the lock, the directory in which it began, and how its file-system calls
went. -/
structure Ongoing where
  call : Call
  base : Dir
  outcomes : List Outcome

/-- An open database, the directory as readers see it, the call that has the lock, and the readers
that do not need it. -/
structure Serving where
  db : Db
  dir : Dir
  ongoing : Option Ongoing
  readers : List Reader

inductive ServingStep
  | start (c : Call)
  | progress (os : List Outcome) (n : Nat)
  | finish (os : List Outcome)
  | get (key : Bytes)
  | getAt (seq : Nat) (key : Bytes)
  | ask (i : Nat)
  | openTable (i : Nat) (o : Outcome)
  | keep (i : Nat)
  | evict (number : Nat)

/-- What a table says of the key of a reader, or the files that are left. -/
def Reader.search (r : Reader) (reader : TableReader) (files : List FileMetaData) : Phase :=
  match reader.getEntry r.key r.seq with
  | .ok (some e) => .done (.ok (Db.valueOf e))
  | .ok none => .asking files
  | .error e => .done (.error e)

/-- The part of `get_at` that runs under the lock. -/
def Reader.new (seq : Nat) (key : Bytes) (db : Db) (d : Dir) : Reader :=
  { seq, key, atomic := returnedAt seq key db d
    phase := match db.memtable.getEntry key seq with
      | some e => .done (.ok (Db.valueOf e))
      | none => .asking (filesForKey db.versionSet.current key) }

namespace Serving

def withCache (s : Serving) (tableCache : TableCache) : Serving :=
  { s with db := { s.db with tableCache } }

def withPhase (s : Serving) (i : Nat) (phase : Phase) : Serving :=
  { s with readers := s.readers.modify i fun r => { r with phase } }

def newReader (s : Serving) (seq : Nat) (key : Bytes) : Option Serving :=
  match s.ongoing with
  | none => some { s with readers := s.readers ++ [.new seq key s.db s.dir] }
  | some _ => none

/-- The cache gives the first file of `r`, or `r` has to open it. -/
def ask (s : Serving) (i : Nat) (r : Reader) : Option Serving :=
  match r.phase with
  | .asking [] => some (s.withPhase i (.done (.ok none)))
  | .asking (f :: files) =>
    if s.db.tableCache.capacity = 0 then some (s.withPhase i (.opening f files))
    else
      match s.db.tableCache.entries.lookup f.number with
      | some reader => some ((s.withCache (s.db.tableCache.touch f.number)).withPhase i
          (r.search reader files))
      | none => some (s.withPhase i (.opening f files))
  | _ => none

/-- The file is opened, which goes as `o`. -/
def openTable (s : Serving) (i : Nat) (o : Outcome) (r : Reader) : Option Serving :=
  match r.phase with
  | .opening f files =>
    match (TableReader.open f.number : St Unit TableReader) ((), ⟨s.dir, [o]⟩) with
    | .ok reader _ =>
      if s.db.tableCache.capacity = 0 then some (s.withPhase i (r.search reader files))
      else some (s.withPhase i (.keeping f reader files))
    | .error (.error e) _ => some (s.withPhase i (.failed o e))
    | .error _ _ => none
  | _ => none

def keep (s : Serving) (i : Nat) (r : Reader) : Option Serving :=
  match r.phase with
  | .keeping f reader files =>
    some ((s.withCache (s.db.tableCache.insert f.number reader)).withPhase i
      (r.search reader files))
  | _ => none

section Stepping

variable [Crc32c]

/-- A call takes the lock; a write waits while the database is stalled. -/
def start (s : Serving) (c : Call) : Option Serving :=
  match s.ongoing, c with
  | some _, _ => none
  | none, .put _ _ | none, .delete _ =>
    if s.db.stalled then none else some { s with ongoing := some ⟨c, s.dir, []⟩ }
  | none, _ => some { s with ongoing := some ⟨c, s.dir, []⟩ }

/-- The call with the lock goes on until its file-system calls have gone as `os` and `n` bytes of
one more have reached the file: the directory is as if the machine stopped there. -/
def progress (s : Serving) (os : List Outcome) (n : Nat) (b : Ongoing) : Option Serving :=
  if b.outcomes <+: os then
    match b.call.run (s.db, ⟨b.base, os ++ [.crash n]⟩) with
    | .error .crash (_, w) =>
      some { s with dir := w.dir, ongoing := some { b with outcomes := os } }
    | _ => none
  else none

/-- The call with the lock returns, or fails, and gives the lock up. -/
def finish (s : Serving) (os : List Outcome) (b : Ongoing) : Option Serving :=
  if b.outcomes <+: os then
    match b.call.run (s.db, ⟨b.base, os⟩) with
    | .ok _ (db, w) => some { s with db, dir := w.dir, ongoing := none }
    | .error (.error _) (db, w) => some { s with db, dir := w.dir, ongoing := none }
    | .error _ _ => none
  else none

def step (s : Serving) : ServingStep → Option Serving
  | .start c => s.start c
  | .progress os n => s.ongoing.bind (s.progress os n)
  | .finish os => s.ongoing.bind (s.finish os)
  | .get key => s.newReader s.db.versionSet.lastSequence key
  | .getAt seq key => s.newReader seq key
  | .ask i => s.readers[i]?.bind (s.ask i)
  | .openTable i o => s.readers[i]?.bind (s.openTable i o)
  | .keep i => s.readers[i]?.bind (s.keep i)
  | .evict number => some (s.withCache (s.db.tableCache.evict number))

end Stepping

end Serving

/-- The tables of the files are there, with numbers below `next`, and the search through them gives
what the whole search gave. -/
structure Reader.Awaits (r : Reader) (d : Dir) (next : Nat) (files : List FileMetaData) : Prop where
  tables : ∀ f ∈ files, f.number < next ∧ ∃ es, d.table f.number = some es
  atomic : r.atomic = some ((Db.search d r.key r.seq files).map (·.bind Db.valueOf))

/-- The reader is on the way to what the whole search gave. -/
def Reader.Sound (r : Reader) (d : Dir) (next : Nat) : Prop :=
  match r.phase with
  | .asking files => r.Awaits d next files
  | .opening f files => r.Awaits d next (f :: files)
  | .keeping f reader files => r.Awaits d next (f :: files) ∧ d.reader f.number = some reader
  | .done result => r.atomic = some result
  | .failed o _ => o ≠ .ok

section Searching

variable {r : Reader} {d d' : Dir} {next next' : Nat} {f : FileMetaData} {files : List FileMetaData}

theorem KeptTables.symm (h : KeptTables d next d') : KeptTables d' next d :=
  fun n hn => (h n hn).symm

theorem KeptTables.trans {d'' : Dir} (h : KeptTables d next d') (h' : KeptTables d' next' d'')
    (hNext : next ≤ next') : KeptTables d next d'' := fun n hn =>
  (h' n (hn.trans_le hNext)).trans (h n hn)

theorem KeptTables.reader {n : Nat} (h : KeptTables d next d') (hn : n < next) :
    d'.reader n = d.reader n := by
  unfold Dir.reader
  rw [h n hn]

theorem KeptTables.search (h : KeptTables d next d') (hFiles : ∀ f ∈ files, f.number < next)
    (key : Bytes) (seq : Nat) : Db.search d' key seq files = Db.search d key seq files := by
  induction files with
  | nil => rfl
  | cons f files ih =>
    rw [Db.search, Db.search, h.reader (hFiles f List.mem_cons_self),
      ih fun g hg => hFiles g (List.mem_cons_of_mem f hg)]

theorem Reader.Awaits.kept (h : r.Awaits d next files) (hKept : KeptTables d next d')
    (hNext : next ≤ next') : r.Awaits d' next' files where
  tables f hf := by
    obtain ⟨hNumber, es, hTable⟩ := h.tables f hf
    exact ⟨hNumber.trans_le hNext, es, (hKept.table hNumber).trans hTable⟩
  atomic := by
    rw [h.atomic, hKept.search fun f hf => (h.tables f hf).1]

/-- Nothing that leaves the tables below `next` alone disturbs a reader. -/
theorem Reader.Sound.kept (h : r.Sound d next) (hKept : KeptTables d next d')
    (hNext : next ≤ next') : r.Sound d' next' := by
  unfold Reader.Sound at *
  cases hPhase : r.phase with
  | asking files =>
    rw [hPhase] at h
    exact Reader.Awaits.kept h hKept hNext
  | opening f files =>
    rw [hPhase] at h
    exact Reader.Awaits.kept h hKept hNext
  | keeping f reader files =>
    rw [hPhase] at h
    obtain ⟨hAwaits, hReader⟩ := h
    have hNumber := (hAwaits.tables f List.mem_cons_self).1
    exact ⟨hAwaits.kept hKept hNext, (hKept.reader hNumber).trans hReader⟩
  | done result =>
    rw [hPhase] at h
    exact h
  | failed o e =>
    rw [hPhase] at h
    exact h

/-- With the table of the first file a reader is done, or looks in the others. -/
theorem Reader.Awaits.search (h : r.Awaits d next (f :: files)) {reader : TableReader}
    (hReader : d.reader f.number = some reader) :
    Reader.Sound { r with phase := r.search reader files } d next := by
  have hAtomic := h.atomic
  rw [Db.search_cons hReader] at hAtomic
  unfold Reader.search
  cases hFound : reader.getEntry r.key r.seq with
  | error e =>
    rw [hFound] at hAtomic
    exact hAtomic
  | ok found =>
    rw [hFound] at hAtomic
    cases found with
    | some e => exact hAtomic
    | none => exact ⟨fun g hg => h.tables g (List.mem_cons_of_mem f hg), hAtomic⟩

theorem Reader.new_sound {db : Db} (h : Readable d db next) (seq : Nat) (key : Bytes) :
    (Reader.new seq key db d).Sound d next := by
  have hAtomic := h.returnedAt seq key
  rw [Db.answer] at hAtomic
  unfold Reader.new
  cases hEntry : db.memtable.getEntry key seq with
  | some e =>
    rw [hEntry] at hAtomic
    exact hAtomic
  | none =>
    rw [hEntry] at hAtomic
    refine ⟨fun f hf => ?_, hAtomic⟩
    obtain ⟨level, hf⟩ := filesForKey_mem hf
    exact h.files level f hf

end Searching

/-- The tables of the current version are there, the cache agrees with them, the call that has the
lock has changed none of them, and every reader is on its way. -/
structure Serving.Ok (s : Serving) : Prop where
  confined : s.db.Confined s.db.idGen.next
  readable : Readable s.dir s.db s.db.idGen.next
  readers : ∀ r ∈ s.readers, r.Sound s.dir s.db.idGen.next
  ongoing : ∀ b ∈ s.ongoing, KeptTables b.base s.db.idGen.next s.dir

/-- `s'` comes after `s`: the tables of `s` are as they were. -/
structure Serving.Keeps (s s' : Serving) : Prop where
  next : s.db.idGen.next ≤ s'.db.idGen.next
  tables : KeptTables s.dir s.db.idGen.next s'.dir

theorem Serving.Keeps.refl (s : Serving) : s.Keeps s := ⟨le_rfl, .refl _ _⟩

theorem Serving.Keeps.trans {s s' s'' : Serving} (h : s.Keeps s') (h' : s'.Keeps s'') :
    s.Keeps s'' :=
  ⟨h.next.trans h'.next, h.tables.trans h'.tables h.next⟩

section Reading

variable {s s' : Serving} {i : Nat} {r : Reader}

theorem TableCache.Agrees.touch {cache : TableCache} {d : Dir} {next : Nat}
    (h : cache.Agrees d next) (n : Nat) : (cache.touch n).Agrees d next := h

theorem Serving.Ok.withCache (h : s.Ok) {cache : TableCache}
    (hCache : cache.Agrees s.dir s.db.idGen.next) : (s.withCache cache).Ok :=
  ⟨{ h.confined with }, ⟨hCache, h.readable.files⟩, h.readers, h.ongoing⟩

/-- What holds of each of a list holds after a change of one of them that it holds of. -/
theorem forall_mem_modify {α : Type} {P : α → Prop} {l : List α} {i : Nat} {a : α} {f : α → α}
    (ha : l[i]? = some a) (h : ∀ x ∈ l, P x) (hf : P (f a)) : ∀ x ∈ l.modify i f, P x := by
  intro x hx
  obtain ⟨j, hj⟩ := List.mem_iff_getElem?.mp hx
  by_cases hij : i = j
  · subst hij
    rw [List.getElem?_modify_eq, ha] at hj
    exact Option.some.inj hj ▸ hf
  · rw [List.getElem?_modify_ne _ _ hij] at hj
    exact h x (List.mem_of_getElem? hj)

/-- A reader that goes on from a state of its own to a sound one. -/
theorem Serving.Ok.withPhase (h : s.Ok) (hReader : s.readers[i]? = some r) {phase : Phase}
    (hSound : Reader.Sound { r with phase } s.dir s.db.idGen.next) : (s.withPhase i phase).Ok :=
  ⟨h.confined, h.readable, forall_mem_modify hReader h.readers hSound, h.ongoing⟩

theorem Serving.Ok.newReader (h : s.Ok) {seq : Nat} {key : Bytes}
    (hStep : s.newReader seq key = some s') : s'.Ok ∧ s.Keeps s' := by
  unfold Serving.newReader at hStep
  split at hStep
  · obtain rfl := Option.some.inj hStep
    refine ⟨⟨h.confined, h.readable, fun r hr => ?_, h.ongoing⟩, ⟨le_rfl, .refl _ _⟩⟩
    rcases List.mem_append.mp hr with hr | hr
    · exact h.readers r hr
    · rw [List.mem_singleton.mp hr]
      exact Reader.new_sound h.readable seq key
  · contradiction

theorem Serving.Ok.ask (h : s.Ok) (hReader : s.readers[i]? = some r)
    (hStep : s.ask i r = some s') : s'.Ok ∧ s.Keeps s' := by
  have hSound := h.readers r (List.mem_of_getElem? hReader)
  unfold Serving.ask at hStep
  unfold Reader.Sound at hSound
  split at hStep
  · next hPhase =>
    rw [hPhase] at hSound
    obtain rfl := Option.some.inj hStep
    exact ⟨h.withPhase hReader hSound.atomic, ⟨le_rfl, .refl _ _⟩⟩
  · next f files hPhase =>
    rw [hPhase] at hSound
    replace hSound : r.Awaits s.dir s.db.idGen.next (f :: files) := hSound
    split at hStep
    · obtain rfl := Option.some.inj hStep
      exact ⟨h.withPhase hReader ⟨hSound.tables, hSound.atomic⟩, ⟨le_rfl, .refl _ _⟩⟩
    · split at hStep
      · next reader hHit =>
        obtain rfl := Option.some.inj hStep
        have hTable := (h.readable.cache _ _ hHit).2
        exact ⟨(h.withCache (h.readable.cache.touch _)).withPhase hReader (hSound.search hTable),
          ⟨le_rfl, .refl _ _⟩⟩
      · obtain rfl := Option.some.inj hStep
        exact ⟨h.withPhase hReader ⟨hSound.tables, hSound.atomic⟩, ⟨le_rfl, .refl _ _⟩⟩
  · contradiction

theorem Serving.Ok.openTable (h : s.Ok) (hReader : s.readers[i]? = some r) {o : Outcome}
    (hStep : s.openTable i o r = some s') : s'.Ok ∧ s.Keeps s' := by
  have hSound := h.readers r (List.mem_of_getElem? hReader)
  unfold Serving.openTable at hStep
  unfold Reader.Sound at hSound
  split at hStep
  · next f files hPhase =>
    rw [hPhase] at hSound
    replace hSound : r.Awaits s.dir s.db.idGen.next (f :: files) := hSound
    obtain ⟨-, es, hTable⟩ := hSound.tables f List.mem_cons_self
    obtain ⟨reader', hReader', -⟩ := Dir.reader_of_table hTable
    have hOpen := open_spec (A := (· = o)) (x := ()) hReader'
    have ho : ∀ o' ∈ [o], o' = o := fun o' h => List.mem_singleton.mp h
    split at hStep
    · next reader y hRun =>
      obtain ⟨rfl, -, -⟩ := Spec.returned hRun hOpen ho
      split at hStep
      · obtain rfl := Option.some.inj hStep
        exact ⟨h.withPhase hReader (hSound.search hReader'), ⟨le_rfl, .refl _ _⟩⟩
      · obtain rfl := Option.some.inj hStep
        exact ⟨h.withPhase hReader ⟨⟨hSound.tables, hSound.atomic⟩, hReader'⟩, ⟨le_rfl, .refl _ _⟩⟩
    · next e y hRun =>
      obtain ⟨⟨-, ⟨n, hBroken⟩, -⟩, -⟩ := (Effects.wp_error hRun).mp (hOpen [o] ho)
      obtain rfl := Option.some.inj hStep
      refine ⟨h.withPhase hReader ?_, ⟨le_rfl, .refl _ _⟩⟩
      show o ≠ .ok
      rintro rfl
      exact not_broken_quiet hBroken
    · contradiction
  · contradiction

theorem Serving.Ok.keep (h : s.Ok) (hReader : s.readers[i]? = some r)
    (hStep : s.keep i r = some s') : s'.Ok ∧ s.Keeps s' := by
  have hSound := h.readers r (List.mem_of_getElem? hReader)
  unfold Serving.keep at hStep
  unfold Reader.Sound at hSound
  split at hStep
  · next f reader files hPhase =>
    rw [hPhase] at hSound
    obtain ⟨hAwaits, hTable⟩ := hSound
    obtain rfl := Option.some.inj hStep
    have hNumber := (hAwaits.tables f List.mem_cons_self).1
    exact ⟨(h.withCache (h.readable.cache.insert hNumber hTable)).withPhase hReader
      (hAwaits.search hTable), ⟨le_rfl, .refl _ _⟩⟩
  · contradiction

end Reading

section Calling

variable [Crc32c] {s s' : Serving} {b : Ongoing}

/-- Midway and at its end, a call has left the tables of the database alone. -/
theorem Serving.Ok.called (h : s.Ok) (hOngoing : s.ongoing = some b) :
    Spec Any b.call.run
      (fun _ db' d' => s.db.Advances s.db.idGen.next db' d' ∧
        KeptTables s.dir s.db.idGen.next d' ∧ KeptTables b.base s.db.idGen.next d')
      (fun _ db' d' => s.db.Advances s.db.idGen.next db' d' ∧
        KeptTables s.dir s.db.idGen.next d' ∧ KeptTables b.base s.db.idGen.next d')
        s.db b.base := by
  have hKept (d' : Dir) (hd' : KeptTables b.base s.db.idGen.next d') :
      KeptTables s.dir s.db.idGen.next d' := (h.ongoing b hOngoing).symm.trans hd' le_rfl
  exact (Call.run_kept (keptTables_closed b.base _) (.refl _ _) h.confined b.call).mono
    (fun _ _ d' h => ⟨h.1, hKept d' h.2, h.2⟩) fun _ _ d' h => ⟨h.1, hKept d' h.2, h.2⟩

omit [Crc32c] in
/-- A call has ended. -/
theorem Serving.Ok.ended (h : s.Ok) {db : Db} {d : Dir}
    (hAdvances : s.db.Advances s.db.idGen.next db d) (hKept : KeptTables s.dir s.db.idGen.next d) :
    Serving.Ok { s with db, dir := d, ongoing := none } ∧
      s.Keeps { s with db, dir := d, ongoing := none } := by
  have hNext := hAdvances.confined.fresh
  refine ⟨⟨{ hAdvances.confined with fresh := le_rfl }, ⟨fun n r hr => ?_, fun level f hf => ?_⟩,
    fun r hr => (h.readers r hr).kept hKept hNext, by simp⟩, ⟨hNext, hKept⟩⟩
  · obtain ⟨hNumber, hTable⟩ := h.readable.cache n r (hAdvances.cache n r hr)
    exact ⟨hNumber.trans_le hNext, (hKept.reader hNumber).trans hTable⟩
  · rcases hAdvances.files level f hf with hf | ⟨-, hNumber, hTable⟩
    · obtain ⟨hNumber, es, hTable⟩ := h.readable.files level f hf
      exact ⟨hNumber.trans_le hNext, es, (hKept.table hNumber).trans hTable⟩
    · exact ⟨hNumber, hTable⟩

omit [Crc32c] in
theorem Serving.Ok.start (h : s.Ok) {c : Call} (hStep : s.start c = some s') :
    s'.Ok ∧ s.Keeps s' := by
  have hStarted : Serving.Ok { s with ongoing := some ⟨c, s.dir, []⟩ } ∧
      s.Keeps { s with ongoing := some ⟨c, s.dir, []⟩ } := by
    refine ⟨⟨h.confined, h.readable, h.readers, fun b hb => ?_⟩, ⟨le_rfl, .refl _ _⟩⟩
    obtain rfl := Option.some.inj hb
    exact .refl _ _
  unfold Serving.start at hStep
  split at hStep
  · contradiction
  · split at hStep
    · contradiction
    · exact Option.some.inj hStep ▸ hStarted
  · split at hStep
    · contradiction
    · exact Option.some.inj hStep ▸ hStarted
  · exact Option.some.inj hStep ▸ hStarted

theorem Serving.Ok.progress (h : s.Ok) (hOngoing : s.ongoing = some b) {os : List Outcome} {n : Nat}
    (hStep : s.progress os n b = some s') : s'.Ok ∧ s.Keeps s' := by
  have hSpec := h.called hOngoing
  unfold Serving.progress at hStep
  split at hStep
  · split at hStep
    · next db' w hRun =>
      obtain ⟨-, hKept, hBase⟩ := ((Effects.wp_error hRun).mp (hSpec _ fun _ _ => trivial)).1
      obtain rfl := Option.some.inj hStep
      refine ⟨⟨h.confined, ⟨h.readable.cache.mono le_rfl fun n hn => hKept.reader hn,
        fun level f hf => ?_⟩, fun r hr => (h.readers r hr).kept hKept le_rfl, fun b' hb' => ?_⟩,
        ⟨le_rfl, hKept⟩⟩
      · obtain ⟨hNumber, es, hTable⟩ := h.readable.files level f hf
        exact ⟨hNumber, es, (hKept.table hNumber).trans hTable⟩
      · obtain rfl := Option.some.inj hb'
        exact hBase
    · contradiction
  · contradiction

theorem Serving.Ok.finish (h : s.Ok) (hOngoing : s.ongoing = some b) {os : List Outcome}
    (hStep : s.finish os b = some s') : s'.Ok ∧ s.Keeps s' := by
  have hSpec := h.called hOngoing
  unfold Serving.finish at hStep
  split at hStep
  · split at hStep
    · next db w hRun =>
      obtain ⟨hAdvances, hKept, -⟩ := Spec.returned hRun hSpec fun _ _ => trivial
      exact Option.some.inj hStep ▸ h.ended hAdvances hKept
    · next e db w hRun =>
      obtain ⟨hAdvances, hKept, -⟩ := ((Effects.wp_error hRun).mp (hSpec os fun _ _ => trivial)).1
      exact Option.some.inj hStep ▸ h.ended hAdvances hKept
    · contradiction
  · contradiction

/-- Every step leaves the tables of the database alone and the readers on their way. -/
theorem Serving.Ok.step (h : s.Ok) {a : ServingStep} (hStep : s.step a = some s') :
    s'.Ok ∧ s.Keeps s' := by
  cases a with
  | start c => exact h.start hStep
  | progress os n =>
    obtain ⟨b, hb, hStep⟩ := Option.bind_eq_some_iff.mp hStep
    exact h.progress hb hStep
  | finish os =>
    obtain ⟨b, hb, hStep⟩ := Option.bind_eq_some_iff.mp hStep
    exact h.finish hb hStep
  | get key => exact h.newReader hStep
  | getAt seq key => exact h.newReader hStep
  | ask i =>
    obtain ⟨r, hr, hStep⟩ := Option.bind_eq_some_iff.mp hStep
    exact h.ask hr hStep
  | openTable i o =>
    obtain ⟨r, hr, hStep⟩ := Option.bind_eq_some_iff.mp hStep
    exact h.openTable hr hStep
  | keep i =>
    obtain ⟨r, hr, hStep⟩ := Option.bind_eq_some_iff.mp hStep
    exact h.keep hr hStep
  | evict n =>
    obtain rfl := Option.some.inj hStep
    exact ⟨h.withCache (h.readable.cache.evict n), ⟨le_rfl, .refl _ _⟩⟩

theorem Serving.Ok.run (h : s.Ok) {steps : List ServingStep}
    (hRun : Steps.run Serving.step steps s = some s') : s'.Ok ∧ s.Keeps s' := by
  induction steps generalizing s with
  | nil => exact Option.some.inj hRun ▸ ⟨h, .refl s⟩
  | cons a steps ih =>
    obtain ⟨s₁, hStep, hRun⟩ := Option.bind_eq_some_iff.mp hRun
    obtain ⟨hOk, hKeeps⟩ := h.step hStep
    obtain ⟨hOk', hKeeps'⟩ := ih hOk hRun
    exact ⟨hOk', hKeeps.trans hKeeps'⟩

end Calling

section Orderly

variable [Crc32c]

/-- A database that is open after calls, closings and openings of which none failed, from an empty
directory on, or that was opened after the machine stopped in such a run. -/
inductive Orderly : Running → Prop
  | ran {options : Options} {ops : List Op} {s0 s : Running} : opened options ∅ = some s0 →
      Along Op.Sound ops s0 → opsRun ops s0 = some s → Orderly s
  | recovered {options options' : Options} {ops : List Op} {next : Option Op} {s0 s s' : Running}
      {d d' : Dir} : opened options ∅ = some s0 →
      Along (fun op s => op.Ready s ∧ s.Ample) ops s0 → opsRun ops s0 = some s → s.Ample →
      (∀ op ∈ next, op.Ready s) → Stopped next s d → Survives d d' →
      opened options' d' = some s' → Orderly s'
  | begun {options options' : Options} {s' : Running} {d d' : Dir} :
      StopsIn (Db.open options : St Unit Db) () ∅ d → Survives d d' →
      opened options' d' = some s' → Orderly s'

omit [Crc32c] in
/-- An open database that nobody uses yet. -/
def Serving.idle (s : Running) : Serving :=
  { db := s.db, dir := s.dir, ongoing := none, readers := [] }

variable {s : Running} {d : Dir} {options : Options}

omit [Crc32c] in
theorem Serving.idle_ok (hConfined : s.db.Confined s.db.idGen.next)
    (hReadable : Readable s.dir s.db s.db.idGen.next) : (Serving.idle s).Ok :=
  ⟨hConfined, hReadable, fun _ hr => absurd hr List.not_mem_nil, by simp [Serving.idle]⟩

theorem Running.Ok.idle {flushed : Nat} {log : List WalEntry} (h : s.Ok flushed log) :
    (Serving.idle s).Ok := by
  obtain ⟨-, B, records, edits, hAt, -⟩ := h.inv.manifest
  obtain ⟨B', hWal⟩ := h.inv.wal
  have hManifest : s.db.versionSet.manifestWriter.wal.name = .manifest _ := hAt.writer
  have hReadable := h.inv.readable
  refine Serving.idle_ok ⟨?_, ?_, le_rfl, fun hEntries hNil => ?_⟩ ⟨?_, fun level f hf => ?_⟩
  · rw [hWal.writer]
    exact isLogName_log _
  · rw [hManifest]
    exact isLogName_manifest _
  · rw [h.inv.mem.count, hNil] at hEntries
    exact hEntries rfl
  · exact hReadable.cache.mono h.inv.next fun _ _ => rfl
  · obtain ⟨hNumber, hTable⟩ := hReadable.files level f hf
    exact ⟨hNumber.trans_le h.inv.next, hTable⟩

theorem opened_confined (h : opened options d = some s) : s.db.Confined s.db.idGen.next := by
  have hTrue : Closed (fun _ => True) 0 :=
    ⟨fun _ _ => trivial, fun _ _ _ => trivial, fun _ _ => trivial, fun _ _ => trivial⟩
  unfold opened at h
  split at h
  · next db y w hRun =>
    obtain ⟨hConfined, -⟩ := Spec.returned (A := Any) hRun
      (open_db_keeping hTrue options d trivial) fun _ _ => trivial
    exact Option.some.inj h ▸ { hConfined with fresh := le_rfl }
  · contradiction

/-- A database that was opened with the tables that its manifest names. -/
theorem Openable.idle {number : Nat} {state : VersionState} {log : List WalEntry}
    (h : Openable d number state log)
    (hTables : ∀ level, ∀ f ∈ state.current.filesAt level, d.TableOnDisk f.number)
    (hOpened : opened options d = some s) : (Serving.idle s).Ok := by
  obtain ⟨r, hRun, hRe⟩ := h.reopens options
  obtain rfl := Option.some.inj (hOpened.symm.trans hRun)
  refine Serving.idle_ok (opened_confined hOpened) ⟨?_, fun level f hf => ?_⟩
  · rw [hRe.cache]
    exact .empty _ _ _
  · rcases hRe.file hf with hf | ⟨hNumber, hDesc⟩
    · obtain ⟨es, hTable⟩ := (hTables level f hf).of_lookup (hRe.tables level f hf)
      have := h.numbered.below level f hf
      have := hRe.numbers.1
      exact ⟨by rw [hRe.next]; omega, es, hTable.table⟩
    · exact ⟨by rw [hRe.next, hNumber]; exact hRe.numbers.1, _, hDesc.table.table⟩

theorem Orderly.idle (h : Orderly s) : (Serving.idle s).Ok := by
  cases h with
  | @ran options ops s0 _ hStart hOps hRun =>
    obtain ⟨s', hRun', ⟨flushed, log, hOk⟩, -⟩ := Along.run (P := fun _ _ => True)
      (fun _ _ h => h) (fun _ _ _ _ _ _ _ _ _ _ => trivial) hOps (opened_new hStart).1 trivial
    obtain rfl := Option.some.inj (hRun.symm.trans hRun')
    exact hOk.idle
  | @recovered options options' ops next s0 s₁ _ d d' hStart hOps hRun hAmple hReady
      hStopped hSurvives
      hOpened =>
    obtain ⟨⟨flushed, log, hOk⟩, hDurable⟩ :=
      ops_durable hOps (opened_new hStart).1 (opened_durable hStart) hRun
    have hRestores : Restores d fun _ => True :=
      hStopped.restores hOk hDurable hReady hAmple (fun _ _ _ => trivial) fun _ _ =>
        ⟨fun _ _ _ => trivial, fun _ _ => trivial, fun _ _ _ _ _ _ _ _ _ => trivial⟩
    obtain ⟨number, state, log, hOpenable, hTables, -⟩ := hRestores d' hSurvives
    exact hOpenable.idle hTables hOpened
  | @begun options options' _ d d' hStops hSurvives hOpened =>
    obtain ⟨-, -, -, hCut⟩ := hStops.of_spec (open_new_spec options halts_stops (by simp))
    by_cases hMem : .current ∈ d'
    · have hBegun := hCut.resolve_left (not_not.mpr (hSurvives.mem_iff.mp hMem))
      refine (hBegun.openable hSurvives).idle (fun level f hf => ?_) hOpened
      rw [initialState_filesAt] at hf
      contradiction
    · have hEmpty : ∀ name, name ∉ d' := by
        intro name hName
        rw [opened_refuses hName hMem] at hOpened
        contradiction
      obtain ⟨db, ⟨⟩, w, hRun, -, hInv, hCreated, -⟩ :=
        ((open_new_spec options' (A := Quiet) (x := ())
        halts_quiet hEmpty).quiet fun _ _ _ hE => hE.2.1).run
      rw [opened, hRun, Option.some.injEq] at hOpened
      subst hOpened
      exact Running.Ok.idle ⟨hInv, hCreated.mem⟩

/-- Whatever goes on between the steps of a reader, it returns what it would have got under the
lock, and fails only when a file-system call of its own does; and no table of a version that was
ever the current one changes or goes. -/
theorem reads_atomic (h : Orderly s) {steps : List ServingStep} {s₁ : Serving}
    (hRun : Steps.run Serving.step steps (.idle s) = some s₁) :
    (∀ r ∈ s₁.readers, (∀ value, r.phase = .done value → r.atomic = some value) ∧
      ∀ o e, r.phase = .failed o e → o ≠ .ok) ∧
    ∀ later s₂, Steps.run Serving.step later s₁ = some s₂ →
      ∀ level, ∀ f ∈ s₁.db.versionSet.current.filesAt level,
        (∃ es, s₁.dir.table f.number = some es) ∧
          s₂.dir.lookup (.sst f.number) = s₁.dir.lookup (.sst f.number) := by
  obtain ⟨hOk, -⟩ := h.idle.run hRun
  refine ⟨fun r hr => ⟨fun value hPhase => ?_, fun o e hPhase => ?_⟩, fun later s₂ hLater => ?_⟩
  · have hSound := hOk.readers r hr
    rwa [Reader.Sound, hPhase] at hSound
  · have hSound := hOk.readers r hr
    rwa [Reader.Sound, hPhase] at hSound
  · intro level f hf
    obtain ⟨hNumber, hTable⟩ := hOk.readable.files level f hf
    exact ⟨hTable, (hOk.run hLater).2.tables _ hNumber⟩

end Orderly

/-- A reader misses the cache, a compaction begins, the reader opens its file while the compaction
writes, the compaction fails to commit and a second one does not, and the file is evicted. -/
def overtaken : List ServingStep :=
  [.getAt 1 [97], .ask 0, .start .compact, .progress [.ok, .ok, .ok] 0, .openTable 0 .ok,
    .finish (.replicate 10 .ok ++ [.fail 0]), .start .compact, .finish [], .evict 3, .keep 0]

theorem reads_atomic_overtaken :
    ∃ s s₁, Orderly s ∧ Steps.run Serving.step overtaken (.idle s) = some s₁ ∧
      ∃ r ∈ s₁.readers, r.phase = .done (.ok (some [1])) ∧ r.atomic = some (.ok (some [1])) := by
  have h : (opened eager ∅).any (fun s0 => Along Op.Sound [.put [97] [1]] s0 ∧
      (opsRun [.put [97] [1]] s0).any fun s =>
        (Steps.run Serving.step overtaken (.idle s)).any fun s₁ =>
          s₁.readers.any fun r => match r.phase with
            | .done (.ok value) => decide (value = some [1])
            | _ => false) = true := by
    decide +kernel
  obtain ⟨s0, hStart, h⟩ := (Option.any_eq_true _ _).mp h
  obtain ⟨hOps, h⟩ := of_decide_eq_true h
  obtain ⟨s, hRun, h⟩ := (Option.any_eq_true _ _).mp h
  obtain ⟨s₁, hSteps, h⟩ := (Option.any_eq_true _ _).mp h
  obtain ⟨r, hr, h⟩ := List.any_eq_true.mp h
  have hOrderly : Orderly s := .ran hStart hOps hRun
  split at h
  · next value hPhase =>
    obtain rfl := of_decide_eq_true h
    exact ⟨s, s₁, hOrderly, hSteps, r, hr, hPhase,
      ((reads_atomic hOrderly hSteps).1 r hr).1 _ hPhase⟩
  · contradiction

end MulanLsm
