import MulanLsm.Background
import MulanLsm.Library.Turns
import MulanLsm.Lifetimes

/-! Threads beside a sequence of calls.  The threads that use a database leave what one caller
leaves who makes their calls, and the compactions of the background thread, in the order in which
they have the lock.  So the database is what is left of that sequence too when the machine stops. -/

namespace MulanLsm

open Wakeups (State)

/-- The call of a sequence that does what the request does.  An empty key is refused, and a snapshot
that is dropped has no place of its own in the registry. -/
def Access.op : Access → Option Op
  | put key value => if key = [] then none else some (.put key value)
  | delete key => if key = [] then none else some (.delete key)
  | compactOnce => some .compact
  | newSnapshot => some .snapshot
  | dropSnapshot _ => none

/-- A key and a value that are not refused fit their length fields. -/
def Access.Fits : Access → Prop
  | put key value => key ≠ [] → Writable key value
  | delete key => key ≠ [] → Writable key []
  | _ => True

instance : DecidablePred Access.Fits
  | .put key value => inferInstanceAs (Decidable (key ≠ [] → Writable key value))
  | .delete key => inferInstanceAs (Decidable (key ≠ [] → Writable key []))
  | .compactOnce | .newSnapshot | .dropSnapshot _ => isTrue trivial

def Op.isRelease : Op → Bool
  | release _ => true
  | _ => false

theorem Access.op_put {key value : Bytes} {op : Op} :
    (put key value).op = some op ↔ key ≠ [] ∧ Op.put key value = op := by
  simp [Access.op]

theorem Access.op_delete {key : Bytes} {op : Op} :
    (delete key).op = some op ↔ key ≠ [] ∧ Op.delete key = op := by
  simp [Access.op]

theorem Access.op_kept {r : Access} {op : Op} (hOp : r.op = some op) : op.isRelease = false := by
  cases r with
  | put key value =>
    obtain ⟨-, rfl⟩ := op_put.mp hOp
    rfl
  | delete key =>
    obtain ⟨-, rfl⟩ := op_delete.mp hOp
    rfl
  | compactOnce => exact Option.some.inj hOp ▸ rfl
  | newSnapshot => exact Option.some.inj hOp ▸ rfl
  | dropSnapshot seq => contradiction

/-- The call that a turn makes. -/
def asked {ι : Type} : Wakeups.Turn ι Access → Option Op
  | .client _ r => r.op
  | .server => some .compact

/-- The database as one caller sees it, who holds some snapshots. -/
def Shared.running (s : Shared) (guards : List Guard) : Running :=
  { db := s.db, dir := s.dir, guards }

/-- Every snapshot that is registered is held. -/
def Running.Registered (s : Running) : Prop :=
  ∀ q ∈ s.db.versionSet.snapshots, ∃ g ∈ s.guards, g.seq = q

section Following

variable [Crc32c] {s s' : Running} {t t' : Shared} {flushed : Nat} {log : List WalEntry} {op : Op}
  {r : Access} {notifies : Bool} {guards : List Guard}

theorem Did.registered (h : Did s s' flushed log op) (hRegistered : s.Registered) :
    s'.Registered := by
  have hSame (hGuards : s'.guards = s.guards)
      (hSnapshots : s'.db.versionSet.snapshots = s.db.versionSet.snapshots) : s'.Registered := by
    unfold Running.Registered
    rwa [hGuards, hSnapshots]
  cases h with
  | @write _ e s₁ hEntry hWrites hOk₁ hRest =>
    have hVersion := hWrites.applied.version
    split at hRest
    · refine hSame (hRest.guards.trans hWrites.guards) ?_
      rw [hRest.flushed.snapshots, hVersion]
    · subst hRest
      exact hSame hWrites.guards (by rw [hVersion])
  | flush hFlushes => exact hSame hFlushes.guards hFlushes.flushed.snapshots
  | compact hCompacts => exact hSame hCompacts.guards hCompacts.compacted.snapshots
  | keep _ _ hGuards hSnapshots => exact hSame hGuards hSnapshots
  | snapshot _ hGuards hSnapshots =>
    intro q hq
    rw [hSnapshots, List.mem_append, List.mem_singleton] at hq
    rw [hGuards]
    rcases hq with hq | rfl
    · obtain ⟨g, hg, hSeq⟩ := hRegistered q hq
      exact ⟨g, List.mem_append_left _ hg, hSeq⟩
    · exact ⟨_, List.mem_append_right _ (List.mem_singleton_self _), rfl⟩
  | @release i g₀ hGet _ hGuards hSnapshots =>
    intro q hq
    rw [hSnapshots, List.mem_filter, decide_eq_true_eq] at hq
    obtain ⟨g, hg, rfl⟩ := hRegistered q hq.1
    obtain ⟨j, hj⟩ := List.mem_iff_getElem?.mp hg
    refine ⟨g, ?_, rfl⟩
    rw [hGuards, List.mem_eraseIdx_iff_getElem?]
    refine ⟨j, ?_, hj⟩
    rintro rfl
    obtain rfl := Option.some.inj (hGet.symm.trans hj)
    exact hq.2 rfl
  | reopen hReopens =>
    intro q hq
    rw [hReopens.reopened.snapshots] at hq
    contradiction

omit [Crc32c] in
/-- What a call that returns has run. -/
theorem Running.call_ok {α : Type} {m : St Db α} (h : s.call m = some s') :
    ∃ a w, m (s.db, ⟨s.dir, []⟩) = .ok a (s'.db, w) ∧ w.dir = s'.dir ∧ s'.guards = s.guards := by
  unfold Running.call at h
  split at h
  · next a db w hRun =>
    cases h
    exact ⟨a, w, hRun, rfl, rfl⟩
  · contradiction

/-- The request runs what the call runs. -/
theorem Access.op_run (hOp : r.op = some op) (hRun : op.run s = some s') :
    ∃ w, r.call.run (s.db, ⟨s.dir, []⟩) = .ok () (s'.db, w) ∧ w.dir = s'.dir ∧
      (op.Plain → s'.guards = s.guards) := by
  cases r with
  | put key value =>
    obtain ⟨-, rfl⟩ := op_put.mp hOp
    rw [Op.run] at hRun
    split at hRun
    · contradiction
    · obtain ⟨⟨⟩, w, hPut, hDir, hGuards⟩ := Running.call_ok hRun
      exact ⟨w, hPut, hDir, fun _ => hGuards⟩
  | delete key =>
    obtain ⟨-, rfl⟩ := op_delete.mp hOp
    rw [Op.run] at hRun
    split at hRun
    · contradiction
    · obtain ⟨⟨⟩, w, hDelete, hDir, hGuards⟩ := Running.call_ok hRun
      exact ⟨w, hDelete, hDir, fun _ => hGuards⟩
  | compactOnce =>
    obtain rfl := Option.some.inj hOp
    obtain ⟨b, w, hCompact, hDir, hGuards⟩ := Running.call_ok hRun
    exact ⟨w, bind_ok hCompact, hDir, fun _ => hGuards⟩
  | newSnapshot =>
    obtain rfl := Option.some.inj hOp
    rw [Op.run] at hRun
    obtain ⟨s₁, hCall, rfl⟩ := Option.map_eq_some_iff.mp hRun
    obtain ⟨seq, w, hSnapshot, hDir, -⟩ := Running.call_ok hCall
    exact ⟨w, bind_ok hSnapshot, hDir, fun hPlain => hPlain.elim⟩
  | dropSnapshot seq => contradiction

omit [Crc32c] in
theorem releaseSnapshot_of_not_mem {vs : VersionSet} {seq : Nat} (h : seq ∉ vs.snapshots) :
    vs.releaseSnapshot seq = vs := by
  unfold VersionSet.releaseSnapshot
  rw [List.filter_eq_self.mpr]
  intro q hq
  exact decide_eq_true fun hEq => h (hEq ▸ hq)

omit [Crc32c] in
@[simp] theorem maybeScheduleCompaction_dir (s : Shared) :
    s.maybeScheduleCompaction.dir = s.dir := by
  rcases maybeScheduleCompaction_cases s with h | h <;> rw [h]

theorem Shared.serve_ok {db : Db} {w : World}
    (hRun : r.call.run (t.db, ⟨t.dir, []⟩) = .ok () (db, w))
    (hServe : t.serve r [] = some (t', notifies)) : t'.db = db ∧ t'.dir = w.dir := by
  unfold Shared.serve at hServe
  rw [hRun] at hServe
  obtain ⟨rfl, -⟩ := Prod.mk.inj (Option.some.inj hServe)
  split
  · simp
  · exact ⟨rfl, rfl⟩

/-- A client that is served leaves what the call leaves. -/
theorem serve_run (hOp : r.op = some op) (hRun : op.run (t.running guards) = some s)
    (hServe : t.serve r [] = some (t', notifies)) :
    ∃ guards', s = t'.running guards' ∧ (op.Plain → guards' = guards) := by
  obtain ⟨w, hCall, hDir, hGuards⟩ := Access.op_run hOp hRun
  obtain ⟨hDb, hDir'⟩ := Shared.serve_ok hCall hServe
  refine ⟨s.guards, ?_, hGuards⟩
  rw [Shared.running, hDb, hDir', hDir]

theorem compact_run (hRun : Op.compact.run (t.running guards) = some s)
    (hTurn : t.compact [] = some t') : s = t'.running guards := by
  obtain ⟨b, w, hCompact, hDir, hGuards⟩ := Running.call_ok hRun
  have hSame : Db.runOneCompaction (t.db, ⟨t.dir, []⟩) = .ok b (s.db, w) := hCompact
  unfold Shared.compact at hTurn
  rw [hSame] at hTurn
  cases hTurn
  rw [Shared.running, hDir, ← show s.guards = guards from hGuards]

/-- An empty key is refused, and a snapshot that is dropped leaves the registry. -/
theorem Shared.serve_none (hOp : r.op = none) (hServe : t.serve r [] = some (t', notifies)) :
    t'.dir = t.dir ∧ (t'.db = t.db ∨
      ∃ seq, t'.db = { t.db with versionSet := t.db.versionSet.releaseSnapshot seq }) := by
  have hRefused {e : MulanError} (hRun : r.call.run (t.db, ⟨t.dir, []⟩) =
      .error (.error e) (t.db, ⟨t.dir, []⟩)) : t'.dir = t.dir ∧ t'.db = t.db := by
    unfold Shared.serve at hServe
    rw [hRun] at hServe
    obtain ⟨rfl, -⟩ := Prod.mk.inj (Option.some.inj hServe)
    exact ⟨rfl, rfl⟩
  cases r with
  | put key value =>
    obtain rfl : key = [] := by simpa [Access.op] using hOp
    exact (hRefused rfl).imp_right .inl
  | delete key =>
    obtain rfl : key = [] := by simpa [Access.op] using hOp
    exact (hRefused rfl).imp_right .inl
  | dropSnapshot seq =>
    obtain ⟨hDb, hDir⟩ := Shared.serve_ok (w := ⟨t.dir, []⟩) rfl hServe
    exact ⟨hDir, .inr ⟨seq, hDb⟩⟩
  | _ => contradiction

omit [Crc32c] in
/-- A request that fits and need not wait can be made. -/
theorem Access.ready (hOp : r.op = some op) (hFits : r.Fits)
    (hGoes : (r.writes && s.db.stalled) = false) : op.Ready s := by
  cases r with
  | put key value =>
    obtain ⟨hKey, rfl⟩ := op_put.mp hOp
    exact ⟨hFits hKey, by simpa [Access.writes, hKey] using hGoes⟩
  | delete key =>
    obtain ⟨hKey, rfl⟩ := op_delete.mp hOp
    exact ⟨hFits hKey, by simpa [Access.writes, hKey] using hGoes⟩
  | compactOnce =>
    obtain rfl := Option.some.inj hOp
    trivial
  | newSnapshot =>
    obtain rfl := Option.some.inj hOp
    trivial
  | dropSnapshot seq => contradiction

end Following

section Linearizing

variable [Crc32c] {ι : Type} [DecidableEq ι] [Fintype ι] {s0 : Running} {t t' : Shared}
  {guards guards' : List Guard} {op : Op} {ops : List Op} {ts turn : List (Wakeups.Turn ι Access)}
  {m m' : State ι Shared Access} {a : Wakeups.Step ι Access (List Outcome)} {options : Options}

/-- No file-system call fails in the step, what is served fits, the counters have room for it, and
the database is not closed. -/
def Smooth (a : Wakeups.Step ι Access (List Outcome)) (m : State ι Shared Access) : Prop :=
  match a with
  | .enter i os => os = [] ∧ (m.shared.running []).Ample ∧ ∀ r ∈ (m.clients i).inHand, r.Fits
  | .turn os => os = [] ∧ (m.shared.running []).Ample
  | .close _ => False
  | _ => True

instance : ∀ (a : Wakeups.Step ι Access (List Outcome)) (m : State ι Shared Access),
    Decidable (Smooth a m)
  | .enter i os, m => inferInstanceAs (Decidable
    (os = [] ∧ (m.shared.running []).Ample ∧ ∀ r ∈ (m.clients i).inHand, r.Fits))
  | .turn os, m => inferInstanceAs (Decidable (os = [] ∧ (m.shared.running []).Ample))
  | .close _, _ => isFalse id
  | .request _ _, _ | .notify _ _, _ | .wakeUp _, _ => isTrue trivial

/-- What the step of a thread does to the database: nothing, or it drops a snapshot, or it makes the
call that it stands for. -/
inductive Turned (t t' : Shared) (guards : List Guard) : Option Op → Prop
  | same : t'.db = t.db → t'.dir = t.dir → Turned t t' guards none
  | drops {seq : Nat} : (t.running []).Ample → t'.dir = t.dir →
      t'.db = { t.db with versionSet := t.db.versionSet.releaseSnapshot seq } →
      Turned t t' guards none
  | makes {op : Op} {guards' : List Guard} : op.Ready (t.running guards) → (t.running []).Ample →
      op.run (t.running guards) = some (t'.running guards') → (op.Plain → guards' = guards) →
      op.isRelease = false → Turned t t' guards (some op)

theorem Smooth.turned (hSmooth : Smooth a m) (hStep : Wakeups.step background m a = some m')
    {flushed : Nat} {log : List WalEntry} (hOk : (m.shared.running guards).Ok flushed log) :
    Turned m.shared m'.shared guards ((Wakeups.served background m a).bind asked) := by
  obtain ⟨turn, hServed, hShares⟩ := Wakeups.step_shares hStep
  rw [hServed]
  cases hShares with
  | same hSame => exact .same (by rw [hSame]) (by rw [hSame])
  | parks _ _ hPark =>
    rw [← hPark]
    exact .same (maybeScheduleCompaction_db _) (maybeScheduleCompaction_dir _)
  | @serves i os r notifies hi hGoes hServe =>
    obtain ⟨rfl, hAmple, hFits⟩ := hSmooth
    rw [hi] at hFits
    show Turned m.shared m'.shared guards r.op
    cases hOp : r.op with
    | none =>
      obtain ⟨hDir, hDb | ⟨seq, hDb⟩⟩ := Shared.serve_none hOp hServe
      · exact .same hDb hDir
      · exact .drops hAmple hDir hDb
    | some op =>
      have hReady : op.Ready (m.shared.running guards) :=
        Access.ready hOp (hFits r (List.mem_singleton_self r)) hGoes
      obtain ⟨s', hRun, -, -⟩ := Op.Sound.run ⟨hReady, { hAmple.room with }⟩ hOk
      obtain ⟨guards', rfl, hGuards⟩ := serve_run hOp hRun hServe
      exact .makes hReady hAmple hRun hGuards (Access.op_kept hOp)
  | turns _ _ hTurn =>
    obtain ⟨rfl, hAmple⟩ := hSmooth
    have hSound : Op.compact.Sound (m.shared.running guards) := ⟨trivial, { hAmple.room with }⟩
    obtain ⟨s', hRun, -, -⟩ := hSound.run hOk
    obtain rfl := compact_run hRun hTurn
    exact .makes trivial hAmple hRun (fun _ => rfl) rfl
  | closes => exact hSmooth.elim

/-- After the turns `ts` the threads have left what the calls `ops` leave, the same but for dropped
snapshots. -/
structure Follows (s0 : Running) (ts : List (Wakeups.Turn ι Access)) (t : Shared) (ops : List Op)
    (guards : List Guard) : Prop where
  sound : Along Op.Sound ops s0
  run : opsRun ops s0 = some (t.running guards)
  calls : ops.filter (!·.isRelease) = ts.filterMap asked
  registered : (t.running guards).Registered
  ok : ∃ flushed log, (t.running guards).Ok flushed log

omit [DecidableEq ι] [Fintype ι] in
theorem Follows.same (h : Follows s0 ts t ops guards) (hDb : t'.db = t.db) (hDir : t'.dir = t.dir)
    (hNone : turn.filterMap asked = []) : Follows s0 (ts ++ turn) t' ops guards := by
  have hSame : t'.running guards = t.running guards := by
    rw [Shared.running, hDb, hDir, Shared.running]
  refine ⟨h.sound, hSame ▸ h.run, ?_, hSame ▸ h.registered, hSame ▸ h.ok⟩
  rw [List.filterMap_append, hNone, List.append_nil, h.calls]

omit [DecidableEq ι] [Fintype ι] in
theorem Follows.call (h : Follows s0 ts t ops guards) (hSound : op.Sound (t.running guards))
    (hRun : op.run (t.running guards) = some (t'.running guards'))
    (hCalls : [op].filter (!·.isRelease) = turn.filterMap asked) :
    Follows s0 (ts ++ turn) t' (ops ++ [op]) guards' := by
  obtain ⟨flushed, log, hOk⟩ := h.ok
  obtain ⟨s', hRun', hOk', hDid⟩ := hSound.run hOk
  obtain rfl := Option.some.inj (hRun.symm.trans hRun')
  refine ⟨along_append.mpr ⟨h.sound, fun s' hs' => ?_⟩, ?_, ?_, hDid.registered h.registered, hOk'⟩
  · obtain rfl := Option.some.inj (h.run.symm.trans hs')
    exact ⟨hSound, fun _ _ => trivial⟩
  · rw [opsRun, List.foldlM_append]
    refine Option.bind_eq_some_iff.mpr ⟨_, h.run, ?_⟩
    rw [List.foldlM_cons, hRun]
    rfl
  · rw [List.filter_append, List.filterMap_append, h.calls, hCalls]

omit [DecidableEq ι] [Fintype ι] in
/-- A snapshot that is dropped is released, if it is registered. -/
theorem Follows.release (h : Follows s0 ts t ops guards) (hAmple : (t.running []).Ample) {seq : Nat}
    (hDb : t'.db = { t.db with versionSet := t.db.versionSet.releaseSnapshot seq })
    (hDir : t'.dir = t.dir) (hNone : turn.filterMap asked = []) :
    ∃ ops guards, Follows s0 (ts ++ turn) t' ops guards := by
  by_cases hHeld : seq ∈ t.db.versionSet.snapshots
  · obtain ⟨g, hg, rfl⟩ := h.registered seq hHeld
    obtain ⟨i, hi, hGet⟩ := List.mem_iff_getElem.mp hg
    have hSound : (Op.release i).Sound (t.running guards) := ⟨hi, { hAmple.room with }⟩
    refine ⟨_, guards.eraseIdx i, h.call hSound ?_ hNone.symm⟩
    have hGuard : (t.running guards).guards[i]? = some g := by
      rw [← hGet]
      exact List.getElem?_eq_getElem hi
    have hLeft : t'.running (guards.eraseIdx i) = ⟨{ t.db with
        versionSet := t.db.versionSet.releaseSnapshot g.seq }, t.dir, guards.eraseIdx i⟩ := by
      rw [Shared.running, hDb, hDir]
    rw [Op.run, hGuard, hLeft]
    rfl
  · exact ⟨ops, guards, h.same (by rw [hDb, releaseSnapshot_of_not_mem hHeld]) hDir hNone⟩

theorem Follows.step (h : Follows s0 ts m.shared ops guards) (hSmooth : Smooth a m)
    (hStep : Wakeups.step background m a = some m') :
    ∃ ops guards,
      Follows s0 (ts ++ (Wakeups.served background m a).toList) m'.shared ops guards := by
  obtain ⟨flushed, log, hOk⟩ := h.ok
  have hTurned := hSmooth.turned hStep hOk
  have hCalls : (Wakeups.served background m a).toList.filterMap asked =
      ((Wakeups.served background m a).bind asked).toList := by
    rw [Option.toList_bind, List.filterMap_eq_flatMap_toList]
    rfl
  generalize (Wakeups.served background m a).bind asked = call at hTurned hCalls
  cases hTurned with
  | same hDb hDir => exact ⟨ops, guards, h.same hDb hDir hCalls⟩
  | drops hAmple hDir hDb => exact h.release hAmple hDb hDir hCalls
  | @makes op guards' hReady hAmple hRun _ hKept =>
    refine ⟨_, guards', h.call ⟨hReady, { hAmple.room with }⟩ hRun ?_⟩
    rw [hCalls]
    simp [hKept]

/-- Threads that take turns with the lock leave what one caller leaves who makes their calls and the
background compactions in the order of the turns; and each thread has been served with what it asked
for, in this order, but for the request that it waits with.  The caller drops snapshots as well, at
places among the calls that are left open. -/
theorem threads_linearize (hStart : opened options ∅ = some s0)
    {as : List (Wakeups.Step ι Access (List Outcome))}
    (hSmooth : Steps.Always (Wakeups.step background) Smooth as (.start (.opened s0.db s0.dir)))
    (hRun : Steps.run (Wakeups.step background) as (.start (.opened s0.db s0.dir)) = some m) :
    (∃ ops s, Along Op.Sound ops s0 ∧ opsRun ops s0 = some s ∧ s.db = m.shared.db ∧
        s.dir = m.shared.dir ∧ ops.filter (!·.isRelease) =
          (Wakeups.turns background as (.start (.opened s0.db s0.dir))).filterMap asked) ∧
      ∀ i, as.filterMap (Wakeups.Step.asks i) =
        (Wakeups.turns background as (.start (.opened s0.db s0.dir))).filterMap
          (Wakeups.Turn.of i) ++ (m.clients i).inHand := by
  obtain ⟨hOk, hCreated, hGuards⟩ := opened_new hStart
  have hSame : (Shared.opened s0.db s0.dir).running [] = s0 := by
    rw [← hGuards]
    rfl
  have hNew : Follows s0 ([] : List (Wakeups.Turn ι Access)) (.opened s0.db s0.dir) [] [] := by
    refine ⟨trivial, by rw [hSame]; rfl, rfl, ?_, 0, [], by rwa [hSame]⟩
    intro q hq
    rw [hSame, hCreated.snapshots] at hq
    contradiction
  obtain ⟨ops, guards, hFollows⟩ := Wakeups.turns_followed
    (R := fun ts m => ∃ ops guards, Follows s0 ts m.shared ops guards)
    (fun ts m a m' h hSmooth hStep => by
      obtain ⟨ops, guards, h⟩ := h
      exact h.step hSmooth hStep) ⟨[], [], hNew⟩ hSmooth hRun
  refine ⟨⟨ops, _, hFollows.sound, hFollows.run, rfl, rfl, hFollows.calls⟩, fun i => ?_⟩
  exact Wakeups.served_in_order hRun i

end Linearizing

/-- Of two threads that write a key, the second is served first, and there is a compaction in
between. -/
theorem threads_linearize_two :
    let as : List (Wakeups.Step (Fin 2) Access (List Outcome)) :=
      [.request 0 (.put [97] [1]), .request 1 (.put [97] [2]), .enter 1 [], .turn [], .enter 0 [],
        .notify 1 none]
    ∃ (s0 : Running) (m : State (Fin 2) Shared Access), opened eagerly ∅ = some s0 ∧
      Steps.run (Wakeups.step background) as (.start (.opened s0.db s0.dir)) = some m ∧
      (∃ ops s, Along Op.Sound ops s0 ∧ opsRun ops s0 = some s ∧ s.db = m.shared.db ∧
        s.dir = m.shared.dir ∧ ops.filter (!·.isRelease) =
          (Wakeups.turns background as (.start (.opened s0.db s0.dir))).filterMap asked) ∧
      ∀ i, as.filterMap (Wakeups.Step.asks i) =
        (Wakeups.turns background as (.start (.opened s0.db s0.dir))).filterMap
          (Wakeups.Turn.of i) ++ (m.clients i).inHand := by
  intro as
  have h : (opened eagerly ∅).any (fun s0 =>
      Steps.Always (Wakeups.step background) Smooth as (.start (.opened s0.db s0.dir)) ∧
        (Steps.run (Wakeups.step background) as (.start (.opened s0.db s0.dir))).isSome) =
      true := by
    decide +kernel
  obtain ⟨s0, hStart, h⟩ := (Option.any_eq_true _ _).mp h
  obtain ⟨hSmooth, h⟩ := of_decide_eq_true h
  obtain ⟨m, hRun⟩ := Option.isSome_iff_exists.mp h
  exact ⟨s0, m, hStart, hRun, threads_linearize hStart hSmooth hRun⟩

/-- Threads have the database open, or the machine is down with a directory. -/
inductive Session (ι : Type)
  | up (m : State ι Shared Access)
  | down (d : Dir)

/-- A thread takes a step, which is a turn of one or not; the database is closed and opened again;
the machine stops, perhaps in a turn; or it opens the database, or stops in that. -/
inductive Session.Act (ι : Type)
  | step (a : Wakeups.Step ι Access (List Outcome)) (turn : Option (Wakeups.Turn ι Access))
  | reopen (options : Options)
  | stop (turn : Option (Wakeups.Turn ι Access)) (synced : Bool)
  | start (options : Options)
  | stopStarting (options : Options)

namespace Session

/-- What the machine does that has one caller. -/
def Act.turns {ι : Type} : Act ι → List Turn
  | step _ turn => (turn.bind asked).toList.map .call
  | reopen options => [.call (.reopen options)]
  | stop turn synced => [.stop (turn.bind asked) synced]
  | start options => [.start options]
  | stopStarting options => [.stopStarting options]

/-- The calls that return. -/
def Act.returned {ι : Type} (act : Act ι) : List Op := act.turns.flatMap Turn.returned

def machine {ι : Type} : Session ι → Machine
  | up m => .up (m.shared.running [])
  | down d => .down d

section Crashing

variable [Crc32c] {ι : Type} [DecidableEq ι] [Fintype ι] {x x' : Session ι} {act : Act ι}
  {acts : List (Act ι)} {t : Histories.State Op} {s s0 : Running} {d : Dir} {options : Options}

/-- A thread has the lock, and the turn has begun. -/
def Going (m : State ι Shared Access) : Wakeups.Turn ι Access → Prop
  | .client i r => m.clients i = .entering r ∧ background.waits r m.shared = false ∧ r.Fits
  | .server => m.server = .ready ∧ m.shared.shuttingDown = false ∧ m.shared.rests = false

/-- What the threads and the machine may do.  The steps of threads are `Smooth` and take no
snapshots.  As with one caller, a directory is opened only if it is `Untorn`, and the machine stops
only where the counters have room for the next opening. -/
inductive Step : Session ι → Act ι → Session ι → Prop
  | step {m m' : State ι Shared Access} {a : Wakeups.Step ι Access (List Outcome)}
      {turn : Option (Wakeups.Turn ι Access)} : Smooth a m → (∀ op ∈ turn.bind asked, op.Plain) →
      Wakeups.step background m a = some m' → Wakeups.served background m a = turn →
      Step (up m) (.step a turn) (up m')
  | reopen {m : State ι Shared Access} {options : Options} {s : Running} :
      (∀ i, (m.clients i).isIdle) → (m.shared.running []).Ample →
      (Op.reopen options).run (m.shared.running []) = some s →
      Step (up m) (.reopen options) (up (.start (.opened s.db s.dir)))
  | stop {m : State ι Shared Access} {turn : Option (Wakeups.Turn ι Access)} {d d' : Dir} :
      (m.shared.running []).Ample → (∀ t ∈ turn, Going m t) →
      Stopped (turn.bind asked) (m.shared.running []) d → Reboots d d' →
      Step (up m) (.stop turn m.shared.db.options.syncWrites) (down d')
  | start {d : Dir} {options : Options} {s : Running} : d.Untorn → opened options d = some s →
      Step (down d) (.start options) (up (.start (.opened s.db s.dir)))
  | stopStarting {d d₁ d' : Dir} {options : Options} : d.Untorn → d.Roomy →
      StopsIn (Db.open options : St Unit Db) () d d₁ → Reboots d₁ d' →
      Step (down d) (.stopStarting options) (down d')

omit [DecidableEq ι] [Fintype ι] in
theorem machine_start (h : opened options d = some s) :
    (up (.start (.opened s.db s.dir)) : Session ι).machine = .up s := by
  unfold MulanLsm.opened at h
  split at h
  · cases h
    rfl
  · contradiction

/-- What the threads do the machine does that has one caller. -/
theorem Step.machine (h : Step x act x') (hTracks : x.machine.Tracks t) :
    Histories.Runs Machine.Step x.machine act.turns x'.machine := by
  cases h with
  | @step m m' a turn hSmooth hPlain hStep hServed =>
    cases hTracks with
    | up hTraced _ =>
    have hTurned := hSmooth.turned hStep hTraced.ok
    have hSame {t : Shared} (hDb : t.db = m.shared.db) (hDir : t.dir = m.shared.dir) :
        Histories.Runs Machine.Step (.up (m.shared.running [])) [] (.up (t.running [])) := by
      rw [show t.running [] = m.shared.running [] by rw [Shared.running, hDb, hDir, Shared.running]]
      exact .nil _
    rw [hServed] at hTurned
    show Histories.Runs Machine.Step (.up (m.shared.running []))
      ((turn.bind asked).toList.map .call) (.up (m'.shared.running []))
    generalize turn.bind asked = call at hTurned hPlain
    cases hTurned with
    | same hDb hDir => exact hSame hDb hDir
    | @drops seq _ hDir hDb =>
      have hUnheld : seq ∉ m.shared.db.versionSet.snapshots := by
        rw [show m.shared.db.versionSet.snapshots = [] from hTraced.unregistered]
        exact List.not_mem_nil
      exact hSame (by rw [hDb, releaseSnapshot_of_not_mem hUnheld]) hDir
    | @makes op guards hReady hAmple hRun hGuards _ =>
      obtain rfl := hGuards (hPlain op rfl)
      exact .cons (.call ⟨hReady, hAmple, hPlain op rfl⟩ hRun) (.nil _)
  | @reopen m options s _ hAmple hRun =>
    have hAgain : (closed (m.shared.running [])).bind (opened options) = some s := hRun
    obtain ⟨d, -, hOpen⟩ := Option.bind_eq_some_iff.mp hAgain
    rw [machine_start hOpen]
    exact .cons (.call ⟨trivial, hAmple, trivial⟩ hRun) (.nil _)
  | @stop m turn d d' hAmple hGoing hStopped hReboots =>
    refine .cons (.stop hAmple ?_ hStopped hReboots) (.nil _)
    intro op hOp
    obtain ⟨t, ht, hAsked⟩ := Option.bind_eq_some_iff.mp hOp
    have hGoing := hGoing t ht
    cases t with
    | client i r =>
      obtain ⟨-, hGoes, hFits⟩ := hGoing
      exact Access.ready hAsked hFits hGoes
    | server =>
      obtain rfl := Option.some.inj hAsked
      trivial
  | start hUntorn hOpen =>
    rw [machine_start hOpen]
    exact .cons (.start hUntorn hOpen) (.nil _)
  | stopStarting hUntorn hRoomy hStops hReboots =>
    exact .cons (.stopStarting hUntorn hRoomy hStops hReboots) (.nil _)

/-- However often the machine stops, whichever threads have turns then, the database shows what is
left of the calls in the order of the turns; with synced writes every call that returned to its
thread is there.  The conditions are those of `Session.Step`: no manifest is torn when it is opened
again. -/
theorem threads_follow_history (hStart : opened options ∅ = some s0)
    (hRun : Histories.Runs Step (.up (.start (.opened s0.db s0.dir))) acts x) :
    ∃ t, Histories.Runs Histories.Step ⟨[], []⟩ ((acts.flatMap Act.turns).map Turn.event) t ∧
      x.machine.Shows (written t.done) ∧
      ((∀ turn, Act.stop turn false ∉ acts) → (acts.flatMap Act.returned).Sublist t.done) := by
  have hNew : (up (.start (.opened s0.db s0.dir)) : Session ι).machine.Tracks ⟨[], []⟩ := by
    rw [machine_start hStart]
    exact Machine.Tracks.new hStart
  obtain ⟨hRuns, -⟩ := hRun.unfolds (J := fun x => ∃ t, x.machine.Tracks t)
    (fun hStep hTracks => by
      obtain ⟨t, hTracks⟩ := hTracks
      have hRuns := hStep.machine hTracks
      obtain ⟨t', -, hTracks'⟩ := hTracks.run hRuns
      exact ⟨hRuns, t', hTracks'⟩) ⟨_, hNew⟩
  obtain ⟨t, hHistory, hTracks⟩ := hNew.run hRuns
  refine ⟨t, hHistory, hTracks.shows, fun hSynced => ?_⟩
  have hKeeps : ∀ next, Turn.stop next false ∉ acts.flatMap Act.turns := by
    intro next hMem
    obtain ⟨act, hAct, hTurn⟩ := List.mem_flatMap.mp hMem
    cases act with
    | stop turn synced =>
      obtain ⟨-, rfl⟩ := Turn.stop.inj (List.mem_singleton.mp hTurn)
      exact hSynced turn hAct
    | step a turn => simp [Act.turns] at hTurn
    | _ => simp [Act.turns] at hTurn
  have hReturned := Histories.returned_sublist hHistory (Turn.keeps hKeeps)
  rw [List.nil_append, List.flatMap_map, List.flatMap_assoc] at hReturned
  exact hReturned

end Crashing

instance [Crc32c] {ι : Type} [DecidableEq ι] (m : State ι Shared Access) :
    DecidablePred (Going m)
  | .client i r => inferInstanceAs
    (Decidable (m.clients i = .entering r ∧ background.waits r m.shared = false ∧ r.Fits))
  | .server => inferInstanceAs
    (Decidable (m.server = .ready ∧ m.shared.shuttingDown = false ∧ m.shared.rests = false))

/-- The machine stops while a thread puts a key, after another has. -/
theorem threads_follow_history_both :
    let acts : List (Act (Fin 2)) := [.step (.request 0 (.put [97] [1])) none,
      .step (.request 1 (.put [98] [2])) none,
      .step (.enter 0 []) (some (.client 0 (.put [97] [1]))),
      .stop (some (.client 1 (.put [98] [2]))) true, .start eagerly]
    ∃ s0 x, opened eagerly ∅ = some s0 ∧
      Histories.Runs Step (.up (.start (.opened s0.db s0.dir))) acts x ∧
      ∃ t, Histories.Runs Histories.Step ⟨[], []⟩ ((acts.flatMap Act.turns).map Turn.event) t ∧
        x.machine.Shows (written t.done) ∧
        ((∀ turn, Act.stop turn false ∉ acts) → (acts.flatMap Act.returned).Sublist t.done) := by
  intro acts
  have h : (opened eagerly ∅).any (fun s0 =>
      (Wakeups.step background (.start (.opened s0.db s0.dir) : State (Fin 2) Shared Access)
        (.request 0 (.put [97] [1]))).any fun m₁ =>
      (Wakeups.step background m₁ (.request 1 (.put [98] [2]))).any fun m₂ =>
        Smooth (.enter 0 []) m₂ ∧
        Wakeups.served background m₂ (.enter 0 []) = some (.client 0 (.put [97] [1])) ∧
        (Wakeups.step background m₂ (.enter 0 [])).any fun m₃ =>
          Going m₃ (.client 1 (.put [98] [2])) ∧ (m₃.shared.running []).Ample ∧
          m₃.shared.db.options.syncWrites = true ∧
          (m₃.shared.running []).worst.any fun d => (opened eagerly d).isSome) = true := by
    decide +kernel
  obtain ⟨s0, hStart, h⟩ := (Option.any_eq_true _ _).mp h
  obtain ⟨m₁, hStep₁, h⟩ := (Option.any_eq_true _ _).mp h
  obtain ⟨m₂, hStep₂, h⟩ := (Option.any_eq_true _ _).mp h
  obtain ⟨hSmooth, hServed, h⟩ := of_decide_eq_true h
  obtain ⟨m₃, hStep₃, h⟩ := (Option.any_eq_true _ _).mp h
  obtain ⟨hGoing, hAmple, hSync, h⟩ := of_decide_eq_true h
  obtain ⟨d, hWorst, h⟩ := (Option.any_eq_true _ _).mp h
  obtain ⟨s, hOpen⟩ := Option.isSome_iff_exists.mp h
  have hFirst : Step (.up (.start (.opened s0.db s0.dir)))
      (.step (.request 0 (.put [97] [1])) none) (.up m₁) := .step trivial nofun hStep₁ rfl
  have hSecond : Step (.up m₁) (.step (.request 1 (.put [98] [2])) none) (.up m₂) :=
    .step trivial nofun hStep₂ rfl
  have hThird :
      Step (.up m₂) (.step (.enter 0 []) (some (.client 0 (.put [97] [1])))) (.up m₃) := by
    refine .step hSmooth (fun op hOp => ?_) hStep₃ hServed
    obtain rfl : Op.put [97] [1] = op := Option.some.inj hOp
    trivial
  have hTracks :
      (up (.start (.opened s0.db s0.dir)) : Session (Fin 2)).machine.Tracks ⟨[], []⟩ := by
    rw [machine_start hStart]
    exact Machine.Tracks.new hStart
  obtain ⟨t₁, -, hTracks₁⟩ := hTracks.run (hFirst.machine hTracks)
  obtain ⟨t₂, -, hTracks₂⟩ := hTracks₁.run (hSecond.machine hTracks₁)
  obtain ⟨t₃, -, hTracks₃⟩ := hTracks₂.run (hThird.machine hTracks₂)
  obtain ⟨hStop, hUntorn, -⟩ := Machine.Tracks.worst hTracks₃ hAmple hWorst
  have hFourth : Step (.up m₃) (.stop (some (.client 1 (.put [98] [2]))) true) (.down d) := by
    cases hStop with
    | stop _ _ hStopped hReboots =>
      rw [← hSync]
      refine .stop hAmple ?_ (hStopped.imp_right fun hIn => ?_) hReboots
      · intro t ht
        exact Option.some.inj ht ▸ hGoing
      · obtain ⟨op, hOp, -⟩ := hIn
        contradiction
  have hRun : Histories.Runs Step (.up (.start (.opened s0.db s0.dir))) acts
      (.up (.start (.opened s.db s.dir))) :=
    .cons hFirst (.cons hSecond
      (.cons hThird (.cons hFourth (.cons (.start hUntorn hOpen) (.nil _)))))
  exact ⟨s0, _, hStart, hRun, threads_follow_history hStart hRun⟩

end Session

end MulanLsm
