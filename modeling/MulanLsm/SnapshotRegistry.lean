import MulanLsm.Library.Steps
import MulanLsm.Version

/-! The registry of snapshots against the guards that are out.  Several guards may hold one sequence
number; the registry forgets it when the first of them is dropped. -/

namespace MulanLsm

/-- A version set, and the sequence numbers of the guards that are out. -/
structure Guarded where
  vs : VersionSet
  guards : List Nat

/-- A guard is made, or dropped. -/
inductive GuardCall
  | acquire (seq : Nat)
  | release (seq : Nat)

namespace Guarded

/-- No guard is out. -/
def fresh (vs : VersionSet) : Guarded := { vs := { vs with snapshots := [] }, guards := [] }

/-- Only a guard that is out is dropped. -/
def step (s : Guarded) : GuardCall → Option Guarded
  | .acquire seq => some { vs := s.vs.acquireSnapshot seq, guards := seq :: s.guards }
  | .release seq =>
    if seq ∈ s.guards then
      some { vs := s.vs.releaseSnapshot seq, guards := s.guards.erase seq }
    else none

/-- The oldest snapshot is that of the guard with the least number. -/
def Counts (s : Guarded) : Prop := s.vs.oldestSnapshotSeq = s.guards.min?.getD maxSequence

instance : DecidablePred Counts := fun s => by unfold Counts; infer_instance

/-- Every number in the registry is that of a guard. -/
def Registered (s : Guarded) : Prop := ∀ r ∈ s.vs.snapshots, r ∈ s.guards

end Guarded

/-- When a guard is dropped, the least of those that are left is registered under another number, or
nothing else is registered and the least is the bound without snapshots.  When a guard is made while
others are out and nothing is registered, none of these is below it. -/
def GuardCall.Fits : GuardCall → Guarded → Prop
  | .acquire seq, s => s.vs.snapshots = [] → ∀ g ∈ s.guards, seq ≤ g
  | .release seq, s => ∀ m ∈ (s.guards.erase seq).min?,
    m ∈ s.vs.snapshots ∧ m ≠ seq ∨ m = maxSequence ∧ ∀ r ∈ s.vs.snapshots, r = seq

section Registry

variable {s s' : Guarded} {seq : Nat} {registry guards : List Nat}

/-- A registry of some of the guards has their bound exactly when it has the least of them. -/
theorem min?_getD_eq_iff (hSub : ∀ r ∈ registry, r ∈ guards) :
    registry.min?.getD maxSequence = guards.min?.getD maxSequence ↔
      ∀ m ∈ guards.min?, m ∈ registry ∨ m = maxSequence ∧ registry = [] := by
  cases hGuards : guards.min? with
  | none =>
    obtain rfl := List.min?_eq_none_iff.mp hGuards
    obtain rfl : registry = [] := List.eq_nil_iff_forall_not_mem.mpr fun r hr => nomatch hSub r hr
    exact iff_of_true rfl nofun
  | some m =>
    obtain ⟨-, hLeast⟩ := List.min?_eq_some_iff.mp hGuards
    simp only [Option.mem_some_iff, forall_eq', Option.getD_some]
    cases hRegistry : registry.min? with
    | none =>
      obtain rfl := List.min?_eq_none_iff.mp hRegistry
      simp [eq_comm]
    | some r =>
      obtain ⟨hr, hLeastReg⟩ := List.min?_eq_some_iff.mp hRegistry
      rw [Option.getD_some]
      constructor
      · rintro rfl
        exact .inl hr
      · rintro (hm | ⟨-, rfl⟩)
        · exact le_antisymm (hLeastReg m hm) (hLeast r (hSub r hr))
        · cases hr

theorem Guarded.counts_iff (h : s.Registered) :
    s.Counts ↔ ∀ m ∈ s.guards.min?, m ∈ s.vs.snapshots ∨ m = maxSequence ∧ s.vs.snapshots = [] :=
  min?_getD_eq_iff h

theorem Guarded.Registered.step (h : s.Registered) {call : GuardCall}
    (hStep : s.step call = some s') : s'.Registered := by
  cases call with
  | acquire seq =>
    obtain rfl := Option.some.inj hStep
    intro r hr
    rcases List.mem_append.mp hr with hr | hr
    · exact List.mem_cons_of_mem _ (h r hr)
    · exact List.mem_cons.mpr (.inl (List.mem_singleton.mp hr))
  | release seq =>
    rw [Guarded.step] at hStep
    split at hStep
    · obtain rfl := Option.some.inj hStep
      intro r hr
      obtain ⟨hr, hNe⟩ := List.mem_filter.mp hr
      exact (List.mem_erase_of_ne (by simpa using hNe)).mpr (h r hr)
    · cases hStep

/-- Making a guard keeps the bound right if it was, unless the guard is the only one registered and
not the least. -/
theorem Guarded.acquire_counts (h : s.Registered) (hCounts : s.Counts)
    (hStep : s.step (.acquire seq) = some s') :
    s'.Counts ↔ (GuardCall.acquire seq).Fits s := by
  rw [Guarded.counts_iff (h.step hStep)]
  obtain rfl := Option.some.inj hStep
  rw [Guarded.counts_iff h] at hCounts
  simp only [VersionSet.acquireSnapshot, GuardCall.Fits]
  obtain ⟨m, hMin⟩ := Option.isSome_iff_exists.mp
    (List.isSome_min?_of_mem (List.mem_cons_self (a := seq) (l := s.guards)))
  obtain ⟨hm, hLeast⟩ := List.min?_eq_some_iff.mp hMin
  simp only [hMin, Option.mem_some_iff, forall_eq', List.append_eq_nil_iff, List.cons_ne_nil,
    and_false, or_false, List.mem_append, List.mem_singleton]
  constructor
  · rintro (hReg | rfl) hNil
    · rw [hNil] at hReg
      cases hReg
    · exact fun g hg => hLeast g (List.mem_cons_of_mem _ hg)
  · intro hFits
    rcases List.mem_cons.mp hm with rfl | hm
    · exact .inr rfl
    · have hOld : s.guards.min? = some m :=
        List.min?_eq_some_iff.mpr ⟨hm, fun g hg => hLeast g (List.mem_cons_of_mem _ hg)⟩
      rcases hCounts m hOld with hReg | ⟨-, hNil⟩
      · exact .inl hReg
      · exact .inr (le_antisymm (hLeast seq List.mem_cons_self) (hFits hNil m hm))

/-- Dropping a guard keeps the bound right exactly when the least of the guards that are left is
registered under another number. -/
theorem Guarded.release_counts (h : s.Registered) (hStep : s.step (.release seq) = some s') :
    s'.Counts ↔ (GuardCall.release seq).Fits s := by
  rw [Guarded.counts_iff (h.step hStep)]
  rw [Guarded.step] at hStep
  split at hStep
  · obtain rfl := Option.some.inj hStep
    simp [VersionSet.releaseSnapshot, GuardCall.Fits, List.filter_eq_nil_iff]
  · cases hStep

end Registry

/-- In every run of guards being made and dropped, the oldest snapshot is everywhere that of the
guard with the least number exactly when all drops leave the least guard registered. -/
theorem registry_counts_iff (vs : VersionSet) (calls : List GuardCall) :
    Steps.Everywhere Guarded.step Guarded.Counts calls (.fresh vs) ↔
      Steps.Always Guarded.step GuardCall.Fits calls (.fresh vs) := by
  refine Steps.everywhere_iff (J := Guarded.Registered) (fun _ _ _ h => h.step) ?_
    calls (fun _ hr => nomatch hr) rfl
  intro s call s' h hCounts hStep
  cases call with
  | acquire seq => exact Guarded.acquire_counts h hCounts hStep
  | release seq => exact Guarded.release_counts h hStep

/-- Of two guards with the number 5, the second is not counted once the first is dropped. -/
theorem registry_forgets :
    ¬Steps.Everywhere Guarded.step Guarded.Counts [.acquire 5, .acquire 5, .release 5]
      (.fresh { toVersionState := .empty, manifestNumber := 1
                manifestWriter := ⟨{ name := .manifest 1, blockOffset := 0 }⟩
                snapshots := [] }) := by
  decide

end MulanLsm
