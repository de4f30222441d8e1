import Mathlib.Data.Set.Finite.Basic
import Mathlib.Order.WellFounded

/-! Runs of a transition system whose steps are named by actions.  A property of states that each
step keeps exactly when the step meets a condition holds in every state of a run exactly when every
step of the run meets the condition.  A loop whose turns lower a measure, as long as they ask for
another, does so finitely often. -/

namespace Steps

variable {σ α : Type} (step : σ → α → Option σ)

/-- The state after some steps, if each of them can be taken. -/
def run : List α → σ → Option σ
  | [], s => some s
  | a :: as, s => (step s a).bind (run as)

/-- Some steps lead from one state to the other. -/
def Leads (s s' : σ) : Prop := ∃ as, run step as s = some s'

/-- `P` holds in every state that the steps lead through. -/
def Everywhere (P : σ → Prop) : List α → σ → Prop
  | [], s => P s
  | a :: as, s => P s ∧ ∀ s', step s a = some s' → Everywhere P as s'

/-- Every step that is taken meets `C` in the state before it. -/
def Always (C : α → σ → Prop) : List α → σ → Prop
  | [], _ => True
  | a :: as, s => ∀ s', step s a = some s' → C a s ∧ Always C as s'

section Deciding

instance decidableEverywhere {P : σ → Prop} [DecidablePred P] :
    ∀ (as : List α) (s : σ), Decidable (Everywhere step P as s)
  | [], s => inferInstanceAs (Decidable (P s))
  | a :: as, s =>
    have : ∀ s', Decidable (Everywhere step P as s') := decidableEverywhere as
    inferInstanceAs (Decidable (P s ∧ ∀ s' ∈ step s a, Everywhere step P as s'))

instance decidableAlways {C : α → σ → Prop} [∀ a s, Decidable (C a s)] :
    ∀ (as : List α) (s : σ), Decidable (Always step C as s)
  | [], _ => isTrue trivial
  | a :: as, s =>
    have : ∀ s', Decidable (Always step C as s') := decidableAlways as
    inferInstanceAs (Decidable (∀ s' ∈ step s a, C a s ∧ Always step C as s'))

end Deciding

variable {step}

theorem Leads.refl (s : σ) : Leads step s s := ⟨[], rfl⟩

theorem Leads.head {s s₁ s₂ : σ} {a : α} (hStep : step s a = some s₁) (h : Leads step s₁ s₂) :
    Leads step s s₂ := by
  obtain ⟨as, hRun⟩ := h
  exact ⟨a :: as, by rw [run, hStep, Option.bind_some, hRun]⟩

theorem Leads.trans {s s₁ s₂ : σ} (h : Leads step s s₁) (h' : Leads step s₁ s₂) :
    Leads step s s₂ := by
  obtain ⟨as, hRun⟩ := h
  induction as generalizing s with
  | nil =>
    cases hRun
    exact h'
  | cons a as ih =>
    obtain ⟨s', hStep, hRest⟩ := Option.bind_eq_some_iff.mp hRun
    exact (ih hRest).head hStep

/-- What every step keeps holds after a run. -/
theorem run_kept {J : σ → Prop} (hStep : ∀ s a s', J s → step s a = some s' → J s') {as : List α}
    {s s' : σ} (h : J s) (hRun : run step as s = some s') : J s' := by
  induction as generalizing s with
  | nil => exact Option.some.inj hRun ▸ h
  | cons a as ih =>
    obtain ⟨s₁, hs₁, hRun⟩ := Option.bind_eq_some_iff.mp hRun
    exact ih (hStep s a s₁ h hs₁) hRun

theorem run_append (as bs : List α) (s : σ) :
    run step (as ++ bs) s = (run step as s).bind (run step bs) := by
  induction as generalizing s with
  | nil => rfl
  | cons a as ih =>
    rw [List.cons_append, run, run, Option.bind_assoc]
    exact Option.bind_congr fun s' _ => ih s'

/-- A run to a state that a step leads back to goes on without end. -/
theorem exists_endless {as : List α} {a : α} {s t : σ} (hRun : run step as s = some t)
    (hLoop : step t a = some t) :
    ∃ (states : ℕ → σ) (acts : ℕ → α), (∀ n, step (states n) (acts n) = some (states (n + 1))) ∧
      (∀ n, run step (as.take n) s = some (states n)) ∧ ∀ n, acts n = as.getD n a := by
  induction as generalizing s with
  | nil =>
    obtain rfl := Option.some.inj hRun
    exact ⟨fun _ => s, fun _ => a, fun _ => hLoop, fun n => by rw [List.take_nil, run],
      fun n => by simp⟩
  | cons b as ih =>
    obtain ⟨s', hStep, hRest⟩ := Option.bind_eq_some_iff.mp hRun
    obtain ⟨states, acts, hSteps, hStates, hActs⟩ := ih hRest
    refine ⟨fun n => n.casesOn s states, fun n => n.casesOn b acts, fun n => ?_, fun n => ?_,
      fun n => ?_⟩
    · cases n with
      | zero =>
        have hFirst := hStates 0
        rw [List.take_zero, run] at hFirst
        exact hStep.trans hFirst
      | succ n => exact hSteps n
    · cases n with
      | zero => rfl
      | succ n => rw [List.take_succ_cons, run, hStep, Option.bind_some, hStates n]
    · cases n with
      | zero => rfl
      | succ n => exact (hActs n).trans (List.getD_cons_succ ..).symm

theorem Everywhere.here {P : σ → Prop} {as : List α} {s : σ} (h : Everywhere step P as s) :
    P s := by
  cases as with
  | nil => exact h
  | cons a as => exact h.1

/-- In runs from states with `J`, a property that steps keep exactly when they meet `C` holds
everywhere exactly when every step meets `C`. -/
theorem everywhere_iff {J P : σ → Prop} {C : α → σ → Prop}
    (hJ : ∀ s a s', J s → step s a = some s' → J s')
    (hStep : ∀ s a s', J s → P s → step s a = some s' → (P s' ↔ C a s)) (as : List α) {s : σ}
    (h : J s) (hP : P s) : Everywhere step P as s ↔ Always step C as s := by
  induction as generalizing s with
  | nil => exact iff_of_true hP trivial
  | cons a as ih =>
    constructor
    · intro hAll s' hs'
      have hNext : P s' := (hAll.2 s' hs').here
      exact ⟨(hStep s a s' h hP hs').mp hNext, (ih (hJ s a s' h hs') hNext).mp (hAll.2 s' hs')⟩
    · intro hAll
      refine ⟨hP, fun s' hs' => ?_⟩
      obtain ⟨hC, hRest⟩ := hAll s' hs'
      have hNext : P s' := (hStep s a s' h hP hs').mpr hC
      exact (ih (hJ s a s' h hs') hNext).mpr hRest

/-- If a turn that asks for another lowers `μ`, and one that does not changes nothing, then finitely
many turns ask for another. -/
theorem finite_turns {γ : Type} [Preorder γ] [WellFoundedLT γ] {next : σ → σ} (More J : σ → Prop)
    (μ : σ → γ) (hJ : ∀ s, J s → More s → J (next s)) (hLt : ∀ s, J s → More s → μ (next s) < μ s)
    (hStay : ∀ s, J s → ¬More s → next s = s) {s : σ} (h : J s) :
    {n | More (next^[n] s)}.Finite := by
  suffices hEnd : ∃ N, ∀ n, N ≤ n → ¬More (next^[n] s) by
    obtain ⟨N, hN⟩ := hEnd
    refine (Set.finite_lt_nat N).subset fun n hn => ?_
    by_contra hLe
    exact hN n (not_lt.mp hLe) hn
  induction hμ : μ s using WellFoundedLT.induction generalizing s with
  | ind m ih =>
    by_cases hMore : More s
    · obtain ⟨N, hN⟩ := ih _ (hμ ▸ hLt s h hMore) (hJ s h hMore) rfl
      refine ⟨N + 1, fun n hn => ?_⟩
      cases n with
      | zero => exact absurd hn (Nat.not_succ_le_zero N)
      | succ n =>
        rw [Function.iterate_succ_apply]
        exact hN n (Nat.le_of_succ_le_succ hn)
    · exact ⟨0, fun n _ => by rwa [Function.iterate_fixed (hStay s h hMore)]⟩

/-- If `μ` does not grow while `B` holds, and steps with `L` lower it, then a run without end in
which such steps are taken again and again comes out of `B` again and again. -/
theorem fails_again {γ : Type} [Preorder γ] [WellFoundedLT γ] {J B : σ → Prop}
    {L : α → σ → Prop} {states : ℕ → σ} {acts : ℕ → α} (μ : σ → γ)
    (hRun : ∀ n, step (states n) (acts n) = some (states (n + 1)))
    (hStep : ∀ s a s', J s → B s → step s a = some s' →
      J s' ∧ μ s' ≤ μ s ∧ (L a s → μ s' < μ s))
    (hFair : ∀ n, ∃ k ≥ n, L (acts k) (states k)) {n : ℕ} (h : J (states n)) :
    ∃ k ≥ n, ¬B (states k) := by
  induction hμ : μ (states n) using WellFoundedLT.induction generalizing n with
  | ind x ih =>
    by_contra hNever
    push Not at hNever
    have hKept (j : ℕ) : J (states (n + j)) ∧ μ (states (n + j)) ≤ μ (states n) := by
      induction j with
      | zero => exact ⟨h, le_rfl⟩
      | succ j ihj =>
        obtain ⟨hJ, hLe, -⟩ := hStep _ _ _ ihj.1 (hNever _ (Nat.le_add_right n j)) (hRun (n + j))
        exact ⟨hJ, hLe.trans ihj.2⟩
    obtain ⟨k, hk, hLowers⟩ := hFair n
    obtain ⟨j, rfl⟩ := Nat.exists_eq_add_of_le hk
    obtain ⟨hJ, -, hLt⟩ := hStep _ _ _ (hKept j).1 (hNever _ hk) (hRun (n + j))
    obtain ⟨k, hLater, hGood⟩ := ih _ (hμ ▸ (hLt hLowers).trans_le (hKept j).2) hJ rfl
    exact hGood (hNever k (by omega))

end Steps
