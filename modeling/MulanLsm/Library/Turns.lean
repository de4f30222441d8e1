import Mathlib.Data.List.Basic
import MulanLsm.Library.Wakeups

/-! The order in which clients are served.  A client is served once for each of its requests, in the
order in which it makes them, and makes no other before.  Whatever follows each turn follows the
turns of a run one after another. -/

namespace Wakeups

section Requests

variable {ι γ ω : Type} [DecidableEq ι]

/-- What a client has asked for and has not been served with. -/
def Client.inHand : Client γ → List γ
  | entering g | waiting g => [g]
  | idle | notifying => []

/-- The request that the client `i` makes in a step. -/
def Step.asks (i : ι) : Step ι γ ω → Option γ
  | request j g => if j = i then some g else none
  | _ => none

/-- The request with which the client `i` is served in a turn. -/
def Turn.of (i : ι) : Turn ι γ → Option γ
  | client j g => if j = i then some g else none
  | server => none

@[simp] theorem Client.woken_inHand (c : Client γ) : c.woken.inHand = c.inHand := by
  cases c <;> rfl

@[simp] theorem Client.inHand_done (notifies : Bool) :
    (if notifies then notifying else idle : Client γ).inHand = [] := by
  cases notifies <;> rfl

end Requests

variable {ι σ γ ω : Type} [DecidableEq ι] [Fintype ι] {P : Protocol σ γ ω} {m m' : State ι σ γ}
  {a : Step ι γ ω} {as : List (Step ι γ ω)}

omit [Fintype ι] in
theorem wake_inHand (who : Sleeper ι) (i : ι) :
    ((m.wake who).clients i).inHand = (m.clients i).inHand := by
  rcases wake_clients (m := m) who i with hSame | hWoken
  · rw [hSame]
  · rw [hWoken, Client.woken_inHand]

omit [Fintype ι] in
theorem put_inHand {i j : ι} {c : Client γ} (h : c.inHand = (m.clients j).inHand) :
    ((m.put j c).clients i).inHand = (m.clients i).inHand := by
  by_cases hij : i = j
  · rw [hij, put_clients_self, h]
  · rw [put_clients_ne hij]

/-- What a client asks for in a step comes into its hands, and what it is served with goes out of
them. -/
theorem step_inHand (hStep : step P m a = some m') (i : ι) :
    (m.clients i).inHand ++ (a.asks i).toList =
      ((served P m a).bind (Turn.of i)).toList ++ (m'.clients i).inHand := by
  cases a with
  | request j g =>
    simp only [step] at hStep
    split at hStep
    · next hj =>
      split at hStep
      · cases hStep
      · cases hStep
        by_cases hij : j = i
        · subst hij
          rw [put_clients_self, hj, Step.asks, if_pos rfl]
          rfl
        · rw [put_clients_ne (Ne.symm hij), Step.asks, if_neg hij]
          simp [served]
    · cases hStep
  | enter j o =>
    simp only [step] at hStep
    split at hStep
    · next g hj =>
      unfold enter at hStep
      split at hStep
      · next hWaits =>
        cases hStep
        have hSame : (({ m with shared := P.park m.shared }.put j (.waiting g)).clients i).inHand =
            (m.clients i).inHand := put_inHand (by rw [hj]; rfl)
        simp [Step.asks, served, hj, hWaits, hSame]
      · next hGoes =>
        obtain ⟨⟨s, notifies⟩, hServe, rfl⟩ := Option.map_eq_some_iff.mp hStep
        by_cases hij : j = i
        · subst hij
          rw [put_clients_self, Client.inHand_done]
          simp [Step.asks, served, hj, hGoes, Turn.of, Client.inHand]
        · rw [put_clients_ne (Ne.symm hij)]
          simp [Step.asks, served, hj, hGoes, Turn.of, hij]
    · cases hStep
  | notify j woken =>
    simp only [step] at hStep
    split at hStep
    · next hj =>
      have hIdle : ((m.put j .idle).clients i).inHand = (m.clients i).inHand :=
        put_inHand (by rw [hj]; rfl)
      cases woken with
      | none =>
        simp only [notifyOne] at hStep
        split at hStep
        · cases hStep
          simp [Step.asks, served, hIdle]
        · cases hStep
      | some who =>
        simp only [notifyOne] at hStep
        split at hStep
        · cases hStep
          simp [Step.asks, served, wake_inHand, hIdle]
        · cases hStep
    · cases hStep
  | wakeUp who =>
    simp only [step] at hStep
    split at hStep
    · cases hStep
      simp [Step.asks, served, wake_inHand]
    · cases hStep
  | turn o =>
    simp only [step] at hStep
    split at hStep
    · have hNone : (served P m (.turn o : Step ι γ ω)).bind (Turn.of i) = none := by
        simp only [served]
        split
        · rfl
        · rfl
      rw [hNone]
      unfold serverTurn at hStep
      split at hStep
      · cases hStep
        simp [Step.asks]
      · split at hStep
        · cases hStep
          simp [Step.asks]
        · obtain ⟨s, -, rfl⟩ := Option.map_eq_some_iff.mp hStep
          simp [Step.asks, State.wakeAll]
    · cases hStep
  | close o =>
    simp only [step] at hStep
    split at hStep
    · obtain ⟨s, -, rfl⟩ := Option.map_eq_some_iff.mp hStep
      simp [Step.asks, served, State.wakeAll]
    · cases hStep

/-- Every client is served with what it asks for, in this order and once, but for what is in its
hands. -/
theorem served_in_order (hRun : Steps.run (step P) as m = some m') (i : ι) :
    (m.clients i).inHand ++ as.filterMap (Step.asks i) =
      (turns P as m).filterMap (Turn.of i) ++ (m'.clients i).inHand := by
  induction as generalizing m with
  | nil =>
    cases hRun
    simp [turns]
  | cons a as ih =>
    obtain ⟨m₁, hStep, hRun⟩ := Option.bind_eq_some_iff.mp hRun
    have hAsks : (a :: as).filterMap (Step.asks i) =
        (a.asks i).toList ++ as.filterMap (Step.asks i) := by
      rw [List.filterMap_eq_flatMap_toList, List.flatMap_cons, List.filterMap_eq_flatMap_toList]
    have hServed : ((served P m a).toList).filterMap (Turn.of i) =
        ((served P m a).bind (Turn.of i)).toList := by
      rw [Option.toList_bind, List.filterMap_eq_flatMap_toList]
      rfl
    rw [turns, hStep, Option.elim_some, List.filterMap_append, hServed,
      List.append_assoc, ← ih hRun,
      hAsks, ← List.append_assoc, step_inHand hStep, List.append_assoc]

/-- What is kept from turn to turn, when the steps meet `C`, is kept by a run. -/
theorem turns_followed {R : List (Turn ι γ) → State ι σ γ → Prop}
    {C : Step ι γ ω → State ι σ γ → Prop}
    (hStep : ∀ ts m a m', R ts m → C a m → step P m a = some m' →
      R (ts ++ (served P m a).toList) m')
    {ts : List (Turn ι γ)} (h : R ts m) (hC : Steps.Always (step P) C as m)
    (hRun : Steps.run (step P) as m = some m') : R (ts ++ turns P as m) m' := by
  induction as generalizing m ts with
  | nil =>
    cases hRun
    rwa [turns, List.append_nil]
  | cons a as ih =>
    obtain ⟨m₁, hFirst, hRun⟩ := Option.bind_eq_some_iff.mp hRun
    obtain ⟨hHere, hRest⟩ := hC m₁ hFirst
    rw [turns, hFirst, Option.elim_some, ← List.append_assoc]
    exact ih (hStep ts m a m₁ h hHere hFirst) hRest hRun

end Wakeups
