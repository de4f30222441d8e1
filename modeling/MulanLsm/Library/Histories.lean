import Mathlib.Data.List.Infix

/-! Histories with losses.  Things are done one after the other, and a cut loses the last of them,
from some point on, but none that is safe.  What is still there after any number of cuts was begun
in this order, what was safe once is among it, and if no cut found anything unsafe, all that was
done is. -/

namespace Histories

section Running

variable {σ τ α β : Type} (R : σ → α → σ → Prop)

/-- Steps of `R`, with these labels, lead from one state to the other. -/
inductive Runs : σ → List α → σ → Prop
  | nil (s : σ) : Runs s [] s
  | cons {s s₁ s' : σ} {a : α} {as : List α} : R s a s₁ → Runs s₁ as s' → Runs s (a :: as) s'

variable {R} {S : τ → β → τ → Prop} {f : α → β} {I : σ → τ → Prop}

/-- If each step can be followed, so can each run. -/
theorem Runs.simulates {s s' : σ} {t : τ} {as : List α}
    (hStep : ∀ {s a s' t}, R s a s' → I s t → ∃ t', S t (f a) t' ∧ I s' t') (h : Runs R s as s')
    (hI : I s t) : ∃ t', Runs S t (as.map f) t' ∧ I s' t' := by
  induction h generalizing t with
  | nil => exact ⟨t, .nil t, hI⟩
  | cons hFirst _ ih =>
    obtain ⟨t₁, hS, hI₁⟩ := hStep hFirst hI
    obtain ⟨t', hRuns, hI'⟩ := ih hI₁
    exact ⟨t', .cons hS hRuns, hI'⟩

theorem Runs.append {s s₁ s' : σ} {as bs : List α} (h : Runs R s as s₁) (h' : Runs R s₁ bs s') :
    Runs R s (as ++ bs) s' := by
  induction h with
  | nil => exact h'
  | cons hFirst _ ih => exact .cons hFirst (ih h')

/-- If each step comes to some steps from states with `J`, so does each run. -/
theorem Runs.unfolds {J : σ → Prop} {g : σ → τ} {f : α → List β} {s s' : σ} {as : List α}
    (hStep : ∀ {s a s'}, R s a s' → J s → Runs S (g s) (f a) (g s') ∧ J s') (h : Runs R s as s')
    (hJ : J s) : Runs S (g s) (as.flatMap f) (g s') ∧ J s' := by
  induction h with
  | nil => exact ⟨.nil _, hJ⟩
  | cons hFirst _ ih =>
    obtain ⟨hRuns, hJ₁⟩ := hStep hFirst hJ
    obtain ⟨hRest, hJ'⟩ := ih hJ₁
    exact ⟨hRuns.append hRest, hJ'⟩

/-- What the steps of a run keep holds at its end. -/
theorem Runs.kept {J : σ → Prop} {s s' : σ} {as : List α}
    (hStep : ∀ a ∈ as, ∀ {s s'}, R s a s' → J s → J s') (h : Runs R s as s') (hJ : J s) : J s' := by
  induction h with
  | nil => exact hJ
  | cons hFirst _ ih =>
    exact ih (fun a ha => hStep a (List.mem_cons_of_mem _ ha)) (hStep _ (by simp) hFirst hJ)

theorem Runs.last_step {s s' : σ} {as : List α} {a : α} (h : Runs R s (as ++ [a]) s') :
    ∃ s₁, Runs R s as s₁ ∧ R s₁ a s' := by
  induction as generalizing s with
  | nil =>
    cases h with
    | cons hStep hRest =>
      cases hRest
      exact ⟨s, .nil s, hStep⟩
  | cons b as ih =>
    cases h with
    | cons hStep hRest =>
      obtain ⟨s₁, hFirst, hLast⟩ := ih hRest
      exact ⟨s₁, .cons hStep hFirst, hLast⟩

end Running

variable {α : Type}

/-- Something was done, and perhaps all that was done is safe with it; or there was a cut, perhaps
while something was being done, and perhaps with nothing unsafe. -/
inductive Event (α : Type)
  | did (a : α) (saves : Bool)
  | cut (next : Option α) (synced : Bool)

/-- What was done and is still there, with the first part of it that no cut can lose. -/
structure State (α : Type) where
  safe : List α
  done : List α

inductive Step : State α → Event α → State α → Prop
  | did {t : State α} {a : α} {saves : Bool} {safe : List α} : t.safe <+: safe →
      safe <+: t.done ++ [a] → (saves → safe = t.done ++ [a]) →
      Step t (.did a saves) ⟨safe, t.done ++ [a]⟩
  | cut {t : State α} {next : Option α} {synced : Bool} {done : List α} : t.safe <+: done →
      done <+: t.done ++ next.toList → (synced → t.done <+: done) →
      Step t (.cut next synced) ⟨done, done⟩

/-- What an event began. -/
def Event.begun : Event α → List α
  | did a _ => [a]
  | cut next _ => next.toList

/-- What an event saw through to its end. -/
def Event.returned : Event α → List α
  | did a _ => [a]
  | cut _ _ => []

/-- A cut that may find something unsafe. -/
def Event.loses : Event α → Bool
  | did _ _ => false
  | cut _ synced => !synced

/-- An event after which all that was done is safe. -/
def Event.saves : Event α → Bool
  | did _ saves => saves
  | cut _ _ => true

variable {t t' : State α} {e : Event α} {es : List (Event α)}

theorem Step.safe_prefix (h : Step t e t') : t.safe <+: t'.safe := by
  cases h with
  | did hSafe => exact hSafe
  | cut hSafe => exact hSafe

theorem Step.safe_prefix_done (h : Step t e t') : t'.safe <+: t'.done := by
  cases h with
  | did _ hDone => exact hDone
  | cut => exact List.prefix_rfl

theorem Step.saved (h : Step t e t') (hSaves : e.saves) : t'.safe = t'.done := by
  cases h with
  | did _ _ hSafe => exact hSafe hSaves
  | cut => rfl

theorem Step.sublist (h : Step t e t') : t'.done.Sublist (t.done ++ e.begun) := by
  cases h with
  | did => exact List.Sublist.refl _
  | cut _ hDone => exact hDone.sublist

theorem Step.returned (h : Step t e t') (hLoses : e.loses = false) :
    (t.done ++ e.returned).Sublist t'.done := by
  cases h with
  | did => exact List.Sublist.refl _
  | @cut _ synced _ _ _ hSynced =>
    have hSaved : synced = true := by simpa [Event.loses] using hLoses
    simpa [Event.returned] using (hSynced hSaved).sublist

/-- What is safe stays. -/
theorem safe_prefix (h : Runs Step t es t') : t.safe <+: t'.safe := by
  induction h with
  | nil => exact List.prefix_rfl
  | cons hStep _ ih => exact hStep.safe_prefix.trans ih

theorem safe_prefix_done (h : Runs Step t es t') (ht : t.safe <+: t.done) :
    t'.safe <+: t'.done := by
  induction h with
  | nil => exact ht
  | cons hStep _ ih => exact ih hStep.safe_prefix_done

/-- What is still there was begun, in this order. -/
theorem done_sublist (h : Runs Step t es t') :
    t'.done.Sublist (t.done ++ es.flatMap Event.begun) := by
  induction h with
  | nil => simp
  | @cons t _ _ e es hStep _ ih =>
    rw [List.flatMap_cons, ← List.append_assoc]
    exact ih.trans (hStep.sublist.append_right _)

/-- If no cut finds anything unsafe, all that was done is still there. -/
theorem returned_sublist (h : Runs Step t es t') (hLoses : ∀ e ∈ es, e.loses = false) :
    (t.done ++ es.flatMap Event.returned).Sublist t'.done := by
  induction h with
  | nil => simp
  | @cons t _ _ e es hStep _ ih =>
    rw [List.flatMap_cons, ← List.append_assoc]
    exact ((hStep.returned (hLoses e (by simp))).append_right _).trans
      (ih fun e he => hLoses e (List.mem_cons_of_mem _ he))

/-- Once all that was done is safe, what is still there later is all that with some things that were
begun since. -/
theorem exists_rest (h : Runs Step t es t') (hSafe : t.safe = t.done) :
    ∃ rest, t'.done = t.done ++ rest ∧ rest.Sublist (es.flatMap Event.begun) := by
  have hWithin : t'.safe <+: t'.done := safe_prefix_done h (hSafe ▸ List.prefix_rfl)
  obtain ⟨rest, hRest⟩ := (hSafe ▸ safe_prefix h).trans hWithin
  refine ⟨rest, hRest.symm, ?_⟩
  have hSublist := done_sublist h
  rwa [← hRest, List.append_sublist_append_left] at hSublist

end Histories
