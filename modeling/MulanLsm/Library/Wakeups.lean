import Mathlib.Data.Fintype.Card
import MulanLsm.Library.Steps

/-! Clients and a server that share a state under a lock with one condition variable.  A client
waits while it must, and once it has been served it gives up the lock and then notifies one of those
that wait, whichever that is.  The server waits while there is nothing to do, and notifies all of
them after each turn.  A notification meant for the server is lost when it reaches a client, which
goes back to waiting.  As long as a client waits only under a load that takes more notifications
than there are other clients, the server is never left asleep beside one. -/

namespace Wakeups

/-- What clients and the server do while they have the lock.  `γ` are the requests, and `ω` is what
the surroundings decide. -/
structure Protocol (σ γ ω : Type) where
  /-- A client waits while this holds. -/
  waits : γ → σ → Bool
  /-- What a client does right before it waits. -/
  park : σ → σ
  /-- The state after a client is served, and whether the client notifies. -/
  serve : γ → ω → σ → Option (σ × Bool)
  /-- The server waits while this holds. -/
  rests : σ → Bool
  turn : ω → σ → Option σ
  close : ω → σ → Option σ
  closed : σ → Bool

/-- Where a client is: in no request, about to take the lock, asleep, or past the lock and about to
notify. -/
inductive Client (γ : Type)
  | idle
  | entering (g : γ)
  | waiting (g : γ)
  | notifying
  deriving DecidableEq

inductive Server
  | ready
  | waiting
  | ended
  deriving DecidableEq

structure State (ι σ γ : Type) where
  shared : σ
  clients : ι → Client γ
  server : Server

/-- Whoever may be asleep. -/
inductive Sleeper (ι : Type)
  | client (i : ι)
  | server

/-- A turn with the lock that is not spent on waiting. -/
inductive Turn (ι γ : Type)
  | client (i : ι) (g : γ)
  | server
  deriving DecidableEq

inductive Step (ι γ ω : Type)
  | request (i : ι) (g : γ)
  | enter (i : ι) (o : ω)
  | notify (i : ι) (woken : Option (Sleeper ι))
  | wakeUp (who : Sleeper ι)
  | turn (o : ω)
  | close (o : ω)

namespace Client

variable {γ : Type}

def isIdle : Client γ → Bool
  | idle => true
  | _ => false

def isWaiting : Client γ → Bool
  | waiting _ => true
  | _ => false

def isNotifying : Client γ → Bool
  | notifying => true
  | _ => false

/-- The client once a notification has reached it. -/
def woken : Client γ → Client γ
  | waiting g => entering g
  | c => c

@[simp] theorem woken_isWaiting (c : Client γ) : c.woken.isWaiting = false := by
  cases c <;> rfl

@[simp] theorem woken_isNotifying (c : Client γ) : c.woken.isNotifying = c.isNotifying := by
  cases c <;> rfl

@[simp] theorem woken_isIdle (c : Client γ) : c.woken.isIdle = c.isIdle := by
  cases c <;> rfl

@[simp] theorem isNotifying_notifying : (notifying : Client γ).isNotifying = true := rfl

@[simp] theorem isNotifying_idle : (idle : Client γ).isNotifying = false := rfl

@[simp] theorem isNotifying_entering (g : γ) : (entering g).isNotifying = false := rfl

@[simp] theorem isNotifying_waiting (g : γ) : (waiting g).isNotifying = false := rfl

@[simp] theorem isWaiting_waiting (g : γ) : (waiting g).isWaiting = true := rfl

@[simp] theorem isWaiting_notifying : (notifying : Client γ).isWaiting = false := rfl

@[simp] theorem isWaiting_idle : (idle : Client γ).isWaiting = false := rfl

@[simp] theorem isWaiting_entering (g : γ) : (entering g).isWaiting = false := rfl

end Client

def Server.woken : Server → Server
  | waiting => ready
  | s => s

@[simp] theorem Server.woken_ne_waiting (s : Server) : s.woken ≠ .waiting := by
  cases s <;> simp [woken]

namespace State

variable {ι σ γ : Type}

/-- Nobody has done anything yet. -/
def start (s : σ) : State ι σ γ := { shared := s, clients := fun _ => .idle, server := .ready }

def asleep (m : State ι σ γ) : Sleeper ι → Bool
  | .client i => (m.clients i).isWaiting
  | .server => m.server = .waiting

def wakeAll (m : State ι σ γ) : State ι σ γ :=
  { m with clients := fun i => (m.clients i).woken, server := m.server.woken }

/-- Nobody is asleep. -/
def Quiet (m : State ι σ γ) : Prop :=
  m.server ≠ .waiting ∧ ∀ i, (m.clients i).isWaiting = false

instance [Fintype ι] (m : State ι σ γ) : Decidable m.Quiet := inferInstanceAs (Decidable (_ ∧ _))

variable [DecidableEq ι]

def put (m : State ι σ γ) (i : ι) (c : Client γ) : State ι σ γ :=
  { m with clients := Function.update m.clients i c }

def wake (m : State ι σ γ) : Sleeper ι → State ι σ γ
  | .client i => m.put i (m.clients i).woken
  | .server => { m with server := m.server.woken }

variable [Fintype ι]

/-- How many clients are about to notify. -/
def pending (m : State ι σ γ) : Nat := (Finset.univ.filter fun i => (m.clients i).isNotifying).card

/-- Nobody goes on but for new requests and for sleepers that wake for no reason, although a client
waits. -/
def Stuck (m : State ι σ γ) : Prop :=
  m.server = .waiting ∧ (∃ i, (m.clients i).isWaiting) ∧
    ∀ i, (m.clients i).isIdle ∨ (m.clients i).isWaiting

end State

section Stepping

variable {ι σ γ ω : Type} [DecidableEq ι] [Fintype ι] (P : Protocol σ γ ω)

/-- A client that has the lock waits, or is served and gives up the lock. -/
def enter (m : State ι σ γ) (i : ι) (g : γ) (o : ω) : Option (State ι σ γ) :=
  if P.waits g m.shared then some ({ m with shared := P.park m.shared }.put i (.waiting g))
  else
    (P.serve g o m.shared).map fun (shared, notifies) =>
      { m with shared }.put i (if notifies then .notifying else .idle)

/-- One of the sleepers is notified, if there is any. -/
def notifyOne (m : State ι σ γ) : Option (Sleeper ι) → Option (State ι σ γ)
  | some who => if m.asleep who then some (m.wake who) else none
  | none => if m.Quiet then some m else none

/-- A turn of the server, which has the lock. -/
def serverTurn (m : State ι σ γ) (o : ω) : Option (State ι σ γ) :=
  if P.closed m.shared then some { m with server := .ended }
  else if P.rests m.shared then some { m with server := .waiting }
  else (P.turn o m.shared).map fun shared => { m with shared }.wakeAll

def step (m : State ι σ γ) : Step ι γ ω → Option (State ι σ γ)
  | .request i g =>
    match m.clients i with
    | .idle => if P.closed m.shared then none else some (m.put i (.entering g))
    | _ => none
  | .enter i o =>
    match m.clients i with
    | .entering g => enter P m i g o
    | _ => none
  | .notify i woken =>
    match m.clients i with
    | .notifying => notifyOne (m.put i .idle) woken
    | _ => none
  | .wakeUp who => if m.asleep who then some (m.wake who) else none
  | .turn o =>
    match m.server with
    | .ready => serverTurn P m o
    | _ => none
  | .close o =>
    if ∀ i, (m.clients i).isIdle then
      (P.close o m.shared).map fun shared => { m with shared }.wakeAll
    else none

/-- Whoever gets on in the step: a client that is served, or the server. -/
def served (m : State ι σ γ) : Step ι γ ω → Option (Turn ι γ)
  | .enter i _ =>
    match m.clients i with
    | .entering g => if P.waits g m.shared then none else some (.client i g)
    | _ => none
  | .turn _ => if P.closed m.shared || P.rests m.shared then none else some .server
  | _ => none

/-- The turns of a run, in the order in which they had the lock. -/
def turns : List (Step ι γ ω) → State ι σ γ → List (Turn ι γ)
  | [], _ => []
  | a :: as, m => (served P m a).toList ++ (step P m a).elim [] (turns as)

end Stepping

/-- What a step does to the shared state, which becomes `s'`, and whose turn it is. -/
inductive Shares {ι σ γ ω : Type} (P : Protocol σ γ ω) (m : State ι σ γ) (s' : σ) :
    Step ι γ ω → Option (Turn ι γ) → Prop
  | same {a : Step ι γ ω} : m.shared = s' →
      (∀ o, a = .turn o → P.closed m.shared ∨ P.rests m.shared) → Shares P m s' a none
  | parks {i : ι} {o : ω} {g : γ} : m.clients i = .entering g → P.waits g m.shared →
      P.park m.shared = s' → Shares P m s' (.enter i o) none
  | serves {i : ι} {o : ω} {g : γ} {notifies : Bool} : m.clients i = .entering g →
      P.waits g m.shared = false → P.serve g o m.shared = some (s', notifies) →
      Shares P m s' (.enter i o) (some (.client i g))
  | turns {o : ω} : P.closed m.shared = false → P.rests m.shared = false →
      P.turn o m.shared = some s' → Shares P m s' (.turn o) (some .server)
  | closes {o : ω} : P.close o m.shared = some s' → Shares P m s' (.close o) none

/-- A client waits only under a load of `limit` or more, and then it has called the server.  A
client that is served adds at most one to the load, and nothing that it does not notify of.  The
server rests when there is no load and nobody has called it. -/
structure Bounded {σ γ ω : Type} (P : Protocol σ γ ω) (J Called : σ → Prop) (load : σ → Nat)
    (limit : Nat) : Prop where
  waits : ∀ {g s}, P.waits g s → limit ≤ load s
  park : ∀ {g s}, J s → P.waits g s →
    J (P.park s) ∧ (P.closed s = false → Called (P.park s) ∧ P.closed (P.park s) = false)
  serve : ∀ {g o s s' notifies}, J s → P.serve g o s = some (s', notifies) →
    J s' ∧ P.closed s' = P.closed s ∧ (Called s → Called s') ∧
      load s' ≤ load s + (if notifies then 1 else 0) ∧ (notifies = false → P.rests s → P.rests s')
  rests : ∀ {s}, P.rests s → load s = 0 ∧ ¬Called s
  turn : ∀ {o s s'}, J s → P.turn o s = some s' → J s' ∧ P.closed s' = P.closed s
  close : ∀ {o s s'}, J s → P.close o s = some s' → J s' ∧ P.closed s'

/-- While the server sleeps no client does, and there is nothing to do, or a client is about to
notify the server. -/
structure Awake {ι σ γ ω : Type} [DecidableEq ι] [Fintype ι] (P : Protocol σ γ ω)
    (J Called : σ → Prop) (load : σ → Nat) (m : State ι σ γ) : Prop where
  shared : J m.shared
  idle : P.closed m.shared → ∀ i, (m.clients i).isIdle
  ended : m.server = .ended → P.closed m.shared
  called : ∀ i, (m.clients i).isWaiting → Called m.shared
  alone : m.server = .waiting → ∀ i, (m.clients i).isWaiting = false
  loaded : m.server = .waiting → load m.shared ≤ m.pending
  told : m.server = .waiting → P.rests m.shared ∨ 0 < m.pending

section Counting

variable {ι σ γ : Type} {m : State ι σ γ} {i j : ι} {c : Client γ}

section Pending

variable [Fintype ι]

/-- A client that is not about to notify leaves room for one that is. -/
theorem pending_lt (h : (m.clients i).isNotifying = false) : m.pending < Fintype.card ι := by
  refine Finset.card_lt_card (Finset.ssubset_univ_iff.mpr fun hAll => ?_)
  have hMem := Finset.mem_univ i
  rw [← hAll, Finset.mem_filter, h] at hMem
  exact Bool.false_ne_true hMem.2

theorem exists_of_pending (h : 0 < m.pending) : ∃ i, (m.clients i).isNotifying := by
  obtain ⟨i, hi⟩ := Finset.card_pos.mp h
  exact ⟨i, (Finset.mem_filter.mp hi).2⟩

end Pending

variable [DecidableEq ι]

@[simp] theorem put_clients_self : (m.put i c).clients i = c := Function.update_self ..

@[simp] theorem put_clients_ne (h : j ≠ i) : (m.put i c).clients j = m.clients j :=
  Function.update_of_ne h ..

@[simp] theorem put_server : (m.put i c).server = m.server := rfl

@[simp] theorem put_shared : (m.put i c).shared = m.shared := rfl

/-- Whatever holds of the clients before holds of them after one of them has moved, if it holds of
where that one is now. -/
theorem forall_put (Q : ι → Client γ → Prop) (h : ∀ j, j ≠ i → Q j (m.clients j)) (hc : Q i c)
    (j : ι) : Q j ((m.put i c).clients j) := by
  by_cases hj : j = i
  · rwa [hj, put_clients_self]
  · rw [put_clients_ne hj]
    exact h j hj

theorem wake_clients (who : Sleeper ι) (j : ι) :
    (m.wake who).clients j = m.clients j ∨ (m.wake who).clients j = (m.clients j).woken := by
  cases who with
  | server => exact .inl rfl
  | client i =>
    by_cases hj : j = i
    · rw [hj]
      exact .inr put_clients_self
    · exact .inl (put_clients_ne hj)

theorem waiting_of_wake {who : Sleeper ι} {j : ι} (hj : ((m.wake who).clients j).isWaiting) :
    (m.clients j).isWaiting := by
  rcases wake_clients (m := m) who j with hSame | hWoken
  · rwa [← hSame]
  · simp [hWoken] at hj

theorem idle_of_wake (who : Sleeper ι) (j : ι) :
    ((m.wake who).clients j).isIdle = (m.clients j).isIdle := by
  rcases wake_clients (m := m) who j with hSame | hWoken
  · rw [hSame]
  · rw [hWoken, Client.woken_isIdle]

theorem wake_shared (who : Sleeper ι) : (m.wake who).shared = m.shared := by
  cases who <;> rfl

variable [Fintype ι]

theorem pending_put_same (h : (m.clients i).isNotifying = c.isNotifying) :
    (m.put i c).pending = m.pending := by
  unfold State.pending
  refine congrArg Finset.card (Finset.filter_congr fun j _ => ?_)
  by_cases hj : j = i
  · rw [hj, put_clients_self, h]
  · rw [put_clients_ne hj]

theorem pending_put_notifying (h : (m.clients i).isNotifying = false) :
    (m.put i .notifying).pending = m.pending + 1 := by
  have hInsert : (Finset.univ.filter fun j => ((m.put i .notifying).clients j).isNotifying) =
      insert i (Finset.univ.filter fun j => (m.clients j).isNotifying) := by
    ext j
    by_cases hj : j = i
    · rw [Finset.mem_insert]
      simp [hj]
    · simp [hj]
  rw [State.pending, hInsert, Finset.card_insert_of_notMem (by simp [h]), State.pending]

end Counting

section Invariant

variable {ι σ γ ω : Type} [DecidableEq ι] [Fintype ι] {P : Protocol σ γ ω} {J Called : σ → Prop}
  {load : σ → Nat} {limit : Nat} {m m' : State ι σ γ} {i : ι}

theorem Awake.start {s : σ} (h : J s) :
    Awake P J Called load (State.start s : State ι σ γ) where
  shared := h
  idle _ _ := rfl
  ended h := nomatch h
  called _ h := nomatch h
  alone h := nomatch h
  loaded h := nomatch h
  told h := nomatch h

/-- The clients are where they were, or nobody is asleep any more, and the server is awake. -/
theorem Awake.of_awake (h : Awake P J Called load m) (hShared : m'.shared = m.shared)
    (hServer : m'.server = .ready ∨ m'.server = m.server ∧ m.server ≠ .waiting)
    (hIdle : ∀ j, (m.clients j).isIdle → (m'.clients j).isIdle)
    (hWaits : ∀ j, (m'.clients j).isWaiting → (m.clients j).isWaiting) :
    Awake P J Called load m' := by
  have hAwake : m'.server ≠ .waiting := by
    rcases hServer with hServer | ⟨hServer, hNe⟩
    · simp [hServer]
    · rwa [hServer]
  exact {
    shared := hShared ▸ h.shared
    idle := fun hClosed j => hIdle j (h.idle (hShared ▸ hClosed) j)
    ended := fun hEnded => by
      rcases hServer with hServer | ⟨hServer, -⟩
      · exact nomatch hServer.symm.trans hEnded
      · exact hShared ▸ h.ended (hServer ▸ hEnded)
    called := fun j hj => hShared ▸ h.called j (hWaits j hj)
    alone := fun hw => absurd hw hAwake
    loaded := fun hw => absurd hw hAwake
    told := fun hw => absurd hw hAwake }

theorem Awake.request (h : Awake P J Called load m) {g : γ}
    (hStep : step P m (.request i g : Step ι γ ω) = some m') : Awake P J Called load m' := by
  simp only [step] at hStep
  split at hStep
  · rename_i hi
    split at hStep
    · cases hStep
    · rename_i hClosed
      cases hStep
      have hPending : (m.put i (.entering g)).pending = m.pending := pending_put_same (by simp [hi])
      exact {
        shared := h.shared
        idle := fun hc => absurd hc hClosed
        ended := h.ended
        called := forall_put (fun _ c => c.isWaiting → Called m.shared)
          (fun j _ => h.called j) (by simp)
        alone := fun hw => forall_put (fun _ c => c.isWaiting = false) (fun j _ => h.alone hw j) rfl
        loaded := fun hw => hPending ▸ h.loaded hw
        told := fun hw => hPending ▸ h.told hw }
  · cases hStep

variable (hP : Bounded P J Called load limit) (hCard : Fintype.card ι ≤ limit)

include hP hCard in
/-- A client that has to wait finds the server awake, for fewer clients are about to notify than it
takes to let it wait. -/
theorem Awake.enter_waits (h : Awake P J Called load m) {g : γ} (hi : m.clients i = .entering g)
    (hWaits : P.waits g m.shared) :
    Awake P J Called load ({ m with shared := P.park m.shared }.put i (.waiting g)) := by
  have hOpen : P.closed m.shared = false := by
    by_contra hClosed
    have hIdle := h.idle (by simpa using hClosed) i
    rw [hi] at hIdle
    cases hIdle
  obtain ⟨hJ, hParked⟩ := hP.park h.shared hWaits
  obtain ⟨hCalled, hStill⟩ := hParked hOpen
  have hAwake : m.server ≠ .waiting := by
    intro hw
    have hFew : m.pending < Fintype.card ι := pending_lt (by rw [hi]; rfl)
    have hLoad := h.loaded hw
    have hLimit := hP.waits hWaits
    omega
  exact {
    shared := hJ
    idle := fun hc => absurd hc (by simp [hStill])
    ended := fun he => absurd (h.ended he) (by simp [hOpen])
    called := fun _ _ => hCalled
    alone := fun hw => absurd hw hAwake
    loaded := fun hw => absurd hw hAwake
    told := fun hw => absurd hw hAwake }

include hP in
theorem Awake.enter_serve (h : Awake P J Called load m) {g : γ} {o : ω} {s : σ} {notifies : Bool}
    (hi : m.clients i = .entering g) (hServe : P.serve g o m.shared = some (s, notifies)) :
    Awake P J Called load
      ({ m with shared := s }.put i (if notifies then .notifying else .idle)) := by
  obtain ⟨hJ, hClosed, hCalled, hLoad, hRests⟩ := hP.serve h.shared hServe
  have hNot : (m.clients i).isNotifying = false := by rw [hi]; rfl
  have hPending : ({ m with shared := s }.put i (if notifies then .notifying else .idle)).pending =
      m.pending + (if notifies then 1 else 0) := by
    cases notifies with
    | true => exact pending_put_notifying (m := { m with shared := s }) hNot
    | false => exact pending_put_same (m := { m with shared := s }) hNot
  exact {
    shared := hJ
    idle := fun hc => by
      have hIdle := h.idle (hClosed ▸ hc) i
      rw [hi] at hIdle
      cases hIdle
    ended := fun he => hClosed ▸ h.ended he
    called := forall_put (fun _ c => c.isWaiting → Called s) (fun j _ hj => hCalled (h.called j hj))
      (by cases notifies <;> simp)
    alone := fun hw => forall_put (fun _ c => c.isWaiting = false) (fun j _ => h.alone hw j)
      (by cases notifies <;> rfl)
    loaded := fun hw => by
      have hBefore := h.loaded hw
      rw [hPending]
      show load s ≤ _
      omega
    told := fun hw => by
      rw [hPending]
      cases notifies with
      | true => exact .inr (Nat.succ_pos _)
      | false => exact (h.told hw).imp (hRests rfl) id }

include hP hCard in
theorem Awake.enter (h : Awake P J Called load m) {o : ω}
    (hStep : step P m (.enter i o : Step ι γ ω) = some m') : Awake P J Called load m' := by
  simp only [step] at hStep
  split at hStep
  · rename_i g hi
    unfold Wakeups.enter at hStep
    split at hStep
    · rename_i hWaits
      cases hStep
      exact h.enter_waits hP hCard hi hWaits
    · obtain ⟨⟨s, notifies⟩, hServe, rfl⟩ := Option.map_eq_some_iff.mp hStep
      exact h.enter_serve hP hi hServe
  · cases hStep

/-- Waking one sleeper keeps the invariant, for no client sleeps beside the server. -/
theorem Awake.wake (h : Awake P J Called load m) {who : Sleeper ι} (hAsleep : m.asleep who) :
    Awake P J Called load (m.wake who) := by
  refine h.of_awake (wake_shared who) ?_ (fun j hj => (idle_of_wake who j).trans hj) fun j =>
    waiting_of_wake
  cases who with
  | server =>
    have hw : m.server = .waiting := of_decide_eq_true hAsleep
    exact .inl (by simp [State.wake, hw, Server.woken])
  | client i =>
    have hi : (m.clients i).isWaiting := hAsleep
    have hNe : m.server ≠ .waiting := fun hw => by simp [h.alone hw i] at hi
    exact .inr ⟨rfl, hNe⟩

theorem Awake.wakeUp (h : Awake P J Called load m) {who : Sleeper ι}
    (hStep : step P m (.wakeUp who : Step ι γ ω) = some m') : Awake P J Called load m' := by
  simp only [step] at hStep
  split at hStep
  · rename_i hAsleep
    cases hStep
    exact h.wake hAsleep
  · cases hStep

/-- The server, asleep, is the only one that a notification can reach. -/
theorem Awake.notify (h : Awake P J Called load m) {woken : Option (Sleeper ι)}
    (hStep : step P m (.notify i woken : Step ι γ ω) = some m') : Awake P J Called load m' := by
  simp only [step] at hStep
  split at hStep
  · rename_i hi
    have hIdle : ∀ j, (m.clients j).isIdle → ((m.put i .idle).clients j).isIdle :=
      forall_put (fun j c => (m.clients j).isIdle → c.isIdle) (fun _ _ hj => hj) fun _ => rfl
    have hWaits : ∀ j, ((m.put i .idle).clients j).isWaiting → (m.clients j).isWaiting :=
      forall_put (fun j c => c.isWaiting → (m.clients j).isWaiting) (fun _ _ hj => hj) (by simp)
    cases woken with
    | none =>
      simp only [notifyOne] at hStep
      split at hStep
      · rename_i hQuiet
        cases hStep
        exact h.of_awake rfl (.inr ⟨rfl, hQuiet.1⟩) hIdle hWaits
      · cases hStep
    | some who =>
      simp only [notifyOne] at hStep
      split at hStep
      · rename_i hAsleep
        cases hStep
        refine h.of_awake (wake_shared who) ?_ (fun j hj => (idle_of_wake who j).trans (hIdle j hj))
          fun j hj => hWaits j (waiting_of_wake hj)
        cases who with
        | server =>
          have hw : m.server = .waiting := of_decide_eq_true hAsleep
          exact .inl (by simp [State.wake, hw, Server.woken])
        | client k =>
          have hk : (m.clients k).isWaiting := hWaits k hAsleep
          have hNe : m.server ≠ .waiting := fun hw => by simp [h.alone hw k] at hk
          exact .inr ⟨rfl, hNe⟩
      · cases hStep
  · cases hStep

/-- Everybody has been woken. -/
theorem Awake.of_wakeAll {s : σ} (hJ : J s)
    (hIdle : P.closed s → ∀ j, (m.clients j).isIdle) (hEnded : m.server = .ended → P.closed s) :
    Awake P J Called load { m with shared := s }.wakeAll where
  shared := hJ
  idle hClosed j := (Client.woken_isIdle _).trans (hIdle hClosed j)
  ended he := hEnded (by
    cases hs : m.server with
    | ended => rfl
    | ready => simp [State.wakeAll, hs, Server.woken] at he
    | waiting => simp [State.wakeAll, hs, Server.woken] at he)
  called j hj := by simp [State.wakeAll] at hj
  alone hw := absurd hw (Server.woken_ne_waiting _)
  loaded hw := absurd hw (Server.woken_ne_waiting _)
  told hw := absurd hw (Server.woken_ne_waiting _)

include hP in
/-- The server goes to sleep only when no client waits, for one that does has called it. -/
theorem Awake.turn (h : Awake P J Called load m) {o : ω}
    (hStep : step P m (.turn o : Step ι γ ω) = some m') : Awake P J Called load m' := by
  simp only [step] at hStep
  split at hStep
  · rename_i hReady
    unfold serverTurn at hStep
    split at hStep
    · rename_i hClosed
      cases hStep
      exact { h with
        ended := fun _ => hClosed
        alone := nofun
        loaded := nofun
        told := nofun }
    · split at hStep
      · rename_i hRests
        cases hStep
        obtain ⟨hLoad, hCalled⟩ := hP.rests hRests
        exact { h with
          ended := nofun
          alone := fun _ j => by
            by_contra hj
            exact hCalled (h.called j (by simpa using hj))
          loaded := fun _ => hLoad ▸ Nat.zero_le _
          told := fun _ => .inl hRests }
      · rename_i hClosed _
        obtain ⟨s, hTurn, rfl⟩ := Option.map_eq_some_iff.mp hStep
        obtain ⟨hJ, hSame⟩ := hP.turn h.shared hTurn
        refine .of_wakeAll hJ (fun hc => absurd (hSame ▸ hc) hClosed) fun he => ?_
        exact nomatch hReady.symm.trans he
  · cases hStep

include hP in
theorem Awake.close (h : Awake P J Called load m) {o : ω}
    (hStep : step P m (.close o : Step ι γ ω) = some m') : Awake P J Called load m' := by
  simp only [step] at hStep
  split at hStep
  · rename_i hIdle
    obtain ⟨s, hClose, rfl⟩ := Option.map_eq_some_iff.mp hStep
    obtain ⟨hJ, hClosed⟩ := hP.close h.shared hClose
    exact .of_wakeAll hJ (fun _ => hIdle) fun _ => hClosed
  · cases hStep

include hP hCard in
theorem Awake.step (h : Awake P J Called load m) {a : Step ι γ ω} (hStep : step P m a = some m') :
    Awake P J Called load m' := by
  cases a with
  | request i g => exact h.request hStep
  | enter i o => exact h.enter hP hCard hStep
  | notify i woken => exact h.notify hStep
  | wakeUp who => exact h.wakeUp hStep
  | turn o => exact h.turn hP hStep
  | close o => exact h.close hP hStep

include hP hCard in
/-- As few clients as that never leave the server asleep beside one of them. -/
theorem Awake.run (as : List (Step ι γ ω)) (h : Awake P J Called load m)
    (hRun : Steps.run (Wakeups.step P) as m = some m') : Awake P J Called load m' :=
  Steps.run_kept (fun _ _ _ h hStep => h.step hP hCard hStep) h hRun

theorem Awake.not_stuck (h : Awake P J Called load m) : ¬m.Stuck := by
  rintro ⟨hServer, ⟨i, hi⟩, -⟩
  simp [h.alone hServer i] at hi

end Invariant

section Sharing

variable {ι σ γ ω : Type} [DecidableEq ι] [Fintype ι] {P : Protocol σ γ ω} {m m' : State ι σ γ}
  {a : Step ι γ ω}

theorem step_shares (hStep : step P m a = some m') :
    ∃ turn, served P m a = turn ∧ Shares P m m'.shared a turn := by
  refine ⟨_, rfl, ?_⟩
  cases a with
  | request i g =>
    simp only [step] at hStep
    split at hStep
    · split at hStep
      · cases hStep
      · cases hStep
        exact .same rfl nofun
    · cases hStep
  | enter i o =>
    simp only [step] at hStep
    split at hStep
    · next g hi =>
      unfold enter at hStep
      split at hStep
      · next hWaits =>
        cases hStep
        simp only [served, hi, hWaits, if_true]
        exact .parks hi hWaits rfl
      · next hGoes =>
        obtain ⟨⟨s, notifies⟩, hServe, rfl⟩ := Option.map_eq_some_iff.mp hStep
        simp only [served, hi, hGoes]
        exact .serves hi (by simpa using hGoes) hServe
    · cases hStep
  | notify i woken =>
    simp only [step] at hStep
    split at hStep
    · cases woken with
      | none =>
        simp only [notifyOne] at hStep
        split at hStep
        · cases hStep
          exact .same rfl nofun
        · cases hStep
      | some who =>
        simp only [notifyOne] at hStep
        split at hStep
        · cases hStep
          exact .same (wake_shared (m := m.put i .idle) who).symm nofun
        · cases hStep
    · cases hStep
  | wakeUp who =>
    simp only [step] at hStep
    split at hStep
    · cases hStep
      exact .same (wake_shared who).symm nofun
    · cases hStep
  | turn o =>
    simp only [step] at hStep
    split at hStep
    · unfold serverTurn at hStep
      split at hStep
      · next hClosed =>
        cases hStep
        simp only [served, hClosed, Bool.true_or, if_true]
        exact .same rfl fun _ _ => .inl hClosed
      · next hOpen =>
        split at hStep
        · next hRests =>
          cases hStep
          simp only [served, hRests, Bool.or_true, if_true]
          exact .same rfl fun _ _ => .inr hRests
        · next hBusy =>
          obtain ⟨s, hTurn, rfl⟩ := Option.map_eq_some_iff.mp hStep
          simp only [served, hOpen, hBusy, Bool.or_self, Bool.false_eq_true, if_false]
          exact .turns (by simpa using hOpen) (by simpa using hBusy) hTurn
    · cases hStep
  | close o =>
    simp only [step] at hStep
    split at hStep
    · obtain ⟨s, hClose, rfl⟩ := Option.map_eq_some_iff.mp hStep
      exact .closes hClose
    · cases hStep

variable {J Called : σ → Prop} {load : σ → Nat} {limit : Nat}

/-- The shared state keeps `J`, however many clients there are. -/
theorem Bounded.step_kept (hP : Bounded P J Called load limit) (h : J m.shared)
    (hStep : step P m a = some m') : J m'.shared := by
  obtain ⟨turn, -, hShares⟩ := step_shares hStep
  cases hShares with
  | same hSame => rwa [← hSame]
  | parks _ hWaits hPark =>
    rw [← hPark]
    exact (hP.park h hWaits).1
  | serves _ _ hServe => exact (hP.serve h hServe).1
  | turns _ _ hTurn => exact (hP.turn h hTurn).1
  | closes hClose => exact (hP.close h hClose).1

theorem Bounded.kept_along (hP : Bounded P J Called load limit) {states : ℕ → State ι σ γ}
    {acts : ℕ → Step ι γ ω} (hRun : ∀ n, step P (states n) (acts n) = some (states (n + 1)))
    (h : J (states 0).shared) (n : ℕ) : J (states n).shared := by
  induction n with
  | zero => exact h
  | succ n ih => exact hP.step_kept ih (hRun n)

end Sharing

/-! More clients can use up the notifications on one of them while the server sleeps. -/

section TooMany

variable {ι σ γ ω : Type} [DecidableEq ι] (P : Protocol σ γ ω)

/-- The state after a client for each `o` has been served, if none of them waits and each
notifies. -/
def serveAll (g : γ) : List ω → σ → Option σ
  | [], s => some s
  | o :: os, s =>
    if P.waits g s || P.closed s then none
    else
      match P.serve g o s with
      | some (s', true) => serveAll g os s'
      | _ => none

variable {P} [Fintype ι]

/-- The clients are served while the server sleeps, and all of them have yet to notify. -/
theorem leads_serveAll {g : γ} {is : List ι} {os : List ω} {m : State ι σ γ} {s : σ}
    (hLength : is.length = os.length) (hNodup : is.Nodup) (hIdle : ∀ i ∈ is, m.clients i = .idle)
    (hServe : serveAll P g os m.shared = some s) :
    ∃ m', Steps.Leads (step P) m m' ∧ m'.shared = s ∧ m'.server = m.server ∧
      (∀ i ∈ is, m'.clients i = .notifying) ∧ ∀ i ∉ is, m'.clients i = m.clients i := by
  induction is generalizing m os with
  | nil =>
    cases os with
    | nil => exact ⟨m, .refl m, Option.some.inj hServe, rfl, by simp, fun _ _ => rfl⟩
    | cons o os => cases hLength
  | cons i is ih =>
    cases os with
    | nil => cases hLength
    | cons o os =>
      simp only [serveAll] at hServe
      split at hServe
      · cases hServe
      · rename_i hGo
        split at hServe
        · rename_i s₁ hOne
          have hOpen : P.closed m.shared = false := by simp_all
          have hGoes : P.waits g m.shared = false := by simp_all
          have hAsk : step P m (.request i g : Step ι γ ω) = some (m.put i (.entering g)) := by
            simp [step, hIdle i (List.mem_cons_self ..), hOpen]
          have hEnter : step P (m.put i (.entering g)) (.enter i o : Step ι γ ω) =
              some ({ m.put i (.entering g) with shared := s₁ }.put i .notifying) := by
            simp [step, enter, hGoes, hOne]
          have hOther {j : ι} (hj : j ≠ i) :
              ({ m.put i (.entering g) with shared := s₁ }.put i .notifying).clients j =
                m.clients j := by
            rw [put_clients_ne hj]
            exact put_clients_ne hj
          obtain ⟨hNotMem, hRest⟩ := List.nodup_cons.mp hNodup
          have hNe {j : ι} (hj : j ∈ is) : j ≠ i := fun hEq => hNotMem (hEq ▸ hj)
          obtain ⟨m', hLeads, hShared, hServer, hNow, hSame⟩ := ih (Nat.succ.inj hLength) hRest
            (fun j hj => (hOther (hNe hj)).trans (hIdle j (List.mem_cons_of_mem _ hj))) hServe
          refine ⟨m', (hLeads.head hEnter).head hAsk, hShared, hServer, fun j hj => ?_,
            fun j hj => ?_⟩
          · rcases List.mem_cons.mp hj with rfl | hj
            · exact (hSame j hNotMem).trans put_clients_self
            · exact hNow j hj
          · obtain ⟨hj, hjs⟩ := not_or.mp (mt List.mem_cons.mpr hj)
            exact (hSame j hjs).trans (hOther hj)
        · cases hServe

/-- One after another the clients notify the one that waits, which goes back to waiting. -/
theorem leads_notifyAll {g : γ} {is : List ι} {i : ι} (o : ω) {m : State ι σ γ}
    (hNodup : is.Nodup) (hi : i ∉ is) (hNotify : ∀ j ∈ is, m.clients j = .notifying)
    (hWaiting : m.clients i = .waiting g) (hWaits : P.waits g m.shared)
    (hStays : P.park m.shared = m.shared) :
    ∃ m', Steps.Leads (step P) m m' ∧ m'.server = m.server ∧ m'.clients i = .waiting g ∧
      (∀ j ∈ is, m'.clients j = .idle) ∧ ∀ j ∉ is, m'.clients j = m.clients j := by
  induction is generalizing m with
  | nil => exact ⟨m, .refl m, rfl, hWaiting, by simp, fun _ _ => rfl⟩
  | cons j is ih =>
    obtain ⟨hNotMem, hRest⟩ := List.nodup_cons.mp hNodup
    obtain ⟨hij, his⟩ := not_or.mp (mt List.mem_cons.mpr hi)
    have hNe {k : ι} (hk : k ∈ is) : k ≠ j := fun hEq => hNotMem (hEq ▸ hk)
    have hAt : (m.put j .idle).clients i = .waiting g := (put_clients_ne hij).trans hWaiting
    have hTell : step P m (.notify j (some (.client i)) : Step ι γ ω) =
        some ((m.put j .idle).put i (.entering g)) := by
      simp [step, hNotify j (List.mem_cons_self ..), notifyOne, State.asleep, State.wake, hAt,
        Client.woken]
    have hBack : step P ((m.put j .idle).put i (.entering g)) (.enter i o : Step ι γ ω) =
        some (((m.put j .idle).put i (.entering g)).put i (.waiting g)) := by
      simp only [step, put_clients_self, enter, put_shared, hWaits, if_true, hStays]
      rfl
    have hOther {k : ι} (hk : k ≠ j) (hki : k ≠ i) :
        (((m.put j .idle).put i (.entering g)).put i (.waiting g)).clients k = m.clients k := by
      rw [put_clients_ne hki, put_clients_ne hki, put_clients_ne hk]
    obtain ⟨m', hLeads, hServer, hStill, hDone, hSame⟩ := ih hRest his
      (fun k hk => (hOther (hNe hk) fun hEq => his (hEq ▸ hk)).trans
        (hNotify k (List.mem_cons_of_mem _ hk))) put_clients_self hWaits hStays
    refine ⟨m', (hLeads.head hBack).head hTell, hServer, hStill, fun k hk => ?_, fun k hk => ?_⟩
    · rcases List.mem_cons.mp hk with rfl | hk
      · rw [hSame k hNotMem, put_clients_ne (Ne.symm hij), put_clients_ne (Ne.symm hij),
          put_clients_self]
      · exact hDone k hk
    · obtain ⟨hkj, hks⟩ := not_or.mp (mt List.mem_cons.mpr hk)
      rw [hSame k hks]
      by_cases hki : k = i
      · rw [hki, put_clients_self, hWaiting]
      · exact hOther hkj hki

/-- The server rests, as many clients as it takes are served, one more comes to wait, and it is the
one that they all notify. -/
theorem exists_stuck {g : γ} {os : List ω} {s s' : σ} (o : ω) (hOpen : P.closed s = false)
    (hRests : P.rests s) (hServe : serveAll P g os s = some s') (hClosed : P.closed s' = false)
    (hWaits : P.waits g s') (hStill : P.waits g (P.park s'))
    (hStays : P.park (P.park s') = P.park s')
    (hCard : os.length < Fintype.card ι) :
    ∃ m : State ι σ γ, Steps.Leads (step P) (.start s) m ∧ m.Stuck := by
  have hNodup : ((Finset.univ : Finset ι).toList.take (os.length + 1)).Nodup :=
    (Finset.nodup_toList _).sublist (List.take_sublist ..)
  have hLength : ((Finset.univ : Finset ι).toList.take (os.length + 1)).length = os.length + 1 := by
    rw [List.length_take, Finset.length_toList, Finset.card_univ]
    omega
  generalize (Finset.univ : Finset ι).toList.take (os.length + 1) = is at hNodup hLength
  cases is with
  | nil => cases hLength
  | cons i is =>
    obtain ⟨hi, hRest⟩ := List.nodup_cons.mp hNodup
    have hSleep : step P (.start s) (.turn o : Step ι γ ω) =
        some { (State.start s : State ι σ γ) with server := .waiting } := by
      simp [step, serverTurn, State.start, hOpen, hRests]
    obtain ⟨m₁, hServed, hShared, hServer, hNow, hSame⟩ := leads_serveAll
      (m := { (State.start s : State ι σ γ) with server := .waiting }) (Nat.succ.inj hLength) hRest
      (fun _ _ => rfl) hServe
    have hAsk : step P m₁ (.request i g : Step ι γ ω) = some (m₁.put i (.entering g)) := by
      simp [step, hSame i hi, State.start, hShared, hClosed]
    have hEnter : step P (m₁.put i (.entering g)) (.enter i o : Step ι γ ω) =
        some ({ m₁.put i (.entering g) with shared := P.park s' }.put i (.waiting g)) := by
      simp [step, enter, hShared, hWaits]
    have hLast {j : ι} (hj : j ≠ i) :
        ({ m₁.put i (.entering g) with shared := P.park s' }.put i (.waiting g)).clients j =
          m₁.clients j := by
      rw [put_clients_ne hj]
      exact put_clients_ne hj
    have hNe {j : ι} (hj : j ∈ is) : j ≠ i := fun hEq => hi (hEq ▸ hj)
    obtain ⟨m₂, hTold, hServer₂, hWaiting, hDone, hOther⟩ := leads_notifyAll o
      (m := { m₁.put i (.entering g) with shared := P.park s' }.put i (.waiting g)) hRest hi
      (fun j hj => (hLast (hNe hj)).trans (hNow j hj)) put_clients_self hStill hStays
    refine ⟨m₂, ((hServed.trans ((hTold.head hEnter).head hAsk)).head hSleep),
      hServer₂.trans hServer, ⟨i, by rw [hWaiting, Client.isWaiting_waiting]⟩, fun j => ?_⟩
    by_cases hj : j ∈ is
    · exact .inl (by rw [hDone j hj]; rfl)
    · by_cases hji : j = i
      · exact .inr (by rw [hji, hWaiting]; rfl)
      · exact .inl (by rw [hOther j hj, hLast hji, hSame j hj]; rfl)

end TooMany

end Wakeups
