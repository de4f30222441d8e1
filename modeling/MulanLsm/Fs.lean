import Mathlib.Data.List.AList
import MulanLsm.InternalKey
import MulanLsm.Library.Effects

/-! The file system under a database directory.  A program runs on an object of its own and on the
directory.  Each of its file-system calls succeeds, fails, or is the one the machine stops in, as
the world's list of outcomes says; past the end of the list every call succeeds.  A call that does
not succeed may have written some of its bytes. -/

namespace MulanLsm

open Effects

/-- The files of a database directory. -/
inductive FileName
  | current
  | currentTmp
  | manifest (number : Nat)
  | log (number : Nat)
  | sst (number : Nat)
  deriving DecidableEq, Repr

/-- A file: its bytes, how many of them are known to be on the disk, and, once a table builder has
written the footer, the entries of the table that the bytes hold. -/
structure File where
  bytes : Bytes
  synced : Nat
  table : Option (List Entry)
  deriving DecidableEq

/-- An empty file. -/
def File.empty : File := { bytes := [], synced := 0, table := none }

abbrev Dir := AList fun _ : FileName => File

/-- How a file-system call goes.  Of a write that fails or that the machine stops in, the first `n`
bytes reached the file. -/
inductive Outcome
  | ok
  | fail (n : Nat)
  | crash (n : Nat)
  deriving DecidableEq, Repr

structure World where
  dir : Dir
  outcomes : List Outcome

/-- Why a program ends without a value: an error that it returns, the machine stopped, or it
panicked. -/
inductive Fault
  | error (e : MulanError)
  | crash
  | panic
  deriving DecidableEq, Repr

/-- A program on an object of type `σ` and on the directory. -/
abbrev St (σ α : Type) := EStateM Fault (σ × World) α

variable {σ τ α β : Type}

/-- The object that the program runs on. -/
def self : St σ σ := Prod.fst <$> get

/-- Change the object that the program runs on. -/
def update (f : σ → σ) : St σ Unit := modify fun s => (f s.1, s.2)

/-- The value of a result, or its error. -/
def ofResult (r : Result α) : St σ α :=
  match r with
  | .ok a => pure a
  | .error e => throw (.error e)

/-- A call that turns the directory `d` into `full d`, or into `part n d` when it does not succeed
after `n` bytes. -/
def call (part : Nat → Dir → Dir) (full : Dir → Dir) : St σ Unit := fun (x, w) =>
  match w.outcomes with
  | [] => .ok () (x, { w with dir := full w.dir })
  | .ok :: os => .ok () (x, { dir := full w.dir, outcomes := os })
  | .fail n :: os => .error (.error .io) (x, { dir := part n w.dir, outcomes := os })
  | .crash n :: os => .error .crash (x, { dir := part n w.dir, outcomes := os })

/-- A call that only looks at the directory. -/
def look (f : Dir → Option α) : St σ α := do
  call (fun _ d => d) id
  match f (← get).2.dir with
  | some a => pure a
  | none => throw (.error .io)

/-- `m` on the part `view x` of the object, which `put` writes back, also when `m` fails. -/
def onField (view : σ → τ) (put : τ → σ → σ) (m : St τ α) : St σ α :=
  zoom (fun s => (view s.1, s.2)) (fun t s => (put t.1 s.1, t.2)) m

/-- `m` on the object `x`, which is dropped when `m` fails. -/
def runOn (x : τ) (m : St τ α) : St σ (α × τ) := fun (y, w) =>
  match m (x, w) with
  | .ok a (x', w') => .ok (a, x') (y, w')
  | .error e (_, w') => .error e (y, w')

/-- The directory with the file `name` changed by `f`, if it is there. -/
def Dir.change (d : Dir) (name : FileName) (f : File → File) : Dir :=
  match d.lookup name with
  | some file => d.insert name (f file)
  | none => d

/-- The file with `bs` at its end. -/
def File.append (bs : Bytes) (f : File) : File :=
  { f with bytes := f.bytes ++ bs, table := if bs = [] then f.table else none }

/-- Open `name` for writing, empty (`File::create`). -/
def createFile (name : FileName) : St σ Unit :=
  call (fun _ d => d) fun d => d.insert name .empty

/-- Open `name` for appending; an absent file is created empty. -/
def openAppend (name : FileName) : St σ Unit :=
  call (fun _ d => d) fun d => if name ∈ d then d else d.insert name .empty

/-- Append `bs` to `name`. -/
def writeAll (name : FileName) (bs : Bytes) : St σ Unit :=
  call (fun n d => d.change name (.append (bs.take n))) fun d => d.change name (.append bs)

/-- Append the footer `bs` of a table with the entries `es` to `name`. -/
def writeFooter (name : FileName) (bs : Bytes) (es : List Entry) : St σ Unit :=
  call (fun n d => d.change name (.append (bs.take n))) fun d =>
    d.change name fun f => { f.append bs with table := some es }

/-- Every byte of `name` is on the disk once this returns. -/
def syncAll (name : FileName) : St σ Unit :=
  call (fun _ d => d) fun d => d.change name fun f => { f with synced := f.bytes.length }

/-- Give the file `src` the name `dst`, in place of the file that had it. -/
def rename (src dst : FileName) : St σ Unit :=
  call (fun _ d => d) fun d =>
    match d.lookup src with
    | some f => (d.erase src).insert dst f
    | none => d

def removeFile (name : FileName) : St σ Unit := call (fun _ d => d) fun d => d.erase name

/-- The content of `name`. -/
def readFile (name : FileName) : St σ Bytes := look fun d => (d.lookup name).map (·.bytes)

/-- The length of `name`, a `u64`. -/
def fileLen (name : FileName) : St σ Nat :=
  look fun d => (d.lookup name).map (·.bytes.length % 2 ^ 64)

/-- Whether `name` is in the directory.  An error counts as absence. -/
def pathExists (name : FileName) : St σ Bool := fun (x, w) =>
  match w.outcomes with
  | [] => .ok (decide (name ∈ w.dir)) (x, w)
  | .ok :: os => .ok (decide (name ∈ w.dir)) (x, { w with outcomes := os })
  | .fail _ :: os => .ok false (x, { w with outcomes := os })
  | .crash _ :: os => .error .crash (x, { w with outcomes := os })

def readDir : St σ (List FileName) := look fun d => some d.keys

section Running

variable {s s' : σ × World} {x : σ} {t : τ} {w w' : World} {a : α} {f : Fault}

theorem bind_ok {m : St σ α} {g : α → St σ β} (h : m s = .ok a s') : (m >>= g) s = g a s' := by
  simp only [bind, EStateM.bind, h]

theorem bind_error {m : St σ α} {g : α → St σ β} (h : m s = .error f s') :
    (m >>= g) s = .error f s' := by
  simp only [bind, EStateM.bind, h]

theorem onField_ok {view : σ → τ} {put : τ → σ → σ} {m : St τ α}
    (h : m (view x, w) = .ok a (t, w')) : onField view put m (x, w) = .ok a (put t x, w') := by
  simp only [onField, zoom, h]

theorem onField_error {view : σ → τ} {put : τ → σ → σ} {m : St τ α}
    (h : m (view x, w) = .error f (t, w')) :
    onField view put m (x, w) = .error f (put t x, w') := by
  simp only [onField, zoom, h]

end Running

/-- A call fails with `f` after `n` bytes, and `A` allows that. -/
def Broken (A : Outcome → Prop) (n : Nat) : Fault → Prop
  | .error .io => A (.fail n)
  | .crash => A (.crash n)
  | _ => False

/-- Every call succeeds. -/
def Quiet (o : Outcome) : Prop := o = .ok

theorem not_broken_quiet {n : Nat} {f : Fault} : ¬Broken Quiet n f := by
  unfold Broken Quiet
  split <;> simp

/-- A call may fail with `f`. -/
def Fails (A : Outcome → Prop) (f : Fault) : Prop := ∃ n, Broken A n f

theorem not_fails_quiet {f : Fault} : ¬Fails Quiet f := fun ⟨_, h⟩ => not_broken_quiet h

/-- On the object `x` and the directory `d`, with calls that go as `A` allows, `m` returns a value
with `Q` or fails with `E`. -/
def Spec (A : Outcome → Prop) (m : St σ α) (Q : α → σ → Dir → Prop) (E : Fault → σ → Dir → Prop)
    (x : σ) (d : Dir) : Prop :=
  ∀ os, (∀ o ∈ os, A o) →
    wp m (fun a s => Q a s.1 s.2.dir ∧ ∀ o ∈ s.2.outcomes, A o)
      (fun f s => E f s.1 s.2.dir ∧ ∀ o ∈ s.2.outcomes, A o) (x, ⟨d, os⟩)

/-- No failure at all. -/
def Never (_ : Fault) (_ : σ) (_ : Dir) : Prop := False

section Rules

variable {A : Outcome → Prop} {x : σ} {d : Dir}

theorem Spec.mono {m : St σ α} {Q Q' : α → σ → Dir → Prop} {E E' : Fault → σ → Dir → Prop}
    (h : Spec A m Q E x d) (hQ : ∀ a y d', Q a y d' → Q' a y d')
    (hE : ∀ f y d', E f y d' → E' f y d') : Spec A m Q' E' x d := fun os hos =>
  wp_mono (h os hos) (fun _ _ h => ⟨hQ _ _ _ h.1, h.2⟩) (fun _ _ h => ⟨hE _ _ _ h.1, h.2⟩)

theorem Spec.and {m : St σ α} {Q Q' : α → σ → Dir → Prop} {E E' : Fault → σ → Dir → Prop}
    (h : Spec A m Q E x d) (h' : Spec A m Q' E' x d) :
    Spec A m (fun a y d' => Q a y d' ∧ Q' a y d') (fun f y d' => E f y d' ∧ E' f y d') x d :=
  fun os hos => wp_mono (wp_and (h os hos) (h' os hos))
    (fun _ _ h => ⟨⟨h.1.1, h.2.1⟩, h.1.2⟩) (fun _ _ h => ⟨⟨h.1.1, h.2.1⟩, h.1.2⟩)

theorem Spec.pure {Q : α → σ → Dir → Prop} {E : Fault → σ → Dir → Prop} {a : α} (h : Q a x d) :
    Spec A (Pure.pure a) Q E x d := fun _ hos => (wp_pure _ _ _ _).mpr ⟨h, hos⟩

theorem Spec.throw {Q : α → σ → Dir → Prop} {E : Fault → σ → Dir → Prop} {f : Fault}
    (h : E f x d) : Spec A (throw f : St σ α) Q E x d := fun _ hos =>
  (wp_throw _ _ _ _).mpr ⟨h, hos⟩

theorem Spec.bind {m : St σ α} {f : α → St σ β} {Q : β → σ → Dir → Prop}
    {E : Fault → σ → Dir → Prop}
    (h : Spec A m (fun a y d' => Spec A (f a) Q E y d') E x d) : Spec A (m >>= f) Q E x d :=
  fun os hos => (wp_bind _ _ _ _ _).mpr
    (wp_mono (h os hos) (fun _ s hs => hs.1 s.2.outcomes hs.2) (fun _ _ h => h))

theorem Spec.self {Q : σ → σ → Dir → Prop} {E : Fault → σ → Dir → Prop} (h : Q x x d) :
    Spec A self Q E x d := fun _ hos => ⟨h, hos⟩

theorem Spec.update {f : σ → σ} {Q : Unit → σ → Dir → Prop} {E : Fault → σ → Dir → Prop}
    (h : Q () (f x) d) : Spec A (update f) Q E x d := fun _ hos => ⟨h, hos⟩

theorem Spec.update_eq {f : σ → σ} {Q : Unit → σ → Dir → Prop} {E : Fault → σ → Dir → Prop}
    (h : ∀ y, y = f x → Q () y d) : Spec A (MulanLsm.update f) Q E x d := Spec.update (h _ rfl)

theorem Spec.ofResult {r : Result α} {Q : α → σ → Dir → Prop} {E : Fault → σ → Dir → Prop}
    (hok : ∀ a, r = .ok a → Q a x d) (herr : ∀ e, r = .error e → E (.error e) x d) :
    Spec A (ofResult r) Q E x d := by
  cases r with
  | ok a => exact Spec.pure (hok a rfl)
  | error e => exact Spec.throw (herr e rfl)

/-- A file-system call has its full effect, or the effect of its first bytes when it fails. -/
theorem Spec.call {part : Nat → Dir → Dir} {full : Dir → Dir} {Q : Unit → σ → Dir → Prop}
    {E : Fault → σ → Dir → Prop} (hok : Q () x (full d))
    (hfail : ∀ n f, Broken A n f → E f x (part n d)) : Spec A (call part full) Q E x d := by
  intro os hos
  cases os with
  | nil => exact ⟨hok, hos⟩
  | cons o os =>
    have ho : A o := hos o List.mem_cons_self
    have hos' : ∀ o ∈ os, A o := fun o h => hos o (List.mem_cons_of_mem _ h)
    cases o with
    | ok => exact ⟨hok, hos'⟩
    | fail n => exact ⟨hfail n (.error .io) ho, hos'⟩
    | crash n => exact ⟨hfail n .crash ho, hos'⟩

theorem Spec.look {f : Dir → Option α} {Q : α → σ → Dir → Prop} {E : Fault → σ → Dir → Prop}
    (hok : ∀ a, f d = some a → Q a x d) (hnone : f d = none → E (.error .io) x d)
    (hfail : ∀ n f, Broken A n f → E f x d) : Spec A (look f) Q E x d := by
  refine Spec.bind (Spec.call ?_ hfail)
  intro os hos
  rw [wp_bind, wp_get]
  split
  · next a h => exact ⟨hok a h, hos⟩
  · next h => exact ⟨hnone h, hos⟩

theorem Spec.onField {view : σ → τ} {put : τ → σ → σ} {m : St τ α} {Q : α → σ → Dir → Prop}
    {E : Fault → σ → Dir → Prop}
    (h : Spec A m (fun a t d' => Q a (put t x) d') (fun f t d' => E f (put t x) d') (view x) d) :
    Spec A (onField view put m) Q E x d := fun os hos => (wp_zoom _ _ _ _ _ _).mpr (h os hos)

theorem Spec.runOn {t : τ} {m : St τ α} {Q : α × τ → σ → Dir → Prop}
    {E : Fault → σ → Dir → Prop}
    (h : Spec A m (fun a t' d' => Q (a, t') x d') (fun f _ d' => E f x d') t d) :
    Spec A (runOn t m) Q E x d := by
  intro os hos
  have hm := h os hos
  unfold wp at hm ⊢
  simp only [MulanLsm.runOn]
  cases hr : m (t, ⟨d, os⟩) <;> rw [hr] at hm <;> exact hm

/-- With calls that all succeed, a program that fails only with a call does not fail. -/
theorem Spec.quiet {m : St σ α} {Q : α → σ → Dir → Prop} {E : Fault → σ → Dir → Prop}
    (h : Spec Quiet m Q E x d) (hE : ∀ f y d', E f y d' → Fails Quiet f) :
    Spec Quiet m Q Never x d :=
  h.mono (fun _ _ _ h => h) fun f y d' h => not_fails_quiet (hE f y d' h)

/-- With calls that all succeed, a program that cannot fail returns. -/
theorem Spec.run {m : St σ α} {Q : α → σ → Dir → Prop} (h : Spec Quiet m Q Never x d) :
    ∃ a y w, m (x, ⟨d, []⟩) = .ok a (y, w) ∧ Q a y w.dir := by
  obtain ⟨a, s, hm, hs⟩ := wp_run (wp_mono (h [] (by simp)) (fun _ _ h => h) (fun _ _ h => h.1))
  exact ⟨a, s.1, s.2, hm, hs.1⟩

/-- With calls that go as `A` allows, a program returns with `Q` or fails with `E`. -/
theorem Spec.result {m : St σ α} {Q : α → σ → Dir → Prop} {E : Fault → σ → Dir → Prop}
    (h : Spec A m Q E x d) {os : List Outcome} (hos : ∀ o ∈ os, A o) :
    (∃ a y w, m (x, ⟨d, os⟩) = .ok a (y, w) ∧ Q a y w.dir) ∨
      ∃ f y w, m (x, ⟨d, os⟩) = .error f (y, w) ∧ E f y w.dir := by
  have hw := h os hos
  unfold wp at hw
  cases hm : m (x, ⟨d, os⟩) with
  | ok a s => rw [hm] at hw; exact .inl ⟨a, s.1, s.2, rfl, hw.1⟩
  | error f s => rw [hm] at hw; exact .inr ⟨f, s.1, s.2, rfl, hw.1⟩

/-- A program that has returned has returned with `Q`. -/
theorem Spec.returned {m : St σ α} {Q : α → σ → Dir → Prop} {E : Fault → σ → Dir → Prop} {a : α}
    {y : σ} {os : List Outcome} {w : World} (hRun : m (x, ⟨d, os⟩) = .ok a (y, w))
    (h : Spec A m Q E x d) (hos : ∀ o ∈ os, A o) : Q a y w.dir := by
  rcases h.result hos with ⟨b, z, w', hOk, hQ⟩ | ⟨f, z, w', hError, -⟩
  · rw [hRun] at hOk
    cases hOk
    exact hQ
  · rw [hRun] at hError
    cases hError

/-- A program that has failed has failed with `E`. -/
theorem Spec.raised {m : St σ α} {Q : α → σ → Dir → Prop} {E : Fault → σ → Dir → Prop} {f : Fault}
    {y : σ} {os : List Outcome} {w : World} (hRun : m (x, ⟨d, os⟩) = .error f (y, w))
    (h : Spec A m Q E x d) (hos : ∀ o ∈ os, A o) : E f y w.dir :=
  ((wp_error hRun).mp (h os hos)).1

end Rules

theorem Dir.change_eq {d : Dir} {name : FileName} {file : File} (h : d.lookup name = some file)
    (f : File → File) : d.change name f = d.insert name (f file) := by
  simp [Dir.change, h]

theorem Dir.mem_of_lookup {d : Dir} {name : FileName} {file : File}
    (h : d.lookup name = some file) : name ∈ d := by
  rw [← AList.lookup_isSome, h]
  rfl

/-- `d'` agrees with `d` on all files but those in `names`. -/
def Dir.Frame (names : Set FileName) (d d' : Dir) : Prop :=
  ∀ name ∉ names, d'.lookup name = d.lookup name

theorem Dir.Frame.refl (names : Set FileName) (d : Dir) : Dir.Frame names d d := fun _ _ => rfl

theorem Dir.frame_of_lookup {d d' : Dir} {name : FileName} (h : d'.lookup name = d.lookup name) :
    d.Frame {name}ᶜ d' := fun other hOther => by
  rw [Set.notMem_compl_iff, Set.mem_singleton_iff] at hOther
  rw [hOther, h]

theorem Dir.Frame.trans {names : Set FileName} {d d' d'' : Dir} (h : Dir.Frame names d d')
    (h' : Dir.Frame names d' d'') : Dir.Frame names d d'' := fun name hn =>
  (h' name hn).trans (h name hn)

theorem Dir.Frame.mono {names names' : Set FileName} {d d' : Dir} (h : Dir.Frame names d d')
    (hs : names ⊆ names') : Dir.Frame names' d d' := fun name hn => h name fun h' => hn (hs h')

theorem Dir.Frame.insert {names : Set FileName} {name : FileName} (hn : name ∈ names) (d : Dir)
    (file : File) : Dir.Frame names d (d.insert name file) := fun _ hm =>
  AList.lookup_insert_ne fun h => hm (h ▸ hn)

/-- `name` is a file with these bytes, `synced` of them on the disk. -/
def Dir.Has (d : Dir) (name : FileName) (bytes : Bytes) (synced : Nat) : Prop :=
  ∃ f, d.lookup name = some f ∧ f.bytes = bytes ∧ f.synced = synced

/-- Every byte of `name` is on the disk. -/
def Dir.Synced (d : Dir) (name : FileName) : Prop := ∃ B, d.Has name B B.length

/-- As many bytes of `name` are on the disk in `d'` as in `d`. -/
def Dir.SameSynced (d : Dir) (name : FileName) (d' : Dir) : Prop :=
  ∃ f f', d.lookup name = some f ∧ d'.lookup name = some f' ∧ f'.synced = f.synced

theorem Dir.Synced.frame {d d' : Dir} {name : FileName} {names : Set FileName} (h : d.Synced name)
    (hFrame : d.Frame names d') (hName : name ∉ names) : d'.Synced name := by
  obtain ⟨B, f, hf, hB⟩ := h
  exact ⟨B, f, (hFrame _ hName).trans hf, hB⟩

theorem Dir.Has.unique {d : Dir} {name : FileName} {B B' : Bytes} {synced synced' : Nat}
    (h : d.Has name B synced) (h' : d.Has name B' synced') : B = B' ∧ synced = synced' := by
  obtain ⟨f, hf, rfl, rfl⟩ := h
  obtain ⟨g, hg, rfl, rfl⟩ := h'
  obtain rfl := Option.some.inj (hf.symm.trans hg)
  exact ⟨rfl, rfl⟩

theorem Dir.SameSynced.eq {d d' : Dir} {name : FileName} {B B' : Bytes} {synced synced' : Nat}
    (h : d.SameSynced name d') (hHas : d.Has name B synced) (hHas' : d'.Has name B' synced') :
    synced' = synced := by
  obtain ⟨f, f', hf, hf', hEq⟩ := h
  rw [(hHas.unique ⟨f, hf, rfl, rfl⟩).2, (hHas'.unique ⟨f', hf', rfl, rfl⟩).2, hEq]

theorem Spec.writeAll {A : Outcome → Prop} {x : σ} {d : Dir} {synced : Nat} {name : FileName}
    {bs B : Bytes} {Q : Unit → σ → Dir → Prop} {E : Fault → σ → Dir → Prop}
    (hHas : d.Has name B synced)
    (hok : ∀ d', d'.Has name (B ++ bs) synced → d.Frame {name} d' → Q () x d')
    (hfail : ∀ n f d', Broken A n f → d'.Has name (B ++ bs.take n) synced →
      d.Frame {name} d' → E f x d') : Spec A (writeAll name bs) Q E x d := by
  obtain ⟨f, hf, rfl, rfl⟩ := hHas
  have hHas' : ∀ bs : Bytes, Dir.Has (d.insert name (f.append bs)) name (f.bytes ++ bs) f.synced :=
    fun bs => ⟨f.append bs, AList.lookup_insert _, rfl, rfl⟩
  refine Spec.call ?_ fun n f' hBroken => ?_
  · rw [Dir.change_eq hf]
    exact hok _ (hHas' bs) (Dir.Frame.insert (Set.mem_singleton _) _ _)
  · rw [Dir.change_eq hf]
    exact hfail n f' _ hBroken (hHas' (bs.take n)) (Dir.Frame.insert (Set.mem_singleton _) _ _)

theorem Spec.syncAll {A : Outcome → Prop} {x : σ} {d : Dir} {synced : Nat} {name : FileName}
    {B : Bytes} {Q : Unit → σ → Dir → Prop} {E : Fault → σ → Dir → Prop}
    (hHas : d.Has name B synced)
    (hok : ∀ d', d'.Has name B B.length → d.Frame {name} d' → Q () x d')
    (hfail : ∀ n f, Broken A n f → E f x d) : Spec A (syncAll name) Q E x d := by
  obtain ⟨f, hf, rfl, rfl⟩ := hHas
  refine Spec.call ?_ hfail
  rw [Dir.change_eq hf]
  exact hok _ ⟨_, AList.lookup_insert _, rfl, rfl⟩ (Dir.Frame.insert (Set.mem_singleton _) _ _)

theorem Spec.readFile {A : Outcome → Prop} {x : σ} {d : Dir} {synced : Nat} {name : FileName}
    {B : Bytes} {Q : Bytes → σ → Dir → Prop} {E : Fault → σ → Dir → Prop}
    (hHas : d.Has name B synced) (hok : Q B x d) (hfail : ∀ n f, Broken A n f → E f x d) :
    Spec A (readFile name) Q E x d := by
  obtain ⟨f, hf, rfl, rfl⟩ := hHas
  refine Spec.look (fun a ha => ?_) (fun h => ?_) hfail
  · rw [hf] at ha
    exact Option.some.inj ha ▸ hok
  · rw [hf] at h
    contradiction

theorem Spec.fileLen {A : Outcome → Prop} {x : σ} {d : Dir} {synced : Nat} {name : FileName}
    {B : Bytes} {Q : Nat → σ → Dir → Prop} {E : Fault → σ → Dir → Prop}
    (hHas : d.Has name B synced) (hok : Q (B.length % 2 ^ 64) x d)
    (hfail : ∀ n f, Broken A n f → E f x d) : Spec A (fileLen name) Q E x d := by
  obtain ⟨f, hf, rfl, rfl⟩ := hHas
  refine Spec.look (fun a ha => ?_) (fun h => ?_) hfail
  · rw [hf] at ha
    exact Option.some.inj ha ▸ hok
  · rw [hf] at h
    contradiction

/-- A file that is there is opened as it is. -/
theorem Spec.openAppend {A : Outcome → Prop} {x : σ} {d : Dir} {name : FileName}
    {Q : Unit → σ → Dir → Prop} {E : Fault → σ → Dir → Prop} (hMem : name ∈ d) (hok : Q () x d)
    (hfail : ∀ n f, Broken A n f → E f x d) : Spec A (openAppend name) Q E x d :=
  Spec.call (by rw [if_pos hMem]; exact hok) hfail

theorem Dir.Has.mem {d : Dir} {name : FileName} {B : Bytes} {synced : Nat}
    (h : d.Has name B synced) : name ∈ d := by
  obtain ⟨f, hf, -, -⟩ := h
  exact Dir.mem_of_lookup hf

theorem Dir.Has.frame {d d' : Dir} {name : FileName} {B : Bytes} {synced : Nat}
    {names : Set FileName} (h : d.Has name B synced) (hFrame : d.Frame names d')
    (hName : name ∉ names) : d'.Has name B synced := by
  obtain ⟨f, hf, hB⟩ := h
  exact ⟨f, (hFrame name hName).trans hf, hB⟩

end MulanLsm
