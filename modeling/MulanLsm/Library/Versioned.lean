import Mathlib.Data.Set.Basic
import Mathlib.Order.Nat
import Mathlib.Tactic.Common

/-! Sets of versions.  A version gives a key a value, or no value, at a sequence number.  A reader
at sequence number `s` sees the newest of a key's versions that are no newer than `s`.  The results
say what such a reader sees of a union in which one part is newer than the other, of a set in which
some versions were replaced, and of a set that a version is added to. -/

namespace Versioned

/-- A type of versions of keys in `K`, each with a value in `V` or none. -/
class Version (α : Type) (K V : outParam Type) where
  key : α → K
  seq : α → ℕ
  value : α → Option V

open Version

variable {α K V : Type} [Version α K V]

/-- `x` is a version of `k` in `S` that a reader at `s` may see. -/
def Visible (S : Set α) (k : K) (s : ℕ) (x : α) : Prop := x ∈ S ∧ key x = k ∧ seq x ≤ s

/-- `x` is the newest version of `k` in `S` that a reader at `s` may see. -/
def Newest (S : Set α) (k : K) (s : ℕ) (x : α) : Prop :=
  Visible S k s x ∧ ∀ y, Visible S k s y → seq y ≤ seq x

/-- A reader at `s` finds `r` for `k` in `S`: the newest version's value, or none without one. -/
def Reads (S : Set α) (k : K) (s : ℕ) (r : Option V) : Prop :=
  (∃ x, Newest S k s x ∧ value x = r) ∨ (∀ x, ¬Visible S k s x) ∧ r = none

/-- No two versions of one key in `S` have the same sequence number. -/
def Distinct (S : Set α) : Prop := ∀ x ∈ S, ∀ y ∈ S, key x = key y → seq x = seq y → x = y

/-- Of every key, the versions in `N` are newer than those in `O`. -/
def Newer (N O : Set α) : Prop := ∀ x ∈ N, ∀ y ∈ O, key x = key y → seq y < seq x

variable {S S' N O R I : Set α} {k : K} {s s' : ℕ} {r r' : Option V} {x y : α}

theorem Visible.mono (h : Visible S k s x) (hS : x ∈ S') (hs : s ≤ s') : Visible S' k s' x :=
  ⟨hS, h.2.1, h.2.2.trans hs⟩

/-- Sequence numbers up to `s` are bounded, so a key with a visible version has a newest one. -/
theorem Visible.exists_newest (h : Visible S k s x) : ∃ y, Newest S k s y := by
  classical
  let P := fun n => ∃ y, Visible S k s y ∧ seq y = n
  have hP : P (seq x) := ⟨x, h, rfl⟩
  have hle := h.2.2
  obtain ⟨y, hy, hyn⟩ := Nat.findGreatest_spec (P := P) hle hP
  refine ⟨y, hy, fun z hz => ?_⟩
  rw [hyn]
  exact Nat.le_findGreatest hz.2.2 ⟨z, hz, rfl⟩

theorem Newest.reads (h : Newest S k s x) : Reads S k s (value x) := .inl ⟨x, h, rfl⟩

theorem reads_none (h : ∀ x, ¬Visible S k s x) : Reads S k s none := .inr ⟨h, rfl⟩

theorem Newest.unique (hd : Distinct S) (hx : Newest S k s x) (hy : Newest S k s y) : x = y :=
  hd x hx.1.1 y hy.1.1 (hx.1.2.1.trans hy.1.2.1.symm)
    (Nat.le_antisymm (hy.2 x hx.1) (hx.2 y hy.1))

theorem Distinct.mono (h : Distinct S') (hS : S ⊆ S') : Distinct S := fun x hx y hy =>
  h x (hS hx) y (hS hy)

/-- A version past all others of its key leaves the sequence numbers distinct. -/
theorem Distinct.insert (h : Distinct S) (hx : ∀ y ∈ S, key y = key x → seq y < seq x) :
    Distinct ({x} ∪ S) := by
  rintro y (rfl | hy) z (rfl | hz) hk hs
  · rfl
  · exact absurd hs (hx z hz hk.symm).ne'
  · exact absurd hs (hx y hy hk).ne
  · exact h y hy z hz hk hs

/-- With distinct sequence numbers a reader finds one result. -/
theorem Reads.unique (hd : Distinct S) (h : Reads S k s r) (h' : Reads S k s r') : r = r' := by
  rcases h with ⟨x, hx, rfl⟩ | ⟨hn, rfl⟩
  · rcases h' with ⟨y, hy, rfl⟩ | ⟨hn', rfl⟩
    · rw [hx.unique hd hy]
    · exact absurd hx.1 (hn' x)
  · rcases h' with ⟨y, hy, rfl⟩ | ⟨_, rfl⟩
    · exact absurd hy.1 (hn y)
    · rfl

/-- Only the versions of `k` up to `s` matter to a reader of `k` at `s`. -/
theorem Reads.congr (h : ∀ x, key x = k → seq x ≤ s → (x ∈ S ↔ x ∈ S')) :
    Reads S k s r ↔ Reads S' k s r := by
  have hv : ∀ x, Visible S k s x ↔ Visible S' k s x := fun x =>
    ⟨fun hx => ⟨(h x hx.2.1 hx.2.2).mp hx.1, hx.2⟩, fun hx => ⟨(h x hx.2.1 hx.2.2).mpr hx.1, hx.2⟩⟩
  simp only [Reads, Newest, hv]

/-- A reader past every version of `k` finds what a later reader finds. -/
theorem Reads.congr_seq (h : ∀ x ∈ S, key x = k → seq x ≤ s) (hs : s ≤ s') :
    Reads S k s r ↔ Reads S k s' r := by
  have hv : ∀ x, Visible S k s x ↔ Visible S k s' x := fun x =>
    ⟨fun hx => hx.mono hx.1 hs, fun hx => ⟨hx.1, hx.2.1, h x hx.1 hx.2.1⟩⟩
  simp only [Reads, Newest, hv]

/-- Where the newer part has a visible version, the reader finds what it finds there. -/
theorem Reads.union_newer (hN : Newer N O) (hx : Visible N k s x) :
    Reads (N ∪ O) k s r ↔ Reads N k s r := by
  have hn : ∀ z, Newest (N ∪ O) k s z ↔ Newest N k s z := by
    intro z
    constructor
    · rintro ⟨hz, hmax⟩
      have hzN : z ∈ N := by
        rcases hz.1 with h | h
        · exact h
        · have := hN x hx.1 z h (hx.2.1.trans hz.2.1.symm)
          have := hmax x (hx.mono (.inl hx.1) le_rfl)
          omega
      exact ⟨⟨hzN, hz.2⟩, fun y hy => hmax y (hy.mono (.inl hy.1) le_rfl)⟩
    · rintro ⟨hz, hmax⟩
      refine ⟨hz.mono (.inl hz.1) le_rfl, fun y hy => ?_⟩
      rcases hy.1 with h | h
      · exact hmax y ⟨h, hy.2⟩
      · exact (hN z hz.1 y h (hz.2.1.trans hy.2.1.symm)).le
  simp only [Reads, hn]
  constructor
  · rintro (h | ⟨h, -⟩)
    · exact .inl h
    · exact absurd (hx.mono (.inl hx.1) le_rfl) (h x)
  · rintro (h | ⟨h, -⟩)
    · exact .inl h
    · exact absurd hx (h x)

/-- Where one part has no visible version, the reader finds what it finds in the other. -/
theorem Reads.union_none (hx : ∀ x, ¬Visible N k s x) : Reads (N ∪ O) k s r ↔ Reads O k s r :=
  Reads.congr fun x hk hs =>
    ⟨fun h => h.resolve_left fun h' => hx x ⟨h', hk, hs⟩, fun h => .inr h⟩

/-- Versions `I` are replaced by some of them, `O`.  The reader finds the same when the newest
version it saw stays, or is one without a value, and then it sees no version any more. -/
theorem Reads.replace (hO : O ⊆ I)
    (h : ∀ x, Newest (R ∪ I) k s x →
      x ∈ R ∪ O ∨ value x = none ∧ ∀ y, ¬Visible (R ∪ O) k s y) :
    Reads (R ∪ I) k s r ↔ Reads (R ∪ O) k s r := by
  have hsub : ∀ x, Visible (R ∪ O) k s x → Visible (R ∪ I) k s x := fun x hx =>
    ⟨hx.1.imp id fun h => hO h, hx.2⟩
  constructor
  · rintro (⟨x, hx, rfl⟩ | ⟨hn, rfl⟩)
    · rcases h x hx with hm | ⟨hv, hn⟩
      · exact .inl ⟨x, ⟨⟨hm, hx.1.2⟩, fun y hy => hx.2 y (hsub y hy)⟩, rfl⟩
      · exact .inr ⟨hn, hv⟩
    · exact .inr ⟨fun x hx => hn x (hsub x hx), rfl⟩
  · rintro (⟨x, hx, rfl⟩ | ⟨hn, rfl⟩)
    · obtain ⟨z, hz⟩ := (hsub x hx.1).exists_newest
      rcases h z hz with hm | ⟨-, hn⟩
      · refine .inl ⟨x, ⟨hsub x hx.1, fun y hy => ?_⟩, rfl⟩
        exact (hz.2 y hy).trans (hx.2 z ⟨hm, hz.1.2⟩)
      · exact absurd hx.1 (hn x)
    · by_cases hs : ∃ x, Visible (R ∪ I) k s x
      · obtain ⟨x, hx⟩ := hs
        obtain ⟨z, hz⟩ := hx.exists_newest
        rcases h z hz with hm | ⟨hv, -⟩
        · exact absurd ⟨hm, hz.1.2⟩ (hn z)
        · exact .inl ⟨z, hz, hv⟩
      · exact .inr ⟨fun x hx => hs ⟨x, hx⟩, rfl⟩

/-- A version newer than all others of its key is what a reader at or past it finds. -/
theorem Reads.insert_self (hx : ∀ y ∈ S, key y = key x → seq y < seq x) (hs : seq x ≤ s) :
    Reads ({x} ∪ S) (key x) s (value x) := by
  have hN : Newer {x} S := by
    rintro _ rfl y hy hk
    exact hx y hy hk.symm
  have hv : Visible {x} (key x) s x := ⟨rfl, rfl, hs⟩
  refine (Reads.union_newer hN hv).mpr (Newest.reads ⟨hv, ?_⟩)
  rintro _ ⟨rfl, -⟩
  exact le_rfl

/-- A version of another key changes nothing. -/
theorem Reads.insert_ne (hk : key x ≠ k) : Reads ({x} ∪ S) k s r ↔ Reads S k s r :=
  Reads.union_none fun y hy => hk (by rw [← hy.2.1]; exact congrArg key hy.1.symm)

/-- A version past the reader changes nothing. -/
theorem Reads.insert_later (hs : s < seq x) : Reads ({x} ∪ S) k s r ↔ Reads S k s r :=
  Reads.union_none fun y hy => by
    obtain rfl : y = x := hy.1
    have := hy.2.2
    omega

/-- `o` is the newest version of `k` in `S` that a reader at `s` may see, or none if there is
none. -/
def Answers (S : Set α) (k : K) (s : ℕ) : Option α → Prop
  | some x => Newest S k s x
  | none => ∀ x, ¬Visible S k s x

theorem Answers.reads {o : Option α} (h : Answers S k s o) : Reads S k s (o.bind value) := by
  cases o with
  | some x => exact Newest.reads h
  | none => exact reads_none h

theorem Answers.congr {o : Option α} (h : Answers S k s o)
    (hS : ∀ x, key x = k → seq x ≤ s → (x ∈ S ↔ x ∈ S')) : Answers S' k s o := by
  have hv : ∀ x, Visible S' k s x → Visible S k s x := fun x hx =>
    ⟨(hS x hx.2.1 hx.2.2).mpr hx.1, hx.2⟩
  cases o with
  | some x =>
    obtain ⟨hx, hMax⟩ := h
    exact ⟨⟨(hS x hx.2.1 hx.2.2).mp hx.1, hx.2⟩, fun y hy => hMax y (hv y hy)⟩
  | none => exact fun x hx => h x (hv x hx)

/-- The newer of two parts answers if it can, else the other. -/
theorem Answers.union {o o' : Option α} (hN : Newer N O) (h : Answers N k s o)
    (h' : Answers O k s o') : Answers (N ∪ O) k s (o.or o') := by
  cases o with
  | some x =>
    obtain ⟨hx, hMax⟩ := h
    refine ⟨hx.mono (.inl hx.1) le_rfl, fun y hy => ?_⟩
    rcases hy.1 with hyN | hyO
    · exact hMax y ⟨hyN, hy.2⟩
    · exact (hN x hx.1 y hyO (hx.2.1.trans hy.2.1.symm)).le
  | none =>
    exact h'.congr fun x hk hs => ⟨.inr, fun hx => hx.resolve_left fun hN => h x ⟨hN, hk, hs⟩⟩

/-- Of parts that are newer the earlier they come, the first that can answers. -/
theorem Answers.findSome {ι : Type} {is : List ι} {T : ι → Set α} {f : ι → Option α}
    (hT : is.Pairwise fun i j => Newer (T i) (T j)) (h : ∀ i ∈ is, Answers (T i) k s (f i)) :
    Answers {x | ∃ i ∈ is, x ∈ T i} k s (is.findSome? f) := by
  induction is with
  | nil =>
    rintro x ⟨⟨i, hi, -⟩, -⟩
    contradiction
  | cons i is ih =>
    obtain ⟨hi, his⟩ := List.pairwise_cons.mp hT
    have hRest := ih his fun j hj => h j (List.mem_cons_of_mem _ hj)
    have hNewer : Newer (T i) {x | ∃ j ∈ is, x ∈ T j} := by
      rintro x hx y ⟨j, hj, hy⟩ hk
      exact hi j hj x hx y hy hk
    have hUnion := (h i List.mem_cons_self).union hNewer hRest
    have hEq : (i :: is).findSome? f = (f i).or (is.findSome? f) := by
      rw [List.findSome?_cons]
      cases f i <;> rfl
    rw [hEq]
    refine hUnion.congr fun x _ _ => ?_
    simp

end Versioned
