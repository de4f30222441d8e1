import Mathlib.Tactic.Linarith
import MulanLsm.Runs

/-! The trigger of compactions and the choice of their files.  The trigger asks for the level with
the highest score; the choice takes that level's files, unless it is the last level or none of them
is past its pointer. -/

namespace MulanLsm

open Search (IsFirstBest)

variable {v : Version} {vs : VersionSet} {level : Nat} {q : ℚ}

theorem compactionScore_eq (v : Version) :
    compactionScore v = (List.range numLevels).foldl (Search.better (levelScore v)) none := by
  unfold compactionScore
  congr 1
  funext best level
  unfold Search.better
  cases levelScore v level with
  | none => rfl
  | some q => congr

theorem compactionScore_eq_some :
    compactionScore v = some (level, q) ↔ IsFirstBest (levelScore v) numLevels level q := by
  rw [compactionScore_eq]
  exact Search.foldl_better_eq_some

/-- The first level with the highest score, which is positive. -/
def Tops (v : Version) (level : Nat) : Prop := ∃ q, IsFirstBest (levelScore v) numLevels level q

/-- A level of which no file can be chosen. -/
def Stuck (vs : VersionSet) (level : Nat) : Prop :=
  level ≠ 0 ∧ ∀ h : level < numLevels, level < numLevels - 1 →
    vs.compactPointer ⟨level, h⟩ ≠ [] ∧
      ∀ f ∈ vs.current.filesAt level, f.largest.userKey ≤ vs.compactPointer ⟨level, h⟩

/-- There is a score exactly if there are files to compact. -/
def TriggerAgrees (vs : VersionSet) : Prop :=
  (compactionScore vs.current).isSome ↔ ∃ c, pickCompaction vs = some c ∧ c.inputs.1 ≠ []

instance (v : Version) (level : Nat) : Decidable (Tops v level) :=
  decidable_of_iff ((compactionScore v).any (·.1 = level)) (by
    simp [Tops, ← compactionScore_eq_some, Option.any_eq_true])

theorem levelScore_pos (h : levelScore v level = some q) (hq : 0 < q) : v.filesAt level ≠ [] := by
  intro hNil
  unfold levelScore at h
  split at h
  · next h0 =>
    subst h0
    obtain rfl := Option.some.inj h
    rw [Version.numFiles, hNil, List.length_nil, Binary64.ofNat_zero, Binary64.div_zero_left] at hq
    exact lt_irrefl 0 hq
  · simp [Version.totalSize, hNil] at h

theorem lt_numLevels (h : level < numLevels - 1) : level < numLevels := by omega

/-- Files are chosen of the level with the highest score, if it is not the last. -/
theorem pickCompaction_isSome (h : compactionScore vs.current = some (level, q)) :
    (∃ c, pickCompaction vs = some c ∧ c.inputs.1 ≠ []) ↔
      ∃ (hl : level < numLevels - 1) (first : List FileMetaData),
        pickInputs vs ⟨level, lt_numLevels hl⟩ = some first ∧ first ≠ [] := by
  unfold pickCompaction
  simp only [h, Option.bind_eq_bind, Option.bind_some]
  by_cases hl : level < numLevels - 1
  · rw [dif_pos hl]
    cases hFirst : pickInputs vs ⟨level, lt_numLevels hl⟩ with
    | none => simp [hFirst]
    | some first => simp [hl, hFirst]
  · rw [dif_neg hl]
    simp [hl]

theorem pickInputs_isSome {hl : level < numLevels} (hFiles : vs.current.filesAt level ≠ []) :
    (∃ first, pickInputs vs ⟨level, hl⟩ = some first ∧ first ≠ []) ↔
      level = 0 ∨ vs.compactPointer ⟨level, hl⟩ = [] ∨
        ∃ f ∈ vs.current.filesAt level, vs.compactPointer ⟨level, hl⟩ < f.largest.userKey := by
  obtain ⟨g, hg⟩ := List.exists_mem_of_ne_nil _ hFiles
  unfold pickInputs
  by_cases h0 : level = 0
  · subst h0
    simp [hFiles]
  · rw [if_neg h0]
    have hFind : ∀ p : FileMetaData → Bool,
        (∃ first, ((vs.current.filesAt level).find? p).map (fun f => [f]) = some first ∧
          first ≠ []) ↔
          ∃ f ∈ vs.current.filesAt level, p f := by
      intro p
      rw [← List.find?_isSome]
      cases (vs.current.filesAt level).find? p <;> simp
    rw [hFind]
    by_cases hPointer : vs.compactPointer ⟨level, hl⟩ = []
    · simpa [h0, hPointer] using ⟨g, hg⟩
    · simp [h0, hPointer]

theorem pickCompaction_of_tops (h : Tops vs.current level) :
    (∃ c, pickCompaction vs = some c ∧ c.inputs.1 ≠ []) ↔ ¬Stuck vs level := by
  obtain ⟨q, hBest⟩ := h
  rw [pickCompaction_isSome (compactionScore_eq_some.mpr hBest)]
  have hFiles := levelScore_pos hBest.eq hBest.pos
  constructor
  · rintro ⟨hl, hFirst⟩ ⟨h0, hStuck⟩
    obtain ⟨hPointer, hPast⟩ := hStuck hBest.lt hl
    rcases (pickInputs_isSome hFiles).mp hFirst with h | h | ⟨f, hf, hlt⟩
    · exact h0 h
    · exact hPointer h
    · exact absurd hlt (not_lt.mpr (hPast f hf))
  · intro hNot
    by_cases h0 : level = 0
    · exact ⟨by unfold numLevels; omega, (pickInputs_isSome hFiles).mpr (.inl h0)⟩
    · by_contra hNone
      refine hNot ⟨h0, fun hl hLast => ?_⟩
      have hNotPicked : ¬_ := fun h => hNone ⟨hLast, (pickInputs_isSome hFiles).mpr h⟩
      rw [not_or, not_or] at hNotPicked
      exact ⟨hNotPicked.2.1, fun f hf => not_lt.mp fun hlt => hNotPicked.2.2 ⟨f, hf, hlt⟩⟩

/-- The trigger and the choice agree exactly if files of the level with the highest score can be
chosen. -/
theorem triggerAgrees_iff (vs : VersionSet) :
    TriggerAgrees vs ↔ ∀ level, Tops vs.current level → ¬Stuck vs level := by
  unfold TriggerAgrees
  cases hScore : compactionScore vs.current with
  | none =>
    have hPick : pickCompaction vs = none := by
      unfold pickCompaction
      simp [hScore]
    have hTops : ∀ level, ¬Tops vs.current level := by
      rintro level ⟨q, hBest⟩
      rw [← compactionScore_eq_some, hScore] at hBest
      contradiction
    simp [hPick, hTops]
  | some best =>
    obtain ⟨level, q⟩ := best
    have hTops : Tops vs.current level := ⟨q, compactionScore_eq_some.mp hScore⟩
    rw [pickCompaction_of_tops hTops]
    constructor
    · rintro hNot level' ⟨q', hBest⟩
      rw [← compactionScore_eq_some, hScore] at hBest
      obtain ⟨rfl, -⟩ := Prod.mk.inj (Option.some.inj hBest)
      exact hNot.mp rfl
    · exact fun h => ⟨fun _ => h level hTops, fun _ => rfl⟩

theorem levelZeroScore_pos {n : Nat} (h : 0 < n) :
    0 < Binary64.div (Binary64.ofNat n) (Binary64.ofNat l0CompactionTrigger) :=
  Binary64.div_is_pos (Binary64.ofNat_pos h) (Binary64.ofNat_pos (by decide))

/-- A database that makes writers wait has a score. -/
theorem score_of_slowdown (h : level0NeedsSlowdown v) : (compactionScore v).isSome := by
  cases hScore : compactionScore v with
  | some => rfl
  | none =>
    rw [compactionScore_eq, Search.foldl_better_eq_none] at hScore
    have hZero := hScore 0 (by decide) _ rfl
    have hPos : 0 < v.numFiles 0 := by
      have : 12 ≤ v.numFiles 0 := of_decide_eq_true h
      omega
    exact absurd hZero (not_le.mpr (levelZeroScore_pos hPos))

/-- The trigger and the choice agree in every state exactly if files of the level with the highest
score can be chosen, and where writers have to wait there is a score. -/
theorem trigger_agrees_with_choice (vs : VersionSet) :
    (TriggerAgrees vs ↔ ∀ level, Tops vs.current level → ¬Stuck vs level) ∧
      (level0NeedsSlowdown vs.current → (compactionScore vs.current).isSome) :=
  ⟨triggerAgrees_iff vs, score_of_slowdown⟩

/-- After enough compactions everything is at the last level, which has a score, but no files that
can be chosen. -/
theorem trigger_without_choice :
    let ops : List Op := [.put [1] [], .compact, .compact, .compact, .compact, .compact, .compact]
    ∃ s0, opened eager ∅ = some s0 ∧ Along (fun op s => op.Sound s) ops s0 ∧
      ∃ s, opsRun ops s0 = some s ∧ (compactionScore s.db.versionSet.current).isSome ∧
        pickCompaction s.db.versionSet = none := by
  intro ops
  have h : (opened eager ∅).any (fun s0 => Along (fun op s => op.Sound s) ops s0 ∧
      ((opsRun ops s0).any fun s => (compactionScore s.db.versionSet.current).isSome ∧
        pickCompaction s.db.versionSet = none)) = true := by
    decide +kernel
  obtain ⟨s0, hStart, h⟩ := (Option.any_eq_true _ _).mp h
  obtain ⟨hOps, h⟩ := of_decide_eq_true h
  obtain ⟨s, hRun, hs⟩ := (Option.any_eq_true _ _).mp h
  exact ⟨s0, hStart, hOps, s, hRun, of_decide_eq_true hs⟩

def sizes (files : List FileMetaData) : Nat := (files.map (·.fileSize)).sum % 2 ^ 64

/-- The score of a level past the first with files of this size. -/
def sizeScore (size level : Nat) : ℚ :=
  Binary64.div (Binary64.ofNat size) (Binary64.ofNat (maxBytesForLevel level))

-- Level 2 holds more than ten times the bytes of level 1, but both round to one score.
example : sizeScore (10 * 2 ^ 53 + 1) 2 = sizeScore (2 ^ 53) 1 := by decide +kernel

theorem maxBytesForLevel_pos (level : Nat) : 0 < maxBytesForLevel level := by
  unfold maxBytesForLevel maxBytesForLevelBase maxBytesForLevelMultiplier
  split <;> positivity

theorem sizeScore_pos {size level : Nat} (h : 0 < size) : 0 < sizeScore size level :=
  Binary64.div_is_pos (Binary64.ofNat_pos h) (Binary64.ofNat_pos (maxBytesForLevel_pos level))

theorem sizeScore_mono {size size' level level' : Nat} (h : size ≤ size')
    (hLevel : maxBytesForLevel level' ≤ maxBytesForLevel level) :
    sizeScore size level ≤ sizeScore size' level' :=
  Binary64.div_mono (Binary64.ofNat_nonneg size) (Binary64.ofNat_pos (maxBytesForLevel_pos level'))
    (Binary64.ofNat_mono h) (Binary64.ofNat_mono hLevel)

/-- The version with files at levels 0 to 2 only. -/
def threeLevels (fs gs hs : List FileMetaData) : Version :=
  { files := fun level => match level.val with
    | 0 => fs
    | 1 => gs
    | 2 => hs
    | _ => [] }

section ThreeLevels

variable {fs gs hs : List FileMetaData}

@[simp] theorem filesAt_threeLevels (level : Nat) : (threeLevels fs gs hs).filesAt level =
    match level with
    | 0 => fs
    | 1 => gs
    | 2 => hs
    | _ => [] := by
  unfold Version.filesAt threeLevels
  split
  · rfl
  · next h =>
    unfold numLevels at h
    split <;> first | rfl | omega

theorem levelScore_of_size {v : Version} {level : Nat} (h : level ≠ 0) :
    levelScore v level = if sizes (v.filesAt level) = 0 then none
      else some (sizeScore (sizes (v.filesAt level)) level) :=
  if_neg h

theorem levelScore_threeLevels {level : Nat} {q : ℚ}
    (h : levelScore (threeLevels fs gs hs) level = some q) :
    level = 0 ∧ q = Binary64.div (Binary64.ofNat fs.length) (Binary64.ofNat l0CompactionTrigger) ∨
      level = 1 ∧ q = sizeScore (sizes gs) 1 ∨ level = 2 ∧ q = sizeScore (sizes hs) 2 := by
  match level with
  | 0 => exact .inl ⟨rfl, (Option.some.inj h).symm⟩
  | 1 =>
    rw [levelScore_of_size Nat.one_ne_zero] at h
    split at h
    · contradiction
    · exact .inr (.inl ⟨rfl, (Option.some.inj h).symm⟩)
  | 2 =>
    rw [levelScore_of_size (by decide)] at h
    split at h
    · contradiction
    · exact .inr (.inr ⟨rfl, (Option.some.inj h).symm⟩)
  | level + 3 => simp [levelScore_of_size, sizes] at h

/-- Files at level 0 are compacted if the next levels are small. -/
theorem compactionScore_zero (hfs : fs ≠ []) (hgs : sizes gs ≤ 2 ^ 20) (hhs : sizes hs ≤ 2 ^ 20) :
    compactionScore (threeLevels fs gs hs) =
      some (0, Binary64.div (Binary64.ofNat fs.length) (Binary64.ofNat l0CompactionTrigger)) := by
  have hLen : 0 < fs.length := List.length_pos_iff.mpr hfs
  -- A quarter is more than what a level of 1 MiB has.
  have hAbove {size level : Nat} (hSize : size ≤ 2 ^ 20)
      (hLevel : maxBytesForLevel 1 ≤ maxBytesForLevel level) :
      sizeScore size level ≤
        Binary64.div (Binary64.ofNat fs.length) (Binary64.ofNat l0CompactionTrigger) :=
    calc sizeScore size level ≤ sizeScore (2 ^ 20) 1 := sizeScore_mono hSize hLevel
      _ ≤ Binary64.div (Binary64.ofNat 1) (Binary64.ofNat l0CompactionTrigger) := by decide +kernel
      _ ≤ _ := Binary64.div_mono (Binary64.ofNat_nonneg 1) (Binary64.ofNat_pos (by decide))
        (Binary64.ofNat_mono hLen) le_rfl
  refine compactionScore_eq_some.mpr ⟨by decide, rfl, levelZeroScore_pos hLen,
    fun level _ q hq => ?_⟩
  rcases levelScore_threeLevels hq with ⟨rfl, rfl⟩ | ⟨rfl, rfl⟩ | ⟨rfl, rfl⟩
  · exact ⟨le_rfl, fun h => absurd h (lt_irrefl 0)⟩
  · exact ⟨hAbove hgs le_rfl, fun h => absurd h (Nat.not_lt_zero _)⟩
  · exact ⟨hAbove hhs (by decide), fun h => absurd h (Nat.not_lt_zero _)⟩

/-- Files at level 1 are compacted if there are none at level 0, and no more at level 2. -/
theorem compactionScore_one (hgs : 0 < sizes gs) (hhs : sizes hs ≤ sizes gs) :
    compactionScore (threeLevels [] gs hs) = some (1, sizeScore (sizes gs) 1) := by
  refine compactionScore_eq_some.mpr ⟨by decide, ?_, sizeScore_pos hgs, fun level _ q hq => ?_⟩
  · rw [levelScore_of_size Nat.one_ne_zero]
    exact if_neg hgs.ne'
  rcases levelScore_threeLevels hq with ⟨rfl, rfl⟩ | ⟨rfl, rfl⟩ | ⟨rfl, rfl⟩
  · rw [List.length_nil, Binary64.ofNat_zero, Binary64.div_zero_left]
    exact ⟨(sizeScore_pos hgs).le, fun _ => sizeScore_pos hgs⟩
  · exact ⟨le_rfl, fun h => absurd h (lt_irrefl 1)⟩
  · exact ⟨sizeScore_mono hhs (by decide), fun h => absurd h (by omega)⟩

end ThreeLevels

/-- Files at level 0 that share no keys with the others are compacted alone. -/
theorem pickCompaction_zero {vs : VersionSet} {fs gs hs : List FileMetaData}
    (hv : vs.current = threeLevels fs gs hs) (hfs : fs ≠ []) (hgs : sizes gs ≤ 2 ^ 20)
    (hhs : sizes hs ≤ 2 ^ 20)
    (hApart : ∀ g ∈ gs ++ hs, g.largest.userKey < (keyRange fs).1) :
    pickCompaction vs = some { level := 0, inputs := (fs, []), grandparents := [] } := by
  have hNone : ∀ gs' : List FileMetaData, (∀ g ∈ gs', g.largest.userKey < (keyRange fs).1) →
      gs'.filter (fun f => userKeyOverlap f (keyRange fs).1 (keyRange fs).2) = [] := by
    intro gs' h
    refine List.filter_eq_nil_iff.mpr fun g hg => ?_
    rw [userKeyOverlap, if_pos (h g hg)]
    exact Bool.false_ne_true
  have hgs' := hNone gs fun g hg => hApart g (List.mem_append_left _ hg)
  have hhs' := hNone hs fun g hg => hApart g (List.mem_append_right _ hg)
  unfold pickCompaction pickInputs
  simp only [hv, compactionScore_zero hfs hgs hhs, Option.bind_eq_bind, Option.bind_some, if_true,
    filesAt_threeLevels, Version.getOverlaps, hfs, if_false, hgs', List.append_nil, ne_eq,
    not_false_eq_true, and_true]
  rw [dif_pos (by decide), if_pos (by decide), hhs']
  rfl

theorem pickCompaction_one {vs : VersionSet} {gs hs : List FileMetaData} {f : FileMetaData}
    (hv : vs.current = threeLevels [] gs hs) (hgs : 0 < sizes gs) (hhs : sizes hs ≤ sizes gs)
    (hFind : gs.find? (fun g => vs.compactPointer ⟨1, by decide⟩ = [] ∨
      g.largest.userKey > vs.compactPointer ⟨1, by decide⟩) = some f)
    (hApart : ∀ g ∈ hs, g.largest.userKey < f.smallest.userKey) :
    pickCompaction vs = some { level := 1, inputs := ([f], []), grandparents := [] } := by
  have hhs' : hs.filter (fun g => userKeyOverlap g (keyRange [f]).1 (keyRange [f]).2) = [] := by
    refine List.filter_eq_nil_iff.mpr fun g hg => ?_
    rw [userKeyOverlap, if_pos (by exact hApart g hg)]
    exact Bool.false_ne_true
  unfold pickCompaction pickInputs
  simp only [hv, compactionScore_one hgs hhs, Option.bind_eq_bind, Option.bind_some,
    filesAt_threeLevels, Version.getOverlaps]
  rw [dif_pos (by decide), if_neg Nat.one_ne_zero]
  simp only [hFind, Option.map_some, Option.bind_some, hhs', List.cons_ne_nil, if_false,
    List.append_nil]
  simp

end MulanLsm
