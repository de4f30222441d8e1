import MulanLsm.Db

/-! The files that are not live, told by their names.  A directory is read as texts; a text is taken
for the name of a table, of a log and of a manifest in turn, and the number in it is compared with
the numbers that are live. -/

namespace MulanLsm

/-- `sst` -/
def sstSuffix : Bytes := [0x73, 0x73, 0x74]

/-- `log` -/
def logSuffix : Bytes := [0x6C, 0x6F, 0x67]

/-- `dbtmp` -/
def tmpSuffix : Bytes := [0x64, 0x62, 0x74, 0x6D, 0x70]

/-- `.` -/
def dot : UInt8 := 0x2E

/-- `CURRENT` -/
def currentName : Bytes := [0x43, 0x55, 0x52, 0x52, 0x45, 0x4E, 0x54]

def currentTmpName : Bytes := currentName ++ dot :: tmpSuffix

def numberedFileName (number : Nat) (suffix : Bytes) : Bytes := toNamePart number ++ dot :: suffix

def sstName (number : Nat) : Bytes := numberedFileName number sstSuffix

def logName (number : Nat) : Bytes := numberedFileName number logSuffix

/-- The file number in front of a suffix. -/
def parseNumberedName (suffix name : Bytes) : Option Nat :=
  if dot :: suffix <:+ name then parseNumber (name.take (name.length - (dot :: suffix).length))
  else none

def parseSstName (name : Bytes) : Option Nat := parseNumberedName sstSuffix name

def parseLogName (name : Bytes) : Option Nat := parseNumberedName logSuffix name

/-- The text of a file's name. -/
def FileName.text : FileName → Bytes
  | .sst n => sstName n
  | .log n => logName n
  | .manifest n => manifestName n
  | .current => currentName
  | .currentTmp => currentTmpName

/-- The numbers of the tables of a version. -/
def Version.liveSst (v : Version) : List Nat :=
  (List.range numLevels).flatMap fun level => (v.filesAt level).map (·.number)

/-- A name of the directory is removed.  A name that is not valid text matches none of the cases, as
they are all in ASCII. -/
def removesName (vs : VersionSet) (name : Bytes) : Bool :=
  match parseSstName name with
  | some n => !vs.current.liveSst.contains n
  | none =>
    match parseLogName name with
    | some n => n ≠ vs.logNumber
    | none =>
      match parseManifestName name with
      | some n => n ≠ vs.manifestNumber
      | none => if name = currentName then false else name = currentTmpName

/-- The names that are left in a directory with the names `listing`, where removing a file fails if
the file is `stuck`. -/
def leftNames (vs : VersionSet) (stuck : Bytes → Bool) (listing : List Bytes) : List Bytes :=
  listing.filter fun name => !removesName vs name || stuck name

section Grammars

variable {n : Nat} {suffix : Bytes}

theorem parseNumberedName_self (n : Nat) (suffix : Bytes) :
    parseNumberedName suffix (numberedFileName n suffix) =
      if n < 2 ^ 64 then some n else none := by
  have hStem : (numberedFileName n suffix).length - (dot :: suffix).length =
      (toNamePart n).length := by
    rw [numberedFileName, List.length_append]
    omega
  rw [parseNumberedName, hStem, numberedFileName, if_pos (List.suffix_append _ _),
    List.take_left' rfl, parseNumber_toNamePart]

/-- A name that ends in another byte than a suffix does not have the suffix. -/
theorem parseNumberedName_none {name : Bytes} (h : name.getLast? ≠ (dot :: suffix).getLast?) :
    parseNumberedName suffix name = none := by
  apply if_neg
  rintro ⟨stem, rfl⟩
  rw [List.getLast?_append_of_ne_nil _ (List.cons_ne_nil _ _)] at h
  exact h rfl

theorem numberedFileName_last (n : Nat) (suffix : Bytes) :
    (numberedFileName n suffix).getLast? = (dot :: suffix).getLast? :=
  List.getLast?_append_of_ne_nil _ (List.cons_ne_nil _ _)

theorem manifestName_last (n : Nat) :
    ∃ b, (manifestName n).getLast? = some b ∧ isAsciiDigit b := by
  have hPart := toNamePart_ne_nil n
  refine ⟨(toNamePart n).getLast hPart, ?_, toNamePart_digits n _ (List.getLast_mem hPart)⟩
  rw [manifestName, List.getLast?_append_of_ne_nil _ hPart, List.getLast?_eq_getLast_of_ne_nil]

theorem numberedFileName_head (n : Nat) (suffix : Bytes) :
    ∃ b, (numberedFileName n suffix).head? = some b ∧ isAsciiDigit b := by
  have hPart := toNamePart_ne_nil n
  refine ⟨(toNamePart n).head hPart, ?_, toNamePart_digits n _ (List.head_mem hPart)⟩
  rw [numberedFileName, List.head?_append_of_ne_nil _ hPart, List.head?_eq_some_head]

/-- A manifest's name does not end as the name of a table or a log does. -/
theorem parseNumberedName_manifestName
    (hLetter : isAsciiDigit ((dot :: suffix).getLast (List.cons_ne_nil _ _)) = false) :
    parseNumberedName suffix (manifestName n) = none := by
  obtain ⟨b, hLast, hDigit⟩ := manifestName_last n
  apply parseNumberedName_none
  rw [hLast, List.getLast?_eq_some_getLast (List.cons_ne_nil _ _)]
  intro hEq
  rw [← Option.some.inj hEq, hDigit] at hLetter
  cases hLetter

/-- A numbered file's name does not begin as a manifest's does. -/
theorem parseManifestName_numberedFileName :
    parseManifestName (numberedFileName n suffix) = none := by
  obtain ⟨b, hHead, hDigit⟩ := numberedFileName_head n suffix
  apply if_neg
  rintro ⟨rest, hEq⟩
  rw [← hEq] at hHead
  have hLetter : ¬isAsciiDigit 0x4D = true := by decide
  exact hLetter (Option.some.inj hHead ▸ hDigit)

@[simp] theorem parseSstName_sstName (n : Nat) :
    parseSstName (sstName n) = if n < 2 ^ 64 then some n else none :=
  parseNumberedName_self n sstSuffix

@[simp] theorem parseSstName_logName (n : Nat) : parseSstName (logName n) = none :=
  parseNumberedName_none (by rw [logName, numberedFileName_last]; decide)

@[simp] theorem parseSstName_manifestName (n : Nat) : parseSstName (manifestName n) = none :=
  parseNumberedName_manifestName (by decide)

@[simp] theorem parseLogName_sstName (n : Nat) : parseLogName (sstName n) = none :=
  parseNumberedName_none (by rw [sstName, numberedFileName_last]; decide)

@[simp] theorem parseLogName_logName (n : Nat) :
    parseLogName (logName n) = if n < 2 ^ 64 then some n else none :=
  parseNumberedName_self n logSuffix

@[simp] theorem parseLogName_manifestName (n : Nat) : parseLogName (manifestName n) = none :=
  parseNumberedName_manifestName (by decide)

@[simp] theorem parseManifestName_sstName (n : Nat) : parseManifestName (sstName n) = none :=
  parseManifestName_numberedFileName

@[simp] theorem parseManifestName_logName (n : Nat) : parseManifestName (logName n) = none :=
  parseManifestName_numberedFileName

/-- A numbered file's name begins with a digit, that of `CURRENT` with a letter. -/
theorem numberedFileName_ne (n : Nat) (suffix : Bytes) :
    numberedFileName n suffix ≠ currentName ∧ numberedFileName n suffix ≠ currentTmpName := by
  obtain ⟨b, hHead, hDigit⟩ := numberedFileName_head n suffix
  have hLetter : ¬isAsciiDigit 0x43 = true := by decide
  constructor
  all_goals
    intro hEq
    rw [hEq] at hHead
    exact hLetter (Option.some.inj hHead ▸ hDigit)

theorem manifestName_ne (n : Nat) :
    manifestName n ≠ currentName ∧ manifestName n ≠ currentTmpName := by
  have hHead : (manifestName n).head? = some 0x4D := rfl
  constructor
  all_goals
    intro hEq
    rw [hEq] at hHead
    cases hHead

end Grammars

/-- The number in a file's name fits a `u64`. -/
def FileName.Fits : FileName → Prop
  | .sst n | .log n | .manifest n => n < 2 ^ 64
  | .current | .currentTmp => True

section Removal

variable {vs : VersionSet} {stuck : Bytes → Bool} {listing : List Bytes} {n : Nat}

theorem mem_liveSst {v : Version} :
    n ∈ v.liveSst ↔ ∃ level < numLevels, ∃ f ∈ v.filesAt level, f.number = n := by
  simp [Version.liveSst]

theorem removesName_sstName (vs : VersionSet) (n : Nat) :
    removesName vs (sstName n) = true ↔ n < 2 ^ 64 ∧ n ∉ vs.current.liveSst := by
  by_cases hFits : n < 2 ^ 64
  · rw [removesName, parseSstName_sstName, if_pos hFits, and_iff_right hFits]
    simp
  · have hNames := numberedFileName_ne n sstSuffix
    rw [removesName, parseSstName_sstName, if_neg hFits, parseLogName_sstName,
      parseManifestName_sstName]
    simp only [sstName, hNames, hFits, if_false, decide_false, false_and, Bool.false_eq_true]

theorem removesName_logName (vs : VersionSet) (n : Nat) :
    removesName vs (logName n) = true ↔ n < 2 ^ 64 ∧ n ≠ vs.logNumber := by
  by_cases hFits : n < 2 ^ 64
  · rw [removesName, parseSstName_logName, parseLogName_logName, if_pos hFits, and_iff_right hFits]
    simp
  · have hNames := numberedFileName_ne n logSuffix
    rw [removesName, parseSstName_logName, parseLogName_logName, if_neg hFits,
      parseManifestName_logName]
    simp only [logName, hNames, hFits, if_false, decide_false, false_and, Bool.false_eq_true]

theorem removesName_manifestName (vs : VersionSet) (n : Nat) :
    removesName vs (manifestName n) = true ↔ n < 2 ^ 64 ∧ n ≠ vs.manifestNumber := by
  have hNames := manifestName_ne n
  rw [removesName, parseSstName_manifestName, parseLogName_manifestName,
    parseManifestName_manifestName]
  by_cases hFits : n < 2 ^ 64
  · rw [if_pos hFits, and_iff_right hFits]
    simp
  · rw [if_neg hFits]
    simp only [hNames, hFits, if_false, decide_false, false_and, Bool.false_eq_true]

/-- What is removed by its text is what is not live, so far as its number fits. -/
theorem removesName_text (vs : VersionSet) (name : FileName) :
    removesName vs name.text = true ↔ name.Fits ∧ isObsolete vs name = true := by
  cases name with
  | sst n =>
    have hObsolete : isObsolete vs (.sst n) = true ↔ n ∉ vs.current.liveSst := by
      simp [isObsolete, mem_liveSst]
    rw [hObsolete]
    exact removesName_sstName vs n
  | log n =>
    rw [isObsolete, decide_eq_true_iff]
    exact removesName_logName vs n
  | manifest n =>
    rw [isObsolete, decide_eq_true_iff]
    exact removesName_manifestName vs n
  | current => exact iff_of_false Bool.false_ne_true fun h => Bool.false_ne_true h.2
  | currentTmp => exact iff_of_true rfl ⟨trivial, rfl⟩

/-- The files left in a directory that is listed by texts are those that the model keeps. -/
theorem mem_leftNames_text {d : Dir} {name : FileName} (hMem : name ∈ d) (hFits : name.Fits) :
    name.text ∈ leftNames vs stuck (d.keys.map FileName.text) ↔
      isObsolete vs name = false ∨ stuck name.text = true := by
  have hListed : name.text ∈ d.keys.map FileName.text := List.mem_map_of_mem hMem
  have hRemoves : removesName vs name.text = isObsolete vs name := by
    rw [Bool.eq_iff_iff, removesName_text]
    exact and_iff_right hFits
  rw [leftNames, List.mem_filter, hRemoves]
  simp [hListed]

/-- `CURRENT`, and the names of the manifest, of the log and of the tables that a version set
uses. -/
def VersionSet.LiveName (vs : VersionSet) (name : Bytes) : Prop :=
  name = currentName ∨ name = manifestName vs.manifestNumber ∨ name = logName vs.logNumber ∨
    ∃ level < numLevels, ∃ f ∈ vs.current.filesAt level, name = sstName f.number

theorem not_removesName_live {name : Bytes} (h : vs.LiveName name) :
    removesName vs name = false := by
  rw [← Bool.not_eq_true]
  rcases h with rfl | rfl | rfl | ⟨level, hLevel, f, hf, rfl⟩
  · exact fun hRemoved => nomatch ((removesName_text vs .current).mp hRemoved).2
  · exact fun hRemoved => ((removesName_manifestName vs _).mp hRemoved).2 rfl
  · exact fun hRemoved => ((removesName_logName vs _).mp hRemoved).2 rfl
  · exact fun hRemoved => ((removesName_sstName vs _).mp hRemoved).2
      (mem_liveSst.mpr ⟨level, hLevel, f, hf, rfl⟩)

theorem removesName_of_not_live {name : Bytes} (hn : n < 2 ^ 64)
    (hName : name = manifestName n ∨ name = logName n ∨ name = sstName n)
    (hDead : ¬vs.LiveName name) : removesName vs name = true := by
  rcases hName with rfl | rfl | rfl
  · exact (removesName_manifestName vs n).mpr
      ⟨hn, fun hEq => hDead (.inr (.inl (congrArg manifestName hEq)))⟩
  · exact (removesName_logName vs n).mpr
      ⟨hn, fun hEq => hDead (.inr (.inr (.inl (congrArg logName hEq))))⟩
  · refine (removesName_sstName vs n).mpr ⟨hn, fun hLive => ?_⟩
    obtain ⟨level, hLevel, f, hf, rfl⟩ := mem_liveSst.mp hLive
    exact hDead (.inr (.inr (.inr ⟨level, hLevel, f, hf, rfl⟩)))

/-- Removing the obsolete files of a directory leaves the live ones, and of all other files that
have the name of a manifest, a log or a table it leaves those that cannot be removed. -/
theorem removal_keeps_live (vs : VersionSet) (stuck : Bytes → Bool) (listing : List Bytes) :
    (∀ name ∈ listing, vs.LiveName name → name ∈ leftNames vs stuck listing) ∧
    ∀ n < 2 ^ 64, ∀ name,
      name = manifestName n ∨ name = logName n ∨ name = sstName n → ¬vs.LiveName name →
        name ∈ leftNames vs stuck listing → stuck name = true := by
  constructor
  · intro name hListed hLive
    refine List.mem_filter.mpr ⟨hListed, ?_⟩
    rw [not_removesName_live hLive]
    rfl
  · intro n hn name hName hDead hLeft
    have hKept := (List.mem_filter.mp hLeft).2
    rw [removesName_of_not_live hn hName hDead] at hKept
    simpa using hKept

end Removal

end MulanLsm
