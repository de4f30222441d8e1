import MulanLsm.CompactionOutputs

/-! What programs do whatever becomes of their calls.  A property of the directory that depends on
the finished tables, or on the tables with numbers below some number, lasts while a program runs
that writes no table without an entry and none with a lower number. -/

namespace MulanLsm

variable {σ τ α β : Type} {A : Outcome → Prop}

/-- A call may go any way. -/
def Any (_ : Outcome) : Prop := True

/-- From the object `x`, with calls that go as `A` allows, `m` keeps `I` of the directory, and
returns with `Q` or ends with `E`. -/
def Keeping (A : Outcome → Prop) (I : Dir → Prop) (m : St σ α) (x : σ) (Q : α → σ → Prop)
    (E : σ → Prop) : Prop :=
  ∀ d, I d → Spec A m (fun a y d' => Q a y ∧ I d') (fun _ y d' => E y ∧ I d') x d

namespace Keeping

variable {I : Dir → Prop} {x : σ} {E : σ → Prop}

theorem mono {m : St σ α} {Q Q' : α → σ → Prop} {E' : σ → Prop} (h : Keeping A I m x Q E)
    (hQ : ∀ a y, Q a y → Q' a y) (hE : ∀ y, E y → E' y) : Keeping A I m x Q' E' := fun d hd =>
  (h d hd).mono (fun a y _ h => ⟨hQ a y h.1, h.2⟩) fun _ y _ h => ⟨hE y h.1, h.2⟩

theorem pure {a : α} {Q : α → σ → Prop} (h : Q a x) : Keeping A I (Pure.pure a) x Q E := fun _ hd =>
  Spec.pure ⟨h, hd⟩

theorem throw {f : Fault} {Q : α → σ → Prop} (h : E x) :
    Keeping A I (MonadExcept.throw f : St σ α) x Q E := fun _ hd => Spec.throw ⟨h, hd⟩

theorem bind {m : St σ α} {f : α → St σ β} {Q : β → σ → Prop}
    (h : Keeping A I m x (fun a y => Keeping A I (f a) y Q E) E) : Keeping A I (m >>= f) x Q E :=
  fun d hd => Spec.bind ((h d hd).mono (fun _ _ d' h => h.1 d' h.2) fun _ _ _ h => h)

theorem self {Q : σ → σ → Prop} (h : Q x x) : Keeping A I MulanLsm.self x Q E := fun _ hd =>
  Spec.self ⟨h, hd⟩

theorem update {f : σ → σ} {Q : Unit → σ → Prop} (h : Q () (f x)) :
    Keeping A I (MulanLsm.update f) x Q E := fun _ hd => Spec.update ⟨h, hd⟩

theorem update_eq {f : σ → σ} {Q : Unit → σ → Prop} (h : ∀ y, y = f x → Q () y) :
    Keeping A I (MulanLsm.update f) x Q E := update (h _ rfl)

theorem ofResult {r : Result α} {Q : α → σ → Prop} (hok : ∀ a, r = .ok a → Q a x)
    (herr : ∀ e, r = .error e → E x) : Keeping A I (MulanLsm.ofResult r) x Q E := fun _ hd =>
  Spec.ofResult (fun a h => ⟨hok a h, hd⟩) fun e h => ⟨herr e h, hd⟩

theorem call {part : Nat → Dir → Dir} {full : Dir → Dir} {Q : Unit → σ → Prop}
    (hPart : ∀ n d, I d → I (part n d)) (hFull : ∀ d, I d → I (full d)) (hok : Q () x)
    (hfail : E x) :
    Keeping A I (MulanLsm.call part full) x Q E := fun d hd =>
  Spec.call ⟨hok, hFull d hd⟩ fun n _ _ => ⟨hfail, hPart n d hd⟩

theorem look {f : Dir → Option α} {Q : α → σ → Prop} (hok : ∀ a, Q a x) (hfail : E x) :
    Keeping A I (MulanLsm.look f) x Q E := fun _ hd =>
  Spec.look (fun a _ => ⟨hok a, hd⟩) (fun _ => ⟨hfail, hd⟩) fun _ _ _ => ⟨hfail, hd⟩

theorem onField {view : σ → τ} {put : τ → σ → σ} {m : St τ α} {Q : α → σ → Prop}
    (h : Keeping A I m (view x) (fun a t => Q a (put t x)) (fun t => E (put t x))) :
    Keeping A I (MulanLsm.onField view put m) x Q E := fun d hd => Spec.onField (h d hd)

theorem runOn {t : τ} {m : St τ α} {Q : α × τ → σ → Prop}
    (h : Keeping A I m t (fun a t' => Q (a, t') x) (fun _ => E x)) :
    Keeping A I (MulanLsm.runOn t m) x Q E := fun d hd => Spec.runOn (h d hd)

end Keeping

/-- The files but for the tables with numbers below `next`. -/
def fileNamesPast (next : Nat) : Set FileName := {name | ∀ n < next, name ≠ .sst n}

/-- The changes that programs make to files other than the tables below `next` keep `I`. -/
structure Closed (I : Dir → Prop) (next : Nat) : Prop where
  insert : ∀ {d name}, name ∈ fileNamesPast next → I d → I (d.insert name .empty)
  change : ∀ {d name} {f : File → File}, name ∈ fileNamesPast next →
    (∀ file, file.table ≠ some [] → (f file).table ≠ some []) → I d → I (d.change name f)
  rename : ∀ {d file}, d.lookup .currentTmp = some file → I d →
    I ((d.erase .currentTmp).insert .current file)
  erase : ∀ {d name}, name ∈ fileNamesPast next → I d → I (d.erase name)

section Names

variable {next n : Nat}

theorem currentTmp_mem_past : .currentTmp ∈ fileNamesPast next := fun _ _ h => by cases h

theorem sst_mem_past (h : next ≤ n) : .sst n ∈ fileNamesPast next := fun m hm he => by
  cases he
  omega

end Names

/-- The name of a file that is no table. -/
def IsLogName (name : FileName) : Prop := ∀ n, name ≠ .sst n

theorem isLogName_log (n : Nat) : IsLogName (.log n) := fun _ h => by cases h

theorem isLogName_manifest (n : Nat) : IsLogName (.manifest n) := fun _ h => by cases h

theorem IsLogName.past {name : FileName} (h : IsLogName name) (next : Nat) :
    name ∈ fileNamesPast next := fun n _ => h n

theorem Closed.mono {I : Dir → Prop} {next next' : Nat} (h : Closed I next) (hle : next ≤ next') :
    Closed I next' := by
  have hSub : fileNamesPast next' ⊆ fileNamesPast next := fun _ hName n hn =>
    hName n (hn.trans_le hle)
  exact ⟨fun hName => h.insert (hSub hName), fun hName => h.change (hSub hName), h.rename,
    fun hName => h.erase (hSub hName)⟩

theorem Closed.and {I J : Dir → Prop} {next : Nat} (h : Closed I next) (h' : Closed J next) :
    Closed (fun d => I d ∧ J d) next :=
  ⟨fun hName hd => ⟨h.insert hName hd.1, h'.insert hName hd.2⟩,
    fun hName hf hd => ⟨h.change hName hf hd.1, h'.change hName hf hd.2⟩,
    fun hFile hd => ⟨h.rename hFile hd.1, h'.rename hFile hd.2⟩,
    fun hName hd => ⟨h.erase hName hd.1, h'.erase hName hd.2⟩⟩

/-- No finished table is without an entry. -/
def Filled (d : Dir) : Prop := ∀ name f, d.lookup name = some f → f.table ≠ some []

/-- The tables below `next` are in `d'` as in `d`. -/
def KeptTables (d : Dir) (next : Nat) (d' : Dir) : Prop :=
  ∀ n < next, d'.lookup (.sst n) = d.lookup (.sst n)

theorem KeptTables.refl (d : Dir) (next : Nat) : KeptTables d next d := fun _ _ => rfl

theorem KeptTables.table {d d' : Dir} {next n : Nat} (h : KeptTables d next d') (hn : n < next) :
    d'.table n = d.table n := by
  unfold Dir.table
  rw [h n hn]

theorem KeptTables.entries {d d' : Dir} {next n : Nat} (h : KeptTables d next d') (hn : n < next) :
    d'.entries n = d.entries n := by
  unfold Dir.entries
  rw [h.table hn]

theorem KeptTables.entriesIn {d d' : Dir} {next : Nat} (h : KeptTables d next d')
    {files : List FileMetaData} (hFiles : ∀ f ∈ files, f.number < next) :
    entriesIn d' files = entriesIn d files := by
  unfold MulanLsm.entriesIn
  rw [List.map_congr_left fun f hf => h.entries (hFiles f hf)]

section Closed

variable {d : Dir}

theorem Dir.lookup_change_ne {name other : FileName} (h : other ≠ name) (f : File → File) :
    (d.change name f).lookup other = d.lookup other := by
  unfold Dir.change
  split
  · exact AList.lookup_insert_ne h
  · rfl

theorem filled_insert (hd : Filled d) {name : FileName} {file : File}
    (hFile : file.table ≠ some []) :
    Filled (d.insert name file) := by
  intro other f hf
  by_cases hName : other = name
  · subst hName
    rw [AList.lookup_insert] at hf
    exact Option.some.inj hf ▸ hFile
  · rw [AList.lookup_insert_ne hName] at hf
    exact hd other f hf

theorem filled_erase (hd : Filled d) (name : FileName) : Filled (d.erase name) := by
  intro other f hf
  by_cases hName : other = name
  · subst hName
    simp at hf
  · rw [AList.lookup_erase_ne hName] at hf
    exact hd other f hf

theorem filled_closed : Closed Filled 0 where
  insert _ hd := filled_insert hd (by simp [File.empty])
  change {d name f} _ hf hd := by
    unfold Dir.change
    split
    · next file hFile => exact filled_insert hd (hf file (hd name file hFile))
    · exact hd
  rename {d file} hFile hd := filled_insert (filled_erase hd .currentTmp) (hd _ file hFile)
  erase {d name} _ hd := filled_erase hd name

theorem keptTables_closed (d : Dir) (next : Nat) : Closed (KeptTables d next) next where
  insert hName hd n hn := (AList.lookup_insert_ne (hName n hn).symm).trans (hd n hn)
  change hName _ hd n hn := (Dir.lookup_change_ne (hName n hn).symm _).trans (hd n hn)
  rename _ hd n hn := by
    rw [AList.lookup_insert_ne (by simp), AList.lookup_erase_ne (by simp)]
    exact hd n hn
  erase hName hd n hn := (AList.lookup_erase_ne (hName n hn).symm).trans (hd n hn)

end Closed

section Calls

variable {I : Dir → Prop} {next : Nat} {x : σ} {Q : Unit → σ → Prop} {E : σ → Prop}
  {name : FileName}

theorem Closed.createFile (hI : Closed I next) (hName : name ∈ fileNamesPast next) (hok : Q () x)
    (hfail : E x) : Keeping A I (createFile name) x Q E :=
  .call (fun _ _ hd => hd) (fun _ hd => hI.insert hName hd) hok hfail

theorem Closed.openAppend (hI : Closed I next) (hName : name ∈ fileNamesPast next) (hok : Q () x)
    (hfail : E x) : Keeping A I (openAppend name) x Q E := by
  refine .call (fun _ _ hd => hd) (fun d hd => ?_) hok hfail
  split
  · exact hd
  · exact hI.insert hName hd

theorem File.append_table {f : File} (h : f.table ≠ some []) (bs : Bytes) :
    (f.append bs).table ≠ some [] := by
  unfold File.append
  dsimp only
  split
  · exact h
  · simp

theorem Closed.writeAll (hI : Closed I next) (hName : name ∈ fileNamesPast next) (bs : Bytes)
    (hok : Q () x) (hfail : E x) : Keeping A I (writeAll name bs) x Q E :=
  .call (fun _ _ hd => hI.change hName (fun _ h => File.append_table h _) hd)
    (fun _ hd => hI.change hName (fun _ h => File.append_table h _) hd) hok hfail

theorem Closed.writeFooter (hI : Closed I next) (hName : name ∈ fileNamesPast next) (bs : Bytes)
    {es : List Entry} (hes : es ≠ []) (hok : Q () x) (hfail : E x) :
    Keeping A I (writeFooter name bs es) x Q E :=
  .call (fun _ _ hd => hI.change hName (fun _ h => File.append_table h _) hd)
    (fun _ hd => hI.change hName (fun _ _ h => hes (Option.some.inj h)) hd) hok hfail

theorem Closed.syncAll (hI : Closed I next) (hName : name ∈ fileNamesPast next) (hok : Q () x)
    (hfail : E x) : Keeping A I (syncAll name) x Q E :=
  .call (fun _ _ hd => hd) (fun _ hd => hI.change hName (fun _ h => h) hd) hok hfail

theorem Keeping.pathExists {Q : Bool → σ → Prop} (hok : ∀ b, Q b x) (hfail : E x) :
    Keeping A I (pathExists name) x Q E := by
  intro d hd os hos
  unfold Effects.wp MulanLsm.pathExists
  match os with
  | [] => exact ⟨⟨hok _, hd⟩, hos⟩
  | .ok :: os => exact ⟨⟨hok _, hd⟩, (List.forall_mem_cons.mp hos).2⟩
  | .fail _ :: os => exact ⟨⟨hok _, hd⟩, (List.forall_mem_cons.mp hos).2⟩
  | .crash _ :: os => exact ⟨⟨hfail, hd⟩, (List.forall_mem_cons.mp hos).2⟩

end Calls

section Writers

variable {I : Dir → Prop} {next : Nat} {x : σ}

theorem create_keeping (hI : Closed I next) {name : FileName} (hName : IsLogName name) :
    Keeping A I (WalWriter.create name) x (fun w y => w.name = name ∧ y = x) (· = x) :=
  .bind (hI.openAppend (hName.past next) (.bind (.look (fun _ => .pure ⟨rfl, rfl⟩) rfl)) rfl)

theorem sync_keeping (hI : Closed I next) {w : WalWriter} (hName : IsLogName w.name) :
    Keeping A I WalWriter.sync w (fun _ w' => w'.name = w.name) (fun w' => w'.name = w.name) :=
  .bind (.self (hI.syncAll (hName.past next) rfl rfl))

theorem padTrailer_keeping (hI : Closed I next) {w : WalWriter} (hName : IsLogName w.name) :
    Keeping A I WalWriter.padTrailer w (fun _ w' => w'.name = w.name)
      (fun w' => w'.name = w.name) := by
  have hReset : Keeping A I (update fun w => { w with blockOffset := 0 }) w
      (fun _ w' => w'.name = w.name) (fun w' => w'.name = w.name) := .update rfl
  refine .bind (.self ?_)
  dsimp only
  split
  · split
    · exact .bind (hI.writeAll (hName.past next) _ hReset rfl)
    · exact .bind (.pure hReset)
  · exact .pure rfl

theorem addRecordLoop_keeping [Crc32c] (hI : Closed I next) (fuel : Nat) {w : WalWriter}
    (hName : IsLogName w.name) (remaining : Bytes) (first : Bool) :
    Keeping A I (WalWriter.addRecordLoop fuel remaining first) w (fun _ w' => w'.name = w.name)
      (fun w' => w'.name = w.name) := by
  induction fuel generalizing w remaining first with
  | zero => exact .pure rfl
  | succ fuel ih =>
    refine .bind ((padTrailer_keeping hI hName).mono (fun _ w₁ h₁ => ?_) fun _ h => h)
    rw [← h₁] at hName ⊢
    refine .bind (.self (.bind (hI.writeAll (hName.past next) _ ?_ rfl)))
    refine .bind (.update ?_)
    dsimp only
    split
    · exact .pure rfl
    · refine ih ?_ _ _
      exact hName

theorem addRecord_keeping [Crc32c] (hI : Closed I next) {w : WalWriter} (hName : IsLogName w.name)
    (data : Bytes) :
    Keeping A I (WalWriter.addRecord data) w (fun _ w' => w'.name = w.name)
      (fun w' => w'.name = w.name) :=
  addRecordLoop_keeping hI _ hName data true

theorem append_keeping [Crc32c] (hI : Closed I next) {w : ManifestWriter}
    (hName : IsLogName w.wal.name) (edit : VersionEdit) :
    Keeping A I (ManifestWriter.append edit) w (fun _ w' => w'.wal.name = w.wal.name)
      (fun w' => w'.wal.name = w.wal.name) := by
  refine .bind (.onField ((addRecord_keeping hI hName _).mono (fun _ w₁ h₁ => ?_) fun _ h => h))
  refine .onField ((sync_keeping hI (h₁ ▸ hName)).mono (fun _ w₂ h₂ => h₂.trans h₁)
    fun w₂ h₂ => h₂.trans h₁)

theorem setPointers_keeping {vs : VersionSet} {ps : List (Nat × Bytes)}
    (hps : ∀ p ∈ ps, p.1 < numLevels) {E : VersionSet → Prop} :
    Keeping A I (VersionSet.setPointers ps) vs (fun _ vs' => vs'.current = vs.current ∧
      vs'.manifestWriter = vs.manifestWriter) E := by
  induction ps generalizing vs with
  | nil => exact .pure ⟨rfl, rfl⟩
  | cons p ps ih =>
    rw [VersionSet.setPointers, if_pos (hps p List.mem_cons_self)]
    refine .bind (.update ((ih fun q hq => hps q (List.mem_cons_of_mem _ hq)).mono ?_ fun _ h => h))
    rintro - vs' ⟨hCurrent, hWriter⟩
    refine ⟨hCurrent.trans ?_, hWriter⟩
    unfold VersionState.setPointer
    split <;> rfl

/-- A commit moves on to the version that its edit makes of the current one, or changes no
version. -/
theorem writeNewVersion_keeping [Crc32c] (hI : Closed I next) {vs : VersionSet}
    (hName : IsLogName vs.manifestWriter.wal.name) {edit : VersionEdit}
    (hPointers : ∀ p ∈ edit.compactPointers, p.1 < numLevels) :
    Keeping A I (VersionSet.writeNewVersion edit) vs
      (fun _ vs' => vs.current.applyEdit edit = .ok vs'.current ∧
        IsLogName vs'.manifestWriter.wal.name)
      (fun vs' => vs'.current = vs.current ∧ IsLogName vs'.manifestWriter.wal.name) := by
  refine .bind (.onField ((append_keeping hI hName edit).mono (fun _ w hw => ?_) fun w hw => ?_))
  · have hName' : IsLogName w.wal.name := hw ▸ hName
    refine .bind (.self (.bind (.ofResult (fun v hv => ?_) fun _ _ => ⟨rfl, hName'⟩)))
    refine .bind (.update (.bind ((setPointers_keeping hPointers).mono ?_ fun _ h => h)))
    rintro - vs' ⟨hCurrent, hWriter⟩
    refine .bind (.self (.pure ⟨?_, ?_⟩))
    · rw [hCurrent]
      exact hv
    · rw [hWriter]
      exact hName'
  · exact ⟨rfl, hw ▸ hName⟩

theorem writeCurrent_keeping (hI : Closed I next) (number : Nat) :
    Keeping A I (writeCurrent number) x (fun _ y => y = x) (· = x) := by
  refine .bind (hI.createFile currentTmp_mem_past ?_ rfl)
  refine .bind (hI.writeAll currentTmp_mem_past _ ?_ rfl)
  refine .bind (hI.writeAll currentTmp_mem_past _ ?_ rfl)
  refine .bind (hI.syncAll currentTmp_mem_past ?_ rfl)
  refine .call (fun _ _ hd => hd) (fun d hd => ?_) rfl rfl
  split
  · next f hf => exact hI.rename hf hd
  · exact hd

end Writers

section Tables

variable {I : Dir → Prop} {next : Nat} {x : σ} {b : TableBuilder}

theorem writeRaw_keeping (hI : Closed I next) (hNumber : next ≤ b.number) (bytes : Bytes) :
    Keeping A I (TableBuilder.writeRaw bytes) b
      (fun _ b' => b'.number = b.number ∧ b'.entries = b.entries) fun _ => True :=
  .bind (.self (.bind (hI.writeAll (sst_mem_past hNumber) _
    (.bind (.update (.pure ⟨rfl, rfl⟩))) trivial)))

theorem flushDataBlock_keeping (hI : Closed I next) (hNumber : next ≤ b.number) :
    Keeping A I TableBuilder.flushDataBlock b
      (fun _ b' => b'.number = b.number ∧ b'.entries = b.entries) fun _ => True := by
  refine .bind (.self ?_)
  split
  · exact .pure ⟨rfl, rfl⟩
  · refine .bind (.update (.bind ((writeRaw_keeping hI ?_ _).mono ?_ fun _ h => h)))
    · exact hNumber
    · rintro handle b' ⟨h, h'⟩
      exact .update ⟨h, h'⟩

theorem add_keeping (hI : Closed I next) (hNumber : next ≤ b.number) (e : Entry) :
    Keeping A I (TableBuilder.add e.1 e.2) b
      (fun _ b' => b'.number = b.number ∧ b'.entries ≠ []) fun _ => True := by
  have hAdded : (b.addEntry e.1 e.2).number = b.number := addEntry_number b e
  have hEntries : (b.addEntry e.1 e.2).entries ≠ [] := by simp [TableBuilder.addEntry]
  refine .bind (.update (.bind (.self ?_)))
  split
  · refine (flushDataBlock_keeping hI (hNumber.trans_eq hAdded.symm)).mono ?_ fun _ h => h
    rintro - b' ⟨h, h'⟩
    exact ⟨h.trans hAdded, h' ▸ hEntries⟩
  · exact .pure ⟨hAdded, hEntries⟩

theorem finish_keeping (hI : Closed I next) (hNumber : next ≤ b.number)
    (hEntries : b.entries ≠ []) :
    Keeping A I TableBuilder.finish b (fun _ _ => True) fun _ => True := by
  refine .bind ((flushDataBlock_keeping hI hNumber).mono ?_ fun _ h => h)
  rintro - b₁ ⟨h₁, h₁'⟩
  refine .bind (.update (.bind (.self ?_)))
  have hn : next ≤ b₁.indexPending.number := by rw [indexPending_number, h₁]; exact hNumber
  refine .bind ((writeRaw_keeping hI hn _).mono ?_ fun _ h => h)
  rintro - b₂ ⟨h₂, -⟩
  refine .bind ((writeRaw_keeping hI (h₂ ▸ hn) _).mono ?_ fun _ h => h)
  rintro - b₃ ⟨h₃, -⟩
  refine .bind ((writeRaw_keeping hI (h₃ ▸ h₂ ▸ hn) _).mono ?_ fun _ h => h)
  rintro - b₄ -
  refine .bind (hI.writeFooter (sst_mem_past hn) _ ?_ ?_ trivial)
  · rw [indexPending_entries, h₁']
    exact hEntries
  · exact hI.syncAll (sst_mem_past hn) trivial trivial

theorem flushLoop_keeping (hI : Closed I next) (hNumber : next ≤ b.number) (es : List Entry)
    (r : FlushResult) :
    Keeping A I (MemTable.flushLoop es r) b
      (fun _ b' => b'.number = b.number ∧ (b.entries ≠ [] ∨ es ≠ [] → b'.entries ≠ []))
      fun _ => True := by
  induction es generalizing b r with
  | nil => exact .pure ⟨rfl, fun h => h.resolve_right fun h => h rfl⟩
  | cons e es ih =>
    refine .bind ((add_keeping hI hNumber e).mono ?_ fun _ h => h)
    rintro - b₁ ⟨h₁, hEntries⟩
    refine (ih (h₁ ▸ hNumber) _).mono ?_ fun _ h => h
    rintro r b₂ ⟨h₂, hEntries₂⟩
    exact ⟨h₂.trans h₁, fun _ => hEntries₂ (.inl hEntries)⟩

theorem flushToSstable_keeping (hI : Closed I next) {m : MemTable} {n : Nat} (hn : next ≤ n)
    (hm : m.skiplist ≠ []) (blockTarget bitsPerKey : Nat) :
    Keeping A I (m.flushToSstable n blockTarget bitsPerKey) x (fun _ y => y = x) (· = x) := by
  refine .bind (hI.createFile (sst_mem_past hn) (.bind (.runOn ?_)) rfl)
  refine .bind ((flushLoop_keeping hI hn m.skiplist _).mono ?_ fun _ _ => rfl)
  rintro r b ⟨hb, hEntries⟩
  refine .bind ((finish_keeping hI (hb ▸ hn) (hEntries (.inr hm))).mono ?_ fun _ _ => rfl)
  exact fun _ _ _ => .pure (.pure rfl)

theorem open_keeping (n : Nat) : Keeping A I (TableReader.open n) x (fun _ y => y = x) (· = x) := by
  refine .bind (.look (fun table => ?_) rfl)
  split
  · exact .pure rfl
  · exact .throw rfl

theorem openAll_keeping (files : List FileMetaData) :
    Keeping A I (openAll files) x (fun _ y => y = x) (· = x) := by
  induction files with
  | nil => exact .pure rfl
  | cons f files ih =>
    refine .bind ((open_keeping f.number).mono ?_ fun _ h => h)
    rintro r y rfl
    refine .bind (ih.mono ?_ fun _ h => h)
    rintro rest y rfl
    exact .pure rfl

end Tables

section Compactions

variable {I : Dir → Prop} {next : Nat} {x : σ} {s : Outputting} {c : Compaction} {version : Version}
  {oldest blockTarget bitsPerKey : Nat}

/-- The numbers to come are not below `next`, and that of the output file is not either. -/
structure Drafting (next : Nat) (s : Outputting) : Prop where
  fresh : next ≤ s.idGen.next
  number : ∀ b, s.builder = some b → next ≤ b.number

/-- An output file that was started has an entry. -/
def Started (s : Outputting) : Prop := ∀ b, s.builder = some b → b.entries ≠ []

theorem openOutput_keeping (hI : Closed I next) (h : next ≤ s.idGen.next) (ik : InternalKey) :
    Keeping A I (openOutput blockTarget bitsPerKey ik) s (fun _ s' => Drafting next s')
      fun _ => True := by
  refine .bind (.self (.bind (.update (.bind (hI.createFile (sst_mem_past h) ?_ trivial)))))
  refine .update ⟨h.trans (Nat.le_succ _), fun b hb => ?_⟩
  obtain rfl := Option.some.inj hb
  exact h

theorem continueWithEntry_keeping (hI : Closed I next) (h : Drafting next s) (e : Entry) :
    Keeping A I (continueWithEntry e) s (fun _ s' => Drafting next s' ∧ Started s')
      fun _ => True := by
  refine .bind (.self ?_)
  cases hb : s.builder with
  | none => exact .throw trivial
  | some b =>
    refine .bind (.onField ((add_keeping hI (h.number b hb) e).mono ?_ fun _ h => h))
    rintro - b' ⟨hNumber, hEntries⟩
    refine .update ⟨⟨h.fresh, fun b'' hb' => ?_⟩, fun b'' hb' => ?_⟩
    · obtain rfl := Option.some.inj hb'
      exact hNumber ▸ h.number b hb
    · obtain rfl := Option.some.inj hb'
      exact hEntries

theorem finishCurrent_keeping (hI : Closed I next) (h : Drafting next s) (hStarted : Started s) :
    Keeping A I finishCurrent s (fun _ s' => next ≤ s'.idGen.next) fun _ => True := by
  refine .bind (.self ?_)
  cases hb : s.builder with
  | none => exact .throw trivial
  | some b =>
    refine .bind (.update (.bind (.runOn ?_)))
    refine (finish_keeping hI (h.number b hb) (hStarted b hb)).mono (fun _ _ _ => ?_) fun _ h => h
    cases s.fileNumber with
    | none => exact .throw trivial
    | some n =>
      refine .bind (.look (fun size => ?_) trivial)
      split
      · exact .update h.fresh
      · exact .throw trivial
      · exact .throw trivial

theorem outputEntry_keeping (hI : Closed I next) (h : Drafting next s) (hStarted : Started s)
    (e : Entry) :
    Keeping A I (outputEntry c blockTarget bitsPerKey e) s
      (fun _ s' => Drafting next s' ∧ Started s') fun _ => True := by
  refine .bind (.self ?_)
  cases hb : s.builder with
  | none =>
    refine .bind ((openOutput_keeping hI h.fresh e.1).mono (fun _ s₁ h₁ => ?_) fun _ h => h)
    exact continueWithEntry_keeping hI h₁ e
  | some b =>
    have hRest : ∀ (f : Outputting → Outputting) s₁, Drafting next (f s₁) →
        Keeping A I (do update f; continueWithEntry e) s₁
          (fun _ s' => Drafting next s' ∧ Started s') fun _ => True :=
      fun f s₁ h₁ => .bind (.update_eq fun s₂ hs₂ =>
        continueWithEntry_keeping hI (by rw [hs₂]; exact h₁) e)
    dsimp only
    split
    · refine .bind ((finishCurrent_keeping hI h hStarted).mono (fun _ s₁ h₁ => ?_) fun _ h => h)
      refine .bind ((openOutput_keeping hI h₁ e.1).mono (fun _ s₂ h₂ => ?_) fun _ h => h)
      exact .bind (.update (hRest _ _ ⟨h₂.fresh, h₂.number⟩))
    · exact hRest _ s ⟨h.fresh, h.number⟩

theorem compactLoop_keeping (hI : Closed I next) (h : Drafting next s) (hStarted : Started s)
    (es : List Entry) :
    Keeping A I (compactLoop c version oldest blockTarget bitsPerKey es) s
      (fun _ s' => Drafting next s' ∧ Started s') fun _ => True := by
  induction es generalizing s with
  | nil => exact .pure ⟨h, hStarted⟩
  | cons e es ih =>
    refine .bind (.self (.bind (.update_eq fun s₁ hs₁ => ?_)))
    have h₁ : Drafting next s₁ ∧ Started s₁ := by
      subst hs₁
      exact ⟨⟨h.fresh, h.number⟩, hStarted⟩
    split
    · exact ih h₁.1 h₁.2
    · refine .bind ((outputEntry_keeping hI h₁.1 h₁.2 e).mono ?_ fun _ h => h)
      exact fun _ s' h' => ih h'.1 h'.2

theorem doCompaction_keeping {Q : EntryQueue} (hI : Closed I next) {idGen : IdGenerator}
    (h : next ≤ idGen.next) :
    Keeping A I (doCompaction Q c version oldest blockTarget bitsPerKey idGen) x (fun _ y => y = x)
      (· = x) := by
  refine .bind ((openAll_keeping c.inputFiles).mono ?_ fun _ h => h)
  rintro tables y rfl
  refine .bind (.runOn (.bind ((compactLoop_keeping hI ⟨h, ?_⟩ ?_ _).mono ?_ fun _ _ => rfl)))
  · exact fun b hb => by cases hb
  · exact fun b hb => by cases hb
  · rintro - s₁ ⟨h₁, hStarted⟩
    refine .bind (.self ?_)
    dsimp only
    split
    · exact (finishCurrent_keeping hI h₁ hStarted).mono (fun _ _ _ => .pure rfl) fun _ _ => rfl
    · exact .pure (.pure rfl)

end Compactions

/-- A memory table that counts an entry has one. -/
def MemTable.Held (m : MemTable) : Prop := m.entries ≠ 0 → m.skiplist ≠ []

theorem held_apply (m : MemTable) (vtype : ValueType) (seq : Nat) (key value : Bytes) :
    (m.apply vtype seq key value).Held := by
  intro _ h
  have hMem : ({ userKey := key, seq, vtype }, value) ∈ (m.apply vtype seq key value).skiplist :=
    SkipList.mem_insert.mpr (.inl rfl)
  exact List.ne_nil_of_mem hMem h

theorem held_initial (seq : Nat) : (MemTable.withInitialSequence seq).Held := fun h => absurd rfl h

/-- A database writes to its logs, and to tables from the number `next` on. -/
structure Db.Confined (next : Nat) (db : Db) : Prop where
  wal : IsLogName db.wal.name
  manifest : IsLogName db.versionSet.manifestWriter.wal.name
  fresh : next ≤ db.idGen.next
  held : db.memtable.Held

/-- `db'` has the version of `db` and its cache. -/
structure Db.Still (db db' : Db) : Prop where
  current : db'.versionSet.current = db.versionSet.current
  cache : db'.tableCache = db.tableCache

theorem Db.Still.refl (db : Db) : db.Still db := ⟨rfl, rfl⟩

section Writing

variable [Crc32c] {I : Dir → Prop} {next : Nat} {db : Db} {d : Dir}

theorem logWrite_keeping (hI : Closed I next) (h : db.Confined next) (vtype : ValueType)
    (key value : Bytes) :
    Keeping A I (Db.logWrite vtype key value) db (fun _ db' => db'.Confined next ∧ db.Still db')
      fun db' => db'.Confined next ∧ db.Still db' := by
  refine .bind (.self (.bind (.onField ?_)))
  refine (addRecord_keeping hI h.wal _).mono (fun _ w hw => ?_) fun w hw => ?_
  · have h' : Db.Confined next { db with wal := w } := { h with wal := hw ▸ h.wal }
    split
    · refine .onField ((sync_keeping hI h'.wal).mono (fun _ w' hw' => ?_) fun w' hw' => ?_)
      · exact ⟨{ h' with wal := hw' ▸ h'.wal }, rfl, rfl⟩
      · exact ⟨{ h' with wal := hw' ▸ h'.wal }, rfl, rfl⟩
    · exact .pure ⟨h', rfl, rfl⟩
  · exact ⟨{ h with wal := hw ▸ h.wal }, rfl, rfl⟩

omit [Crc32c] in
theorem newFileNumber_keeping {Q : Nat → Db → Prop} {E : Db → Prop}
    (h : Q db.idGen.next { db with idGen := { next := db.idGen.next + 1 } }) :
    Keeping A I Db.newFileNumber db Q E := fun _ hd => newFileNumber_spec ⟨h, hd⟩

omit [Crc32c] in
/-- The part of a flush before the commit writes the memory table to a table file with a number that
was not used. -/
theorem prepareFlush_kept (hI : Closed I next) (hd : I d) (h : db.Confined next) {frozen : MemTable}
    (hFrozen : frozen.skiplist ≠ []) :
    Spec A (Db.prepareFlush frozen)
      (fun r db' d' => (db'.Confined next ∧ db.Still db' ∧ next ≤ r.1.number ∧
        r.1.number < db'.idGen.next ∧ IsLogName r.2.2.name) ∧
        d'.table r.1.number = some frozen.skiplist ∧ I d')
      (fun _ db' d' => (db'.Confined next ∧ db.Still db') ∧ I d') db d := by
  refine Spec.bind (Spec.update (Spec.bind (newFileNumber_spec (Spec.bind (Spec.self ?_)))))
  set db₁ : Db := { db with
    memtable := .withInitialSequence frozen.seq, idGen := { next := db.idGen.next + 1 } } with hdb₁
  have h₁ : db₁.Confined next :=
    { h with fresh := h.fresh.trans (Nat.le_succ _), held := held_initial _ }
  have hStill : db.Still db₁ := ⟨rfl, rfl⟩
  refine Spec.bind (((MemTable.flushToSstable_spec frozen _ _ _).and
    (flushToSstable_keeping hI h.fresh hFrozen _ _ d hd)).mono ?_ ?_)
  · rintro r y d₁ ⟨⟨-, hy, hTable, -⟩, -, hd₁⟩
    subst hy
    -- The table file stays as it is from here on.
    have hJ := (hI.mono (h.fresh.trans (Nat.le_succ _))).and
      (keptTables_closed d₁ (db.idGen.next + 1))
    have hd₁' : I d₁ ∧ KeptTables d₁ (db.idGen.next + 1) d₁ := ⟨hd₁, .refl _ _⟩
    suffices hRest : Keeping A (fun d => I d ∧ KeptTables d₁ (db.idGen.next + 1) d) _ db₁
        (fun (r : FileMetaData × Nat × WalWriter) db' => db'.Confined next ∧ db.Still db' ∧
          r.1.number = db.idGen.next ∧ db.idGen.next < db'.idGen.next ∧ IsLogName r.2.2.name)
        (fun db' => db'.Confined next ∧ db.Still db') by
      refine (hRest d₁ hd₁').mono ?_ fun _ _ _ h => ⟨h.1, h.2.1⟩
      rintro r db' d' ⟨⟨hConfined, hStill, hNumber, hLt, hName⟩, hd', hKept⟩
      refine ⟨⟨hConfined, hStill, hNumber ▸ h.fresh, hNumber ▸ hLt, hName⟩, ?_, hd'⟩
      rw [hNumber, hKept.table (Nat.lt_succ_self _), hTable.table]
    refine .bind (.look (fun size => ?_) ⟨h₁, hStill⟩)
    split
    · refine .bind (newFileNumber_keeping ?_)
      have h₂ : Db.Confined next { db₁ with idGen := { next := db₁.idGen.next + 1 } } :=
        { h₁ with fresh := h₁.fresh.trans (Nat.le_succ _) }
      refine .bind ((create_keeping hJ (isLogName_log _)).mono
        ?_ fun y hy => ?_)
      · rintro w db₂ ⟨hw, rfl⟩
        refine .bind (.onField ((sync_keeping hJ h₂.wal).mono (fun _ w' hw' => ?_)
          fun w' hw' => ?_))
        · refine .pure ⟨{ h₂ with wal := hw' ▸ h₂.wal }, ⟨hStill.1, hStill.2⟩, rfl, ?_, ?_⟩
          · exact Nat.lt_succ_of_lt (Nat.lt_succ_self _)
          · exact hw ▸ isLogName_log _
        · exact ⟨{ h₂ with wal := hw' ▸ h₂.wal }, hStill.1, hStill.2⟩
      · subst hy
        exact ⟨h₂, hStill.1, hStill.2⟩
    · exact .throw ⟨h₁, hStill⟩
  · rintro f y d₁ ⟨-, hy, hd₁⟩
    subst hy
    exact ⟨⟨h₁, hStill⟩, hd₁⟩

/-- `db'` comes from `db` by a call that ended in `d'`: its version's files are those of `db`, or
tables with numbers from `next` on, and it has no table in the cache that `db` has not. -/
structure Db.Advances (next : Nat) (db db' : Db) (d' : Dir) : Prop where
  confined : db'.Confined next
  files : ∀ level, ∀ f ∈ db'.versionSet.current.filesAt level,
    f ∈ db.versionSet.current.filesAt level ∨
      next ≤ f.number ∧ f.number < db'.idGen.next ∧ ∃ es, d'.table f.number = some es
  cache : ∀ n r, db'.tableCache.entries.lookup n = some r → db.tableCache.entries.lookup n = some r

omit [Crc32c] in
theorem Db.Still.advances {db' : Db} {d' : Dir} (h : db.Still db') (hConfined : db'.Confined next) :
    db.Advances next db' d' :=
  ⟨hConfined, fun _ _ hf => .inl (h.current ▸ hf), fun _ _ hr => h.cache ▸ hr⟩

omit [Crc32c] in
theorem Db.Advances.behind {db₁ db' : Db} {d' : Dir} (h : db₁.Advances next db' d')
    (hStill : db.Still db₁) : db.Advances next db' d' :=
  ⟨h.confined, fun level f hf => hStill.current ▸ h.files level f hf,
    fun n r hr => hStill.cache ▸ h.cache n r hr⟩

theorem flushMemtable_kept (hI : Closed I next) (hd : I d) (h : db.Confined next) :
    Spec A Db.flushMemtable (fun _ db' d' => db.Advances next db' d' ∧ I d')
      (fun _ db' d' => db.Advances next db' d' ∧ I d') db d := by
  refine Spec.bind (Spec.self ?_)
  dsimp only
  split
  · exact Spec.pure ⟨(Db.Still.refl db).advances h, hd⟩
  · next hEntries =>
    refine Spec.bind ((prepareFlush_kept hI hd h (h.held hEntries)).mono ?_
      fun _ _ _ h => ⟨h.1.2.advances h.1.1, h.2⟩)
    rintro ⟨f, newLog, newWal⟩ db₁ d₁ ⟨⟨h₁, hStill, hLow, hHigh, hWal⟩, hTable, hd₁⟩
    have hJ := (hI.mono h₁.fresh).and (keptTables_closed d₁ db₁.idGen.next)
    refine Spec.bind (Spec.self (Spec.bind (Spec.onField ((writeNewVersion_keeping hJ h₁.manifest
      (by simp) d₁ ⟨hd₁, .refl _ _⟩).mono ?_ ?_))))
    · rintro v vs d' ⟨⟨hCurrent, hName⟩, hd', hKept⟩
      refine Spec.update ⟨⟨⟨hWal, hName, h₁.fresh, h₁.held⟩, fun level g hg => ?_,
        fun n r hr => ?_⟩, hd'⟩
      · rcases (mem_filesAt_applyEdit hCurrent).mp hg with ⟨hg, -⟩ | hg
        · exact .inl (hStill.current ▸ hg)
        · obtain rfl : g = f := congrArg NewFile.fileMeta (List.mem_singleton.mp hg)
          exact .inr ⟨hLow, hHigh, _, (hKept.table hHigh).trans hTable⟩
      · exact hStill.cache ▸ hr
    · rintro f vs d' ⟨⟨hCurrent, hName⟩, hd', -⟩
      have hConfined : Db.Confined next { db₁ with versionSet := vs } :=
        { h₁ with manifest := hName }
      exact ⟨Db.Still.advances ⟨hCurrent.trans hStill.current, hStill.cache⟩ hConfined, hd'⟩

theorem write_kept (hI : Closed I next) (hd : I d) (h : db.Confined next) (key value : Bytes)
    (vtype : ValueType) :
    Spec A (Db.write key value vtype) (fun _ db' d' => db.Advances next db' d' ∧ I d')
      (fun _ db' d' => db.Advances next db' d' ∧ I d') db d := by
  refine Spec.bind ((logWrite_keeping hI h vtype key value d hd).mono ?_
    fun _ _ _ h => ⟨h.1.2.advances h.1.1, h.2⟩)
  rintro - db₁ d₁ ⟨⟨h₁, hStill⟩, hd₁⟩
  refine Spec.bind (Spec.update_eq fun db₂ hdb₂ => Spec.bind (Spec.self ?_))
  have h₂ : db₂.Confined next := by
    subst hdb₂
    exact { h₁ with held := held_apply _ _ _ _ _ }
  have hStill₂ : db.Still db₂ := by
    subst hdb₂
    exact ⟨hStill.1, hStill.2⟩
  split
  · exact (flushMemtable_kept hI hd₁ h₂).mono (fun _ _ _ h => ⟨h.1.behind hStill₂, h.2⟩)
      fun _ _ _ h => ⟨h.1.behind hStill₂, h.2⟩
  · exact Spec.pure ⟨hStill₂.advances h₂, hd₁⟩

omit [Crc32c] in
theorem lookup_evicts (fs : List DeletedFile) (cache : TableCache) {n : Nat} {r : TableReader}
    (h : (fs.foldl (fun cache f => cache.evict f.number) cache).entries.lookup n = some r) :
    cache.entries.lookup n = some r := by
  induction fs generalizing cache with
  | nil => exact h
  | cons f fs ih =>
    have hEvict := ih _ h
    unfold TableCache.evict at hEvict
    by_cases hn : n = f.number
    · subst hn
      simp at hEvict
    · rwa [AList.lookup_erase_ne hn] at hEvict

omit [Crc32c] in
/-- The files that a compaction returns are tables with numbers that it took. -/
theorem doCompaction_written {Q : EntryQueue} {x : σ} {c : Compaction} {version : Version}
    {oldest blockTarget bitsPerKey : Nat} {idGen : IdGenerator} :
    Spec A (doCompaction Q c version oldest blockTarget bitsPerKey idGen)
      (fun r _ d' => r.1.deletedFiles = c.inputFileNumbers ∧ idGen.next ≤ r.2.next ∧
        ∀ f ∈ r.1.newFiles, idGen.next ≤ f.number ∧ f.number < r.2.next ∧
          ∃ es, d'.table f.number = some es)
      (fun _ _ _ => True) x d := by
  by_cases hTables : ∀ f ∈ c.inputFiles, d.table f.number = some (d.entries f.number)
  · refine (doCompaction_spec hTables).mono ?_ fun _ _ _ _ => trivial
    rintro r y d' ⟨-, -, hDeleted, hFiles, hNumbers, hNext⟩
    refine ⟨hDeleted, by omega, fun f hf => ?_⟩
    have hMem := List.mem_map_of_mem (f := FileMetaData.number) hf
    rw [hNumbers, List.mem_range'_1, ← hNext] at hMem
    exact ⟨hMem.1, hMem.2, _, (describes_of_mem hFiles hf).table.table⟩
  · exact Spec.bind ((openAll_tables c.inputFiles).mono (fun _ _ _ h => absurd h.1 hTables)
      fun _ _ _ _ => trivial)

theorem runOneCompaction_kept (hI : Closed I next) (hd : I d) (h : db.Confined next) :
    Spec A Db.runOneCompaction (fun _ db' d' => db.Advances next db' d' ∧ I d')
      (fun _ db' d' => db.Advances next db' d' ∧ I d') db d := by
  refine Spec.bind (Spec.self ?_)
  cases hPick : pickCompaction db.versionSet with
  | none => exact Spec.pure ⟨(Db.Still.refl db).advances h, hd⟩
  | some c =>
  have hc := pickCompaction_picked hPick
  refine Spec.bind ((doCompaction_written.and (doCompaction_keeping hI h.fresh d hd)).mono ?_ ?_)
  · rintro ⟨output, idGen⟩ db₁ d₁ ⟨⟨hDeleted, hNext, hFiles⟩, hdb₁, hd₁⟩
    subst hdb₁
    have hJ := (hI.mono (h.fresh.trans hNext)).and (keptTables_closed d₁ idGen.next)
    refine Spec.bind (Spec.onField ((writeNewVersion_keeping hJ h.manifest
      (compactionEdit_inRange hc hDeleted _).2.2 d₁ ⟨hd₁, .refl _ _⟩).mono ?_ ?_))
    · rintro v vs d' ⟨⟨hCurrent, hName⟩, hd', hKept⟩
      have hBump : (db₁.idGen.bumpTo idGen.next).next = idGen.next := bumpTo_next hNext
      refine Spec.bind (Spec.update (Spec.pure ⟨⟨⟨h.wal, hName, ?_, h.held⟩, fun level f hf => ?_,
        fun n r hr => lookup_evicts _ _ hr⟩, hd'⟩))
      · rw [hBump]
        exact h.fresh.trans hNext
      · rcases (mem_filesAt_applyEdit hCurrent).mp hf with ⟨hf, -⟩ | hf
        · exact .inl hf
        · obtain ⟨g, hg, hEq⟩ := List.mem_map.mp hf
          obtain rfl : g = f := congrArg NewFile.fileMeta hEq
          obtain ⟨hLow, hHigh, es, hTable⟩ := hFiles g hg
          refine .inr ⟨h.fresh.trans hLow, hBump.symm ▸ hHigh, es, ?_⟩
          exact (hKept.table hHigh).trans hTable
    · rintro f vs d' ⟨⟨hCurrent, hName⟩, hd', -⟩
      have hConfined : Db.Confined next { db₁ with versionSet := vs } :=
        { h with manifest := hName }
      exact ⟨Db.Still.advances ⟨hCurrent, rfl⟩ hConfined, hd'⟩
  · rintro f db₁ d₁ ⟨-, rfl, hd₁⟩
    exact ⟨(Db.Still.refl _).advances h, hd₁⟩

end Writing

/-- A call that may change an open database. -/
inductive Call
  | put (key value : Bytes)
  | delete (key : Bytes)
  | flush
  | compact
  | snapshot
  | release (seq : Nat)

section Calling

variable [Crc32c] {I : Dir → Prop} {next : Nat} {d : Dir} {db : Db}

/-- The call, without what it returns. -/
def Call.run : Call → St Db Unit
  | put key value => Db.put key value
  | delete key => Db.delete key
  | flush => Db.flushMemtable
  | compact => do let _ ← Db.runOneCompaction
  | snapshot => do let _ ← Db.newSnapshot
  | release seq => Db.dropSnapshot seq

theorem Call.run_kept (hI : Closed I next) (hd : I d) (h : db.Confined next) (c : Call) :
    Spec A c.run (fun _ db' d' => db.Advances next db' d' ∧ I d')
      (fun _ db' d' => db.Advances next db' d' ∧ I d') db d := by
  have hSelf : db.Advances next db d := (Db.Still.refl db).advances h
  cases c with
  | put key value =>
    show Spec A (Db.put key value) _ _ db d
    unfold Db.put
    split
    · exact Spec.throw ⟨hSelf, hd⟩
    · exact write_kept hI hd h key value .put
  | delete key =>
    show Spec A (Db.delete key) _ _ db d
    unfold Db.delete
    split
    · exact Spec.throw ⟨hSelf, hd⟩
    · exact write_kept hI hd h key [] .delete
  | flush => exact flushMemtable_kept hI hd h
  | compact =>
    exact Spec.bind ((runOneCompaction_kept hI hd h).mono
      (fun _ _ _ h => Spec.pure h) fun _ _ _ h => h)
  | snapshot =>
    have hTaken (seq : Nat) :
        db.Advances next { db with versionSet := db.versionSet.acquireSnapshot seq } d :=
      Db.Still.advances ⟨rfl, rfl⟩ { h with }
    exact Spec.bind (Spec.bind (Spec.self (Spec.bind (Spec.update (Spec.pure (Spec.pure
      (And.intro (hTaken _) hd)))))))
  | release seq =>
    have hDropped :
        db.Advances next { db with versionSet := db.versionSet.releaseSnapshot seq } d :=
      Db.Still.advances ⟨rfl, rfl⟩ { h with }
    show Spec A (Db.dropSnapshot seq) _ _ db d
    exact Spec.update ⟨hDropped, hd⟩

end Calling

section Reading

variable {I : Dir → Prop} {db : Db} {cache : TableCache}

theorem cacheGet_keeping (n : Nat) :
    Keeping A I (TableCache.get n) cache (fun _ _ => True) fun _ => True := by
  refine .bind (.self ?_)
  split
  · exact (open_keeping n).mono (fun _ _ _ => trivial) fun _ _ => trivial
  · split
    · exact .bind (.update (.pure trivial))
    · refine .bind ((open_keeping n).mono (fun _ _ _ => ?_) fun _ _ => trivial)
      exact .bind (.update (.pure trivial))

theorem readFiles_keeping (key : Bytes) (snapshotSeq : Nat) (files : List FileMetaData) :
    Keeping A I (Db.readFiles key snapshotSeq files) cache (fun _ _ => True) fun _ => True := by
  induction files generalizing cache with
  | nil => exact .pure trivial
  | cons f files ih =>
    refine .bind ((cacheGet_keeping f.number).mono (fun r cache' _ => ?_) fun _ h => h)
    refine .bind (.ofResult (fun found _ => ?_) fun _ _ => trivial)
    cases found with
    | some e => exact .pure trivial
    | none => exact ih

/-- A reader changes the cache at most. -/
theorem getAt_keeping (snapshotSeq : Nat) (key : Bytes) :
    Keeping A I (Db.getAt snapshotSeq key) db
      (fun _ db' => ∃ tableCache, db' = { db with tableCache })
      fun db' => ∃ tableCache, db' = { db with tableCache } := by
  refine .bind (.self ?_)
  split
  · exact .pure ⟨_, rfl⟩
  · exact .onField (.bind ((readFiles_keeping _ _ _).mono (fun _ cache' _ => .pure ⟨cache', rfl⟩)
      fun cache' _ => ⟨cache', rfl⟩))

end Reading

section Opening

variable [Crc32c] {I : Dir → Prop} {x : σ} {vs : VersionSet} {next : Nat}

omit [Crc32c] in
theorem tryRemoveFile_keeping (hErase : ∀ {d name}, I d → I (d.erase name)) (name : FileName) :
    Keeping A I (tryRemoveFile name) x (fun _ _ => True) fun _ => True := by
  intro d hd os hos
  unfold Effects.wp tryRemoveFile removeFile call
  match os with
  | [] => exact ⟨⟨trivial, hErase hd⟩, hos⟩
  | .ok :: os => exact ⟨⟨trivial, hErase hd⟩, (List.forall_mem_cons.mp hos).2⟩
  | .fail _ :: os => exact ⟨⟨trivial, hd⟩, (List.forall_mem_cons.mp hos).2⟩
  | .crash _ :: os => exact ⟨⟨trivial, hd⟩, (List.forall_mem_cons.mp hos).2⟩

omit [Crc32c] in
theorem removeFiles_keeping (hErase : ∀ {d name}, I d → I (d.erase name)) (names : List FileName) :
    Keeping A I (removeFiles names) x (fun _ _ => True) fun _ => True := by
  induction names generalizing x with
  | nil => exact .pure trivial
  | cons name names ih =>
    exact .bind ((tryRemoveFile_keeping hErase name).mono (fun _ _ _ => ih) fun _ h => h)

omit [Crc32c] in
theorem held_replayRecords {records : List Bytes} {m m' : MemTable}
    (h : replayRecords records m = .ok m') (hm : m.Held) : m'.Held := by
  induction records generalizing m with
  | nil =>
    obtain rfl := Except.ok.inj h
    exact hm
  | cons record records ih =>
    rw [replayRecords, List.foldlM_cons] at h
    cases hDecode : decodeEntry record with
    | error e => simp [hDecode, bind, Except.bind] at h
    | ok e =>
      simp only [hDecode, bind, Except.bind, pure, Except.pure] at h
      exact ih h (held_apply _ _ _ _ _)

theorem replayLog_keeping (hName : IsLogName vs.manifestWriter.wal.name) :
    Keeping A I (Db.replayLog vs) x
      (fun r _ => r.1.Held ∧ IsLogName r.2.manifestWriter.wal.name) fun _ => True := by
  refine .bind (.pathExists (fun b => ?_) trivial)
  split
  · refine .bind (.look (fun bytes => ?_) trivial)
    refine .bind (.ofResult (fun m hm => .pure ⟨held_replayRecords hm (held_initial _), ?_⟩)
      fun _ _ => trivial)
    dsimp only
    split <;> exact hName
  · exact .pure ⟨held_initial _, hName⟩

theorem recoverFlush_keeping (hI : Closed I 0) (hName : IsLogName vs.manifestWriter.wal.name)
    {m : MemTable} (hm : m.skiplist ≠ []) (idGen : IdGenerator) (options : Options) :
    Keeping A I (Db.recoverFlush m vs idGen options) x
      (fun r _ => IsLogName r.1.manifestWriter.wal.name) fun _ => True := by
  refine .bind ((flushToSstable_keeping hI (Nat.zero_le _) hm _ _).mono ?_ fun _ _ => trivial)
  rintro r y -
  refine .bind (.look (fun size => ?_) trivial)
  split
  · refine .bind ((create_keeping hI (isLogName_log _)).mono ?_ fun _ _ => trivial)
    rintro w y -
    refine .bind (.runOn ((writeNewVersion_keeping hI hName (by simp)).mono ?_ fun _ _ => trivial))
    rintro v vs' ⟨-, hName'⟩
    exact .pure hName'
  · exact .throw trivial

theorem recoverEmpty_keeping (hI : Closed I next) (hName : IsLogName vs.manifestWriter.wal.name)
    (idGen : IdGenerator) :
    Keeping A I (Db.recoverEmpty vs idGen) x (fun r _ => IsLogName r.1.manifestWriter.wal.name)
      fun _ => True := by
  refine .bind (.runOn ((writeNewVersion_keeping hI hName (by simp)).mono ?_ fun _ _ => trivial))
  rintro v vs' ⟨-, hName'⟩
  exact .pure hName'

theorem recover_keeping (hI : Closed I next) :
    Keeping A I VersionSet.recover x (fun vs _ => IsLogName vs.manifestWriter.wal.name)
      fun _ => True := by
  have hManifest : Keeping A I recoverManifest x (fun _ _ => True) fun _ => True := by
    refine .bind (.bind (.look (fun content => .ofResult (fun number _ => ?_) fun _ _ => trivial)
      trivial))
    exact .bind (.look (fun bytes =>
      .bind (.ofResult (fun _ _ => .pure trivial) fun _ _ => trivial))
      trivial)
  refine .bind (hManifest.mono ?_ fun _ h => h)
  rintro ⟨edits, number⟩ y -
  refine .bind (.ofResult (fun state _ => ?_) fun _ _ => trivial)
  refine .bind (.bind ((create_keeping hI (isLogName_manifest _)).mono ?_ fun _ _ => trivial))
  rintro w y ⟨hw, -⟩
  exact .pure (.pure (hw ▸ isLogName_manifest _))

theorem recoverOpen_keeping (hI : Closed I 0) (options : Options) :
    Keeping A I (Db.recoverOpen options) x (fun db _ => db.Confined 0) fun _ => True := by
  refine .bind ((recover_keeping hI).mono (fun vs y hName => ?_) fun _ h => h)
  refine .bind ((replayLog_keeping hName).mono ?_ fun _ h => h)
  rintro ⟨m, vs⟩ y ⟨hm, hName⟩
  have hRest : ∀ (vs : VersionSet) (idGen : IdGenerator) (walNumber : Nat) (y : σ),
      IsLogName vs.manifestWriter.wal.name → Keeping A I (do
        let wal ← WalWriter.create (.log walNumber)
        removeObsoleteFiles vs
        return ({
          versionSet := vs
          memtable := .withInitialSequence m.seq
          wal, idGen, walNumber, options
          tableCache := .withCapacity options.tableCacheSize } : Db)) y
        (fun db _ => db.Confined 0) fun _ => True := by
    intro vs idGen walNumber y hName
    refine .bind ((create_keeping hI (isLogName_log _)).mono ?_ fun _ _ => trivial)
    rintro wal y ⟨hWal, -⟩
    refine .bind (.bind (.look (fun names => ?_) trivial))
    refine (removeFiles_keeping (fun hd => hI.erase (fun n hn => absurd hn (Nat.not_lt_zero n)) hd)
      _).mono (fun _ _ _ => .pure ?_) fun _ h => h
    exact ⟨hWal ▸ isLogName_log _, hName, Nat.zero_le _, held_initial _⟩
  dsimp only
  split
  · next hEntries =>
    have hSkiplist : m.skiplist ≠ [] := hm (Nat.ne_of_gt hEntries)
    refine .bind ((recoverFlush_keeping hI hName hSkiplist _ _).mono ?_ fun _ h => h)
    exact fun r y hName => hRest _ _ _ y hName
  · refine .bind ((recoverEmpty_keeping hI hName _).mono ?_ fun _ h => h)
    exact fun r y hName => hRest _ _ _ y hName

theorem createNew_keeping (hI : Closed I next) (options : Options) :
    Keeping A I (Db.createNew options) x
      (fun db _ => db.Confined 0 ∧ db.memtable = .new ∧ db.options = options)
      fun _ => True := by
  refine .bind (.bind (.bind ((create_keeping hI (isLogName_manifest _)).mono ?_
    fun _ _ => trivial)))
  rintro w y ⟨hw, -⟩
  have hName : IsLogName w.name := hw ▸ isLogName_manifest _
  refine .pure (.pure (.bind (.runOn ((writeNewVersion_keeping hI hName (by simp)).mono ?_
    fun _ _ => trivial))))
  rintro v vs ⟨-, hName'⟩
  refine .bind ((writeCurrent_keeping hI _).mono (fun _ y _ => ?_) fun _ _ => trivial)
  refine .bind ((create_keeping hI (isLogName_log _)).mono ?_ fun _ _ => trivial)
  rintro wal y ⟨hWal, -⟩
  exact .pure ⟨⟨hWal ▸ isLogName_log _, hName', Nat.zero_le _, held_initial _⟩, rfl, rfl⟩

theorem open_db_keeping (hI : Closed I 0) (options : Options) :
    Keeping A I (Db.open options) x (fun db _ => db.Confined 0) fun _ => True := by
  refine .bind (.pathExists (fun b => ?_) trivial)
  split
  · exact recoverOpen_keeping hI options
  · refine .bind (.look (fun names => ?_) trivial)
    split
    · exact .throw trivial
    · exact (createNew_keeping hI options).mono (fun _ _ h => h.1) fun _ h => h

omit [Crc32c] in
theorem close_keeping (hI : Closed I next) {db : Db} (h : IsLogName db.wal.name) :
    Keeping A I (Db.close db) x (fun _ _ => True) fun _ => True := by
  intro d hd os hos
  have hSync : Keeping A I (runOn db (Db.onWal WalWriter.sync) : St σ (Unit × Db)) x
      (fun _ _ => True) fun _ => True :=
    .runOn (.onField ((sync_keeping hI h).mono (fun _ _ _ => trivial) fun _ _ => trivial))
  have hRun := hSync d hd os hos
  unfold Effects.wp at hRun ⊢
  unfold Db.close
  cases hm : runOn db (Db.onWal WalWriter.sync) (x, ⟨d, os⟩) with
  | ok a s => rwa [hm] at hRun
  | error f s =>
    rw [hm] at hRun
    cases f <;> exact hRun

end Opening

end MulanLsm
