import DocTables.Proofs.AgreeingTrees

/-!
# What is found where a registry is opened

`Files.found?` is the registry that is found in a place if it may be written, and made where there
is none. To open a registry and to close it may put files out of the way that have been left over,
and may write the empty registry where none has been written before. It changes nothing else, and
the same registry is found as before (`Files.Spared`). This holds however the registry is opened, and
also if it cannot be opened (`RegistryFile.loaded_load`). A command that fails on an open registry
does no more than that (`Invocation.of_runOn`).
-/

namespace DocTables

namespace Files

variable {files before between after : Files} {place p : Place} {r : Registry} {bytes : ByteArray}
  {access : Registry.Access}

/-! ## What is found -/

/-- No registry has been written in a place. -/
def BlankAt (files : Files) (place : Place) : Prop :=
  files.find? place = none ∨ ∃ bytes, files.find? place = some (.file bytes) ∧
    Registry.isBlank bytes = true

/-- The registry that is found in a place, if it may be written, and made where there is none. -/
def found? (files : Files) (place : Place) : Option Registry :=
  if files.isDirectory (beside place journalEnding) ||
    files.isDirectory (beside place logEnding) then none
  else
    match files.find? place with
    | some .directory => none
    | some (.file bytes) =>
      if Registry.isBlank bytes then
        if (beside place journalEnding).all isName then some .empty else none
      else if files.hasLog place && files.isDirectory (beside place indexEnding) then none
      else Registry.ofBytes? bytes
    | none =>
      if files.isDirectory place.dropLast && (beside place journalEnding).all isName then
        some .empty
      else none

theorem dropLast_ne (h : place ≠ []) : place.dropLast ≠ place := by
  intro heq
  have hlength := congrArg List.length heq
  rw [List.length_dropLast] at hlength
  have := List.length_pos_iff.mpr h
  omega

theorem Tended.isDirectory_reserved (h : Tended place before after) (hplace : place ≠ [])
    (hp : p ∈ reserved place) : after.isDirectory p = before.isDirectory p :=
  h.isDirectory (ne_of_mem_reserved hplace hp)

theorem Tended.agreesOff (h : Tended place before after)
    (hdir : after.isDirectory place = before.isDirectory place) :
    AgreesOff (place :: reserved place) before after where
  here := h.here
  find? p hp := by
    rw [List.mem_cons, not_or] at hp
    exact (h.find? p hp.1).resolve_right fun hreserved => hp.2 hreserved.1
  isDirectory p := by
    by_cases hp : p = place
    · rw [hp, hdir]
    · exact h.isDirectory hp

/-- What is left over beside a registry is of no concern if the log is not. -/
theorem found?_congr (h : Tended place before after) (hplace : place ≠ [])
    (hfind : after.find? place = before.find? place)
    (hlog : before.BlankAt place ∨
      (after.hasLog place && before.isDirectory (beside place indexEnding)) =
        (before.hasLog place && before.isDirectory (beside place indexEnding))) :
    after.found? place = before.found? place := by
  rw [found?, found?, hfind, h.isDirectory_reserved hplace (journal_mem_reserved place),
    h.isDirectory_reserved hplace (log_mem_reserved place),
    h.isDirectory_reserved hplace (index_mem_reserved place), h.isDirectory (dropLast_ne hplace)]
  rcases hlog with (hnone | ⟨bytes, hfile, hblank⟩) | hlog
  · rw [hnone]
  · simp only [hfile, hblank, if_true]
  · rw [hlog]

/-- What has been left over beside a registry may be gone, and nothing else has changed. -/
structure Tidied (place : Place) (before after : Files) : Prop extends
    Tended place before after where
  find?_eq : after.find? place = before.find? place
  found?_eq : after.found? place = before.found? place

theorem Tidied.refl (place : Place) (files : Files) : Tidied place files files :=
  ⟨.refl place files, rfl, rfl⟩

theorem Tidied.trans (h : Tidied place before between) (h' : Tidied place between after) :
    Tidied place before after :=
  ⟨h.toTended.trans h'.toTended, h'.find?_eq.trans h.find?_eq, h'.found?_eq.trans h.found?_eq⟩

/-- A log that is no obstacle may be gone. -/
theorem Tidied.of_hasLog (h : Tended place before after) (hplace : place ≠ [])
    (hfind : after.find? place = before.find? place)
    (hlog : before.BlankAt place ∨
      (after.hasLog place && before.isDirectory (beside place indexEnding)) =
        (before.hasLog place && before.isDirectory (beside place indexEnding))) :
    Tidied place before after :=
  ⟨h, hfind, found?_congr h hplace hfind hlog⟩

/-- What may become of the files where a registry is opened and closed. The place of the registry
changes only if none has been written there, and then the empty one may be there afterwards. -/
structure Spared (place : Place) (before after : Files) : Prop extends
    Tended place before after where
  holds : after.find? place = before.find? place ∨ before.BlankAt place ∧ after.HoldsAt place .empty
  found?_eq : after.found? place = before.found? place

namespace Spared

theorem refl (place : Place) (files : Files) : Spared place files files :=
  ⟨.refl place files, Or.inl rfl, rfl⟩

theorem trans (h : Spared place before between) (h' : Spared place between after) :
    Spared place before after where
  toTended := h.toTended.trans h'.toTended
  holds := by
    rcases h'.holds with heq | ⟨hblank, hholds⟩
    · rw [HoldsAt, heq]
      exact h.holds
    · rcases h.holds with heq | ⟨hblank', -⟩
      · rw [BlankAt, heq] at hblank
        exact Or.inr ⟨hblank, hholds⟩
      · exact Or.inr ⟨hblank', hholds⟩
  found?_eq := h'.found?_eq.trans h.found?_eq

theorem of_tidied (h : Tidied place before after) : Spared place before after :=
  ⟨h.toTended, Or.inl h.find?_eq, h.found?_eq⟩

/-- Directories stay, and none is made. -/
theorem isDirectory_eq (h : Spared place before after) (p : Place) :
    after.isDirectory p = before.isDirectory p := by
  by_cases hp : p = place
  · subst hp
    rcases h.holds with heq | ⟨hblank, _, hfile, -⟩
    · rw [Files.isDirectory, heq, Files.isDirectory]
    · rw [isDirectory_eq_false_iff.mpr (Or.inr ⟨_, hfile⟩), isDirectory_eq_false_iff.mpr]
      rcases hblank with hnone | ⟨bytes, hfile, -⟩
      · exact Or.inl hnone
      · exact Or.inr ⟨bytes, hfile⟩
  · exact h.toTended.isDirectory hp

theorem agreesOff (h : Spared place before after) :
    AgreesOff (place :: reserved place) before after :=
  h.toTended.agreesOff (h.isDirectory_eq place)

end Spared

/-- The log of a registry is no obstacle to opening it. -/
structure Cleared (files : Files) (place : Place) : Prop where
  log : files.isDirectory (beside place logEnding) = false
  index : (files.hasLog place && files.isDirectory (beside place indexEnding)) = false

/-- A registry has been opened and may be written. -/
structure Ready (files : Files) (place : Place) (r : Registry) : Prop extends
    Cleared files place where
  journal : files.isDirectory (beside place journalEnding) = false
  find? : ∃ bytes, files.find? place = some (.file bytes) ∧ Registry.isBlank bytes = false ∧
    Registry.ofBytes? bytes = some r

theorem Ready.isDirectory (h : files.Ready place r) : files.isDirectory place = false := by
  obtain ⟨bytes, hfile, -⟩ := h.find?
  exact isDirectory_eq_false_iff.mpr (Or.inr ⟨bytes, hfile⟩)

theorem Ready.found?_eq (h : files.Ready place r) : files.found? place = some r := by
  obtain ⟨bytes, hfile, hblank, hbytes⟩ := h.find?
  rw [found?, h.journal, h.log, hfile]
  simp only [hblank, h.index, hbytes, Bool.or_self, Bool.false_eq_true, if_false]

/-! ## What is done where a registry is opened -/

theorem spared_openFile (hplace : place ≠ []) (access : Registry.Access) (files : Files) :
    Spared place files ((openFile place access).run.run files).2 := by
  rw [openFile_run]
  cases hfind : files.find? place with
  | some entry => cases entry <;> exact .refl place files
  | none =>
    dsimp only
    split_ifs with hcreate
    · have hput : (files.put place (.file .empty)).find? place = some (.file .empty) := by
        rw [find?_put hplace, if_pos rfl]
      have htended : Tended place files (files.put place (.file .empty)) := .put hplace _
      refine ⟨htended, Or.inr ⟨Or.inl hfind, .empty, hput, rfl⟩, ?_⟩
      rw [found?, found?, hput, hfind,
        htended.isDirectory_reserved hplace (journal_mem_reserved place),
        htended.isDirectory_reserved hplace (log_mem_reserved place), hcreate.2]
      rfl
    · exact .refl place files

theorem find?_of_openFile (hplace : place ≠ [])
    (h : (openFile place access).run.run files = (.ok bytes, after)) :
    after.find? place = some (.file bytes) := by
  rw [openFile_run] at h
  cases hfind : files.find? place with
  | some entry =>
    rw [hfind] at h
    cases entry with
    | directory => cases h
    | file bytes' =>
      cases h
      exact hfind
  | none =>
    rw [hfind] at h
    dsimp only at h
    split_ifs at h
    · cases h
      rw [find?_put hplace, if_pos rfl]
    · cases h

/-- A file that cannot be opened has no registry that is found. -/
theorem found?_of_openFile {e : Error}
    (h : (openFile place access).run.run files = (.error e, after)) : e = .database ∧
      (access = .create ∨ (files.find? place).isSome → files.found? place = none) := by
  rw [openFile_run] at h
  cases hfind : files.find? place with
  | some entry =>
    rw [hfind] at h
    cases entry with
    | directory =>
      cases h
      simp [found?, hfind]
    | file bytes => cases h
  | none =>
    rw [hfind] at h
    dsimp only at h
    split_ifs at h with hcreate
    · cases h
    · cases h
      refine ⟨rfl, fun haccess => ?_⟩
      have hparent : files.isDirectory place.dropLast = false := by
        simpa [haccess.resolve_right (by simp)] using hcreate
      simp [found?, hfind, hparent]

theorem beside_injective {ending ending' : Name} (h : beside place ending = beside place ending') :
    ending = ending' := by
  simpa [beside] using h

theorem hasLog_remove (hp : p ∈ reserved place) (hne : p ≠ beside place logEnding) :
    (files.remove p).hasLog place = files.hasLog place := by
  rw [hasLog, hasLog, find?_remove (ne_nil_of_mem_reserved hp), if_neg hne.symm]

theorem hasLog_remove_self : (files.remove (beside place logEnding)).hasLog place = false := by
  rw [hasLog, find?_remove (ne_nil_of_mem_reserved (log_mem_reserved place)), if_pos rfl]

theorem isDirectory_of_hasLog (h : files.hasLog place = true) :
    files.isDirectory (beside place logEnding) = false := by
  rw [hasLog] at h
  rw [isDirectory_eq_false_iff]
  split at h
  case h_1 bytes hfile => exact Or.inr ⟨bytes, hfile⟩
  case h_2 => cases h

theorem journal_ne_log (place : Place) : beside place journalEnding ≠ beside place logEnding :=
  fun h => absurd (beside_injective h) (by decide +kernel)

theorem index_ne_log (place : Place) : beside place indexEnding ≠ beside place logEnding :=
  fun h => absurd (beside_injective h) (by decide +kernel)

theorem tidied_remove_journal (hplace : place ≠ [])
    (hdir : files.isDirectory (beside place journalEnding) = false) :
    Tidied place files (files.remove (beside place journalEnding)) :=
  .of_hasLog (.remove (journal_mem_reserved place) hdir) hplace
    (find?_remove_of_mem_reserved hplace (journal_mem_reserved place))
    (Or.inr (by rw [hasLog_remove (journal_mem_reserved place) (journal_ne_log place)]))

theorem tidied_clearJournal (hplace : place ≠ []) (access : Registry.Access) (blank : Bool)
    (files : Files) : Tidied place files ((clearJournal place access blank).run.run files).2 := by
  rw [clearJournal_run]
  cases hfind : files.find? (beside place journalEnding) with
  | none => exact .refl place files
  | some entry =>
    cases entry with
    | directory => cases blank <;> exact .refl place files
    | file bytes =>
      have hdir : files.isDirectory (beside place journalEnding) = false :=
        isDirectory_eq_false_iff.mpr (Or.inr ⟨bytes, hfind⟩)
      dsimp only
      split_ifs
      · exact tidied_remove_journal hplace hdir
      · exact .refl place files
      · exact .refl place files
      · exact .refl place files

/-- A journal that is not a directory is no obstacle if the registry may be written. -/
theorem isDirectory_of_clearJournal {blank : Bool} {result : Except Error Unit}
    (h : (clearJournal place access blank).run.run files = (result, after)) :
    match result with
    | .ok () => blank = true ∨ files.isDirectory (beside place journalEnding) = false
    | .error e => e = .database ∧
      (access ≠ .read → files.isDirectory (beside place journalEnding) = true) := by
  rw [clearJournal_run] at h
  rw [isDirectory]
  cases hfind : files.find? (beside place journalEnding) with
  | none =>
    rw [hfind] at h
    cases h
    exact Or.inr rfl
  | some entry =>
    rw [hfind] at h
    cases entry with
    | directory =>
      cases blank <;> cases h
      · exact ⟨rfl, fun _ => rfl⟩
      · exact Or.inl rfl
    | file bytes =>
      dsimp only at h
      split_ifs at h with _ hread <;> cases h
      · exact Or.inr rfl
      · exact Or.inr rfl
      · exact ⟨rfl, fun haccess => absurd haccess hread⟩
      · exact Or.inr rfl

theorem tidied_clearLog (hplace : place ≠ []) {blank : Bool}
    (hblank : blank = true → files.BlankAt place) :
    Tidied place files ((clearLog place blank).run.run files).2 := by
  rw [clearLog_run]
  split_ifs with hlog hhas hb
  · exact .refl place files
  · exact .of_hasLog (.remove (log_mem_reserved place) (by simpa using hlog)) hplace
      (find?_remove_of_mem_reserved hplace (log_mem_reserved place)) (Or.inl (hblank hb))
  · exact .refl place files
  · exact .refl place files
  · exact .refl place files

theorem cleared_of_clearLog (hplace : place ≠ []) {blank : Bool} {result : Except Error Unit}
    (h : (clearLog place blank).run.run files = (result, after)) :
    match result with
    | .ok () => after.Cleared place
    | .error e => e = .database ∧ (files.isDirectory (beside place logEnding) = true ∨ blank = false ∧
      (files.hasLog place && files.isDirectory (beside place indexEnding)) = true) := by
  rw [clearLog_run] at h
  split_ifs at h with hlog hhas hblank hindex <;> cases h
  · exact ⟨rfl, Or.inl hlog⟩
  · have htended : Tended place files (files.remove (beside place logEnding)) :=
      .remove (log_mem_reserved place) (by simpa using hlog)
    refine ⟨?_, by rw [hasLog_remove_self, Bool.false_and]⟩
    rw [htended.isDirectory_reserved hplace (log_mem_reserved place)]
    simpa using hlog
  · exact ⟨rfl, Or.inr ⟨by simpa using hblank, by rw [hhas, hindex, Bool.and_self]⟩⟩
  · exact ⟨by simpa using hlog, by simpa using fun _ => hindex⟩
  · exact ⟨by simpa using hlog, by simp [hhas]⟩

end Files

namespace RegistryFile

open Files

variable {files after : Files} {place : Place} {path : Bytes} {r : Registry} {bytes : ByteArray}
  {access : Registry.Access} {frozen blank : Bool}

theorem tidied_clear (hplace : place ≠ []) (access : Registry.Access) (frozen : Bool)
    (hblank : blank = true → files.BlankAt place) :
    Tidied place files ((clear place access frozen blank).run.run files).2 := by
  cases frozen with
  | true => exact .refl place files
  | false =>
    have hjournal := tidied_clearJournal hplace access blank files
    simp only [clear, Bool.false_eq_true, if_false]
    rw [Work.run_bind]
    rcases h : (clearJournal place access blank).run.run files with ⟨_ | ⟨⟩, between⟩
    · rw [h] at hjournal
      exact hjournal
    · rw [h] at hjournal
      refine hjournal.trans (tidied_clearLog hplace fun hb => ?_)
      rw [BlankAt, hjournal.find?_eq]
      exact hblank hb

/-- Where a directory is in the way, no registry is found. -/
theorem cleared_of_clear (hplace : place ≠ []) (hfile : files.find? place = some (.file bytes))
    {result : Except Error Unit}
    (h : (clear place access false (Registry.isBlank bytes)).run.run files = (result, after)) :
    match result with
    | .ok () => after.Cleared place ∧ (Registry.isBlank bytes = true ∨
      after.isDirectory (beside place journalEnding) = false)
    | .error e => e = .database ∧ (access ≠ .read → files.found? place = none) := by
  have htidied := tidied_clearJournal hplace access (Registry.isBlank bytes) files
  simp only [clear, Bool.false_eq_true, if_false] at h
  rw [Work.run_bind] at h
  rcases hjournal : (clearJournal place access (Registry.isBlank bytes)).run.run files with
    ⟨e | ⟨⟩, between⟩
  · rw [hjournal] at h
    cases h
    obtain ⟨rfl, hdir⟩ := isDirectory_of_clearJournal hjournal
    exact ⟨rfl, fun haccess => by rw [found?, hdir haccess, Bool.true_or, if_pos rfl]⟩
  · rw [hjournal] at h htidied
    dsimp only at h
    have hcleared := cleared_of_clearLog hplace h
    have hlogTidied : Tidied place between
        ((clearLog place (Registry.isBlank bytes)).run.run between).2 :=
      tidied_clearLog hplace fun hb => Or.inr ⟨bytes, htidied.find?_eq.trans hfile, hb⟩
    cases result with
    | ok _ =>
      refine ⟨hcleared, (isDirectory_of_clearJournal hjournal).imp_right fun hdir => ?_⟩
      rw [h] at hlogTidied
      rw [hlogTidied.isDirectory_reserved hplace (journal_mem_reserved place),
        htidied.isDirectory_reserved hplace (journal_mem_reserved place), hdir]
    | error e =>
      refine ⟨hcleared.1, fun _ => ?_⟩
      rw [← htidied.found?_eq, found?]
      rcases hcleared.2 with hlog | ⟨hblank, hindex⟩
      · rw [hlog, Bool.or_true, if_pos rfl]
      · rw [htidied.find?_eq.trans hfile]
        simp only [hblank, hindex, Bool.false_eq_true, if_false, if_true, ite_self]

/-- A registry that is written is ready if the log is no obstacle. Where it cannot be written, the
files are as they were. -/
theorem of_write (hplace : place ≠ []) {writable : Bool} {result : Except Error Unit}
    (h : (write ⟨place, writable⟩ r).run.run files = (result, after)) :
    match result with
    | .ok () => writable = true ∧ (beside place journalEnding).all isName = true ∧
      files.isDirectory (beside place journalEnding) = false ∧ Tended place files after ∧
      (files.Cleared place → after.Ready place r)
    | .error e => e = .database ∧ after = files ∧ (writable = true →
      (beside place journalEnding).all isName = false ∨
        files.isDirectory (beside place journalEnding) = true) := by
  rw [write_run] at h
  split_ifs at h with hfail <;> cases h
  · refine ⟨rfl, rfl, fun hwritable => ?_⟩
    simpa [hwritable] using hfail
  · obtain ⟨⟨hwritable, hname⟩, hdir⟩ :
        (writable = true ∧ (beside place journalEnding).all isName = true) ∧
          files.isDirectory (beside place journalEnding) = false := by simpa using hfail
    have hremove := Tended.remove (journal_mem_reserved place) hdir
    have htended := hremove.trans (Tended.put hplace (.file r.toBytes))
    refine ⟨hwritable, hname, hdir, htended, fun hcleared => ⟨⟨?_, ?_⟩, ?_, r.toBytes, ?_, ?_, ?_⟩⟩
    · rw [htended.isDirectory_reserved hplace (log_mem_reserved place), hcleared.log]
    · rw [htended.isDirectory_reserved hplace (index_mem_reserved place), hasLog,
        find?_put hplace, if_neg (ne_of_mem_reserved hplace (log_mem_reserved place)), ← hasLog,
        hasLog_remove (journal_mem_reserved place) (journal_ne_log place), hcleared.index]
    · rw [htended.isDirectory_reserved hplace (journal_mem_reserved place), hdir]
    · rw [find?_put hplace, if_pos rfl]
    · exact Registry.isBlank_toBytes r
    · exact Registry.ofBytes?_toBytes r

/-- A registry that is closed is found as before. -/
theorem exists_tidied_close (hplace : place ≠ []) {writable : Bool}
    (hindex : writable = true →
      (files.hasLog place && files.isDirectory (beside place indexEnding)) = false) :
    ∃ after, (close ⟨place, writable⟩).run.run files = (.ok (), after) ∧
      Tidied place files after := by
  rw [close_run]
  refine ⟨_, rfl, ?_⟩
  split_ifs with hclose
  · obtain ⟨hwritable, hlog⟩ : writable = true ∧ files.hasLog place = true := by simpa using hclose
    have hindexDir : files.isDirectory (beside place indexEnding) = false := by
      simpa [hlog] using hindex hwritable
    have hremove := Tended.remove (log_mem_reserved place) (isDirectory_of_hasLog hlog)
    have htended := hremove.trans (Tended.remove (index_mem_reserved place) (by
      rw [hremove.isDirectory_reserved hplace (index_mem_reserved place), hindexDir]))
    refine .of_hasLog htended hplace ?_ (Or.inr ?_)
    · rw [find?_remove_of_mem_reserved hplace (index_mem_reserved place),
        find?_remove_of_mem_reserved hplace (log_mem_reserved place)]
    · rw [hasLog_remove (index_mem_reserved place) (index_ne_log place), hasLog_remove_self,
        hindexDir, Bool.and_false, Bool.and_false]
  · exact .refl place files

/-! ## Opening -/

/-- What comes of an attempt to open a registry, whose file is there or can be made if `p` holds.
One that may be written is not opened only if none is found. -/
def Loaded (file : RegistryFile) (p : Prop) (files after : Files) :
    Except Error OpenRegistry → Prop
  | .ok o => o.file = some file ∧ (file.writable = true → after.Ready file.place o.registry)
  | .error e => e = .database ∧ (file.writable = true → p → files.found? file.place = none)

theorem loaded_acquire (hplace : place ≠ []) {writable : Bool}
    (hfile : files.find? place = some (.file bytes))
    (hcleared : writable = true → files.Cleared place ∧ (Registry.isBlank bytes = true ∨
      files.isDirectory (beside place journalEnding) = false)) {result : Except Error OpenRegistry}
    (h : (acquire ⟨place, writable⟩ bytes).run.run files = (result, after)) :
    Spared place files after ∧ Loaded ⟨place, writable⟩ True files after result := by
  rw [acquire] at h
  cases hblank : Registry.isBlank bytes with
  | true =>
    simp only [hblank, if_true] at h
    rw [Work.run_bind] at h
    rcases hwrite : (write ⟨place, writable⟩ .empty).run.run files with ⟨e | ⟨⟩, written⟩
    · rw [hwrite] at h
      cases h
      obtain ⟨rfl, rfl, hfail⟩ := of_write hplace hwrite
      refine ⟨.refl place _, rfl, fun hwritable _ => ?_⟩
      rcases hfail hwritable with hname | hdir
      · simp only [found?, hfile, hblank, hname, Bool.false_eq_true, if_false, if_true, ite_self]
      · rw [found?, hdir, Bool.true_or, if_pos rfl]
    · rw [hwrite] at h
      cases h
      obtain ⟨hwritable, hname, hdir, htended, hready⟩ := of_write hplace hwrite
      obtain ⟨hlog, -⟩ := hcleared hwritable
      have hready := hready hlog
      obtain ⟨written, hwritten, -, hempty⟩ := hready.find?
      refine ⟨⟨htended, Or.inr ⟨Or.inr ⟨bytes, hfile, hblank⟩, written, hwritten, hempty⟩, ?_⟩, rfl,
        fun _ => hready⟩
      rw [hready.found?_eq, found?, hdir, hlog.log, hfile]
      simp only [hblank, hname, Bool.or_self, Bool.false_eq_true, if_false, if_true]
  | false =>
    simp only [hblank, Bool.false_eq_true, if_false] at h
    cases hbytes : Registry.ofBytes? bytes with
    | some r =>
      simp only [hbytes] at h
      cases h
      refine ⟨.refl place files, rfl, fun hwritable => ?_⟩
      obtain ⟨hlog, hjournal⟩ := hcleared hwritable
      exact ⟨hlog, hjournal.resolve_left (by simp [hblank]), bytes, hfile, hblank, hbytes⟩
    | none =>
      simp only [hbytes] at h
      obtain ⟨closed, hclose, htidied⟩ := exists_tidied_close hplace
        fun hwritable => (hcleared hwritable).1.index
      rw [Work.bind_of_ok hclose] at h
      cases h
      refine ⟨.of_tidied htidied, rfl, fun _ _ => ?_⟩
      simp only [found?, hfile, hblank, hbytes, Bool.false_eq_true, if_false, ite_self]

/-- However a registry is opened, and whether or not it can be, the files are spared. -/
theorem loaded_load (hpath : files.registryPlace? path = some place)
    {result : Except Error OpenRegistry}
    (h : (load path access frozen).run.run files = (result, after)) :
    Spared place files after ∧ Loaded ⟨place, access ≠ .read && !frozen⟩
      (access = .create ∨ (files.find? place).isSome) files after result := by
  have hplace : place ≠ [] := ne_nil_of_registryPlace? hpath
  rw [load_run, hpath] at h
  dsimp only at h
  rw [Work.run_bind] at h
  have hopened := spared_openFile hplace access files
  rcases hopen : (openFile place access).run.run files with ⟨e | bytes, opened⟩
  · rw [hopen] at h hopened
    cases h
    obtain ⟨rfl, hfound⟩ := found?_of_openFile hopen
    exact ⟨hopened, rfl, fun _ => hfound⟩
  rw [hopen] at h hopened
  dsimp only at h hopened
  rw [Work.run_bind] at h
  have hfile : opened.find? place = some (.file bytes) := find?_of_openFile hplace hopen
  have htidied : Tidied place opened
      ((clear place access frozen (Registry.isBlank bytes)).run.run opened).2 :=
    tidied_clear hplace access frozen fun hblank => Or.inr ⟨bytes, hfile, hblank⟩
  rcases hclear : (clear place access frozen (Registry.isBlank bytes)).run.run opened with
    ⟨e | ⟨⟩, cleared⟩
  · rw [hclear] at h htidied
    cases h
    cases frozen with
    | true => cases hclear
    | false =>
      obtain ⟨rfl, hfound⟩ := cleared_of_clear hplace hfile hclear
      refine ⟨hopened.trans (.of_tidied htidied), rfl, fun hwritable _ => ?_⟩
      rw [← hopened.found?_eq]
      exact hfound (by simpa using hwritable)
  rw [hclear] at h htidied
  dsimp only at h htidied
  have hcleared : (decide (access ≠ .read) && !frozen) = true →
      cleared.Cleared place ∧ (Registry.isBlank bytes = true ∨
        cleared.isDirectory (beside place journalEnding) = false) := by
    intro hwritable
    obtain rfl : frozen = false := by
      simpa using ((Bool.and_eq_true _ _).mp hwritable).2
    exact cleared_of_clear hplace hfile hclear
  obtain ⟨hspared, hloaded⟩ := loaded_acquire hplace (htidied.find?_eq.trans hfile) hcleared h
  refine ⟨(hopened.trans (.of_tidied htidied)).trans hspared, ?_⟩
  cases result with
  | ok o => exact hloaded
  | error e =>
    refine ⟨hloaded.1, fun hwritable _ => ?_⟩
    rw [← hopened.found?_eq, ← htidied.found?_eq]
    exact hloaded.2 hwritable trivial

end RegistryFile

/-! ## Commands on a registry that is open -/

theorem OpenRegistry.save_eq (r r' : Registry) (file : RegistryFile) :
    (OpenRegistry.mk r (some file)).save r' = file.write r' := rfl

theorem OpenRegistry.close_eq (r : Registry) (file : RegistryFile) :
    (OpenRegistry.mk r (some file)).close = file.close := rfl

namespace Invocation

open Files

variable {files after : Files} {place : Place} {r : Registry} {o : OpenRegistry} {writable : Bool}
  {text : DefinitionText} {newId : String} {compiler : Compiler} {command : RegistryCommand}
  {i : Invocation}

/-- What a command gives on a registry that is open in a place and may be written, and the registry
that is in its place then. The name of a journal must be one that a file may have. -/
def resultOn (i : Invocation) (text : DefinitionText) (newId : String) (compiler : Compiler)
    (command : RegistryCommand) (place : Place) (files : Files) (r : Registry) :
    Except Error String × Registry :=
  match command.run text newId compiler i.format files r with
  | .error e => (.error e, r)
  | .ok (output, r') =>
    if command.changes then
      if (beside place journalEnding).all isName then (.ok output, r') else (.error .database, r)
    else (.ok output, r)

/-- A command that fails spares the files. -/
theorem of_runOn (hplace : place ≠ []) (hfile : o.file = some ⟨place, writable⟩)
    (hready : writable = true → files.Ready place o.registry) {result : Except Error String}
    (h : (i.runOn text newId compiler command o).run.run files = (result, after)) :
    AgreesOff (place :: reserved place) files after ∧
    (∀ e, result = .error e → Tidied place files after) ∧
    (writable = true → result = (i.resultOn text newId compiler command place files o.registry).1 ∧
      after.found? place =
        some (i.resultOn text newId compiler command place files o.registry).2) := by
  have hindex : writable = true →
      (files.hasLog place && files.isDirectory (beside place indexEnding)) = false :=
    fun hwritable => (hready hwritable).index
  obtain ⟨r, file⟩ := o
  obtain rfl : file = some ⟨place, writable⟩ := hfile
  obtain ⟨closed, hclose, htidied⟩ := RegistryFile.exists_tidied_close hplace hindex
  have hclosed : AgreesOff (place :: reserved place) files closed :=
    (Spared.of_tidied htidied).agreesOff
  rw [runOn, Work.bind_of_ok (x := get) rfl] at h
  simp only [OpenRegistry.save_eq, OpenRegistry.close_eq] at h
  rw [resultOn]
  cases hrun : command.run text newId compiler i.format files r with
  | error e =>
    simp only [hrun] at h ⊢
    rw [Work.bind_of_ok hclose] at h
    cases h
    exact ⟨hclosed, fun _ _ => htidied, fun hwritable =>
      ⟨rfl, htidied.found?_eq.trans (hready hwritable).found?_eq⟩⟩
  | ok answer =>
    obtain ⟨output, r'⟩ := answer
    simp only [hrun] at h ⊢
    cases hchanges : command.changes with
    | false =>
      simp only [hchanges, Bool.false_eq_true, if_false] at h ⊢
      rw [Work.bind_of_ok hclose] at h
      cases h
      exact ⟨hclosed, fun _ _ => htidied, fun hwritable =>
        ⟨rfl, htidied.found?_eq.trans (hready hwritable).found?_eq⟩⟩
    | true =>
      simp only [hchanges, if_true] at h ⊢
      rcases hwrite : (RegistryFile.write ⟨place, writable⟩ r').run.run files with
        ⟨e | ⟨⟩, written⟩
      · rw [Work.bind_of_error hwrite] at h
        cases h
        obtain ⟨rfl, rfl, hfail⟩ := RegistryFile.of_write hplace hwrite
        refine ⟨.refl _ _, fun _ _ => .refl place _, fun hwritable => ?_⟩
        have hready := hready hwritable
        have hname := (hfail hwritable).resolve_right (by simp [hready.journal])
        simp only [hname, Bool.false_eq_true, if_false]
        exact ⟨trivial, hready.found?_eq⟩
      · rw [Work.bind_of_ok hwrite] at h
        obtain ⟨hwritable, hname, -, htended, hwritten⟩ := RegistryFile.of_write hplace hwrite
        have hready := hready hwritable
        have hready' : written.Ready place r' := hwritten hready.toCleared
        obtain ⟨closed', hclose', htidied'⟩ :=
          RegistryFile.exists_tidied_close hplace fun _ : writable = true => hready'.index
        rw [Work.bind_of_ok hclose'] at h
        cases h
        have hagrees := htended.agreesOff (hready'.isDirectory.trans hready.isDirectory.symm)
        refine ⟨hagrees.trans (Spared.of_tidied htidied').agreesOff, nofun, fun _ => ?_⟩
        simp only [hname, if_true]
        exact ⟨trivial, htidied'.found?_eq.trans hready'.found?_eq⟩

end Invocation

end DocTables
