import DocTables.CommandLine.Execution
import DocTables.Proofs.RegistryFiles

/-!
# Trees of files that agree off some places

Work on a registry has the same result on two trees of files that agree off some places, if it has
nothing to do with these, and it leaves trees that agree off them again (`Work.SameOff`). It has to
do with the place of the registry and with the reserved names beside it, and besides it only counts
where there are directories (`RegistryFile.sameOff_load`).
-/

namespace DocTables

/-! ## Single steps -/

theorem Work.run_bind {α β : Type} (x : Work α) (f : α → Work β) (files : Files) :
    (x >>= f).run.run files =
      match x.run.run files with
      | (.ok a, between) => (f a).run.run between
      | (.error e, between) => (.error e, between) := by
  rw [ExceptT.run_bind, StateT.run_bind]
  rcases x.run.run files with ⟨_ | _, between⟩ <;> rfl

namespace Files

theorem openFile_run (place : Place) (access : Registry.Access) (files : Files) :
    (openFile place access).run.run files =
      match files.find? place with
      | some (.file bytes) => (.ok bytes, files)
      | some .directory => (.error .database, files)
      | none =>
        if access = .create ∧ files.isDirectory place.dropLast then
          (.ok .empty, files.put place (.file .empty))
        else (.error .database, files) := by
  rw [openFile, Work.bind_of_ok (x := get) rfl]
  cases files.find? place with
  | some entry => cases entry <;> rfl
  | none =>
    dsimp only
    split <;> rfl

theorem clearJournal_run (place : Place) (access : Registry.Access) (blank : Bool) (files : Files) :
    (clearJournal place access blank).run.run files =
      match files.find? (beside place journalEnding) with
      | none => (.ok (), files)
      | some .directory => if blank then (.ok (), files) else (.error .database, files)
      | some (.file bytes) =>
        if bytes.data[0]?.any fun b => blank || b ≠ 0 then
          if access ≠ .read then (.ok (), files.remove (beside place journalEnding))
          else if blank then (.ok (), files) else (.error .database, files)
        else (.ok (), files) := by
  rw [clearJournal, Work.bind_of_ok (x := get) rfl]
  cases files.find? (beside place journalEnding) with
  | none => rfl
  | some entry =>
    cases entry with
    | directory => cases blank <;> rfl
    | file bytes =>
      dsimp only
      split
      · split
        · rfl
        · cases blank <;> rfl
      · rfl

theorem clearLog_run (place : Place) (blank : Bool) (files : Files) :
    (clearLog place blank).run.run files =
      if files.isDirectory (beside place logEnding) then (.error .database, files)
      else if files.hasLog place then
        if blank then (.ok (), files.remove (beside place logEnding))
        else if files.isDirectory (beside place indexEnding) then (.error .database, files)
        else (.ok (), files)
      else (.ok (), files) := by
  rw [clearLog, Work.bind_of_ok (x := get) rfl]
  dsimp only
  split
  · rfl
  · split
    · split
      · rfl
      · split <;> rfl
    · rfl

end Files

namespace RegistryFile

open Files

theorem write_run (file : RegistryFile) (r : Registry) (files : Files) :
    (file.write r).run.run files =
      if !file.writable || !(beside file.place journalEnding).all isName ||
        files.isDirectory (beside file.place journalEnding) then (.error .database, files)
      else (.ok (), (files.remove (beside file.place journalEnding)).put file.place
        (.file r.toBytes)) := by
  rw [write, Work.bind_of_ok (x := get) rfl]
  dsimp only
  split <;> rfl

theorem close_run (file : RegistryFile) (files : Files) :
    file.close.run.run files =
      (.ok (), if file.writable && files.hasLog file.place then
        (files.remove (beside file.place logEnding)).remove (beside file.place indexEnding)
      else files) := by
  rw [close, Work.bind_of_ok (x := get) rfl]
  split <;> rfl

/-- Put out of the way what has been left over beside a registry, unless it is frozen. -/
def clear (place : Place) (access : Registry.Access) (frozen blank : Bool) : Work Unit :=
  if frozen then return
  else do
    clearJournal place access blank
    clearLog place blank

/-- Read the registry in a file, or write the empty one to it. -/
def acquire (file : RegistryFile) (bytes : ByteArray) : Work OpenRegistry :=
  if Registry.isBlank bytes then do
    file.write .empty
    return { registry := .empty, file }
  else
    match Registry.ofBytes? bytes with
    | some registry => return { registry, file }
    | none => do
      file.close
      throw .database

/-- The steps in which a registry is opened. -/
theorem load_run (path : Bytes) (access : Registry.Access) (frozen : Bool) (files : Files) :
    (load path access frozen).run.run files =
      match files.registryPlace? path with
      | none => (.error .database, files)
      | some place => (do
        let bytes ← openFile place access
        clear place access frozen (Registry.isBlank bytes)
        acquire { place, writable := access ≠ .read && !frozen } bytes : Work _).run.run files := by
  rw [load, Work.bind_of_ok (x := get) rfl]
  cases files.registryPlace? path with
  | none => rfl
  | some place =>
    cases frozen with
    | true => rfl
    | false =>
      simp only [clear, Bool.false_eq_true, if_false, bind_assoc]
      rfl

end RegistryFile

namespace Files

/-! ## Agreement -/

theorem journal_mem_reserved (place : Place) : beside place journalEnding ∈ reserved place := by
  simp [reserved]

theorem log_mem_reserved (place : Place) : beside place logEnding ∈ reserved place := by
  simp [reserved]

theorem index_mem_reserved (place : Place) : beside place indexEnding ∈ reserved place := by
  simp [reserved]

variable {files files' files'' : Files} {places places' : List Place} {place p : Place}
  {entry : Entry}

/-- Trees of files that differ in no place but these, and that have the same directories. -/
structure AgreesOff (places : List Place) (files files' : Files) : Prop where
  here : files'.here = files.here
  find? (p : Place) : p ∉ places → files'.find? p = files.find? p
  isDirectory (p : Place) : files'.isDirectory p = files.isDirectory p

namespace AgreesOff

theorem refl (places : List Place) (files : Files) : AgreesOff places files files :=
  ⟨rfl, fun _ _ => rfl, fun _ => rfl⟩

theorem symm (h : AgreesOff places files files') : AgreesOff places files' files :=
  ⟨h.here.symm, fun p hp => (h.find? p hp).symm, fun p => (h.isDirectory p).symm⟩

theorem trans (h : AgreesOff places files files') (h' : AgreesOff places files' files'') :
    AgreesOff places files files'' :=
  ⟨h'.here.trans h.here, fun p hp => (h'.find? p hp).trans (h.find? p hp),
    fun p => (h'.isDirectory p).trans (h.isDirectory p)⟩

theorem locate_eq (h : AgreesOff places files files') (path : Bytes) :
    files'.locate path = files.locate path :=
  locate_congr h.here h.isDirectory path

/-- A file that a path leads to is read alike, unless it is in one of these places. -/
theorem readText_eq (h : AgreesOff places files files') {s : String}
    (hs : ∀ p, files.locate (Bytes.ofText s) = some p → p ∉ places) :
    files'.readText s = files.readText s := by
  have hbytes : files'.bytes? (Bytes.ofText s) = files.bytes? (Bytes.ofText s) := by
    rw [bytes?, bytes?, h.locate_eq]
    exact Option.bind_congr fun p hp => by rw [h.find? p (hs p hp)]
  rw [readText, text?, hbytes, readText, text?]

theorem hasLog_eq (h : AgreesOff places files files') (hp : beside place logEnding ∉ places) :
    files'.hasLog place = files.hasLog place := by
  rw [hasLog, hasLog, h.find? _ hp]

theorem remove (h : AgreesOff places files files') (hp : p ≠ []) :
    AgreesOff places (files.remove p) (files'.remove p) where
  here := h.here
  find? q hq := by rw [find?_remove hp, find?_remove hp, h.find? q hq]
  isDirectory q := by
    have hq := h.isDirectory q
    rw [Files.isDirectory, Files.isDirectory, find?_remove hp, find?_remove hp]
    split_ifs
    · rfl
    · exact hq

theorem put (h : AgreesOff places files files') (hp : p ≠ []) (entry : Entry) :
    AgreesOff places (files.put p entry) (files'.put p entry) where
  here := h.here
  find? q hq := by rw [find?_put hp, find?_put hp, h.find? q hq]
  isDirectory q := by
    have hq := h.isDirectory q
    rw [Files.isDirectory, Files.isDirectory, find?_put hp, find?_put hp]
    split_ifs
    · rfl
    · exact hq

end AgreesOff

end Files

/-! ## Work on trees that agree -/

namespace Work

open Files

variable {α β : Type} {x : Work α} {f : α → Work β} {files files' : Files} {places : List Place}

/-- The work has one result on both trees of files, and leaves trees that agree off the places. -/
def SameOff (places : List Place) (x : Work α) (files files' : Files) : Prop :=
  (x.run.run files').1 = (x.run.run files).1 ∧
    AgreesOff places (x.run.run files).2 (x.run.run files').2

theorem SameOff.bind (h : x.SameOff places files files')
    (hf : ∀ a between between', x.run.run files = (.ok a, between) →
      x.run.run files' = (.ok a, between') → AgreesOff places between between' →
      (f a).SameOff places between between') :
    (x >>= f).SameOff places files files' := by
  rw [SameOff, run_bind, run_bind]
  obtain ⟨hresult, hagrees⟩ := h
  cases hx : x.run.run files with
  | mk result between =>
    cases hx' : x.run.run files' with
    | mk result' between' =>
      rw [hx, hx'] at hresult hagrees
      obtain rfl : result' = result := hresult
      cases result' with
      | error e => exact ⟨rfl, hagrees⟩
      | ok a => exact hf a between between' hx hx' hagrees

end Work

namespace Files

variable {files files' : Files} {places : List Place} {place : Place} {access : Registry.Access}
  {blank : Bool}

theorem sameOff_openFile (h : AgreesOff places files files') (hplace : place ≠ [])
    (hmem : place ∉ places) (access : Registry.Access) :
    (openFile place access).SameOff places files files' := by
  rw [Work.SameOff, openFile_run, openFile_run, h.find? place hmem, h.isDirectory]
  cases files.find? place with
  | some entry => cases entry <;> exact ⟨rfl, h⟩
  | none =>
    dsimp only
    split_ifs
    · exact ⟨rfl, h.put hplace _⟩
    · exact ⟨rfl, h⟩

theorem sameOff_clearJournal (h : AgreesOff places files files')
    (hmem : beside place journalEnding ∉ places) (access : Registry.Access) (blank : Bool) :
    (clearJournal place access blank).SameOff places files files' := by
  rw [Work.SameOff, clearJournal_run, clearJournal_run, h.find? _ hmem]
  cases files.find? (beside place journalEnding) with
  | none => exact ⟨rfl, h⟩
  | some entry =>
    cases entry with
    | directory => cases blank <;> exact ⟨rfl, h⟩
    | file bytes =>
      dsimp only
      split_ifs
      · exact ⟨rfl, h.remove (ne_nil_of_mem_reserved (journal_mem_reserved place))⟩
      · exact ⟨rfl, h⟩
      · exact ⟨rfl, h⟩
      · exact ⟨rfl, h⟩

theorem sameOff_clearLog (h : AgreesOff places files files')
    (hmem : beside place logEnding ∉ places) (blank : Bool) :
    (clearLog place blank).SameOff places files files' := by
  rw [Work.SameOff, clearLog_run, clearLog_run, h.isDirectory, h.isDirectory, h.hasLog_eq hmem]
  split_ifs
  · exact ⟨rfl, h⟩
  · exact ⟨rfl, h.remove (ne_nil_of_mem_reserved (log_mem_reserved place))⟩
  · exact ⟨rfl, h⟩
  · exact ⟨rfl, h⟩
  · exact ⟨rfl, h⟩

end Files

namespace RegistryFile

open Files

variable {files files' : Files} {places : List Place} {place : Place} {file : RegistryFile}

theorem sameOff_write (h : AgreesOff places files files') (hplace : file.place ≠ [])
    (r : Registry) : (file.write r).SameOff places files files' := by
  rw [Work.SameOff, write_run, write_run, h.isDirectory]
  split_ifs
  · exact ⟨rfl, h⟩
  · exact ⟨rfl, (h.remove (ne_nil_of_mem_reserved (journal_mem_reserved _))).put hplace _⟩

theorem sameOff_close (h : AgreesOff places files files')
    (hmem : beside file.place logEnding ∉ places) : file.close.SameOff places files files' := by
  rw [Work.SameOff, close_run, close_run, h.hasLog_eq hmem]
  refine ⟨rfl, ?_⟩
  dsimp only
  split_ifs
  · exact (h.remove (ne_nil_of_mem_reserved (log_mem_reserved _))).remove
      (ne_nil_of_mem_reserved (index_mem_reserved _))
  · exact h

theorem sameOff_load {path : Bytes} (h : AgreesOff places files files')
    (hpath : files.registryPlace? path = some place)
    (hpath' : files'.registryPlace? path = some place)
    (hplaces : ∀ p ∈ place :: reserved place, p ∉ places) (access : Registry.Access)
    (frozen : Bool) : (load path access frozen).SameOff places files files' := by
  have hplace : place ≠ [] := ne_nil_of_registryPlace? hpath
  obtain ⟨hmem, hreserved⟩ := List.forall_mem_cons.mp hplaces
  rw [Work.SameOff, load_run, load_run, hpath, hpath']
  refine (sameOff_openFile h hplace hmem access).bind fun bytes opened opened' _ _ hopened => ?_
  have hclear : (clear place access frozen (Registry.isBlank bytes)).SameOff places opened
      opened' := by
    cases frozen with
    | true => exact ⟨rfl, hopened⟩
    | false =>
      exact (sameOff_clearJournal hopened (hreserved _ (journal_mem_reserved place)) _ _).bind
        fun _ _ _ _ _ hjournal =>
          sameOff_clearLog hjournal (hreserved _ (log_mem_reserved place)) _
  refine hclear.bind fun _ cleared cleared' _ _ hcleared => ?_
  rw [acquire]
  split
  · exact (sameOff_write hcleared hplace .empty).bind fun _ _ _ _ _ hwritten => ⟨rfl, hwritten⟩
  · split
    · exact ⟨rfl, hcleared⟩
    · exact (sameOff_close hcleared (hreserved _ (log_mem_reserved place))).bind
        fun _ _ _ _ _ hclosed => ⟨rfl, hclosed⟩

end RegistryFile

end DocTables
