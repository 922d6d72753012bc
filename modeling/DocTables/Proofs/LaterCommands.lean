import DocTables.Main
import DocTables.Proofs.FoundRegistries

/-!
# Commands on trees of files that differ in a registry

A command changes no place but that of its registry and the reserved names beside it, and if it
fails it spares the registry (`Invocation.confined_run`).

It has the same result on two trees of files that differ in places with which it has nothing to do
(`Invocation.sameOff_run`). The trees may also differ in the place of one registry and beside it, if
the same registry is found there in both (`Files.Matches`). Then they are alike to a command that
works on this registry, and may write it and make its file. They are alike, too, to one that works
on another registry, if neither has a name that is reserved beside the other
(`Invocation.Unconcerned`, `Invocation.matches_run`). The trees that it leaves match again.
-/

namespace DocTables

open Files

namespace Invocation

variable {i : Invocation} {text : DefinitionText} {newId : String} {files files' after : Files}
  {places : List Place} {place : Place} {path : Bytes} {access : Registry.Access}

/-- The place of the registry that a command works on, if it is in a file. -/
def place? (i : Invocation) (files : Files) : Option Place :=
  match i.command, Registry.Location.ofText? i.registryPath with
  | .onRegistry _, some (.file path _ _) => files.registryPlace? path
  | _, _ => none

/-! ## What a command does -/

/-- What comes of a command, by what it asks for. -/
theorem run_eq (i : Invocation) (text : DefinitionText) (newId : String) (files : Files) :
    i.run text newId files =
      match i.settings files with
      | .error e => (.error e, files)
      | .ok settings =>
        match i.command with
        | .compile path => (files.readDocument path >>= settings.compiler.compile, files)
        | .tables path =>
          (do
            let d ← settings.compiler.decompose (← files.readDocument path)
            return i.format.print (.list (d.tables.map Table.toData)), files)
        | .onRegistry command =>
          (i.openRegistry >>= i.runOn text newId settings.compiler command).run.run files := by
  rw [run, work, Work.bind_of_ok (x := get) rfl]
  cases hsettings : i.settings files with
  | error e => rfl
  | ok settings =>
    rw [Work.bind_of_ok (x := liftM (Except.ok settings)) rfl]
    cases i.command with
    | compile path =>
      dsimp only
      cases files.readDocument path with
      | error e => rfl
      | ok doc =>
        rw [Work.bind_of_ok (x := liftM (Except.ok doc)) rfl]
        rfl
    | tables path =>
      dsimp only
      cases files.readDocument path with
      | error e => rfl
      | ok doc =>
        rw [Work.bind_of_ok (x := liftM (Except.ok doc)) rfl]
        change _ = ((do
          let d ← settings.compiler.decompose doc
          return i.format.print (.list (d.tables.map Table.toData)) : Except Error String), files)
        cases settings.compiler.decompose doc <;> rfl
    | onRegistry command => rfl

/-- A command changes files only in the place of its registry and beside it. If it fails, it spares
them. -/
def Confined (i : Invocation) (files : Files) (result : Except Error String) (after : Files) :
    Prop :=
  match i.place? files with
  | none => after = files
  | some q =>
    AgreesOff (q :: reserved q) files after ∧ ∀ e, result = .error e → Spared q files after

theorem Confined.refl (i : Invocation) (files : Files) (result : Except Error String) :
    i.Confined files result files := by
  rw [Confined]
  cases i.place? files with
  | none => rfl
  | some q => exact ⟨.refl _ _, fun _ _ => .refl q _⟩

/-- Nothing is kept of a registry that is not in a file. -/
theorem runOn_memory (i : Invocation) (text : DefinitionText) (newId : String) (compiler : Compiler)
    (command : RegistryCommand) (r : Registry) (files : Files) :
    (i.runOn text newId compiler command ⟨r, none⟩).run.run files =
      ((command.run text newId compiler i.format files r).map Prod.fst, files) := by
  rw [runOn, Work.bind_of_ok (x := get) rfl]
  cases command.run text newId compiler i.format files r with
  | error e => rfl
  | ok answer =>
    obtain ⟨output, r'⟩ := answer
    dsimp only
    cases command.changes <;> rfl

theorem confined_onRegistry {compiler : Compiler} {command : RegistryCommand}
    (hcommand : i.command = .onRegistry command) {result : Except Error String}
    (h : (i.openRegistry >>= i.runOn text newId compiler command).run.run files =
      (result, after)) : i.Confined files result after := by
  rw [Confined, place?, hcommand]
  rw [openRegistry] at h
  cases hlocation : Registry.Location.ofText? i.registryPath with
  | none =>
    rw [hlocation] at h
    exact (Prod.mk.inj h).2.symm
  | some location =>
    rw [hlocation] at h
    dsimp only at h ⊢
    cases location with
    | memory =>
      rw [OpenRegistry.load, pure_bind, runOn_memory] at h
      exact (Prod.mk.inj h).2.symm
    | file path access frozen =>
      rw [OpenRegistry.load, Work.run_bind] at h
      dsimp only
      cases hpath : files.registryPlace? path with
      | none =>
        rw [RegistryFile.load_run, hpath] at h
        exact (Prod.mk.inj h).2.symm
      | some q =>
        dsimp only
        rcases hload : (RegistryFile.load path access frozen).run.run files with ⟨e | o, opened⟩
        · obtain ⟨hspared, -⟩ := RegistryFile.loaded_load hpath hload
          rw [hload] at h
          cases h
          exact ⟨hspared.agreesOff, fun _ _ => hspared⟩
        · obtain ⟨hspared, hfile, hready⟩ := RegistryFile.loaded_load hpath hload
          rw [hload] at h
          obtain ⟨hagrees, htidied, -⟩ :=
            of_runOn (ne_nil_of_registryPlace? hpath) hfile hready h
          exact ⟨hspared.agreesOff.trans hagrees, fun e he =>
            hspared.trans (.of_tidied (htidied e he))⟩

theorem confined_run (i : Invocation) (text : DefinitionText) (newId : String) (files : Files) :
    i.Confined files (i.run text newId files).1 (i.run text newId files).2 := by
  rcases h : i.run text newId files with ⟨result, after⟩
  rw [run_eq] at h
  cases hsettings : i.settings files with
  | error e =>
    rw [hsettings] at h
    exact (Prod.mk.inj h).2 ▸ .refl i files result
  | ok settings =>
    rw [hsettings] at h
    dsimp only at h
    cases hcommand : i.command with
    | compile path =>
      rw [hcommand] at h
      exact (Prod.mk.inj h).2 ▸ .refl i files result
    | tables path =>
      rw [hcommand] at h
      exact (Prod.mk.inj h).2 ▸ .refl i files result
    | onRegistry command =>
      rw [hcommand] at h
      exact confined_onRegistry hcommand h

end Invocation

/-! ## Commands on trees that agree -/

theorem RegistryCommand.run_congr {i : Invocation} {command : RegistryCommand}
    {files files' : Files} (hcommand : i.command = .onRegistry command)
    (hread : ∀ s ∈ Program.paths i, files'.readText s = files.readText s) (text : DefinitionText)
    (newId : String) (compiler : Compiler) (format : Format) (r : Registry) :
    command.run text newId compiler format files' r =
      command.run text newId compiler format files r := by
  cases command with
  | addSchema path remark | saveDraft path remark =>
    have hpath := hread path (by simp [Program.paths, hcommand])
    rw [run, run, readDocument, readDocument, hpath]
  | _ => rfl

namespace OpenRegistry

variable {o : OpenRegistry} {files files' : Files} {places : List Place}

theorem sameOff_save (h : AgreesOff places files files')
    (hfile : ∀ file, o.file = some file → file.place ≠ []) (r : Registry) :
    (o.save r).SameOff places files files' := by
  obtain ⟨registry, _ | file⟩ := o
  · exact ⟨rfl, h⟩
  · exact RegistryFile.sameOff_write h (hfile file rfl) r

theorem sameOff_close (h : AgreesOff places files files')
    (hfile : ∀ file, o.file = some file → beside file.place logEnding ∉ places) :
    o.close.SameOff places files files' := by
  obtain ⟨registry, _ | file⟩ := o
  · exact ⟨rfl, h⟩
  · exact RegistryFile.sameOff_close h (hfile file rfl)

end OpenRegistry

namespace Invocation

variable {i : Invocation} {text : DefinitionText} {newId : String} {files files' : Files}
  {places : List Place} {place q : Place} {path : Bytes} {access : Registry.Access}

theorem sameOff_runOn {compiler : Compiler} {command : RegistryCommand} {o : OpenRegistry}
    (h : AgreesOff places files files') (hcommand : i.command = .onRegistry command)
    (hread : ∀ s ∈ Program.paths i, files'.readText s = files.readText s)
    (hfile : ∀ file, o.file = some file →
      file.place ≠ [] ∧ ∀ p ∈ file.place :: reserved file.place, p ∉ places) :
    (i.runOn text newId compiler command o).SameOff places files files' := by
  have hclose : ∀ {between between'}, AgreesOff places between between' →
      o.close.SameOff places between between' := fun hbetween =>
    OpenRegistry.sameOff_close hbetween fun file hsome =>
      (hfile file hsome).2 _ (List.mem_cons_of_mem _ (log_mem_reserved _))
  rw [Work.SameOff, runOn, Work.bind_of_ok (x := get) rfl, Work.bind_of_ok (x := get) rfl,
    RegistryCommand.run_congr hcommand hread]
  cases command.run text newId compiler i.format files o.registry with
  | error e => exact (hclose h).bind fun _ _ _ _ _ hclosed => ⟨rfl, hclosed⟩
  | ok answer =>
    obtain ⟨output, r⟩ := answer
    dsimp only
    cases command.changes with
    | false => exact (hclose h).bind fun _ _ _ _ _ hclosed => ⟨rfl, hclosed⟩
    | true =>
      exact (OpenRegistry.sameOff_save h (fun file hsome => (hfile file hsome).1) r).bind
        fun _ _ _ _ _ hsaved => (hclose hsaved).bind fun _ _ _ _ _ hclosed => ⟨rfl, hclosed⟩

/-- The files that a command reads besides its registry are in none of the places. -/
def ReadsOff (i : Invocation) (places : List Place) (files : Files) : Prop :=
  ∀ s ∈ Program.paths i, ∀ p, files.locate (Bytes.ofText s) = some p → p ∉ places

theorem ReadsOff.readText_eq (hreads : i.ReadsOff places files)
    (h : AgreesOff places files files') :
    ∀ s ∈ Program.paths i, files'.readText s = files.readText s :=
  fun s hs => h.readText_eq (hreads s hs)

theorem ReadsOff.of_agreesOff {places' : List Place} (hreads : i.ReadsOff places files)
    (h : AgreesOff places' files files') : i.ReadsOff places files' := by
  intro s hs p hp
  rw [h.locate_eq] at hp
  exact hreads s hs p hp

theorem settings_congr (hread : ∀ s ∈ Program.paths i, files'.readText s = files.readText s) :
    i.settings files' = i.settings files := by
  rw [settings, settings]
  cases hpath : i.settingsPath with
  | none => rfl
  | some path =>
    have hread := hread path (by simp [Program.paths, hpath])
    dsimp only
    rw [readSettings, readSettings, hread]

/-- A registry in a file is opened alike if its path leads to the same place, and neither that nor a
reserved name beside it is one of the places. -/
theorem sameOff_onRegistry {compiler : Compiler} {command : RegistryCommand}
    (h : AgreesOff places files files') (hcommand : i.command = .onRegistry command)
    (hreads : i.ReadsOff places files) (hplace : i.place? files' = i.place? files)
    (hplaces : ∀ q, i.place? files = some q → ∀ p ∈ q :: reserved q, p ∉ places) :
    (i.openRegistry >>= i.runOn text newId compiler command).SameOff places files files' := by
  rw [place?, place?, hcommand] at hplace
  rw [place?, hcommand] at hplaces
  rw [openRegistry]
  cases hlocation : Registry.Location.ofText? i.registryPath with
  | none => exact ⟨rfl, h⟩
  | some location =>
    rw [hlocation] at hplace hplaces
    dsimp only at hplace hplaces ⊢
    cases location with
    | memory =>
      rw [OpenRegistry.load, pure_bind]
      exact sameOff_runOn h hcommand (hreads.readText_eq h) nofun
    | file path access frozen =>
      rw [OpenRegistry.load]
      dsimp only at hplace hplaces
      cases hpath : files.registryPlace? path with
      | none =>
        rw [hpath] at hplace
        rw [Work.SameOff, Work.run_bind, Work.run_bind, RegistryFile.load_run,
          RegistryFile.load_run, hpath, hplace]
        exact ⟨rfl, h⟩
      | some q =>
        have hqs := hplaces q hpath
        refine (RegistryFile.sameOff_load h hpath (hplace.trans hpath) hqs access frozen).bind
          fun o opened opened' hload _ hopened => ?_
        obtain ⟨hspared, hfile, -⟩ := RegistryFile.loaded_load hpath hload
        refine sameOff_runOn hopened hcommand
          ((hreads.of_agreesOff hspared.agreesOff).readText_eq hopened) fun file hsome => ?_
        obtain rfl := Option.some.inj (hfile.symm.trans hsome)
        exact ⟨ne_nil_of_registryPlace? hpath, hqs⟩

theorem sameOff_run (text : DefinitionText) (newId : String) (h : AgreesOff places files files')
    (hreads : i.ReadsOff places files)
    (hplace : i.place? files' = i.place? files)
    (hplaces : ∀ q, i.place? files = some q → ∀ p ∈ q :: reserved q, p ∉ places) :
    (i.run text newId files').1 = (i.run text newId files).1 ∧
      AgreesOff places (i.run text newId files).2 (i.run text newId files').2 := by
  have hread := hreads.readText_eq h
  rw [run_eq, run_eq, settings_congr hread]
  cases i.settings files with
  | error e => exact ⟨rfl, h⟩
  | ok settings =>
    dsimp only
    cases hcommand : i.command with
    | compile path | tables path =>
      have hpath := hread path (by simp [Program.paths, hcommand])
      dsimp only
      rw [readDocument, readDocument, hpath]
      exact ⟨rfl, h⟩
    | onRegistry command => exact sameOff_onRegistry h hcommand hreads hplace hplaces

/-- Trees of files in which the same stands everywhere cannot be told apart. -/
theorem run_congr (i : Invocation) (text : DefinitionText) (newId : String)
    (h : AgreesOff [] files files') :
    (i.run text newId files').1 = (i.run text newId files).1 ∧
      AgreesOff [] (i.run text newId files).2 (i.run text newId files').2 := by
  have hadvance : files'.advance? = files.advance? := by
    funext place name
    rw [advance?, advance?, h.find? place (List.not_mem_nil)]
  have hplace (path : Bytes) : files'.registryPlace? path = files.registryPlace? path := by
    rw [registryPlace?, registryPlace?, target, target, hadvance, start, start, h.here]
  refine sameOff_run text newId h (fun _ _ _ _ => List.not_mem_nil) ?_
    fun _ _ _ _ => List.not_mem_nil
  simp only [place?, hplace]

end Invocation

/-! ## Commands on the registry in which the trees differ -/

/-- Trees of files that differ in no place but that of a registry and those beside it, where the
same registry is found. -/
structure Files.Matches (q : Place) (files files' : Files) : Prop extends
    AgreesOff (q :: reserved q) files files' where
  found?_eq : files'.found? q = files.found? q

theorem Files.Spared.matches {q : Place} {files files' : Files} (h : Spared q files files') :
    Matches q files files' :=
  ⟨h.agreesOff, h.found?_eq⟩

theorem Files.Matches.symm {q : Place} {files files' : Files} (h : Matches q files files') :
    Matches q files' files :=
  ⟨h.toAgreesOff.symm, h.found?_eq.symm⟩

theorem Files.Matches.trans {q : Place} {files files' files'' : Files} (h : Matches q files files')
    (h' : Matches q files' files'') : Matches q files files'' :=
  ⟨h.toAgreesOff.trans h'.toAgreesOff, h'.found?_eq.trans h.found?_eq⟩

namespace Invocation

variable {i : Invocation} {text : DefinitionText} {newId : String} {files files' : Files}
  {q : Place} {path : Bytes} {access : Registry.Access}

/-- The same registry is opened in both, if it may be written and its file is there or may be
made. -/
theorem matches_onRegistry {compiler : Compiler} {command : RegistryCommand}
    (h : Matches q files files') (hcommand : i.command = .onRegistry command)
    (hreads : i.ReadsOff (q :: reserved q) files)
    (hlocation : Registry.Location.ofText? i.registryPath = some (.file path access false))
    (haccess : access ≠ .read)
    (hfile : access = .create ∨ (files.find? q).isSome ∧ (files'.find? q).isSome)
    (hpath : files.registryPlace? path = some q) (hpath' : files'.registryPlace? path = some q) :
    let x := i.openRegistry >>= i.runOn text newId compiler command
    (x.run.run files').1 = (x.run.run files).1 ∧
      Matches q (x.run.run files).2 (x.run.run files').2 := by
  intro x
  have hplace : q ≠ [] := ne_nil_of_registryPlace? hpath
  have hwritable : (decide (access ≠ .read) && !false) = true := by simpa using haccess
  simp only [x, openRegistry, hlocation, OpenRegistry.load]
  rw [Work.run_bind, Work.run_bind]
  rcases hload : (RegistryFile.load path access false).run.run files with ⟨e | o, opened⟩ <;>
    rcases hload' : (RegistryFile.load path access false).run.run files' with ⟨e' | o', opened'⟩ <;>
    obtain ⟨hspared, hloaded⟩ := RegistryFile.loaded_load hpath hload <;>
    obtain ⟨hspared', hloaded'⟩ := RegistryFile.loaded_load hpath' hload' <;>
    have hopened : Matches q opened opened' := hspared.matches.symm.trans (h.trans hspared'.matches)
  · obtain ⟨rfl, -⟩ := hloaded
    obtain ⟨rfl, -⟩ := hloaded'
    exact ⟨rfl, hopened⟩
  · have hnone := hloaded.2 hwritable (hfile.imp_right And.left)
    have hsome := (hloaded'.2 hwritable).found?_eq
    rw [hspared'.found?_eq, h.found?_eq, hnone] at hsome
    cases hsome
  · have hnone := hloaded'.2 hwritable (hfile.imp_right And.right)
    have hsome := (hloaded.2 hwritable).found?_eq
    rw [hspared.found?_eq, ← h.found?_eq, hnone] at hsome
    cases hsome
  · have hready := hloaded.2 hwritable
    have hready' := hloaded'.2 hwritable
    obtain rfl : o = o' := by
      have hregistry := hopened.found?_eq
      rw [hready.found?_eq, hready'.found?_eq] at hregistry
      obtain ⟨r, file⟩ := o
      obtain ⟨r', file'⟩ := o'
      obtain rfl : r' = r := Option.some.inj hregistry
      exact congrArg _ (hloaded.1.trans hloaded'.1.symm)
    dsimp only
    rcases hrun : (i.runOn text newId compiler command o).run.run opened with ⟨result, after⟩
    rcases hrun' : (i.runOn text newId compiler command o).run.run opened' with ⟨result', after'⟩
    obtain ⟨hagrees, -, hexact⟩ := of_runOn hplace hloaded.1 hloaded.2 hrun
    obtain ⟨hagrees', -, hexact'⟩ := of_runOn hplace hloaded'.1 hloaded'.2 hrun'
    have hread : ∀ s ∈ Program.paths i, opened'.readText s = opened.readText s :=
      (hreads.of_agreesOff hspared.agreesOff).readText_eq hopened.toAgreesOff
    have hresult : i.resultOn text newId compiler command q opened' o.registry =
        i.resultOn text newId compiler command q opened o.registry := by
      rw [resultOn, resultOn, RegistryCommand.run_congr hcommand hread]
    obtain ⟨rfl, hfound⟩ := hexact hwritable
    obtain ⟨rfl, hfound'⟩ := hexact' hwritable
    exact ⟨by rw [hresult], hagrees.symm.trans (hopened.toAgreesOff.trans hagrees'),
      by rw [hfound, hfound', hresult]⟩

theorem exists_of_place? (h : i.place? files = some q) : ∃ command path access frozen,
    i.command = .onRegistry command ∧
    Registry.Location.ofText? i.registryPath = some (.file path access frozen) ∧
    files.registryPlace? path = some q := by
  rw [place?] at h
  split at h
  case h_1 command path access frozen hcommand hlocation =>
    exact ⟨command, path, access, frozen, hcommand, hlocation, h⟩
  case h_2 => cases h

theorem ne_nil_of_place? (h : i.place? files = some q) : q ≠ [] := by
  obtain ⟨_, _, _, _, _, _, hpath⟩ := exists_of_place? h
  exact ne_nil_of_registryPlace? hpath

end Invocation

namespace Files

variable {files files' : Files} {p q : Place}

/-- Two registries that have nothing to do with each other : they are not in the same place, and
neither of them has a name that is reserved beside the other. -/
structure Apart (p q : Place) : Prop where
  ne : p ≠ q
  notMem : p ∉ reserved q
  notMem' : q ∉ reserved p

theorem Apart.symm (h : Apart p q) : Apart q p := ⟨h.ne.symm, h.notMem', h.notMem⟩

theorem eq_of_beside_eq {ending ending' : Name} (hp : p ≠ []) (hq : q ≠ [])
    (hending : ending ∈ [journalEnding, logEnding, indexEnding])
    (hending' : ending' ∈ [journalEnding, logEnding, indexEnding])
    (h : beside p ending = beside q ending') : p = q := by
  -- the last three bytes tell the endings apart
  have hendings : ∀ e ∈ [journalEnding, logEnding, indexEnding], 3 ≤ e.reverse.length ∧
      ∀ e' ∈ [journalEnding, logEnding, indexEnding],
        e.reverse.take 3 = e'.reverse.take 3 → e = e' := by decide +kernel
  obtain ⟨hdrop, hlast⟩ := List.append_inj' h rfl
  obtain ⟨hlength, hinj⟩ := hendings ending hending
  have hlast := List.singleton_inj.mp hlast
  obtain rfl : ending = ending' := by
    refine hinj ending' hending' ?_
    have hreverse := congrArg (fun name => name.reverse.take 3) hlast
    simp only [List.reverse_append] at hreverse
    rwa [List.take_append_of_le_length hlength,
      List.take_append_of_le_length (hendings ending' hending').1] at hreverse
  have hname := List.append_cancel_right hlast
  rw [List.getLast?_eq_some_getLast hp, List.getLast?_eq_some_getLast hq, Option.getD_some,
    Option.getD_some] at hname
  rw [← List.dropLast_append_getLast hp, ← List.dropLast_append_getLast hq, hdrop, hname]

theorem Apart.notMem_places (h : Apart p q) (hp : p ≠ []) (hq : q ≠ []) :
    ∀ x ∈ p :: reserved p, x ∉ q :: reserved q := by
  refine List.forall_mem_cons.mpr ⟨by simp [h.ne, h.notMem], fun x hx hmem => ?_⟩
  rcases List.mem_cons.mp hmem with rfl | hmem
  · exact h.notMem' hx
  · obtain ⟨ending, hending, rfl⟩ := List.mem_map.mp hx
    obtain ⟨ending', hending', heq⟩ := List.mem_map.mp hmem
    exact h.ne (eq_of_beside_eq hp hq hending hending' heq.symm)

theorem AgreesOff.found?_eq {places : List Place} (h : AgreesOff places files files')
    (hq : ∀ x ∈ q :: reserved q, x ∉ places) : files'.found? q = files.found? q := by
  obtain ⟨hplace, hreserved⟩ := List.forall_mem_cons.mp hq
  rw [found?, found?, h.find? q hplace, h.hasLog_eq (hreserved _ (log_mem_reserved q))]
  simp only [h.isDirectory]

end Files

namespace Invocation

variable {i : Invocation} {text : DefinitionText} {newId : String} {files files' : Files}
  {p q : Place} {path : Bytes} {access : Registry.Access}

/-- A command that works on the registry in this place may write it, and make its file unless it is
there. -/
def MayMake (i : Invocation) (q : Place) (files files' : Files) : Prop :=
  ∃ path access, Registry.Location.ofText? i.registryPath = some (.file path access false) ∧
    access ≠ .read ∧
    (access = .create ∨ (files.find? q).isSome ∧ (files'.find? q).isSome)

/-- It makes no difference to a command on which of two trees of files it is run in which the same
registry is found : it reads no file in the place of that registry or beside it, it reaches its own
registry in the same place, and that is the same one, or one that has nothing to do with it. -/
structure Unconcerned (i : Invocation) (q : Place) (files files' : Files) : Prop where
  readsOff : i.ReadsOff (q :: reserved q) files
  place?_eq : i.place? files' = i.place? files
  registry (p : Place) : i.place? files = some p → Apart p q ∨ p = q ∧ i.MayMake q files files'

theorem matches_run (text : DefinitionText) (newId : String) (h : Matches q files files')
    (hq : q ≠ []) (hi : i.Unconcerned q files files') :
    (i.run text newId files').1 = (i.run text newId files).1 ∧
      Matches q (i.run text newId files).2 (i.run text newId files').2 := by
  obtain ⟨hreads, hplace, hregistry⟩ := hi
  have hconfined := i.confined_run text newId files
  have hconfined' := i.confined_run text newId files'
  rw [Confined] at hconfined hconfined'
  rw [hplace] at hconfined'
  cases hi : i.place? files with
  | none =>
    rw [hi] at hconfined hconfined'
    obtain ⟨hresult, hagrees⟩ := sameOff_run text newId h.toAgreesOff hreads hplace (by simp [hi])
    exact ⟨hresult, hagrees, by rw [hconfined, hconfined', h.found?_eq]⟩
  | some p =>
    rw [hi] at hconfined hconfined'
    rcases hregistry p hi with hapart | ⟨rfl, path, access, hlocation, haccess, hfile⟩
    · have hp : p ≠ [] := ne_nil_of_place? hi
      obtain ⟨hresult, hagrees⟩ := sameOff_run text newId h.toAgreesOff hreads hplace
        fun p' hp' => by
          obtain rfl := Option.some.inj (hi.symm.trans hp')
          exact hapart.notMem_places hp hq
      refine ⟨hresult, hagrees, ?_⟩
      have hnotMem := hapart.symm.notMem_places hq hp
      exact (hconfined'.1.found?_eq hnotMem).trans
        (h.found?_eq.trans (hconfined.1.found?_eq hnotMem).symm)
    · obtain ⟨command, path', access', frozen, hcommand, hlocation', hpath⟩ := exists_of_place? hi
      obtain ⟨rfl, rfl, rfl⟩ : path' = path ∧ access' = access ∧ frozen = false := by
        simpa [hlocation] using hlocation'.symm
      have hpath' := hplace.trans hi
      simp only [place?, hcommand, hlocation] at hpath'
      rw [run_eq, run_eq, settings_congr (hreads.readText_eq h.toAgreesOff)]
      cases i.settings files with
      | error e => exact ⟨rfl, h⟩
      | ok settings =>
        simp only [hcommand]
        exact matches_onRegistry h hcommand hreads hlocation haccess hfile hpath hpath'

end Invocation

end DocTables
