import DocTables.Files.Contents
import DocTables.Files.OpenRegistry
import DocTables.Proofs.StoredRegistry
import Mathlib.Tactic.SplitIfs

/-!
# A registry in a tree of files

`Files.Hosts` says that a tree of files has a registry at a path, or that an empty one can be made
there. Such a registry is opened (`RegistryFile.exists_load`), written (`RegistryFile.exists_write`)
and closed (`RegistryFile.exists_close`), and none of this fails. Where it may fail, since the file is
only read or frozen, it is that registry which is opened if any is (`RegistryFile.registry_of_load`).

Only the place of the registry changes by it, and what has been left over under the names beside it
that are reserved (`Files.Tended`). So the tree that comes of it has the registry at the same path
(`Files.Hosts.of_tended`), and every other file reads as before (`Files.Hosts.readText_eq`).
-/

namespace DocTables

/-! ## Work -/

namespace Work

variable {α β : Type} {x : Work α} {f : α → Work β} {files files' : Files} {a : α} {b : β}
  {e : Error}

theorem bind_of_ok (h : x.run.run files = (.ok a, files')) :
    (x >>= f).run.run files = (f a).run.run files' := by
  rw [ExceptT.run_bind, StateT.run_bind, h]
  rfl

theorem bind_of_error (h : x.run.run files = (.error e, files')) :
    (x >>= f).run.run files = (.error e, files') := by
  rw [ExceptT.run_bind, StateT.run_bind, h]
  rfl

theorem exists_of_bind (h : (x >>= f).run.run files = (.ok b, files')) : ∃ a between,
    x.run.run files = (.ok a, between) ∧ (f a).run.run between = (.ok b, files') := by
  rw [ExceptT.run_bind, StateT.run_bind] at h
  cases hx : x.run.run files with
  | mk result between =>
    rw [hx] at h
    cases result with
    | error e => cases h
    | ok a => exact ⟨a, between, rfl, h⟩

end Work

namespace Files

variable {files before between after : Files} {place p q : Place} {entry : Entry} {path : Bytes}
  {access : Registry.Access} {r r' : Registry} {bytes : ByteArray}

/-! ## Entries -/

theorem lookup_filter (entries : List (Place × Entry)) :
    (entries.filter (·.1 != p)).lookup q = if q = p then none else entries.lookup q := by
  induction entries with
  | nil => simp
  | cons e entries ih =>
    obtain ⟨place, entry⟩ := e
    rw [List.filter_cons, List.lookup_cons]
    by_cases hplace : place = p
    · subst hplace
      rw [if_neg (by simp), ih]
      by_cases hq : q = place
      · rw [if_pos hq, if_pos hq]
      · rw [beq_false_of_ne hq, if_neg hq]
    · rw [if_pos (by simpa using hplace), List.lookup_cons, ih]
      by_cases hq : q = place
      · subst hq
        simp [hplace]
      · rw [beq_false_of_ne hq]

theorem find?_remove (hp : p ≠ []) :
    (files.remove p).find? q = if q = p then none else files.find? q := by
  rw [find?, find?, remove, lookup_filter]
  by_cases hq : q = []
  · subst hq
    simp [Ne.symm hp]
  · simp [hq]

theorem find?_put (hp : p ≠ []) :
    (files.put p entry).find? q = if q = p then some entry else files.find? q := by
  rw [find?, find?, put, remove, List.lookup_cons, lookup_filter]
  by_cases hq : q = []
  · subst hq
    simp [Ne.symm hp]
  · by_cases hqp : q = p
    · subst hqp
      simp [hq]
    · have hne : (q == p) = false := by simpa using hqp
      simp [hq, hqp, hne]

theorem isDirectory_eq_false_iff : files.isDirectory p = false ↔
    files.find? p = none ∨ ∃ bytes, files.find? p = some (.file bytes) := by
  rw [isDirectory]
  cases files.find? p with
  | none => simp
  | some entry => cases entry <;> simp

/-! ## Where paths lead -/

/-- A path that passes through directories and what is not there leads to the same place when there
are fewer files. -/
theorem advance?_of_le {name : Name}
    (hfiles : ∀ p bytes, after.find? p = some (.file bytes) →
      ∃ bytes, before.find? p = some (.file bytes))
    (h : before.advance? p name = some q) : after.advance? p name = some q := by
  unfold advance? at h ⊢
  split_ifs at h ⊢ with hidle hdots
  · exact h
  · exact h
  · split at h
    case h_1 => cases h
    case h_2 hnone =>
      split
      case h_1 bytes hfile =>
        obtain ⟨bytes', hfile'⟩ := hfiles p bytes hfile
        exact absurd hfile' (hnone bytes')
      case h_2 => exact h

theorem foldlM_advance?_of_le
    (hfiles : ∀ p bytes, after.find? p = some (.file bytes) →
      ∃ bytes, before.find? p = some (.file bytes))
    {names : List Name} (h : names.foldlM before.advance? p = some q) :
    names.foldlM after.advance? p = some q := by
  induction names generalizing p with
  | nil => exact h
  | cons name names ih =>
    obtain ⟨next, hnext, hrest⟩ := Option.bind_eq_some_iff.mp h
    exact Option.bind_eq_some_iff.mpr ⟨next, advance?_of_le hfiles hnext, ih hrest⟩

theorem registryPlace?_of_le (h : before.registryPlace? path = some place)
    (hhere : after.here = before.here)
    (hfiles : ∀ p bytes, after.find? p = some (.file bytes) →
      ∃ bytes, before.find? p = some (.file bytes)) : after.registryPlace? path = some place := by
  obtain ⟨q, htarget, hplace⟩ := Option.bind_eq_some_iff.mp h
  refine Option.bind_eq_some_iff.mpr ⟨q, foldlM_advance?_of_le hfiles ?_, hplace⟩
  rwa [start, hhere]

theorem ne_nil_of_registryPlace? (h : files.registryPlace? path = some place) : place ≠ [] := by
  obtain ⟨q, -, hplace⟩ := Option.bind_eq_some_iff.mp h
  split_ifs at hplace with hempty
  rw [← Option.some.inj hplace]
  rintro rfl
  simp at hempty

theorem walk_congr (h : ∀ p, after.isDirectory p = before.isDirectory p) (names : List Name) :
    after.walk p names = before.walk p names := by
  induction names generalizing p with
  | nil => rfl
  | cons name names ih => simp only [walk, h, ih]

theorem locate_congr (hhere : after.here = before.here)
    (h : ∀ p, after.isDirectory p = before.isDirectory p) (path : Bytes) :
    after.locate path = before.locate path := by
  rw [locate, locate, walk_congr h, start, start, hhere]

/-! ## Reserved names -/

/-- The places beside a registry whose names are reserved. -/
def reserved (place : Place) : List Place :=
  [journalEnding, logEnding, indexEnding].map (beside place)

theorem beside_ne (hplace : place ≠ []) {ending : Name} (h : ending ≠ []) :
    beside place ending ≠ place := by
  intro heq
  rw [beside, List.getLast?_eq_some_getLast hplace, Option.getD_some] at heq
  have hlast : place = place.dropLast ++ [place.getLast hplace] :=
    (List.dropLast_append_getLast hplace).symm
  have hending := List.append_cancel_left (heq.trans hlast)
  simp at hending
  exact h hending

theorem notMem_reserved (hplace : place ≠ []) : place ∉ reserved place := by
  have hending : ∀ ending ∈ [journalEnding, logEnding, indexEnding], ending ≠ [] := by
    decide +kernel
  simp only [reserved, List.mem_map, not_exists, not_and]
  exact fun ending hmem => beside_ne hplace (hending ending hmem)

theorem ne_nil_of_mem_reserved (h : p ∈ reserved place) : p ≠ [] := by
  obtain ⟨ending, -, rfl⟩ := List.mem_map.mp h
  simp [beside]

theorem ne_of_mem_reserved (hplace : place ≠ []) (h : p ∈ reserved place) : p ≠ place :=
  fun heq => notMem_reserved hplace (heq ▸ h)

theorem find?_remove_of_mem_reserved (hplace : place ≠ []) (h : p ∈ reserved place) :
    (files.remove p).find? place = files.find? place := by
  rw [find?_remove (ne_nil_of_mem_reserved h), if_neg (ne_of_mem_reserved hplace h).symm]

/-- Trees of files that differ only in the place of a registry, and in files that were left over under
the reserved names. -/
structure Tended (place : Place) (before after : Files) : Prop where
  here : after.here = before.here
  find? (p : Place) : p ≠ place → after.find? p = before.find? p ∨
    p ∈ reserved place ∧ after.find? p = none ∧ ∃ bytes, before.find? p = some (.file bytes)

namespace Tended

theorem refl (place : Place) (files : Files) : Tended place files files :=
  ⟨rfl, fun _ _ => Or.inl rfl⟩

theorem trans (h : Tended place before between) (h' : Tended place between after) :
    Tended place before after where
  here := h'.here.trans h.here
  find? p hp := by
    rcases h'.find? p hp with heq | ⟨hmem, hnone, bytes, hfile⟩
    · rw [heq]
      exact h.find? p hp
    · rcases h.find? p hp with heq | ⟨-, hnone', -⟩
      · exact Or.inr ⟨hmem, hnone, bytes, heq ▸ hfile⟩
      · simp [hnone'] at hfile

/-- What is left over under a reserved name is taken away. -/
theorem remove (hp : p ∈ reserved place) (h : files.isDirectory p = false) :
    Tended place files (files.remove p) where
  here := rfl
  find? q _ := by
    rw [find?_remove (ne_nil_of_mem_reserved hp)]
    by_cases hq : q = p
    · subst hq
      rw [if_pos rfl]
      rcases isDirectory_eq_false_iff.mp h with hnone | hfile
      · exact Or.inl hnone.symm
      · exact Or.inr ⟨hp, rfl, hfile⟩
    · exact Or.inl (if_neg hq)

theorem put (hplace : place ≠ []) (entry : Entry) : Tended place files (files.put place entry) where
  here := rfl
  find? q hq := Or.inl (by rw [find?_put hplace, if_neg hq])

theorem isDirectory (h : Tended place before after) (hp : p ≠ place) :
    after.isDirectory p = before.isDirectory p := by
  rcases h.find? p hp with heq | ⟨-, hnone, bytes, hfile⟩
  · rw [Files.isDirectory, heq, Files.isDirectory]
  · rw [Files.isDirectory, hnone, Files.isDirectory, hfile]

/-- No file is made except in the place of the registry. -/
theorem exists_file (h : Tended place before after) (hp : p ≠ place)
    (hfile : after.find? p = some (.file bytes)) : ∃ bytes, before.find? p = some (.file bytes) := by
  rcases h.find? p hp with heq | ⟨-, hnone, -⟩
  · exact ⟨bytes, heq ▸ hfile⟩
  · simp [hnone] at hfile

end Tended

/-! ## Registries in places -/

/-- The file in a place holds a registry. -/
def HoldsAt (files : Files) (place : Place) (r : Registry) : Prop :=
  ∃ bytes, files.find? place = some (.file bytes) ∧ Registry.ofBytes? bytes = some r

/-- A tree of files has a registry at a path, which leads to a place and may be used with some
access. -/
structure Hosts (path : Bytes) (access : Registry.Access) (place : Place) (r : Registry)
    (files : Files) : Prop where
  /-- The path leads to the place, also when there is a file. -/
  registryPlace?_put : (files.put place (.file .empty)).registryPlace? path = some place
  /-- The file is there, or it may be made for an empty registry. -/
  holdsAt : files.HoldsAt place r ∨ r = .empty ∧ files.find? place = none ∧
    files.isDirectory place.dropLast ∧ access = .create
  /-- No directory has one of the reserved names. -/
  reserved (p : Place) : p ∈ Files.reserved place → files.isDirectory p = false
  /-- A file may have the name that is reserved for a journal. -/
  isName : (beside place journalEnding).all isName

namespace Hosts

theorem place_ne_nil (h : Hosts path access place r files) : place ≠ [] :=
  ne_nil_of_registryPlace? h.registryPlace?_put

theorem registryPlace? (h : Hosts path access place r files) :
    files.registryPlace? path = some place := by
  have hplace : place ≠ [] := h.place_ne_nil
  refine registryPlace?_of_le h.registryPlace?_put rfl fun p bytes hfile => ?_
  rw [find?_put hplace]
  split_ifs
  · exact ⟨_, rfl⟩
  · exact ⟨bytes, hfile⟩

theorem isDirectory_place (h : Hosts path access place r files) :
    files.isDirectory place = false := by
  rw [isDirectory_eq_false_iff]
  rcases h.holdsAt with ⟨bytes, hfile, -⟩ | ⟨-, hnone, -⟩
  · exact Or.inr ⟨bytes, hfile⟩
  · exact Or.inl hnone

/-- A tree that has been tended has the registry that is now in its place. -/
theorem of_tended (h : Hosts path access place r before) (ht : Tended place before after)
    (hr : after.HoldsAt place r') : Hosts path access place r' after where
  registryPlace?_put := by
    have hplace : place ≠ [] := h.place_ne_nil
    refine registryPlace?_of_le h.registryPlace?_put ht.here fun p bytes hfile => ?_
    rw [find?_put hplace] at hfile ⊢
    by_cases hp : p = place
    · exact ⟨_, if_pos hp⟩
    · rw [if_neg hp] at hfile ⊢
      exact ht.exists_file hp hfile
  holdsAt := Or.inl hr
  reserved p hp := by
    rw [ht.isDirectory (ne_of_mem_reserved h.place_ne_nil hp)]
    exact h.reserved p hp
  isName := h.isName

/-- Tending to a registry does not change where paths lead. -/
theorem locate_eq (h : Hosts path access place r before) (ht : Tended place before after)
    (h' : Hosts path access place r' after) (path : Bytes) :
    after.locate path = before.locate path := by
  refine locate_congr ht.here (fun p => ?_) path
  by_cases hp : p = place
  · rw [hp, h'.isDirectory_place, h.isDirectory_place]
  · exact ht.isDirectory hp

/-- Nor what is read from a file, unless it is the registry itself or has a reserved name. -/
theorem readText_eq (h : Hosts path access place r before) (ht : Tended place before after)
    (h' : Hosts path access place r' after) {s : String}
    (hs : ∀ p, before.locate (Bytes.ofText s) = some p → p ≠ place ∧ p ∉ Files.reserved place) :
    after.readText s = before.readText s := by
  have hbytes : after.bytes? (Bytes.ofText s) = before.bytes? (Bytes.ofText s) := by
    rw [bytes?, bytes?, h.locate_eq ht h']
    refine Option.bind_congr fun p hp => ?_
    obtain ⟨hne, hnotMem⟩ := hs p hp
    rw [(ht.find? p hne).resolve_right fun hreserved => hnotMem hreserved.1]
  rw [readText, text?, hbytes, readText, text?]

end Hosts

/-! ## What is done with files -/

theorem openFile_of_find? (hfile : files.find? place = some (.file bytes)) :
    (openFile place access).run.run files = (.ok bytes, files) := by
  rw [openFile, Work.bind_of_ok (x := get) rfl, hfile]
  rfl

theorem exists_openFile (h : Hosts path access place r files) : ∃ bytes files',
    (openFile place access).run.run files = (.ok bytes, files') ∧ Tended place files files' ∧
    files'.find? place = some (.file bytes) ∧ Registry.ofBytes? bytes = some r := by
  rcases h.holdsAt with ⟨bytes, hfile, hbytes⟩ | ⟨rfl, hnone, hparent, haccess⟩
  · exact ⟨bytes, files, openFile_of_find? hfile, .refl place files, hfile, hbytes⟩
  · refine ⟨.empty, files.put place (.file .empty), ?_, .put h.place_ne_nil _, ?_, rfl⟩
    · rw [openFile, Work.bind_of_ok (x := get) rfl, hnone]
      simp only [haccess, hparent, and_self, if_true]
      rfl
    · rw [find?_put h.place_ne_nil, if_pos rfl]

/-- What has the name of a journal is put out of the way, or stays. -/
theorem exists_clearJournal (hplace : place ≠ [])
    (hdir : ∀ p ∈ reserved place, files.isDirectory p = false) (haccess : access ≠ .read)
    (blank : Bool) : ∃ files', (clearJournal place access blank).run.run files = (.ok (), files') ∧
      Tended place files files' ∧ files'.find? place = files.find? place := by
  have hmem : beside place journalEnding ∈ reserved place := List.mem_cons_self
  have hjournal : files.isDirectory (beside place journalEnding) = false := hdir _ hmem
  rcases isDirectory_eq_false_iff.mp hjournal with hnone | ⟨bytes, hfile⟩
  · refine ⟨files, ?_, .refl place files, rfl⟩
    rw [clearJournal, Work.bind_of_ok (x := get) rfl, hnone]
    rfl
  · rw [clearJournal, Work.bind_of_ok (x := get) rfl, hfile]
    by_cases hfirst : bytes.data[0]?.any fun b => blank || b ≠ 0
    · refine ⟨files.remove (beside place journalEnding), ?_, .remove hmem hjournal,
        find?_remove_of_mem_reserved hplace hmem⟩
      simp only [hfirst, haccess, if_true, ne_eq, not_false_eq_true]
      rfl
    · refine ⟨files, ?_, .refl place files, rfl⟩
      simp only [hfirst]
      rfl

theorem exists_clearLog (hplace : place ≠ [])
    (hdir : ∀ p ∈ reserved place, files.isDirectory p = false) (blank : Bool) :
    ∃ files', (clearLog place blank).run.run files = (.ok (), files') ∧
      Tended place files files' ∧ files'.find? place = files.find? place := by
  have hmem : beside place logEnding ∈ reserved place := by simp [reserved]
  have hlog : files.isDirectory (beside place logEnding) = false := hdir _ hmem
  have hindex : files.isDirectory (beside place indexEnding) = false :=
    hdir _ (by simp [reserved])
  rw [clearLog, Work.bind_of_ok (x := get) rfl]
  simp only [hlog, Bool.false_eq_true, if_false]
  cases hhas : files.hasLog place with
  | false => exact ⟨files, rfl, .refl place files, rfl⟩
  | true =>
    cases blank with
    | false =>
      refine ⟨files, ?_, .refl place files, rfl⟩
      simp only [hindex, Bool.false_eq_true, if_false, if_true]
      rfl
    | true =>
      exact ⟨files.remove (beside place logEnding), rfl, .remove hmem hlog,
        find?_remove_of_mem_reserved hplace hmem⟩

end Files

/-! ## What is done with registries -/

namespace RegistryFile

open Files

variable {files : Files} {place : Place} {path : Bytes} {access : Registry.Access}
  {r r' : Registry}

/-- A registry that is written is in its place. -/
theorem exists_write (h : Hosts path access place r files) (r' : Registry) :
    ∃ files', (write ⟨place, true⟩ r').run.run files = (.ok (), files') ∧
      Tended place files files' ∧ files'.HoldsAt place r' := by
  have hmem : beside place journalEnding ∈ reserved place := List.mem_cons_self
  have hjournal : files.isDirectory (beside place journalEnding) = false := h.reserved _ hmem
  refine ⟨(files.remove (beside place journalEnding)).put place (.file r'.toBytes), ?_,
    (Tended.remove hmem hjournal).trans (.put h.place_ne_nil _), r'.toBytes, ?_,
    Registry.ofBytes?_toBytes r'⟩
  · rw [write, Work.bind_of_ok (x := get) rfl]
    simp only [h.isName, hjournal, Bool.not_true, Bool.or_false, Bool.false_eq_true, if_false]
    rfl
  · rw [find?_put h.place_ne_nil, if_pos rfl]

/-- A registry that is closed stays in its place. -/
theorem exists_close (h : Hosts path access place r files) (hr : files.HoldsAt place r') :
    ∃ files', (close ⟨place, true⟩).run.run files = (.ok (), files') ∧
      Tended place files files' ∧ files'.HoldsAt place r' := by
  rw [close, Work.bind_of_ok (x := get) rfl]
  cases hhas : files.hasLog place with
  | false =>
    refine ⟨files, ?_, .refl place files, hr⟩
    simp only [Bool.and_false, Bool.false_eq_true, if_false]
    rfl
  | true =>
    have hplace : place ≠ [] := h.place_ne_nil
    have hlog : beside place logEnding ∈ reserved place := by simp [reserved]
    have hindex : beside place indexEnding ∈ reserved place := by simp [reserved]
    have htended : Tended place files (files.remove (beside place logEnding)) :=
      .remove hlog (h.reserved _ hlog)
    have hdir : (files.remove (beside place logEnding)).isDirectory (beside place indexEnding) =
        false := by
      rw [htended.isDirectory (ne_of_mem_reserved hplace hindex)]
      exact h.reserved _ hindex
    refine ⟨_, rfl, htended.trans (.remove hindex hdir), ?_⟩
    rw [HoldsAt, find?_remove_of_mem_reserved hplace hindex,
      find?_remove_of_mem_reserved hplace hlog]
    exact hr

/-- A registry is opened, with the file that is made for it if there is none. -/
theorem exists_load (h : Hosts path access place r files) (haccess : access ≠ .read) :
    ∃ files', (load path access false).run.run files = (.ok ⟨r, some ⟨place, true⟩⟩, files') ∧
      Tended place files files' ∧ files'.HoldsAt place r := by
  obtain ⟨bytes, opened, hopen, hopened, hfile, hbytes⟩ := exists_openFile h
  have hosts : Hosts path access place r opened := h.of_tended hopened ⟨bytes, hfile, hbytes⟩
  obtain ⟨clear, hclear, hcleared, hjournal⟩ := exists_clearJournal h.place_ne_nil hosts.reserved
    haccess (Registry.isBlank bytes)
  have hosts' : Hosts path access place r clear :=
    hosts.of_tended hcleared ⟨bytes, hjournal.trans hfile, hbytes⟩
  obtain ⟨cleared, hclear', hcleared', hlog⟩ := exists_clearLog h.place_ne_nil hosts'.reserved
    (Registry.isBlank bytes)
  have htended : Tended place files cleared := (hopened.trans hcleared).trans hcleared'
  have hholds : cleared.HoldsAt place r := ⟨bytes, (hlog.trans hjournal).trans hfile, hbytes⟩
  rw [load, Work.bind_of_ok (x := get) rfl, h.registryPlace?]
  simp only [haccess, ne_eq, not_false_eq_true, decide_true, Bool.not_false, Bool.and_true, if_true]
  rw [Work.bind_of_ok hopen, Work.bind_of_ok hclear, Work.bind_of_ok hclear']
  cases hblank : Registry.isBlank bytes with
  | true =>
    rw [Registry.ofBytes?, hblank, if_pos rfl] at hbytes
    obtain rfl := Option.some.inj hbytes
    obtain ⟨written, hwrite, hwritten, hholds'⟩ := exists_write (h.of_tended htended hholds) .empty
    refine ⟨written, ?_, htended.trans hwritten, hholds'⟩
    simp only [if_true]
    rw [Work.bind_of_ok hwrite]
    rfl
  | false =>
    refine ⟨cleared, ?_, htended, hholds⟩
    simp only [hbytes, Bool.false_eq_true, if_false]
    rfl

/-- However a file is opened that holds a registry, it is this registry. -/
theorem registry_of_load {frozen : Bool} {o : OpenRegistry} {files' : Files}
    (hplace : files.registryPlace? path = some place) (hholds : files.HoldsAt place r)
    (hok : (load path access frozen).run.run files = (.ok o, files')) : o.registry = r := by
  obtain ⟨bytes, hfile, hbytes⟩ := hholds
  rw [load, Work.bind_of_ok (x := get) rfl, hplace] at hok
  simp only [] at hok
  rw [Work.bind_of_ok (openFile_of_find? hfile)] at hok
  -- What is done with what lies beside the file may fail, and else makes no difference.
  cases hblank : Registry.isBlank bytes with
  | true =>
    rw [Registry.ofBytes?, hblank, if_pos rfl] at hbytes
    obtain rfl := Option.some.inj hbytes
    simp only [hblank, if_true] at hok
    cases frozen with
    | true =>
      obtain ⟨-, written, -, hok⟩ := Work.exists_of_bind hok
      cases hok
      rfl
    | false =>
      obtain ⟨-, clear, -, hok⟩ := Work.exists_of_bind hok
      obtain ⟨-, cleared, -, hok⟩ := Work.exists_of_bind hok
      obtain ⟨-, written, -, hok⟩ := Work.exists_of_bind hok
      cases hok
      rfl
  | false =>
    simp only [hblank, hbytes, Bool.false_eq_true, if_false] at hok
    cases frozen with
    | true =>
      cases hok
      rfl
    | false =>
      obtain ⟨-, clear, -, hok⟩ := Work.exists_of_bind hok
      obtain ⟨-, cleared, -, hok⟩ := Work.exists_of_bind hok
      cases hok
      rfl

end RegistryFile

end DocTables
