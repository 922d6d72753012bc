import DocTables.Proofs.RegistryRuns
import DocTables.Proofs.YamlDocuments

/-!
# What is published

A script is published under the name and the number that are read back from a definition. A
definition may be read back with other items than were written, or not at all. If what is read has
the id, the name and the number that were written (`KeepsHead`), then every script has been made of
what is read of its revision, by the compiler of the last publication (`Registry.FollowsScripts`).

An operation that succeeds keeps this beside what has been stored (`Registry.FollowsScripts.cons`), so
it holds after every run that begins with the empty registry (`Registry.followsScripts_run`).
-/

namespace DocTables

/-! ## Ids, names and numbers in texts -/

/-- What is read back from the text of a document has its id, its name and its number. -/
def KeepsHead (text : DefinitionText) (doc : Document) : Prop :=
  ∀ doc', text.read (text.write doc) = .ok doc' →
    doc'.id = doc.id ∧ doc'.name = doc.name ∧ doc'.revision = doc.revision

/-- In YAML this needs nothing but that the data of the document are read back, whatever its items
are and however many levels it has. -/
theorem keepsHead_yaml {doc : Document} (h : Yaml.ReadsBack doc.toData) : KeepsHead .yaml doc := by
  intro doc' hread
  simp only [DefinitionText.yaml, Document.ofYaml_toYaml h] at hread
  split_ifs at hread
  obtain rfl := Except.ok.inj hread
  exact ⟨rfl, rfl, rfl⟩

/-- The text of a document is read back, with its id, its name and its number. -/
def ReadsHead (text : DefinitionText) (doc : Document) : Prop :=
  ∃ doc', text.read (text.write doc) = .ok doc' ∧
    doc'.id = doc.id ∧ doc'.name = doc.name ∧ doc'.revision = doc.revision

/-- In YAML the document must have no more levels than are read. -/
theorem readsHead_yaml {doc : Document} (h : Yaml.ReadsBack doc.toData)
    (hdepth : doc.toData.depth ≤ Yaml.maxDepth) : ReadsHead .yaml doc := by
  refine ⟨{ doc with items := Item.readBackList doc.items }, ?_, rfl, rfl, rfl⟩
  simp only [DefinitionText.yaml, Document.ofYaml_toYaml h, if_pos hdepth]

namespace Registry

variable {text : DefinitionText} {medium : Medium} {r r' : Registry} {L : Log} {name : String}
  {op : Operation} {ops : List Operation} {doc : Document}

namespace Log

/-- The revisions are read back from their definitions with their ids, names and numbers, if they
are read back. -/
def KeepsHeads (text : DefinitionText) (L : Log) : Prop :=
  ∀ name revision doc, 0 < revision → L.stored? name revision = some doc → KeepsHead text doc

theorem KeepsHeads.of_append (L' : Log) (h : KeepsHeads text (L' ++ L)) : L.KeepsHeads text :=
  fun name revision doc hpos hdoc => h name revision doc hpos (stored?_append L' hpos hdoc)

end Log

/-! ## What is read for a publication -/

/-- What is read of a revision has its name, its number and the id of the name. -/
theorem Log.KeepsHeads.head (hk : L.KeepsHeads text) {revision : Int32} {stored : Document}
    (hpos : 0 < revision) (hstored : L.stored? name revision = some stored)
    (hread : text.reread stored = .ok doc) :
    doc.name = name ∧ doc.revision = revision ∧ L.id? name = some doc.id := by
  obtain ⟨hid, hname, hrevision⟩ := hk name revision stored hpos hstored doc hread
  rw [hid, hname, hrevision]
  exact eq_of_stored? hstored

/-- The document that is read for a publication has the name and the number of the last revision, and
is what is read of this revision. -/
theorem Follows.of_document (h : Follows text L r name) (hk : L.KeepsHeads text)
    (hdoc : r.document text name = .ok (some doc)) :
    doc.name = name ∧ 0 < doc.revision ∧ L.latest? name = some doc.revision ∧
      ∃ stored, L.stored? name doc.revision = some stored ∧ text.reread stored = .ok doc := by
  rw [h.document_eq, mapM_eq_ok_some_iff] at hdoc
  obtain ⟨stored, hstored, hread⟩ := hdoc
  obtain ⟨number, hnumber, hstored⟩ := Option.bind_eq_some_iff.mp hstored
  have hpos : 0 < number := (h.toInt_of_latest? hnumber).1
  obtain ⟨hname, rfl, -⟩ := hk.head hpos hstored hread
  exact ⟨hname, hpos, hnumber, stored, hstored, hread⟩

/-! ## Registries with the scripts of a log -/

/-- The scripts of a registry under a name are those that a log says. -/
structure FollowsScripts (text : DefinitionText) (L : Log) (r : Registry) (name : String) :
    Prop where
  script (revision : Int32) : r.published? name revision = L.published? text name revision
  /-- Only revisions have been published, of which there are scripts. -/
  publications : ∀ p ∈ L.publications name, 0 < p.1 ∧ ∃ stored doc script,
    L.stored? name p.1 = some stored ∧ text.reread stored = .ok doc ∧ p.2.compile doc = .ok script

theorem followsScripts_empty (name : String) : FollowsScripts text [] empty name where
  script _ := rfl
  publications _ h := by cases h

namespace FollowsScripts

variable {revision : Int32}

/-- An operation that publishes nothing of a name keeps the scripts of the name. -/
theorem frame (h : FollowsScripts text L r name)
    (hscript : ∀ revision, r'.published? name revision = r.published? name revision)
    (hpublications : Log.publications name (op :: L) = L.publications name) :
    FollowsScripts text (op :: L) r' name where
  script revision := by
    have hstored : ∀ p ∈ L.publications name, 0 < p.1 ∧ ∃ doc, L.stored? name p.1 = some doc := by
      intro p hp
      obtain ⟨hpos, stored, -, -, hstored, -⟩ := h.publications p hp
      exact ⟨hpos, stored, hstored⟩
    rw [hscript, h.script, ← Log.published?_append [op] hstored hpublications]
    rfl
  publications := by
    intro p hp
    rw [hpublications] at hp
    obtain ⟨hpos, stored, doc, script, hstored, hdoc⟩ := h.publications p hp
    exact ⟨hpos, stored, doc, script, Log.stored?_append [op] hpos hstored, hdoc⟩

theorem publish (h : FollowsScripts text L r name) {of : String} {c : Compiler} {p : Published}
    (hof : Follows text L r of) (hk : L.KeepsHeads text)
    (hok : r.publish text of c = .ok (p, r')) :
    FollowsScripts text (.publish of c :: L) r' name := by
  obtain ⟨doc, script, hdoc, hscript, rfl, rfl⟩ := publish_eq_ok_iff.mp hok
  obtain ⟨rfl, hpos, hlatest, stored, hstored, hread⟩ := hof.of_document hk hdoc
  by_cases hname : doc.name = name
  · subst hname
    have hpublications : Log.publications doc.name (.publish doc.name c :: L) =
        (doc.revision, c) :: L.publications doc.name := by
      rw [Log.publications, if_pos rfl, Log.eq_of_latest? hlatest]
    refine ⟨fun revision => ?_, ?_⟩
    · have hstored' : Log.stored? doc.name revision (.publish doc.name c :: L) =
          L.stored? doc.name revision := rfl
      rw [published?_replace, Log.published?, hpublications, hstored']
      by_cases heq : doc.revision = revision
      · subst heq
        simp [hstored, hread, hscript, Except.toOption]
      · have hne : (revision == doc.revision) = false := by simpa using Ne.symm heq
        rw [if_neg fun h => heq h.2, List.lookup_cons, hne, h.script, Log.published?]
    · rw [hpublications, List.forall_mem_cons]
      exact ⟨⟨hpos, stored, doc, script, hstored, hread, hscript⟩, h.publications⟩
  · refine h.frame (fun revision => ?_) (by rw [Log.publications, if_neg hname])
    rw [published?_replace, if_neg fun heq => hname heq.1]

/-- A registry that has the scripts of a log has them with an operation that succeeds. -/
theorem cons (h : FollowsScripts text L r name) (hf : ∀ of, Follows text L r of)
    (hk : L.KeepsHeads text) (hleads : Leads text r op r') :
    FollowsScripts text (op :: L) r' name := by
  cases hleads with
  | addInfo hok =>
    obtain ⟨-, -, rfl⟩ := addInfo_eq_ok_iff.mp hok
    exact h.frame (fun _ => rfl) rfl
  | updateInfo hok =>
    obtain ⟨-, -, -, rfl⟩ := updateInfo_eq_ok_iff.mp hok
    exact h.frame (fun _ => rfl) rfl
  | addSchema hok =>
    obtain ⟨-, -, -, rfl⟩ := addSchema_eq_ok_iff.mp hok
    exact h.frame (fun _ => rfl) rfl
  | saveDraft hok =>
    obtain ⟨-, -, rfl⟩ := saveDraft_eq_ok_iff.mp hok
    exact h.frame (fun _ => rfl) rfl
  | publish hok => exact h.publish (hf _) hk hok
  | reopen => exact h.frame (fun _ => rfl) rfl

/-- A script is made of what is read of its revision, by the compiler of the last publication. -/
theorem exists_of_published? (h : FollowsScripts text L r name) {p : Published}
    (hp : r.published? name revision = some p) : ∃ c stored doc,
      (L.publications name).lookup revision = some c ∧ 0 < revision ∧
      L.stored? name revision = some stored ∧ text.reread stored = .ok doc ∧
      c.compile doc = .ok p.script ∧ p.name = name ∧ p.revision = revision := by
  rw [h.script] at hp
  obtain ⟨c, hc, hp⟩ := Option.bind_eq_some_iff.mp hp
  obtain ⟨stored, hstored, hp⟩ := Option.bind_eq_some_iff.mp hp
  obtain ⟨doc, hdoc, hp⟩ := Option.bind_eq_some_iff.mp hp
  obtain ⟨script, hscript, hp⟩ := Option.bind_eq_some_iff.mp hp
  obtain rfl := Option.some.inj hp
  exact ⟨c, stored, doc, hc, (h.publications _ (Log.mem_publications_of_lookup hc)).1, hstored,
    toOption_eq_some_iff.mp hdoc, toOption_eq_some_iff.mp hscript, rfl, rfl⟩

/-- So it is made of a document with the id of the name and with the number of the revision. -/
theorem exists_compile (h : FollowsScripts text L r name) (hk : L.KeepsHeads text) {p : Published}
    (hp : r.published? name revision = some p) : ∃ c doc,
      (L.publications name).lookup revision = some c ∧ L.id? name = some doc.id ∧
      doc.revision = revision ∧ c.compile doc = .ok p.script := by
  obtain ⟨c, stored, doc, hc, hpos, hstored, hread, hscript, -⟩ := h.exists_of_published? hp
  obtain ⟨-, hrevision, hid⟩ := hk.head hpos hstored hread
  exact ⟨c, doc, hc, hid, hrevision, hscript⟩

/-- There is a script of the revisions that have been published. -/
theorem isSome_published?_iff (h : FollowsScripts text L r name) :
    (r.published? name revision).isSome ↔ ∃ c, (revision, c) ∈ L.publications name := by
  constructor
  · intro hsome
    obtain ⟨p, hp⟩ := Option.isSome_iff_exists.mp hsome
    obtain ⟨c, -, -, hc, -⟩ := h.exists_of_published? hp
    exact ⟨c, Log.mem_publications_of_lookup hc⟩
  · rintro ⟨c, hc⟩
    have hlookup : ((L.publications name).lookup revision).isSome :=
      List.lookup_isSome_iff.mpr ⟨_, hc, by simp⟩
    obtain ⟨c, hc⟩ := Option.isSome_iff_exists.mp hlookup
    obtain ⟨-, stored, doc, script, hstored, hread, hscript⟩ :=
      h.publications _ (Log.mem_publications_of_lookup hc)
    simp only at hstored hscript
    simp [h.script, Log.published?, hc, hstored, hread, hscript, Except.toOption]

/-- Nothing is published of a name that is not registered. -/
theorem published?_eq_none (h : FollowsScripts text L r name) (hid : L.id? name = none) :
    r.published? name revision = none := by
  rw [Option.eq_none_iff_forall_ne_some]
  intro p hp
  obtain ⟨-, stored, -, -, -, hstored, -⟩ := h.exists_of_published? hp
  simp [Log.stored?, hid] at hstored

end FollowsScripts

/-- Every run that begins with the empty registry leads to the scripts of its log, if ids, names and
numbers are read back. -/
theorem followsScripts_run (hmedium : medium = .file ∨ .reopen ∉ ops)
    (hk : Log.KeepsHeads text (empty.log text medium ops)) (name : String) :
    FollowsScripts text (empty.log text medium ops) (empty.run text medium ops).2 name := by
  have hstep : ∀ {L : Log} {r : Registry} {op : Operation} {r' : Registry},
      ((∀ of, Follows text L r of) ∧ (L.KeepsHeads text → FollowsScripts text L r name)) →
      Leads text r op r' → (∀ of, Follows text (op :: L) r' of) ∧
        (Log.KeepsHeads text (op :: L) → FollowsScripts text (op :: L) r' name) := by
    intro L r op r' ⟨hf, h⟩ hleads
    refine ⟨fun of => (hf of).cons hleads, fun hk => ?_⟩
    have hkeeps : L.KeepsHeads text := Log.KeepsHeads.of_append [op] hk
    exact (h hkeeps).cons hf hkeeps hleads
  exact (log_of_leads (P := fun L r => (∀ of, Follows text L r of) ∧
    (L.KeepsHeads text → FollowsScripts text L r name)) hmedium hstep
    ⟨follows_empty, fun _ => followsScripts_empty name⟩).2 hk

end Registry

end DocTables
