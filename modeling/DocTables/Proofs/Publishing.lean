import DocTables.Proofs.PublishedScripts
import DocTables.Proofs.Submissions

/-!
# Publications

After any run of operations, a publication of a name compiles the document that was added last, with
the id of the name and the number of the last revision, as it is read back, and gives its script and
this number; it fails if there is no such document, or it has more levels than are read, or it does
not compile. The script of a revision is there exactly if the revision has been published, and it is
that of the last publication of this revision. Nothing else changes it (`Registry.publishes_run`).

As it is read back, a document has an item of a known kind wherever it had an item of an unknown kind
that is called as the known one (`Document.readBack`). A document that has been read has no such
items, so it is read back as it is; but one that is put together otherwise may have them, and is then
published as another document than it is (`Registry.publish_foreign_integer`).
-/

namespace DocTables

namespace Document

/-- The document as it is read back from its text. -/
def readBack (doc : Document) : Document := { doc with items := Item.readBackList doc.items }

/-- A document is read back as it is if none of its items of unknown kinds has the name of a known
kind for its kind. -/
theorem readBack_eq_iff {doc : Document} : doc.readBack = doc ↔ Item.Unambiguous doc.items := by
  rw [← Item.readBackList_eq_iff]
  cases doc
  simp [readBack]

/-- A document that was read from a text is read back as it is, with whatever id and number. -/
theorem readBack_of_submitted {s : String} {doc : Document}
    (h : ofJson s = .ok doc ∨ ofYaml s = .ok doc) (id : String) (revision : Int32) :
    readBack { doc with id, revision } = { doc with id, revision } ∧
    (toData { doc with id, revision }).depth ≤ Yaml.maxDepth := by
  obtain ⟨hunambiguous, hdepth⟩ := settled_of_submitted h
  rw [depth_toData] at hdepth ⊢
  exact ⟨readBack_eq_iff.mpr hunambiguous, hdepth⟩

end Document

/-- What is read of a document in YAML, if its data are read back. -/
theorem reread_yaml_eq_ok_iff {doc doc' : Document} (h : Yaml.ReadsBack doc.toData) :
    DefinitionText.yaml.reread doc = .ok doc' ↔
      doc.toData.depth ≤ Yaml.maxDepth ∧ doc.readBack = doc' := by
  simp only [DefinitionText.reread, DefinitionText.yaml, Document.ofYaml_toYaml h]
  split_ifs with hdepth <;> simp [hdepth, Document.readBack]

namespace Registry

variable {text : DefinitionText} {medium : Medium} {ops : List Operation} {L : Log} {r : Registry}
  {name : String}

/-- The data of the revisions are read back from YAML. -/
def Log.ReadsRevisions (L : Log) : Prop :=
  ∀ name revision doc, 0 < revision → L.stored? name revision = some doc → Yaml.ReadsBack doc.toData

theorem Log.ReadsRevisions.keepsHeads (h : L.ReadsRevisions) : L.KeepsHeads .yaml :=
  fun name revision doc hpos hdoc => keepsHead_yaml (h name revision doc hpos hdoc)

/-- What publications do to a registry, as its log tells. -/
structure Publishes (medium : Medium) (L : Log) (r : Registry) (name : String) : Prop where
  /-- A publication gives the script of the document that was added last, with the id of the name
  and the number of the last revision, as it is read back. -/
  publish (c : Compiler) (p : Published) : (∃ r', r.publish .yaml name c = .ok (p, r')) ↔
    ∃ id added remark doc script, L.id? name = some id ∧
      (L.added name).getLast? = some (added, remark) ∧
      doc = { added with id := id, revision := .ofNat (L.added name).length } ∧
      doc.toData.depth ≤ Yaml.maxDepth ∧ c.compile doc.readBack = .ok script ∧
      p = { name, revision := doc.revision, script }
  /-- There is a script of the revisions that have been published. -/
  isSome_published? (revision : Int32) :
    (r.published? name revision).isSome ↔ ∃ c, (revision, c) ∈ L.publications name
  /-- A script is that of its revision, written by the compiler of the last publication. -/
  published? (revision : Int32) (p : Published) : r.published? name revision = some p →
    ∃ c id added remark doc, (L.publications name).lookup revision = some c ∧
      L.id? name = some id ∧ (L.added name)[revision.toInt.toNat - 1]? = some (added, remark) ∧
      doc = { added with id, revision } ∧ c.compile doc.readBack = .ok p.script ∧
      p.name = name ∧ p.revision = revision
  /-- A script changes only where its revision, being the last one, is published. -/
  step (op : Operation) (revision : Int32) : (op = .reopen → medium = .file) →
    (r.step .yaml medium op).2.published? name revision ≠ r.published? name revision →
    ∃ c, op = .publish name c ∧ r.latest? name = some revision ∧
      (r.step .yaml medium op).1.isOk

namespace Follows

/-- A publication compiles what is read of the document that was added last. -/
theorem exists_publish_iff (h : Follows text L r name) (hk : L.KeepsHeads text) {c : Compiler}
    {p : Published} : (∃ r', r.publish text name c = .ok (p, r')) ↔
      ∃ id s doc script, L.id? name = some id ∧ (L.added name).getLast? = some s ∧
        text.reread (stamp id (.ofNat (L.added name).length) s.1) = .ok doc ∧
        c.compile doc = .ok script ∧
        p = { name, revision := .ofNat (L.added name).length, script } := by
  simp only [publish_eq_ok_iff]
  constructor
  · rintro ⟨_, doc, script, hdoc, hscript, rfl, -⟩
    obtain ⟨hname, -, hlatest, -⟩ := h.of_document hk hdoc
    rw [h.document_eq, mapM_eq_ok_some_iff] at hdoc
    obtain ⟨stored, hstored, hread⟩ := hdoc
    obtain ⟨id, s, hid, hlast, rfl⟩ := h.last_eq_some_iff.mp hstored
    refine ⟨id, s, doc, script, hid, hlast, hread, hscript, ?_⟩
    rw [hname, ← Log.eq_of_latest? hlatest]
  · rintro ⟨id, s, doc, script, hid, hlast, hread, hscript, rfl⟩
    have hdoc : r.document text name = .ok (some doc) := by
      rw [h.document_eq, mapM_eq_ok_some_iff]
      exact ⟨_, h.last_eq_some_iff.mpr ⟨id, s, hid, hlast, rfl⟩, hread⟩
    obtain ⟨hname, -, hlatest, -⟩ := h.of_document hk hdoc
    refine ⟨_, doc, script, hdoc, hscript, ?_, rfl⟩
    rw [hname, Log.eq_of_latest? hlatest]

/-- A script changes only where its revision, being the last one, is published. -/
theorem exists_of_published?_step_ne (h : ∀ name, Follows text L r name) (hk : L.KeepsHeads text)
    {op : Operation} (hmedium : op = .reopen → medium = .file) {revision : Int32}
    (hne : (r.step text medium op).2.published? name revision ≠ r.published? name revision) :
    ∃ c, op = .publish name c ∧ r.latest? name = some revision ∧
      (r.step text medium op).1.isOk := by
  cases hok : r.apply text medium op with
  | error e => simp [step, hok] at hne
  | ok result =>
    obtain ⟨a, r'⟩ := result
    simp only [step, hok] at hne ⊢
    cases leads_of_apply hmedium hok with
    | publish hpublish =>
      obtain ⟨doc, script, hdoc, -, rfl, rfl⟩ := publish_eq_ok_iff.mp hpublish
      obtain ⟨rfl, -, hlatest, -⟩ := (h _).of_document hk hdoc
      rw [published?_replace] at hne
      split_ifs at hne with heq
      · obtain ⟨rfl, rfl⟩ := heq
        exact ⟨_, rfl, by rw [(h _).latest?_eq, hlatest], rfl⟩
      · exact (hne rfl).elim
    | addInfo hinfo =>
      obtain ⟨-, -, rfl⟩ := addInfo_eq_ok_iff.mp hinfo
      exact (hne rfl).elim
    | updateInfo hinfo =>
      obtain ⟨_, _, _, rfl⟩ := updateInfo_eq_ok_iff.mp hinfo
      exact (hne rfl).elim
    | addSchema hnumber =>
      obtain ⟨_, _, _, rfl⟩ := addSchema_eq_ok_iff.mp hnumber
      exact (hne rfl).elim
    | saveDraft hdraft =>
      obtain ⟨_, _, rfl⟩ := saveDraft_eq_ok_iff.mp hdraft
      exact (hne rfl).elim
    | reopen => exact (hne rfl).elim

end Follows

/-- The document that was added last is the last revision, so its data are read back. -/
theorem Follows.readsBack_of_getLast? (h : Follows text L r name) (hk : L.ReadsRevisions)
    {id : String} {s : Document × String} (hid : L.id? name = some id)
    (hlast : (L.added name).getLast? = some s) :
    Yaml.ReadsBack (stamp id (.ofNat (L.added name).length) s.1).toData := by
  have hstored := h.last_eq_some_iff.mpr ⟨id, s, hid, hlast, rfl⟩
  obtain ⟨number, hnumber, hstored⟩ := Option.bind_eq_some_iff.mp hstored
  exact hk name number _ (h.toInt_of_latest? hnumber).1 hstored

theorem FollowsScripts.publishes (h : FollowsScripts .yaml L r name)
    (hf : ∀ name, Follows .yaml L r name) (hk : L.ReadsRevisions) : Publishes medium L r name where
  publish c p := by
    rw [(hf name).exists_publish_iff hk.keepsHeads]
    constructor
    · rintro ⟨id, ⟨added, remark⟩, doc, script, hid, hlast, hread, hscript, rfl⟩
      have hreads := (hf name).readsBack_of_getLast? hk hid hlast
      obtain ⟨hdepth, rfl⟩ := (reread_yaml_eq_ok_iff hreads).mp hread
      exact ⟨id, added, remark, _, script, hid, hlast, rfl, hdepth, hscript, rfl⟩
    · rintro ⟨id, added, remark, _, script, hid, hlast, rfl, hdepth, hscript, rfl⟩
      have hreads := (hf name).readsBack_of_getLast? hk hid hlast
      have hread := (reread_yaml_eq_ok_iff hreads).mpr ⟨hdepth, rfl⟩
      exact ⟨id, (added, remark), _, script, hid, hlast, hread, hscript, rfl⟩
  isSome_published? _ := h.isSome_published?_iff
  published? revision p hp := by
    obtain ⟨c, stored, doc, hc, hpos, hstored, hread, hscript, hname⟩ := h.exists_of_published? hp
    obtain ⟨-, rfl⟩ := (reread_yaml_eq_ok_iff (hk name revision stored hpos hstored)).mp hread
    obtain ⟨id, ⟨added, remark⟩, hid, hadded, rfl⟩ := Log.exists_of_stored? hpos hstored
    exact ⟨c, id, added, remark, _, hc, hid, hadded, rfl, hscript, hname⟩
  step _ _ hmedium hne := Follows.exists_of_published?_step_ne hf hk.keepsHeads hmedium hne

/-- After any run a publication gives the script of the document that was added last, as it is read
back, and a script is that of the last publication of its revision. A document is read back as it is
if no item of an unknown kind has the name of a known one for its kind; a document that has been read
from a text is, and it never has more levels than are read. -/
theorem publishes_run (medium : Medium) (ops : List Operation)
    (hmedium : medium = .file ∨ .reopen ∉ ops)
    (hk : (empty.log .yaml medium ops).ReadsRevisions) (name : String) :
    Publishes medium (empty.log .yaml medium ops) (empty.run .yaml medium ops).2 name ∧
    (∀ doc : Document, doc.readBack = doc ↔ Item.Unambiguous doc.items) ∧
    ∀ (s : String) (added doc : Document) (id : String) (revision : Int32),
      (Document.ofJson s = .ok added ∨ Document.ofYaml s = .ok added) →
      doc = { added with id, revision } →
      doc.readBack = doc ∧ doc.toData.depth ≤ Yaml.maxDepth := by
  refine ⟨?_, fun _ => Document.readBack_eq_iff, ?_⟩
  · exact (followsScripts_run hmedium hk.keepsHeads name).publishes (follows_run .yaml hmedium) hk
  · rintro s added _ id revision hs rfl
    exact Document.readBack_of_submitted hs id revision

/-- A document with an item of an unknown kind that is called as a known one is added and published,
and a draft is saved. A document that has been read from a text has no such item. -/
theorem publishes_run_one_publication :
    let s := "\x7b\"name\":\"n\",\"items\":[\x7b\"type\":\"integer\",\"name\":\"x\"\x7d]\x7d"
    let ops := [.addInfo "i" "n" "",
      .addSchema { name := "n", items := [.foreign "integer" "x"] } "", .publish "n" {},
      .saveDraft { name := "n" } ""]
    let L := empty.log .yaml .file ops
    let r := (empty.run .yaml .file ops).2
    L.ReadsRevisions ∧ Publishes .file L r "n" ∧ (r.published? "n" 1).isSome ∧
    ∃ added, Document.ofJson s = .ok added ∧ added.readBack = added := by
  intro s ops L r
  have hok : ∀ answer ∈ (empty.run .yaml .file ops).1, answer.isOk := by decide +kernel
  have hk : L.ReadsRevisions := by
    refine Log.forall_revision fun name id hid i s hs => ?_
    have hL : L = ops.reverse := log_eq_reverse hok
    rw [hL] at hid hs
    obtain ⟨rfl, rfl⟩ : "n" = name ∧ id = "i" := by simpa [ops, Log.id?, eq_comm] using hid
    obtain ⟨rfl, rfl⟩ : i = 0 ∧ s = ({ name := "n", items := [.foreign "integer" "x"] }, "") := by
      simpa [ops, Log.added, List.getElem?_singleton, eq_comm] using hs
    decide +kernel
  obtain ⟨hpublishes, -, hreads⟩ := publishes_run .file ops (Or.inl rfl) hk "n"
  let added : Document := { name := "n", items := [.scalar .integer "x" {}] }
  have hs : Document.ofJson s = .ok added := by decide +kernel
  exact ⟨hk, hpublishes, by decide +kernel, added, hs, (hreads s added added "" 0 (Or.inl hs) rfl).1⟩

/-- The document that is added has an item of an unknown kind that is called as a known one. All its
data are read back, and it is published, but it does not compile. -/
theorem publish_foreign_integer :
    let added : Document := { name := "n", items := [.foreign "integer" "x"] }
    let doc : Document := { added with id := "i", revision := 1 }
    let ops := [.addInfo "i" "n" "", .addSchema added ""]
    let L := empty.log .yaml .file ops
    let r := (empty.run .yaml .file ops).2
    L.id? "n" = some "i" ∧ L.added "n" = [(added, "")] ∧ r.latest? "n" = some 1 ∧
    Yaml.ReadsBack doc.toData ∧ doc.toData.depth ≤ Yaml.maxDepth ∧
    (∃ p r', r.publish .yaml "n" {} = .ok (p, r')) ∧
    ({} : Compiler).compile doc = .error (.unrecognizedKind "" "x" "integer") := by
  intro added doc ops L r
  obtain ⟨hok, hpublish⟩ : (∀ answer ∈ (empty.run .yaml .file ops).1, answer.isOk) ∧
      (r.publish .yaml "n" {}).isOk := by
    decide +kernel
  have hL : L = ops.reverse := log_eq_reverse hok
  refine ⟨by rw [hL]; rfl, by rw [hL]; rfl, by decide +kernel, by decide +kernel, by decide +kernel,
    ?_, by decide +kernel⟩
  cases hp : r.publish .yaml "n" {} with
  | error e => simp [hp, Except.isOk, Except.toBool] at hpublish
  | ok result => exact ⟨result.1, result.2, rfl⟩

end Registry

end DocTables
