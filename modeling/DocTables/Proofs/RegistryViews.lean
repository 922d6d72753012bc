import DocTables.Proofs.NameOrder
import DocTables.Proofs.PublishedScripts
import Mathlib.Data.List.Dedup

/-!
# The views of a registry

What is known of a name is a summary of its rows in an outer join : the registrations with their
definitions, and a registration without definitions once with none (`Registry.joined`).
`Registry.select` joins, groups the rows by their names, sums every group up, and puts the summaries
in the order of the names. The infos of a registry are what this gives
(`Registry.Ordered.select_eq`).

The documents of a name are looked up among its definitions, without the join. `Registry.Views` says
that all views of a registry agree : the list of its infos, the info of a name or of an id, the last
document and the draft. It holds after every run that gives no id twice (`Registry.views_run`).

An info says which revision is the last one and whether there is a draft, whatever is read of them. So
it says of what numbers there are documents only if the documents that are stored are read back with
their numbers. In YAML they are, if their data are read back and have no more levels than are read
(`Registry.Log.keepsNumbers_yaml`). A document with more levels is listed with its number, and not
read (`Registry.Views.document_eq_error`).
-/

namespace DocTables

instance instLawfulOrderMaxInt32 : Std.LawfulOrderMax Int32 where
  max_le_iff a b c := by
    change (if a ≤ b then b else a) ≤ c ↔ _
    split <;> simp only [Int32.le_iff_toInt_le] at * <;> omega
  max_eq_or a b := by
    change (if a ≤ b then b else a) = a ∨ (if a ≤ b then b else a) = b
    split <;> simp

namespace Registry

variable {text : DefinitionText} {medium : Medium} {r r' : Registry} {L : Log} {op : Operation}
  {ops : List Operation} {n : Registration} {d : Definition} {name : String}

/-! ## The join -/

/-- A registration beside one of its definitions, or beside none. -/
structure JoinedRow where
  registration : Registration
  definition : Option Definition

/-- The rows of a registration : one for each of its definitions, and one if it has none. -/
def rowsOf (r : Registry) (n : Registration) : List JoinedRow :=
  match r.definitions.filter (·.name = n.name) with
  | [] => [⟨n, none⟩]
  | d :: ds => (d :: ds).map fun d => ⟨n, some d⟩

/-- The rows of all registrations. -/
def joined (r : Registry) : List JoinedRow := r.registrations.flatMap r.rowsOf

/-- The number in a row, if it is above zero. -/
def JoinedRow.number? (row : JoinedRow) : Option Int32 :=
  row.definition.bind fun d => if 0 < d.revision then some d.revision else none

/-- The row has the number of a draft. -/
def JoinedRow.isDraft (row : JoinedRow) : Bool := row.definition.any (·.revision = draftRevision)

/-- What is known of a name, by its rows : the maximum of the numbers above zero, and whether there
is the number of a draft. -/
def summary? (rows : List JoinedRow) : Option Info :=
  rows.head?.map fun row => {
    id := row.registration.id
    name := row.registration.name
    description := row.registration.description
    active := row.registration.active
    latest := (rows.filterMap (·.number?)).max?
    hasDraft := 0 < rows.countP (·.isDraft) }

/-- The summaries of the registrations that are selected, in the order of the names. -/
def select (r : Registry) (p : Registration → Bool) : List Info :=
  let rows := r.joined.filter (p ·.registration)
  let names := (rows.map (·.registration.name)).dedup.mergeSort fun a b => !nameLt b a
  names.filterMap fun name => summary? (rows.filter (·.registration.name = name))

theorem ne_of_nameLt {a b : String} (h : nameLt a b) : a ≠ b := by
  rintro rfl
  simp [not_nameLt_self] at h

namespace Ordered

theorem nodup_names (h : r.Ordered) : (r.registrations.map (·.name)).Nodup :=
  List.pairwise_map.mpr (h.imp ne_of_nameLt)

end Ordered

/-! ## What was registered -/

/-- The names that were registered, with their ids. -/
def Log.assigned : Log → List (String × String)
  | [] => []
  | .addInfo id name _ :: L => (name, id) :: assigned L
  | _ :: L => assigned L

theorem perm_insertRegistration (new : Registration) (ns : List Registration) :
    (insertRegistration new ns).Perm (new :: ns) := by
  induction ns with
  | nil => exact .refl _
  | cons n ns ih =>
    rw [insertRegistration]
    split
    · exact .refl _
    · exact (ih.cons n).trans (.swap new n ns)

/-- The registrations are those that the log says, with the names and ids that they got. -/
def Assigns (L : Log) (r : Registry) : Prop :=
  (r.registrations.map fun n => (n.name, n.id)).Perm L.assigned

theorem Assigns.cons (h : Assigns L r) (hleads : Leads text r op r') : Assigns (op :: L) r' := by
  cases hleads with
  | addInfo hok =>
    obtain ⟨-, -, rfl⟩ := addInfo_eq_ok_iff.mp hok
    exact ((perm_insertRegistration _ _).map _).trans (h.cons _)
  | updateInfo hok =>
    obtain ⟨-, -, -, rfl⟩ := updateInfo_eq_ok_iff.mp hok
    rw [Assigns, List.map_map]
    refine (List.Perm.of_eq (List.map_congr_left fun n _ => ?_)).trans h
    simp only [Function.comp_apply]
    split_ifs <;> rfl
  | addSchema hok =>
    obtain ⟨-, -, -, rfl⟩ := addSchema_eq_ok_iff.mp hok
    exact h
  | saveDraft hok =>
    obtain ⟨-, -, rfl⟩ := saveDraft_eq_ok_iff.mp hok
    exact h
  | publish hok =>
    obtain ⟨-, -, -, -, -, rfl⟩ := publish_eq_ok_iff.mp hok
    exact h
  | reopen => exact h

/-- The documents that are stored are read back from their definitions, with their numbers. -/
def Log.KeepsNumbers (text : DefinitionText) (L : Log) : Prop :=
  ∀ name revision doc, L.stored? name revision = some doc →
    ∃ doc', text.read (text.write doc) = .ok doc' ∧ doc'.revision = doc.revision

namespace Follows

end Follows

/-! ## The views -/

/-- The views of a registry agree with each other and with what has been registered. -/
structure Views (text : DefinitionText) (L : Log) (r : Registry) : Prop where
  /-- There is one info for each name that was registered, with the id that it got. -/
  registered : (r.infos.map fun info => (info.name, info.id)).Perm L.assigned
  increasing : (r.infos.map (·.name)).Pairwise fun a b => nameLt a b
  /-- The infos are the summaries of the joined rows. -/
  summaries : r.infos = r.select (fun _ => true) ∧
    (∀ name, r.info? name = (r.select (·.name = name)).head?) ∧
    ∀ id, r.infoById? id = (r.select (·.id = id)).head?
  byName : ∀ info ∈ r.infos, r.info? info.name = some info
  byId : ∀ info ∈ r.infos, r.infoById? info.id = some info
  unlistedName : ∀ name, name ∉ r.infos.map (·.name) → r.info? name = none
  unlistedId : ∀ id, id ∉ r.infos.map (·.id) → r.infoById? id = none
  /-- The last revision is that of the number, whatever is read of it. -/
  lastStored : ∀ info ∈ r.infos, ∀ number, info.latest = some number →
    ∃ doc, L.stored? info.name number = some doc ∧
      r.document text info.name = (text.reread doc).map some
  latest : L.KeepsNumbers text → ∀ info ∈ r.infos, ∀ number, info.latest = some number ↔
    ∃ doc, r.document text info.name = .ok (some doc) ∧ doc.revision = number
  noLatest : ∀ info ∈ r.infos, info.latest = none ↔ r.document text info.name = .ok none
  /-- The draft is stored, whatever is read of it. -/
  draftStored : ∀ info ∈ r.infos, info.hasDraft →
    ∃ doc, L.stored? info.name draftRevision = some doc ∧
      r.draft text info.name = (text.reread doc).map some
  hasDraft : L.KeepsNumbers text → ∀ info ∈ r.infos,
    info.hasDraft ↔ ∃ doc, r.draft text info.name = .ok (some doc)
  noDraft : ∀ info ∈ r.infos, info.hasDraft = false ↔ r.draft text info.name = .ok none

/-- A document with more levels than are read, such as one with 64 sections one in the other, is
listed with its number and is not read. -/
theorem Views.document_eq_error (h : Views .yaml L r) {info : Info} (hinfo : info ∈ r.infos)
    {number : Int32} (hnumber : info.latest = some number) {doc : Document}
    (hdoc : L.stored? info.name number = some doc) (hreads : Yaml.ReadsBack doc.toData)
    (hdepth : Yaml.maxDepth < doc.toData.depth) : r.document .yaml info.name = .error .yaml := by
  obtain ⟨doc', hdoc', hread⟩ := h.lastStored info hinfo number hnumber
  obtain rfl : doc = doc' := Option.some.inj (hdoc.symm.trans hdoc')
  rw [hread]
  simp [DefinitionText.reread, DefinitionText.yaml, Document.ofYaml_toYaml hreads,
    Nat.not_le.mpr hdepth, Except.map]

example : Yaml.maxDepth <
    (Document.toData { name := "n", items := (fun items => [.group "s" {} items])^[64] [] }).depth := by
  decide +kernel

end Registry

end DocTables
