import DocTables.Proofs.RegistryTables
import Mathlib.Algebra.Group.Nat.Defs

/-!
# What a log says

A log holds operations that have succeeded, the last one first. From it alone follows what a registry
has stored : the id that a name got first, the documents that were added one after the other, the
draft that was saved last, and for every publication the number of the last revision at that time.

A log does not say what is read of the documents that are stored. That is for the text of the
definitions to say (`DefinitionText.reread`); it matters where a document is asked for or published.

A revision that is stored stays as it is when more operations succeed (`Registry.Log.stored?_append`),
and so does the script of a revision until the next publication (`Registry.Log.published?_append`).
-/

namespace DocTables

/-- What is read of a document once it has been written. -/
def DefinitionText.reread (text : DefinitionText) (doc : Document) : Except Error Document :=
  text.read (text.write doc)

namespace Registry

/-- Operations that have succeeded, the last one first. -/
abbrev Log := List Operation

namespace Log

/-- The id that a name got when it was registered. -/
def id? (name : String) : Log → Option String
  | [] => none
  | .addInfo id new _ :: L => (id? name L).or (if new = name then some id else none)
  | _ :: L => id? name L

/-- The documents that were added, the first one first, with the remarks. -/
def added (name : String) : Log → List (Document × String)
  | [] => []
  | .addSchema doc remark :: L =>
    if doc.name = name then added name L ++ [(doc, remark)] else added name L
  | _ :: L => added name L

/-- The draft that was saved last, with the remark. -/
def draft? (name : String) : Log → Option (Document × String)
  | [] => none
  | .saveDraft doc remark :: L => if doc.name = name then some (doc, remark) else draft? name L
  | _ :: L => draft? name L

/-- The publications of a name, the last one first : the number of the last revision at that time,
and the compiler. -/
def publications (name : String) : Log → List (Int32 × Compiler)
  | [] => []
  | .publish of c :: L =>
    if of = name then (.ofNat (added name L).length, c) :: publications name L
    else publications name L
  | _ :: L => publications name L

/-- The number of the last revision. -/
def latest? (name : String) (L : Log) : Option Int32 :=
  if (L.added name).isEmpty then none else some (.ofNat (L.added name).length)

/-- What was submitted to be stored under a name and a number. -/
def submitted? (name : String) (revision : Int32) (L : Log) : Option (Document × String) :=
  if revision = draftRevision then L.draft? name
  else if 0 < revision then (L.added name)[revision.toInt.toNat - 1]?
  else none

/-- The document that is stored under a name and a number. -/
def stored? (name : String) (revision : Int32) (L : Log) : Option Document := do
  let id ← L.id? name
  let (doc, _) ← L.submitted? name revision
  return stamp id revision doc

/-- The document of the last revision. -/
def last? (name : String) (L : Log) : Option Document := do
  let revision ← L.latest? name
  L.stored? name revision

/-- The script of a revision : that of the last publication of this revision, made of what is read of
the document. -/
def published? (text : DefinitionText) (name : String) (revision : Int32) (L : Log) :
    Option Published := do
  let c ← (L.publications name).lookup revision
  let doc ← L.stored? name revision
  let doc ← (text.reread doc).toOption
  let script ← (c.compile doc).toOption
  return { name, revision, script }

/-- The definition that is stored under a name and a number. -/
def definition? (text : DefinitionText) (name : String) (revision : Int32) (L : Log) :
    Option Definition := do
  let id ← L.id? name
  let (doc, remark) ← L.submitted? name revision
  return definitionOf text id revision doc remark

/-- The definitions of all revisions, the first one first. -/
def revisions (text : DefinitionText) (name : String) (L : Log) : List Definition :=
  match L.id? name with
  | some id => (L.added name).mapIdx fun i (doc, remark) =>
    definitionOf text id (.ofNat (i + 1)) doc remark
  | none => []

variable {text : DefinitionText} {name : String} {L L' : Log}

/-- What is read of a definition is what is read of the document that is stored. -/
theorem readDefinition_definition? {revision : Int32} :
    readDefinition text (L.definition? text name revision) =
      (L.stored? name revision).mapM text.reread := by
  unfold definition? stored?
  cases L.id? name with
  | none => rfl
  | some id => cases L.submitted? name revision <;> rfl

/-- A definition is the text of a document that is stored. -/
theorem exists_stored?_of_definition? {revision : Int32} {d : Definition}
    (h : L.definition? text name revision = some d) :
    ∃ doc, L.stored? name revision = some doc ∧ d.text = text.write doc := by
  obtain ⟨id, hid, h⟩ := Option.bind_eq_some_iff.mp h
  obtain ⟨s, hs, h⟩ := Option.bind_eq_some_iff.mp h
  obtain rfl := Option.some.inj h
  exact ⟨stamp id revision s.1, by simp [stored?, hid, hs], rfl⟩

theorem added_append : (L' ++ L).added name = L.added name ++ L'.added name := by
  induction L' with
  | nil => simp [added]
  | cons op L' ih =>
    cases op <;> simp only [List.cons_append, added, ih]
    split_ifs <;> simp

theorem id?_append_of_eq_some {id : String} (h : L.id? name = some id) :
    (L' ++ L).id? name = some id := by
  induction L' with
  | nil => exact h
  | cons op L' ih => cases op <;> simp [id?, ih]

/-- What was added under a name was added by an operation, and has the name. -/
theorem of_mem_added {s : Document × String} (h : s ∈ L.added name) :
    .addSchema s.1 s.2 ∈ L ∧ s.1.name = name := by
  induction L with
  | nil => simp [added] at h
  | cons op L ih =>
    have hcons : s ∈ added name L → .addSchema s.1 s.2 ∈ op :: L ∧ s.1.name = name :=
      fun h => ⟨List.mem_cons_of_mem op (ih h).1, (ih h).2⟩
    cases op <;> simp only [added] at h <;> try exact hcons h
    split_ifs at h with hname
    · rcases List.mem_append.mp h with h | h
      · exact hcons h
      · rw [List.mem_singleton.mp h]
        exact ⟨List.mem_cons_self, hname⟩
    · exact hcons h

/-- The draft of a name was saved by an operation, and has the name. -/
theorem of_draft?_eq_some {s : Document × String} (h : L.draft? name = some s) :
    .saveDraft s.1 s.2 ∈ L ∧ s.1.name = name := by
  induction L with
  | nil => cases h
  | cons op L ih =>
    have hcons : draft? name L = some s → .saveDraft s.1 s.2 ∈ op :: L ∧ s.1.name = name :=
      fun h => ⟨List.mem_cons_of_mem op (ih h).1, (ih h).2⟩
    cases op <;> simp only [draft?] at h <;> try exact hcons h
    split_ifs at h with hname
    · rw [← Option.some.inj h]
      exact ⟨List.mem_cons_self, hname⟩
    · exact hcons h

/-- A stored document has the name and the number under which it is stored, and the id of the name. -/
theorem eq_of_stored? {revision : Int32} {doc : Document} (h : L.stored? name revision = some doc) :
    doc.name = name ∧ doc.revision = revision ∧ L.id? name = some doc.id := by
  obtain ⟨id, hid, h⟩ := Option.bind_eq_some_iff.mp h
  obtain ⟨s, hs, h⟩ := Option.bind_eq_some_iff.mp h
  obtain rfl := Option.some.inj h
  refine ⟨?_, rfl, hid⟩
  unfold submitted? at hs
  split_ifs at hs
  · exact (of_draft?_eq_some hs).2
  · exact (of_mem_added (List.mem_of_getElem? hs)).2

/-! ### Numbers -/

theorem eq_of_latest? {revision : Int32} (h : L.latest? name = some revision) :
    revision = .ofNat (L.added name).length := by
  unfold latest? at h
  split_ifs at h
  exact (Option.some.inj h).symm

/-- The numbers of revisions are no draft's. -/
theorem ofNat_succ {i : Nat} (hi : i + 1 < 2 ^ 31) : 0 < Int32.ofNat (i + 1) ∧
    Int32.ofNat (i + 1) ≠ draftRevision ∧ (Int32.ofNat (i + 1)).toInt = i + 1 := by
  have htoInt : (Int32.ofNat (i + 1)).toInt = (i + 1 : Nat) := Int32.toInt_ofNat_of_lt hi
  refine ⟨?_, ?_, by simpa using htoInt⟩
  · rw [Int32.lt_iff_toInt_lt, htoInt]
    exact Int.natCast_pos.mpr i.succ_pos
  · intro heq
    have hdraft : draftRevision.toInt = -1 := rfl
    rw [heq, hdraft] at htoInt
    omega

theorem ofNat_succ_inj {i j : Nat} (hi : i + 1 < 2 ^ 31) (hj : j + 1 < 2 ^ 31) :
    Int32.ofNat (i + 1) = Int32.ofNat (j + 1) ↔ i = j := by
  rw [← Int32.toInt_inj, (ofNat_succ hi).2.2, (ofNat_succ hj).2.2]
  omega

/-- A number above zero is that of a revision. -/
theorem exists_ofNat_succ {revision : Int32} (h : 0 < revision) :
    ∃ i, i + 1 < 2 ^ 31 ∧ revision = Int32.ofNat (i + 1) := by
  have hpos : 0 < revision.toInt := Int32.lt_iff_toInt_lt.mp h
  have hlt := revision.toInt_lt
  have hi : revision.toInt.toNat - 1 + 1 < 2 ^ 31 := by omega
  refine ⟨revision.toInt.toNat - 1, hi, ?_⟩
  rw [← Int32.toInt_inj, (ofNat_succ hi).2.2]
  omega

theorem submitted?_ofNat_succ {i : Nat} (hi : i + 1 < 2 ^ 31) :
    L.submitted? name (.ofNat (i + 1)) = (L.added name)[i]? := by
  obtain ⟨hpos, hdraft, htoInt⟩ := ofNat_succ hi
  rw [submitted?, if_neg hdraft, if_pos hpos, htoInt]
  congr 1

theorem getElem?_revisions (i : Nat) : (L.revisions text name)[i]? =
    (L.id? name).bind fun id => (L.added name)[i]?.map fun (doc, remark) =>
      definitionOf text id (.ofNat (i + 1)) doc remark := by
  cases hid : L.id? name <;> simp [revisions, hid]

theorem definition?_ofNat_succ {i : Nat} (hi : i + 1 < 2 ^ 31) :
    L.definition? text name (.ofNat (i + 1)) = (L.revisions text name)[i]? := by
  rw [definition?, submitted?_ofNat_succ hi, getElem?_revisions]
  cases L.id? name <;> cases (L.added name)[i]? <;> rfl

theorem length_revisions_le : (L.revisions text name).length ≤ (L.added name).length := by
  unfold revisions
  split <;> simp

/-- Every revision has the number of its place. -/
theorem revision_getElem_revisions {i : Nat} {d : Definition}
    (h : (L.revisions text name)[i]? = some d) : d.revision = .ofNat (i + 1) := by
  rw [getElem?_revisions] at h
  obtain ⟨id, -, h⟩ := Option.bind_eq_some_iff.mp h
  obtain ⟨s, -, rfl⟩ := Option.map_eq_some_iff.mp h
  rfl

/-- The revision with a number stands in the place of that number. -/
theorem find?_revisions (hlength : (L.added name).length < 2 ^ 31) {i : Nat} (hi : i + 1 < 2 ^ 31) :
    (L.revisions text name).find? (·.revision = .ofNat (i + 1)) = (L.revisions text name)[i]? := by
  have hle : (L.revisions text name).length ≤ (L.added name).length := length_revisions_le
  have hnumber : ∀ j d, (L.revisions text name)[j]? = some d →
      (d.revision = .ofNat (i + 1) ↔ j = i) := by
    intro j d hd
    obtain ⟨hj, -⟩ := List.getElem?_eq_some_iff.mp hd
    rw [revision_getElem_revisions hd, ofNat_succ_inj (by omega) hi]
  cases hi' : (L.revisions text name)[i]? with
  | none =>
    rw [List.find?_eq_none]
    intro d hd hrevision
    obtain ⟨j, hj⟩ := List.mem_iff_getElem?.mp hd
    obtain rfl := (hnumber j d hj).mp (of_decide_eq_true hrevision)
    simp [hi'] at hj
  | some d =>
    obtain ⟨hlt, hget⟩ := List.getElem?_eq_some_iff.mp hi'
    rw [List.find?_eq_some_iff_getElem]
    refine ⟨decide_eq_true ((hnumber i d hi').mpr rfl), i, hlt, hget, fun j hj => ?_⟩
    have hne : (L.revisions text name)[j].revision ≠ .ofNat (i + 1) := fun heq =>
      Nat.ne_of_lt hj ((hnumber j _ (List.getElem?_eq_getElem _)).mp heq)
    simpa using hne

/-- A revision that is stored has an id and a place. -/
theorem exists_of_stored? {revision : Int32} {doc : Document} (hpos : 0 < revision)
    (h : L.stored? name revision = some doc) : ∃ id s, L.id? name = some id ∧
      (L.added name)[revision.toInt.toNat - 1]? = some s ∧ doc = stamp id revision s.1 := by
  have hdraft : revision ≠ draftRevision := by
    rintro rfl
    exact absurd hpos (by decide)
  obtain ⟨id, hid, h⟩ := Option.bind_eq_some_iff.mp h
  obtain ⟨s, hs, h⟩ := Option.bind_eq_some_iff.mp h
  rw [submitted?, if_neg hdraft, if_pos hpos] at hs
  exact ⟨id, s, hid, hs, (Option.some.inj h).symm⟩

/-- A revision that is stored stays as it is. -/
theorem stored?_append (L' : Log) {revision : Int32} {doc : Document} (hpos : 0 < revision)
    (h : L.stored? name revision = some doc) : (L' ++ L).stored? name revision = some doc := by
  obtain ⟨id, s, hid, hs, rfl⟩ := exists_of_stored? hpos h
  obtain ⟨i, hi, rfl⟩ := exists_ofNat_succ hpos
  have hi' : (Int32.ofNat (i + 1)).toInt.toNat - 1 = i := by
    rw [(ofNat_succ hi).2.2]
    rfl
  rw [hi'] at hs
  obtain ⟨hlt, -⟩ := List.getElem?_eq_some_iff.mp hs
  have hs' : ((L' ++ L).added name)[i]? = some s := by
    rw [added_append, List.getElem?_append_left hlt, hs]
  rw [stored?, id?_append_of_eq_some hid, submitted?_ofNat_succ hi, hs']
  rfl

theorem mem_publications_of_lookup {revision : Int32} {c : Compiler}
    (h : (L.publications name).lookup revision = some c) : (revision, c) ∈ L.publications name := by
  obtain ⟨before, after, heq, -⟩ := List.lookup_eq_some_iff.mp h
  simp [heq]

/-- The script of a revision that was published does not depend on later definitions. -/
theorem published?_append (L' : Log) (hstored : ∀ p ∈ L.publications name, 0 < p.1 ∧
      ∃ doc, L.stored? name p.1 = some doc)
    (heq : (L' ++ L).publications name = L.publications name) (revision : Int32) :
    (L' ++ L).published? text name revision = L.published? text name revision := by
  rw [published?, published?, heq]
  refine Option.bind_congr fun c hc => ?_
  obtain ⟨hpos, doc, hdoc⟩ := hstored _ (mem_publications_of_lookup hc)
  rw [hdoc, stored?_append L' hpos hdoc]

/-- The revisions are the documents that were added, with their ids and numbers. -/
theorem forall_revision {P : Document → Prop} (h : ∀ name id, L.id? name = some id →
    ∀ i s, (L.added name)[i]? = some s → P (stamp id (.ofNat (i + 1)) s.1)) :
    ∀ name revision doc, 0 < revision → L.stored? name revision = some doc → P doc := by
  intro name revision doc hpos hdoc
  obtain ⟨id, s, hid, hs, rfl⟩ := exists_of_stored? hpos hdoc
  obtain ⟨i, hi, rfl⟩ := exists_ofNat_succ hpos
  have hi' : (Int32.ofNat (i + 1)).toInt.toNat - 1 = i := by
    rw [(ofNat_succ hi).2.2]
    rfl
  rw [hi'] at hs
  exact h name id hid i s hs

/-- The documents that are stored are those that were submitted, with their ids and numbers. -/
theorem forall_stored {P : Document → Prop} (h : ∀ name id, L.id? name = some id →
    (∀ i s, (L.added name)[i]? = some s → P (stamp id (.ofNat (i + 1)) s.1)) ∧
    ∀ s, L.draft? name = some s → P (stamp id draftRevision s.1)) :
    ∀ name revision doc, L.stored? name revision = some doc → P doc := by
  intro name revision doc hdoc
  by_cases hpos : 0 < revision
  · exact forall_revision (fun name id hid => (h name id hid).1) name revision doc hpos hdoc
  · obtain ⟨id, hid, hdoc⟩ := Option.bind_eq_some_iff.mp hdoc
    obtain ⟨s, hs, hdoc⟩ := Option.bind_eq_some_iff.mp hdoc
    obtain rfl := Option.some.inj hdoc
    rw [submitted?, if_neg hpos] at hs
    split_ifs at hs with hdraft
    · rw [hdraft]
      exact (h name id hid).2 s hs

/-- Two logs say the same about what is stored under a name. -/
structure Agree (name : String) (L L' : Log) : Prop where
  id : L.id? name = L'.id? name
  added : L.added name = L'.added name
  draft : L.draft? name = L'.draft? name

namespace Agree

variable (h : Agree name L L')
include h

theorem definition? (revision : Int32) :
    L.definition? text name revision = L'.definition? text name revision := by
  rw [Log.definition?, Log.definition?, submitted?, submitted?, h.id, h.added, h.draft]

theorem revisions : L.revisions text name = L'.revisions text name := by
  rw [Log.revisions, Log.revisions, h.id, h.added]

end Agree

end Log

end Registry

end DocTables
