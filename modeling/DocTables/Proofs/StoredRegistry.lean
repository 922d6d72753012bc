import DocTables.Proofs.JsonDocuments
import DocTables.Registry.Storage

/-!
# A registry outlives its file

Whatever a registry holds, its bytes are read as the same registry (`Registry.ofBytes?_toBytes`) : the
signature is found and left out, what follows is the text of its data, and the tree of that text
gives every field back. So a registry that is closed and opened again is as it was
(`Registry.reload_eq`).
-/

namespace DocTables.Registry

open Json Source.Shows

/-! ## Parts of the tree -/

section

variable {α : Type} {f : α → Data} {read : Json → Option α}

theorem exists_fieldsOf (fields : List (String × Data)) :
    ∃ xs, ShowsFields (fun d x => x = ofData d) fields xs ∧
      fieldsOf (ofData (.map fields)) = some xs := by
  obtain ⟨xs, hxs, hfields⟩ := source_shows.fields [] (x := ofData (.map fields)) rfl
  exact ⟨xs, hxs, congrArg Option.join hfields⟩

theorem listOf_eq (h : ∀ a, read (ofData (f a)) = some a) (as : List α) :
    listOf read (ofData (.list (as.map f))) = some as := by
  have hmapM : ((as.map f).map ofData).mapM read = some as := by
    induction as with
    | nil => rfl
    | cons a as ih =>
      rw [List.map_cons, List.map_cons, List.mapM_cons, h, ih]
      rfl
  rw [listOf, ofData, ofItems_eq_map]
  exact hmapM

end

/-! ## The registry -/

theorem readRegistration?_toData (n : Registration) :
    readRegistration? (ofData n.toData) = some n := by
  obtain ⟨xs, hxs, hfields⟩ := exists_fieldsOf [("id", .text n.id), ("name", .text n.name),
    ("description", .text n.description), ("active", .bool n.active)]
  have hid : source.required xs "id" source.text = some n.id :=
    required_eq hxs (by simp) fun _ => source_shows.text
  have hname : source.required xs "name" source.text = some n.name :=
    required_eq hxs (by simp) fun _ => source_shows.text
  have hdescription : source.required xs "description" source.text = some n.description :=
    required_eq hxs (by simp) fun _ => source_shows.text
  have hactive : source.required xs "active" source.bool = some n.active :=
    required_eq hxs (by simp) fun _ => source_shows.bool
  simp [readRegistration?, Registration.toData, hfields, hid, hname, hdescription, hactive]

theorem readDefinition?_toData (d : Definition) : readDefinition? (ofData d.toData) = some d := by
  obtain ⟨xs, hxs, hfields⟩ := exists_fieldsOf [("name", .text d.name),
    ("revision", .int d.revision.toInt), ("text", .text d.text), ("remark", .text d.remark)]
  have hname : source.required xs "name" source.text = some d.name :=
    required_eq hxs (by simp) fun _ => source_shows.text
  have hrevision : source.required xs "revision" source.int32 = some d.revision :=
    required_eq hxs (by simp) fun _ => source_shows.int32
  have htext : source.required xs "text" source.text = some d.text :=
    required_eq hxs (by simp) fun _ => source_shows.text
  have hremark : source.required xs "remark" source.text = some d.remark :=
    required_eq hxs (by simp) fun _ => source_shows.text
  simp [readDefinition?, Definition.toData, hfields, hname, hrevision, htext, hremark]

theorem readPublished?_toData (p : Published) : readPublished? (ofData p.toData) = some p := by
  obtain ⟨xs, hxs, hfields⟩ := exists_fieldsOf [("name", .text p.name),
    ("revision", .int p.revision.toInt), ("script", .text p.script)]
  have hname : source.required xs "name" source.text = some p.name :=
    required_eq hxs (by simp) fun _ => source_shows.text
  have hrevision : source.required xs "revision" source.int32 = some p.revision :=
    required_eq hxs (by simp) fun _ => source_shows.int32
  have hscript : source.required xs "script" source.text = some p.script :=
    required_eq hxs (by simp) fun _ => source_shows.text
  simp [readPublished?, Published.toData, hfields, hname, hrevision, hscript]

theorem read?_toData (r : Registry) : read? (ofData r.toData) = some r := by
  obtain ⟨xs, hxs, hfields⟩ := exists_fieldsOf [
    ("registrations", .list (r.registrations.map Registration.toData)),
    ("definitions", .list (r.definitions.map Definition.toData)),
    ("scripts", .list (r.scripts.map Published.toData))]
  have hregistrations : source.required xs "registrations" (listOf readRegistration?) =
      some r.registrations := by
    refine required_eq (d := .list (r.registrations.map Registration.toData)) hxs (by simp) ?_
    rintro _ rfl
    exact listOf_eq readRegistration?_toData r.registrations
  have hdefinitions : source.required xs "definitions" (listOf readDefinition?) =
      some r.definitions := by
    refine required_eq (d := .list (r.definitions.map Definition.toData)) hxs (by simp) ?_
    rintro _ rfl
    exact listOf_eq readDefinition?_toData r.definitions
  have hscripts : source.required xs "scripts" (listOf readPublished?) = some r.scripts := by
    refine required_eq (d := .list (r.scripts.map Published.toData)) hxs (by simp) ?_
    rintro _ rfl
    exact listOf_eq readPublished?_toData r.scripts
  simp [read?, toData, hfields, hregistrations, hdefinitions, hscripts]

/-! ## Its bytes -/

theorem isBlank_toBytes (r : Registry) : isBlank r.toBytes = false := by
  have hsize : signature.size = 5 := rfl
  rw [isBlank, toBytes, ByteArray.size_append, decide_eq_false_iff_not]
  omega

/-- A registry is read from its bytes. -/
theorem ofBytes?_toBytes (r : Registry) : ofBytes? r.toBytes = some r := by
  have hsignature : r.toBytes.extract 0 signature.size = signature :=
    ByteArray.extract_append_eq_left rfl
  have htext : r.toBytes.extract signature.size r.toBytes.size = (compact r.toData).toUTF8 :=
    ByteArray.extract_append_eq_right rfl ByteArray.size_append
  have hutf8 : String.fromUTF8? (compact r.toData).toUTF8 = some (compact r.toData) :=
    dif_pos (compact r.toData).isValidUTF8
  rw [ofBytes?, isBlank_toBytes, if_neg Bool.false_ne_true, hsignature, if_pos rfl, htext, hutf8]
  simp [parse?_compact, read?_toData]

/-- A registry that is closed and opened again is as it was. -/
theorem reload_eq (r : Registry) : r.reload = .ok r := by rw [reload, ofBytes?_toBytes]

end DocTables.Registry
