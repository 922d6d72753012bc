import DocTables.Document.Json
import DocTables.Proofs.JsonText
import DocTables.Proofs.Reading

/-!
# Document types in JSON

A document type is written in JSON with the levels of its data, and read with at most
`Json.maxDepth`. Where it is read it has the items that are read back (`Document.ofJson_toJson`). So
it is the same document type exactly if it has no item of an unknown kind with the name of a known
one, and levels enough (`Document.ofJson_toJson_eq_ok_iff`).

A document type that was read from any JSON text is one of these (`Document.ofJson_settled`).
-/

namespace DocTables

/-! ## The answers of a JSON tree -/

namespace Json

theorem ofItems_eq_map (items : List Data) : ofData.ofItems items = items.map ofData := by
  induction items with
  | nil => rfl
  | cons item items ih => rw [ofData.ofItems, ih, List.map_cons]

theorem ofFields_eq_map (fields : List (String × Data)) :
    ofData.ofFields fields = fields.map fun (name, value) => (some name, ofData value) := by
  induction fields with
  | nil => rfl
  | cons field fields ih => rw [ofData.ofFields, ih, List.map_cons]

/-- The tree of a piece of data answers as the data says. -/
theorem source_shows : source.Shows fun d x => x = ofData d where
  text := by
    rintro s _ rfl
    rfl
  bool := by
    rintro b _ rfl
    rfl
  int32 := by
    rintro i _ rfl
    exact Digits.int32?_toInt i
  natBelow := by
    rintro n bound _ rfl hn
    have hn : 0 ≤ (n : Int) ∧ (n : Int) < bound := by omega
    exact if_pos hn
  nullable := by
    rintro i _ rfl
    rfl
  list := by
    rintro items _ rfl
    refine ⟨items.map ofData, ?_, congrArg some (congrArg some (ofItems_eq_map items))⟩
    rw [List.forall₂_map_right_iff]
    exact List.forall₂_same.mpr fun _ _ => rfl
  fields := by
    rintro fields _ _ rfl
    refine ⟨fields.map fun (name, value) => (name, ofData value), .of_forall₂ ?_, ?_⟩
    · rw [List.forall₂_map_right_iff]
      exact List.forall₂_same.mpr fun _ _ => ⟨rfl, rfl⟩
    · have hfields : (ofData.ofFields fields).mapM (fun field => field.1.map (·, field.2)) =
          some (fields.map fun (name, value) => (name, ofData value)) := by
        rw [ofFields_eq_map]
        induction fields with
        | nil => rfl
        | cons field fields ih => simp [ih]
      exact congrArg (some <$> ·) hfields
  reject_bind := fun _ => rfl

/-- An answer of a JSON tree is what it is there. -/
theorem source_yields : source.Yields fun x b => x = some b where
  eq_of_pure := Option.some.inj
  of_bind := Option.bind_eq_some_iff.mp
  not_reject := nofun

end Json

/-! ## Writing and reading -/

namespace Document

theorem ofJson_eq_ok_iff {s : String} {doc : Document} : ofJson s = .ok doc ↔
    ∃ x, Json.parse? s = some x ∧ read Json.source (Json.maxDepth - 1) x = some doc := by
  unfold ofJson
  cases hparse : Json.parse? s with
  | none => simp
  | some x =>
    cases hread : read Json.source (Json.maxDepth - 1) x <;> simp [hread]

/-- What is read from a text whose tree shows the data of a document type. -/
theorem ofJson_of_shows {s : String} {x : Json} {shows : Data → Json → Prop} {doc : Document}
    (hparse : Json.parse? s = some x) (hs : Json.source.Shows shows) (hx : shows doc.toData x) :
    ofJson s = if doc.toData.depth ≤ Json.maxDepth then
      .ok { doc with items := Item.readBackList doc.items }
    else .error .json := by
  have hread : read Json.source (Json.maxDepth - 1) x =
      if doc.toData.depth ≤ Json.maxDepth then
        some { doc with items := Item.readBackList doc.items } else none :=
    read_eq hs doc hx
  rw [ofJson, hparse, Option.bind_some, hread]
  split_ifs <;> rfl

/-- What becomes of a document type that is written in JSON and read again. -/
theorem ofJson_toJson (doc : Document) : ofJson doc.toJson =
    if doc.toData.depth ≤ Json.maxDepth then
      .ok { doc with items := Item.readBackList doc.items }
    else .error .json :=
  ofJson_of_shows (Json.parse?_compact doc.toData) Json.source_shows rfl

/-- A document type is the same after it has been written in JSON and read again exactly if no item
of an unknown kind has a known name for its kind and it has no more levels than are read. -/
theorem ofJson_toJson_eq_ok_iff (doc : Document) : ofJson doc.toJson = .ok doc ↔
    (∀ kind name, (Item.foreign kind name).Within doc.items →
      String.ofList (kind.toList.map Char.toLower) ∉ ["integer", "int", "boolean", "bool",
        "string", "str", "decimal", "file", "section"]) ∧
    doc.toData.depth ≤ 127 := by
  have hitems : { doc with items := Item.readBackList doc.items } = doc ↔
      Item.Unambiguous doc.items := by
    rw [← Item.readBackList_eq_iff]
    exact ⟨fun h => congrArg items h, fun h => by rw [h]⟩
  rw [ofJson_toJson]
  split_ifs with hdepth
  · rw [Except.ok.injEq, hitems]
    simp only [Item.Unambiguous, Kind.ofText?_eq_none_iff]
    exact (and_iff_left hdepth).symm
  · constructor
    · intro h
      cases h
    · exact fun h => (hdepth h.2).elim

/-- A document type that was read from a JSON text has no item of an unknown kind with a known name
for its kind, and no more levels than are read. -/
theorem ofJson_settled {s : String} {doc : Document} (h : ofJson s = .ok doc) :
    Item.Unambiguous doc.items ∧ doc.toData.depth ≤ Json.maxDepth := by
  obtain ⟨x, -, hread⟩ := ofJson_eq_ok_iff.mp h
  exact read_settled Json.source_yields hread

end Document

end DocTables
