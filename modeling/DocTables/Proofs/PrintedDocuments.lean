import DocTables.CommandLine.Execution
import DocTables.Proofs.JsonDocuments
import DocTables.Proofs.JsonLayout
import DocTables.Proofs.YamlDocuments
import Mathlib.Data.List.Perm.Basic

/-!
# Documents as they are printed

A document type is printed with the fields of every map in the order of their names. A decoder finds
fields by their names, so the order makes no difference to it (`Source.Shows.sorted`).

A document type that can be read from YAML can be read from JSON as well, although JSON has one level
less : the levels of a document type with items are odd in number (`Document.depth_le_of_le_succ`).
So what is printed in either format is read again, if its file is named for the format
(`Document.ofFileText_print`).
-/

namespace DocTables

/-! ## Sorted fields -/

namespace Data

theorem sortedItems_eq_map (items : List Data) : sortedItems items = items.map sorted := by
  induction items with
  | nil => rfl
  | cons item items ih => rw [sortedItems, ih, List.map_cons]

theorem insertField_perm (field : String × Data) (fields : List (String × Data)) :
    (insertField field fields).Perm (field :: fields) := by
  induction fields with
  | nil => exact .refl _
  | cons other fields ih =>
    rw [insertField]
    split
    · exact .refl _
    · exact (ih.cons other).trans (.swap field other fields)

/-- Sorting puts the fields in another order. -/
theorem sortedFields_perm (fields : List (String × Data)) :
    (sortedFields fields).Perm (fields.map fun (name, value) => (name, value.sorted)) := by
  induction fields with
  | nil => exact .refl _
  | cons field fields ih =>
    obtain ⟨name, value⟩ := field
    rw [sortedFields, List.map_cons]
    exact (insertField_perm _ _).trans (ih.cons _)

end Data

theorem ShowsFields.of_sorted {α : Type} {shows : Data → α → Prop} {fields : List (String × Data)}
    {xs : List (String × α)} (h : ShowsFields shows (Data.sortedFields fields) xs) :
    ShowsFields (fun d x => shows d.sorted x) fields xs := by
  obtain ⟨ys, hys, hperm⟩ := h
  obtain ⟨zs, hzs, hperm'⟩ := List.perm_comp_forall₂ (Data.sortedFields_perm fields).symm hys
  exact ⟨zs, List.forall₂_map_left_iff.mp hzs, hperm'.trans hperm⟩

/-- A source that answers for data answers for them if their fields are sorted. -/
theorem Source.Shows.sorted {m : Type → Type} [Monad m] {α : Type} {src : Source m α}
    {shows : Data → α → Prop} (hs : src.Shows shows) : src.Shows fun d x => shows d.sorted x where
  text h := hs.text h
  bool h := hs.bool h
  int32 h := hs.int32 h
  natBelow h := hs.natBelow h
  nullable h := hs.nullable h
  list {items x} h := by
    have h' : shows (.list (Data.sortedItems items)) x := h
    obtain ⟨xs, hxs, hlist⟩ := hs.list h'
    rw [Data.sortedItems_eq_map] at hxs
    exact ⟨xs, List.forall₂_map_left_iff.mp hxs, hlist⟩
  fields {fields x} keys h := by
    have h' : shows (.map (Data.sortedFields fields)) x := h
    obtain ⟨xs, hxs, hfields⟩ := hs.fields keys h'
    exact ⟨xs, hxs.of_sorted, hfields⟩
  reject_bind := hs.reject_bind

/-! ## Levels -/

namespace Item

mutual

/-- The levels of an item are odd in number. -/
theorem odd_depth : ∀ x : Item, x.toData.depth % 2 = 1
  | .scalar .. | .file .. | .foreign .. => by simp [depth_toData, entry]
  | .group name flags items => by
    have hitems := odd_depthOfItems items
    rw [depth_toData]
    split
    case isTrue => rfl
    case isFalse hne =>
      have hodd := hitems.resolve_left fun hnil => hne (List.isEmpty_iff.mpr hnil)
      simp only [entry]
      omega

/-- So are those of items, if there are any. -/
theorem odd_depthOfItems : ∀ items : List Item,
    items = [] ∨ Data.depthOfItems (listData items) % 2 = 1
  | [] => Or.inl rfl
  | x :: items => by
    have hx := odd_depth x
    rw [listData, Data.depthOfItems]
    rcases odd_depthOfItems items with rfl | hitems
    · simp [listData, Data.depthOfItems, hx]
    · omega

end

end Item

namespace Document

/-- An even number of levels, from four on, is no more than there are in any case. -/
theorem depth_le_of_le_succ {doc : Document} {n : Nat} (hn : n % 2 = 1) (h : 2 ≤ n)
    (hdepth : doc.toData.depth ≤ n + 1) : doc.toData.depth ≤ n := by
  rw [depth_toData] at hdepth ⊢
  rcases Item.odd_depthOfItems doc.items with hnil | hodd
  · simpa [hnil, Item.listData, Data.depthOfItems] using h
  · omega

/-! ## Printing and reading -/

variable {doc : Document}

/-- A document type that has been read is read again where it is printed in JSON. -/
theorem ofJson_print (hunambiguous : Item.Unambiguous doc.items)
    (hdepth : doc.toData.depth ≤ Yaml.maxDepth) :
    ofJson (Format.json.print doc.toData) = .ok doc := by
  have hitems : Item.readBackList doc.items = doc.items :=
    Item.readBackList_eq_iff.mpr hunambiguous
  have hjson : doc.toData.depth ≤ Json.maxDepth := depth_le_of_le_succ rfl (by decide) hdepth
  have hparse := Json.parse?_pretty doc.toData.sorted
  rw [Format.print, ofJson_of_shows hparse Json.source_shows.sorted rfl, if_pos hjson, hitems]

/-- A document type that has been read is read again where it is printed in YAML, if its data with
sorted fields read back. -/
theorem ofYaml_print (hunambiguous : Item.Unambiguous doc.items)
    (hdepth : doc.toData.depth ≤ Yaml.maxDepth) (hk : Yaml.ReadsBack doc.toData.sorted) :
    ofYaml (Format.yaml.print doc.toData) = .ok doc := by
  have hitems : Item.readBackList doc.items = doc.items :=
    Item.readBackList_eq_iff.mpr hunambiguous
  obtain ⟨t, hparse, hshows⟩ := hk
  rw [Format.print, ofYaml_of_shows hparse (Yaml.source_shows t).sorted hshows, if_pos hdepth,
    hitems]

/-- The file with this path is one for JSON, by its name. -/
def isJsonPath (path : String) : Bool :=
  (Files.extension? (Bytes.ofText path)).any (·.isSpelled jsonExtension)

/-- A document type that has been read is read again from a file in which it is printed, if the name
of the file says the format. -/
theorem ofFileText_print {format : Format} {path : String}
    (hpath : isJsonPath path ↔ format = .json) (hunambiguous : Item.Unambiguous doc.items)
    (hdepth : doc.toData.depth ≤ Yaml.maxDepth)
    (hk : format = .yaml → Yaml.ReadsBack doc.toData.sorted) :
    ofFileText path (format.print doc.toData) = .ok doc := by
  unfold isJsonPath at hpath
  cases format with
  | json =>
    rw [ofFileText, if_pos (hpath.mpr rfl)]
    exact ofJson_print hunambiguous hdepth
  | yaml =>
    have hyaml : Format.yaml ≠ .json := by decide
    rw [ofFileText, if_neg fun h => hyaml (hpath.mp h)]
    exact ofYaml_print hunambiguous hdepth (hk rfl)

end Document

end DocTables
