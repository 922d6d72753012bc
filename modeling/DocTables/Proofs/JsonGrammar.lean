import DocTables.Proofs.JsonDocuments

/-!
# Which JSON trees write a document type

The trees are taken here in which a document type and its items are written as maps, not as lists of
their values (`Json.AsObjects`), and in which no more levels are nested through the lists of items
than are read (`Json.levels`). Whether such a tree is read is a matter of its fields alone.
`Json.WritesItem` says which fields may stand where : the fields that are known are not repeated,
those that are needed are there, and every one that is there has a value of its type, whether the
kind of the item uses it or not.

A field is read or not whatever the others are, so an item is read exactly if each of its fields is
(`Item.isSome_ofFields_iff`). The rest is an induction on the levels (`Item.isSome_read_iff`), and
`Document.exists_ofJson_iff` says it of texts.
-/

namespace DocTables

namespace Json

/-! ## Trees of records -/

/-- A map whose keys are texts. -/
def record (fields : List (String × Json)) : Json :=
  .map (fields.map fun (key, value) => (some key, value))

theorem record_inj {fields fields' : List (String × Json)} :
    record fields = record fields' ↔ fields = fields' := by
  rw [record, record, map.injEq]
  refine (List.map_injective_iff.mpr ?_).eq_iff
  rintro ⟨key, value⟩ ⟨key', value'⟩ h
  simpa using h

/-- The tree is no list, and neither is an item in the lists of items of it. The keys of the maps
are texts. -/
inductive AsObjects : Json → Prop where
  | record {fields : List (String × Json)}
      (h : ∀ items, ("items", list items) ∈ fields → ∀ x ∈ items, AsObjects x) :
      AsObjects (record fields)
  | single {x : Json} (hlist : ∀ items, x ≠ list items) (hmap : ∀ fields, x ≠ map fields) :
      AsObjects x

mutual

/-- The levels of maps and lists that are nested through the lists of items. What stands in other
fields does not count. -/
def levels : Json → Nat
  | .list items => levelsOfItems items + 1
  | .map fields => levelsOfFields fields + 1
  | _ => 0

/-- The levels of the item that has most. -/
def levelsOfItems : List Json → Nat
  | [] => 0
  | x :: xs => max x.levels (levelsOfItems xs)

/-- The levels of the list of items. -/
def levelsOfFields : List (Option String × Json) → Nat
  | [] => 0
  | (key, value) :: fields =>
    max (if key = some "items" then value.levels else 0) (levelsOfFields fields)

end

section

variable {fields : List (String × Json)} {items : List Json} {x : Json} {n : Nat}

theorem asObjects_record_iff : (record fields).AsObjects ↔
    ∀ items, ("items", list items) ∈ fields → ∀ x ∈ items, x.AsObjects := by
  refine ⟨fun h => ?_, .record⟩
  generalize hx : record fields = x at h
  cases h with
  | record h =>
    obtain rfl := record_inj.mp hx
    exact h
  | single _ hmap => exact (hmap _ hx.symm).elim

theorem levels_list_le_iff : (list items).levels ≤ n + 1 ↔ ∀ x ∈ items, x.levels ≤ n := by
  rw [levels, Nat.add_le_add_iff_right]
  induction items with
  | nil => simp [levelsOfItems]
  | cons x items ih => rw [levelsOfItems, Nat.max_le, ih, List.forall_mem_cons]

theorem levels_record_le_iff : (record fields).levels ≤ n + 1 ↔
    ∀ v, ("items", v) ∈ fields → v.levels ≤ n := by
  rw [record, levels, Nat.add_le_add_iff_right]
  induction fields with
  | nil => simp [levelsOfFields]
  | cons field fields ih =>
    obtain ⟨key, value⟩ := field
    rw [List.map_cons, levelsOfFields, Nat.max_le, ih]
    by_cases hkey : key = "items"
    · simp [hkey, or_imp, forall_and]
    · simp [hkey, Ne.symm hkey]

/-- What is no list and no map has no fields. -/
theorem fields_eq_none (keys : List String) (hlist : ∀ items, x ≠ list items)
    (hmap : ∀ fields, x ≠ map fields) : source.fields keys x = none := by
  cases x with
  | list items => exact (hlist items rfl).elim
  | map fields => exact (hmap fields rfl).elim
  | _ => rfl

/-- The fields of a record are what it was made of. -/
theorem fields_record (keys : List String) (fields : List (String × Json)) :
    source.fields keys (record fields) = some (some fields) := by
  have hfields : (fields.map fun (key, value) => (some key, value)).mapM
      (fun field => field.1.map (·, field.2)) = some fields := by
    induction fields with
    | nil => rfl
    | cons field fields ih => simp_all
  exact congrArg (some <$> ·) hfields

end

/-! ## The grammar -/

def IsText (x : Json) : Prop := ∃ s, x = text (some s)

def IsBool (x : Json) : Prop := ∃ b, x = bool b

/-- A whole number of thirty-two bits with a sign, with no fraction and no exponent. -/
def IsInt32 (x : Json) : Prop := ∃ i, x = integer i ∧ -2147483648 ≤ i ∧ i ≤ 2147483647

/-- Null, or a whole number of thirty-two bits without a sign. -/
def IsSize (x : Json) : Prop := x = null ∨ ∃ i, x = integer i ∧ 0 ≤ i ∧ i ≤ 4294967295

/-- The fields of an item, but for what its list of items holds. -/
structure ItemHead (fields : List (String × Json)) : Prop where
  once : ∀ key ∈ Item.keys, fields.countP (·.1 == key) ≤ 1
  present : ∀ key ∈ ["type", "name"], ∃ v, (key, v) ∈ fields
  texts : ∀ key ∈ ["type", "name"], ∀ v, (key, v) ∈ fields → v.IsText
  flags : ∀ key ∈ ["optional", "array"], ∀ v, (key, v) ∈ fields → v.IsBool
  sizes : ∀ key ∈ ["length_limit", "precision"], ∀ v, (key, v) ∈ fields → v.IsSize

/-- The fields of a document type, but for what its list of items holds. -/
structure DocumentHead (fields : List (String × Json)) : Prop where
  once : ∀ key ∈ Document.keys, fields.countP (·.1 == key) ≤ 1
  present : ∃ v, ("name", v) ∈ fields
  texts : ∀ key ∈ ["id", "name"], ∀ v, (key, v) ∈ fields → v.IsText
  revision : ∀ v, ("revision", v) ∈ fields → v.IsInt32

/-- The tree writes an item. -/
inductive WritesItem : Json → Prop where
  | record {fields : List (String × Json)} (head : ItemHead fields)
      (list : ∀ v, ("items", v) ∈ fields → ∃ items, v = list items)
      (items : ∀ items, ("items", .list items) ∈ fields → ∀ x ∈ items, WritesItem x) :
      WritesItem (record fields)

/-- The tree writes a list of items. -/
def WritesItems (x : Json) : Prop := ∃ items, x = list items ∧ ∀ x ∈ items, x.WritesItem

/-- The tree writes a document type. -/
def WritesDocument (x : Json) : Prop := ∃ fields, x = record fields ∧ DocumentHead fields ∧
  ∀ v, ("items", v) ∈ fields → v.WritesItems

@[simp] theorem writesItems_list_iff {items : List Json} :
    (list items).WritesItems ↔ ∀ x ∈ items, x.WritesItem := by
  simp [WritesItems]

theorem writesItem_record_iff {fields : List (String × Json)} : (record fields).WritesItem ↔
    ItemHead fields ∧ ∀ v, ("items", v) ∈ fields → v.WritesItems := by
  constructor
  · intro h
    generalize hx : record fields = x at h
    obtain ⟨head, hlist, hitems⟩ := h
    obtain rfl := record_inj.mp hx
    refine ⟨head, fun v hv => ?_⟩
    obtain ⟨items, rfl⟩ := hlist v hv
    exact ⟨items, rfl, hitems items hv⟩
  · rintro ⟨head, hitems⟩
    refine .record head (fun v hv => ?_) fun items hv => writesItems_list_iff.mp (hitems _ hv)
    obtain ⟨items, rfl, -⟩ := hitems v hv
    exact ⟨items, rfl⟩

theorem not_writesItem {x : Json} (hmap : ∀ fields, x ≠ map fields) : ¬x.WritesItem := by
  rintro ⟨-⟩
  exact hmap _ rfl

theorem writesDocument_record_iff {fields : List (String × Json)} :
    (record fields).WritesDocument ↔
      DocumentHead fields ∧ ∀ v, ("items", v) ∈ fields → v.WritesItems := by
  simp [WritesDocument, record_inj]

/-! ## Fields -/

section

variable {β : Type} {fields : List (String × Json)} {key : String} {x : Json}

theorem reject_eq : (source.reject : Option β) = none := rfl

/-- A field is missing, or there once, or the text is refused. -/
theorem field_cases (fields : List (String × Json)) (key : String) :
    (source.field fields key = some none ∧ fields.countP (·.1 == key) = 0 ∧
      ∀ v, (key, v) ∉ fields) ∨
    (∃ v, source.field fields key = some (some v) ∧ fields.countP (·.1 == key) = 1 ∧
      ∀ w, (key, w) ∈ fields ↔ w = v) ∨
    (source.field fields key = none ∧ 1 < fields.countP (·.1 == key)) := by
  have hmem : ∀ v, (key, v) ∈ fields ↔ (key, v) ∈ fields.filter (·.1 == key) := by simp
  rcases hfilter : fields.filter (·.1 == key) with _ | ⟨⟨key', v⟩, _ | ⟨field, rest⟩⟩ <;>
    simp only [hmem, List.countP_eq_length_filter, Source.field, hfilter]
  · exact Or.inl ⟨rfl, rfl, by simp⟩
  · have hkey : key' = key := by
      have hv : (key', v) ∈ fields.filter (·.1 == key) := hfilter ▸ List.mem_singleton_self _
      simpa using List.of_mem_filter hv
    exact Or.inr (Or.inl ⟨v, rfl, rfl, fun w => by simp [hkey]⟩)
  · exact Or.inr (Or.inr ⟨rfl, by simp⟩)

theorem isSome_fieldD_iff {read : Json → Option β} {default : β} :
    (source.fieldD fields key read default).isSome ↔
      fields.countP (·.1 == key) ≤ 1 ∧ ∀ v, (key, v) ∈ fields → (read v).isSome := by
  unfold Source.fieldD
  rcases field_cases fields key with ⟨h, hcount, hmem⟩ | ⟨v, h, hcount, hmem⟩ | ⟨h, hcount⟩
  · simp [h, hcount, hmem]
  · simp [h, hcount, hmem]
  · simp [h, Nat.not_le_of_lt hcount]

theorem isSome_required_iff {read : Json → Option β} :
    (source.required fields key read).isSome ↔ fields.countP (·.1 == key) ≤ 1 ∧
      (∃ v, (key, v) ∈ fields) ∧ ∀ v, (key, v) ∈ fields → (read v).isSome := by
  unfold Source.required
  rcases field_cases fields key with ⟨h, hcount, hmem⟩ | ⟨v, h, hcount, hmem⟩ | ⟨h, hcount⟩
  · simp [h, hmem, reject_eq]
  · simp [h, hcount, hmem]
  · simp [h, Nat.not_le_of_lt hcount]

theorem isSome_text_iff : (source.text x).isSome ↔ x.IsText := by
  unfold IsText
  cases x with
  | text s => cases s <;> simp [source]
  | _ => simp [source]

theorem isSome_bool_iff : (source.bool x).isSome ↔ x.IsBool := by
  unfold IsBool
  cases x <;> simp [source]

theorem isSome_int32_iff : (source.int32 x).isSome ↔ x.IsInt32 := by
  unfold IsInt32
  cases x with
  | integer i =>
    simp only [source, Digits.int32?, integer.injEq, exists_eq_left']
    split_ifs with hi <;> simp [hi]
  | _ => simp [source]

theorem isSome_uint32_iff : (source.optional source.uint32 x).isSome ↔ x.IsSize := by
  unfold IsSize
  cases x with
  | integer i =>
    have hlt : i < 4294967296 ↔ i ≤ 4294967295 := by omega
    simp [source, Source.optional, Source.uint32, hlt]
  | _ => simp [source, Source.optional, Source.uint32]

end

end Json

open Json (source)

/-! ## Records -/

theorem any_const {α : Type} (x : Option α) (b : Bool) : x.any (fun _ => b) = (x.isSome && b) := by
  cases x <;> simp

namespace Item

/-- An item is read off its fields exactly if each of them is read. -/
theorem isSome_ofFields_iff {nested : Json → Option (List Item)} {fields : List (String × Json)} :
    (ofFields source nested fields).isSome ↔
      Json.ItemHead fields ∧ ∀ v, ("items", v) ∈ fields → (nested v).isSome := by
  unfold ofFields
  simp only [Option.bind_eq_bind, Option.isSome_bind, Option.pure_def, Option.isSome_some,
    any_const, Bool.and_eq_true, Json.isSome_required_iff, Json.isSome_fieldD_iff,
    Json.isSome_text_iff, Json.isSome_bool_iff, Json.isSome_uint32_iff, and_true]
  constructor
  · rintro ⟨⟨htype, htype', htype''⟩, ⟨hname, hname', hname''⟩, ⟨hoptional, hoptional'⟩,
      ⟨harray, harray'⟩, ⟨hlimit, hlimit'⟩, ⟨hprecision, hprecision'⟩, hitems, hitems'⟩
    exact ⟨{
      once := by simp [keys, *]
      present := by simp [*]
      texts := by simpa using ⟨htype'', hname''⟩
      flags := by simpa using ⟨hoptional', harray'⟩
      sizes := by simpa using ⟨hlimit', hprecision'⟩ }, hitems'⟩
  · rintro ⟨h, hitems⟩
    have honce := h.once
    have hpresent := h.present
    have htexts := h.texts
    have hflags := h.flags
    have hsizes := h.sizes
    simp only [keys, List.forall_mem_cons] at honce hpresent htexts hflags hsizes
    tauto

theorem isSome_mapM_iff {α β : Type} {read : α → Option β} {xs : List α} :
    (xs.mapM read).isSome ↔ ∀ x ∈ xs, (read x).isSome := by
  induction xs with
  | nil => simp
  | cons x xs ih =>
    rw [List.mapM_cons, Option.bind_eq_bind, Option.isSome_bind, List.forall_mem_cons, ← ih]
    cases read x <;> simp [Option.isSome_bind]

mutual

/-- An item is read exactly if the tree writes one, as long as there are levels enough. -/
theorem isSome_read_iff : ∀ {depth : Nat} {x : Json}, x.AsObjects → x.levels ≤ depth →
    ((read source depth x).isSome ↔ x.WritesItem)
  | 0, _, .single _ hmap, _ =>
    iff_of_false (by simp [read, Json.reject_eq]) (Json.not_writesItem hmap)
  | depth + 1, _, .single hlist hmap, _ => by
    have hread : read source (depth + 1) _ = none :=
      congrArg (Option.bind · _) (Json.fields_eq_none keys hlist hmap)
    exact iff_of_false (by simp [hread]) (Json.not_writesItem hmap)
  | 0, _, .record _, hlevels => by simp [Json.record, Json.levels] at hlevels
  | depth + 1, _, @Json.AsObjects.record fields h, hlevels => by
    have hitems : ∀ v, ("items", v) ∈ fields →
        ((readList source depth v).isSome ↔ v.WritesItems) := fun v hv =>
      isSome_readList_iff (fun items heq => h items (heq ▸ hv))
        (Json.levels_record_le_iff.mp hlevels v hv)
    rw [read, Json.fields_record, Json.writesItem_record_iff]
    exact isSome_ofFields_iff.trans (and_congr_right fun _ => forall₂_congr hitems)

/-- So it is with a list of items. -/
theorem isSome_readList_iff : ∀ {depth : Nat} {v : Json},
    (∀ items, v = .list items → ∀ x ∈ items, x.AsObjects) → v.levels ≤ depth →
      ((readList source depth v).isSome ↔ v.WritesItems)
  | 0, v, _, hlevels => by
    cases v with
    | list items => simp [Json.levels] at hlevels
    | _ => simp [readList, source, Json.WritesItems]
  | depth + 1, v, h, hlevels => by
    cases v with
    | list items =>
      have hread : (readList source (depth + 1) (.list items)).isSome ↔
          ∀ x ∈ items, (read source depth x).isSome := isSome_mapM_iff
      have hitems : ∀ x ∈ items, ((read source depth x).isSome ↔ x.WritesItem) := fun x hx =>
        isSome_read_iff (h items rfl x hx) (Json.levels_list_le_iff.mp hlevels x hx)
      exact hread.trans ((forall₂_congr hitems).trans Json.writesItems_list_iff.symm)
    | _ => simp [readList, source, Json.WritesItems]

end

end Item

namespace Document

/-- A document type is read off a record exactly if each of its fields is read. -/
theorem isSome_read_record_iff {depth : Nat} {fields : List (String × Json)} :
    (read source depth (Json.record fields)).isSome ↔ Json.DocumentHead fields ∧
      ∀ v, ("items", v) ∈ fields → (Item.readList source depth v).isSome := by
  unfold read
  simp only [Json.fields_record, Option.bind_eq_bind, Option.bind_some, Option.isSome_bind,
    Option.pure_def, Option.isSome_some, any_const, Bool.and_eq_true, Json.isSome_required_iff,
    Json.isSome_fieldD_iff, Json.isSome_text_iff, Json.isSome_int32_iff, and_true]
  constructor
  · rintro ⟨⟨hid, hid'⟩, ⟨hrevision, hrevision'⟩, ⟨hname, hname', hname''⟩, hitems, hitems'⟩
    exact ⟨{
      once := by simp [keys, *]
      present := hname'
      texts := by simpa using ⟨hid', hname''⟩
      revision := hrevision' }, hitems'⟩
  · rintro ⟨h, hitems⟩
    have honce := h.once
    have htexts := h.texts
    simp only [keys, List.forall_mem_cons] at honce htexts
    have hpresent := h.present
    have hrevision := h.revision
    tauto

/-- A document type is read exactly if the tree writes one, as long as there are levels enough. -/
theorem isSome_read_iff {depth : Nat} {x : Json} (hx : x.AsObjects)
    (hlevels : x.levels ≤ depth + 1) : (read source depth x).isSome ↔ x.WritesDocument := by
  cases hx with
  | single hlist hmap =>
    have hread : read source depth x = none :=
      congrArg (Option.bind · _) (Json.fields_eq_none keys hlist hmap)
    refine iff_of_false (by simp [hread]) ?_
    rintro ⟨fields, rfl, -⟩
    exact hmap _ rfl
  | @record fields h =>
    have hitems : ∀ v, ("items", v) ∈ fields →
        ((Item.readList source depth v).isSome ↔ v.WritesItems) := fun v hv =>
      Item.isSome_readList_iff (fun items heq => h items (heq ▸ hv))
        (Json.levels_record_le_iff.mp hlevels v hv)
    rw [Json.writesDocument_record_iff]
    exact isSome_read_record_iff.trans (and_congr_right fun _ => forall₂_congr hitems)

/-- A text is accepted exactly if its tree writes a document type. -/
theorem exists_ofJson_iff {s : String} {x : Json} (hparse : Json.parse? s = some x)
    (hx : x.AsObjects) (hlevels : x.levels ≤ Json.maxDepth) :
    (∃ doc, ofJson s = .ok doc) ↔ x.WritesDocument := by
  have hread : (read source (Json.maxDepth - 1) x).isSome ↔ x.WritesDocument :=
    isSome_read_iff hx hlevels
  rw [← hread, Option.isSome_iff_exists]
  simp [ofJson_eq_ok_iff, hparse]

end Document

end DocTables
