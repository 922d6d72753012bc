import DocTables.Document.Entry
import DocTables.Proofs.Tabulation
import Mathlib.Tactic.SplitIfs

/-!
# Items as entries

An item is written as the fields of its entry (`Item.toData_eq_fields`). The entry stands for the item
again, but for an item of an unknown kind that has the name of a known one : what is read in its
place is an item of the known kind. `Item.readBack` gives the item that is read where another was
written. It is the same item exactly if there is no such item in it, at any depth
(`Item.readBackList_eq_iff`).

`Data.depth` counts the levels of lists and maps in data. An item has one level, and two more than
its items if it has any (`Item.depth_toData`).
-/

namespace DocTables

/-! ## Levels of data -/

namespace Data

mutual

/-- The levels of lists and maps in the data. -/
def depth : Data → Nat
  | list items => depthOfItems items + 1
  | map fields => depthOfFields fields + 1
  | null | bool _ | int _ | text _ => 0

/-- The most levels that an item has. -/
def depthOfItems : List Data → Nat
  | [] => 0
  | item :: items => max item.depth (depthOfItems items)

/-- The most levels that a value has. -/
def depthOfFields : List (String × Data) → Nat
  | [] => 0
  | (_, value) :: fields => max value.depth (depthOfFields fields)

end

theorem depthOfFields_append (fields fields' : List (String × Data)) :
    depthOfFields (fields ++ fields') = max (depthOfFields fields) (depthOfFields fields') := by
  induction fields with
  | nil => simp [depthOfFields]
  | cons field fields ih =>
    obtain ⟨name, value⟩ := field
    simp only [List.cons_append, depthOfFields, ih, Nat.max_assoc]

end Data

/-! ## Items as entries -/

/-- A kind has the name it is written with. -/
theorem Kind.ofText?_text (kind : Kind) : ofText? kind.text = some kind := by
  cases kind <;> decide

/-- The kinds that are not known are all but the spellings of the known ones. -/
theorem Kind.ofText?_eq_none_iff {s : String} : ofText? s = none ↔
    String.ofList (s.toList.map Char.toLower) ∉ spellings.map Prod.fst := by
  rw [ofText?, List.lookup_eq_none_iff]
  simp only [List.mem_map, not_exists, not_and, bne_iff_ne]
  exact forall₂_congr fun _ _ => ne_comm

/-- The limit of a text. -/
def ScalarType.limit? : ScalarType → Option UInt32
  | string limit => limit
  | integer | boolean | decimal _ => none

/-- The digits of a decimal number. -/
def ScalarType.places? : ScalarType → Option UInt32
  | decimal places => some places
  | integer | boolean | string _ => none

namespace Item

/-- The entry that an item is written as. -/
def entry : Item → Entry
  | scalar type name flags =>
    { kind := (scalar type name flags).kind, name, optional := flags.optional,
      repeated := flags.repeated, lengthLimit := type.limit?, precision := type.places? }
  | file name flags =>
    { kind := Kind.file.text, name, optional := flags.optional, repeated := flags.repeated }
  | group name flags items =>
    { kind := Kind.group.text, name, optional := flags.optional, repeated := flags.repeated, items }
  | foreign kind name => { kind, name }

/-- A field that is left out if there are no items. -/
def itemsField (items : List Item) : List (String × Data) :=
  if items.isEmpty then [] else [("items", .list (listData items))]

/-- The fields of an entry. -/
def Entry.fields (e : Entry) : List (String × Data) :=
  ("type", .text e.kind) :: ("name", .text e.name) ::
    (flagField "optional" e.optional ++ flagField "array" e.repeated ++
      sizeField "length_limit" e.lengthLimit ++ sizeField "precision" e.precision ++
      itemsField e.items)

/-- No two fields of an entry have one name. -/
theorem Entry.filter_fields (e : Entry) (key : String) : e.fields.filter (·.1 == key) =
    (if "type" = key then [("type", .text e.kind)] else []) ++
      (if "name" = key then [("name", .text e.name)] else []) ++
      (if "optional" = key then flagField "optional" e.optional else []) ++
      (if "array" = key then flagField "array" e.repeated else []) ++
      (if "length_limit" = key then sizeField "length_limit" e.lengthLimit else []) ++
      (if "precision" = key then sizeField "precision" e.precision else []) ++
      (if "items" = key then itemsField e.items else []) := by
  have hflag : ∀ name b, (flagField name b).filter (·.1 == key) =
      if name = key then flagField name b else [] := by
    intro name b
    cases b <;> simp [flagField, List.filter_cons]
  have hsize : ∀ name n, (sizeField name n).filter (·.1 == key) =
      if name = key then sizeField name n else [] := by
    rintro name (_ | n) <;> simp [sizeField, List.filter_cons]
  have hitems : (itemsField e.items).filter (·.1 == key) =
      if "items" = key then itemsField e.items else [] := by
    unfold itemsField
    split <;> simp [List.filter_cons]
  have htext : ∀ (name : String) (d : Data), [(name, d)].filter (·.1 == key) =
      if name = key then [(name, d)] else [] := by
    intro name d
    simp [List.filter_cons]
  rw [← hflag, ← hflag, ← hsize, ← hsize, ← hitems, ← htext, ← htext]
  simp only [← List.filter_append]
  simp [Entry.fields]

theorem toData_eq_fields (x : Item) : x.toData = .map x.entry.fields := by
  cases x with
  | scalar type name flags =>
    cases type <;>
      simp [toData, entry, Entry.fields, headFields, sizeField, itemsField, ScalarType.limit?,
        ScalarType.places?]
  | file name flags => simp [toData, entry, Entry.fields, headFields, sizeField, itemsField]
  | group name flags items =>
    cases items <;>
      simp [toData, entry, Entry.fields, headFields, sizeField, itemsField, listData]
  | foreign kind name => simp [toData, entry, Entry.fields, flagField, sizeField, itemsField]

theorem depth_toData (x : Item) : x.toData.depth =
    if x.entry.items.isEmpty then 1 else Data.depthOfItems (listData x.entry.items) + 2 := by
  rw [toData_eq_fields]
  generalize x.entry = e
  have hflag : ∀ name b, Data.depthOfFields (flagField name b) = 0 := by
    intro name b
    cases b <;> simp [flagField, Data.depthOfFields, Data.depth]
  have hsize : ∀ name n, Data.depthOfFields (sizeField name n) = 0 := by
    rintro name (_ | n) <;> simp [sizeField, Data.depthOfFields, Data.depth]
  simp only [Data.depth, Entry.fields, Data.depthOfFields, Data.depthOfFields_append, hflag, hsize]
  unfold itemsField
  split <;> simp [Data.depthOfFields, Data.depth]

end Item

/-! ## Unknown kinds with known names -/

namespace Item

/-- No item of an unknown kind has the name of a known one, at any depth. -/
def Unambiguous (items : List Item) : Prop :=
  ∀ kind name, (foreign kind name).Within items → Kind.ofText? kind = none

section

variable {x : Item} {items inner : List Item} {name kind : String} {flags : Flags}
  {type : ScalarType}

@[simp] theorem unambiguous_nil : Unambiguous [] := fun _ _ h => (not_within_nil h).elim

@[simp] theorem unambiguous_scalar_cons :
    Unambiguous (.scalar type name flags :: items) ↔ Unambiguous items := by
  simp [Unambiguous, within_cons]

@[simp] theorem unambiguous_file_cons :
    Unambiguous (.file name flags :: items) ↔ Unambiguous items := by
  simp [Unambiguous, within_cons]

@[simp] theorem unambiguous_group_cons :
    Unambiguous (.group name flags inner :: items) ↔ Unambiguous inner ∧ Unambiguous items := by
  simp [Unambiguous, within_cons, or_imp, forall_and]

@[simp] theorem unambiguous_foreign_cons :
    Unambiguous (.foreign kind name :: items) ↔ Kind.ofText? kind = none ∧ Unambiguous items := by
  simp only [Unambiguous, within_cons, foreign.injEq, reduceCtorEq, false_and, exists_false,
    false_or, or_imp, forall_and]
  refine and_congr_left fun _ => ⟨fun h => h kind name ⟨rfl, rfl⟩, ?_⟩
  rintro h _ _ ⟨rfl, rfl⟩
  exact h

end

mutual

/-- The item that is read where this one was written. -/
def readBack : Item → Item
  | scalar type name flags => scalar type name flags
  | file name flags => file name flags
  | group name flags items => group name flags (readBackList items)
  | foreign kind name => Entry.toItem { kind, name }

/-- `readBack` on every item. -/
def readBackList : List Item → List Item
  | [] => []
  | x :: items => x.readBack :: readBackList items

end

/-- An item of an unknown kind is read back if its kind has not the name of a known one. -/
theorem toItem_foreign_eq_iff {kind name : String} :
    Entry.toItem { kind, name } = foreign kind name ↔ Kind.ofText? kind = none := by
  unfold Entry.toItem
  split <;> simp_all

mutual

theorem readBack_eq_iff : ∀ {x : Item}, x.readBack = x ↔ Unambiguous [x]
  | scalar _ _ _ => by simp [readBack]
  | file _ _ => by simp [readBack]
  | group _ _ items => by simp [readBack, @readBackList_eq_iff items]
  | foreign kind name => by simp [readBack, toItem_foreign_eq_iff]

theorem readBackList_eq_iff : ∀ {items : List Item}, readBackList items = items ↔ Unambiguous items
  | [] => by simp [readBackList]
  | x :: items => by
    have hcons : Unambiguous (x :: items) ↔ Unambiguous [x] ∧ Unambiguous items := by
      cases x <;> simp
    rw [readBackList, List.cons.injEq, readBack_eq_iff, readBackList_eq_iff, hcons]

end

/-- An entry with the items that are read back stands for the item that is read back. -/
theorem toItem_entry_readBackList (x : Item) :
    Entry.toItem { x.entry with items := readBackList x.entry.items } = x.readBack := by
  cases x with
  | scalar type name flags =>
    cases type <;>
      simp [entry, readBack, Entry.toItem, kind, Kind.ofText?_text, ScalarType.limit?,
        ScalarType.places?]
  | file name flags => simp [entry, readBack, Entry.toItem, Kind.ofText?_text]
  | group name flags items => simp [entry, readBack, Entry.toItem, Kind.ofText?_text]
  | foreign kind name => simp [entry, readBack, readBackList]

end Item

end DocTables
