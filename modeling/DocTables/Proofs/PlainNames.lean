import DocTables.Proofs.Layout
import DocTables.Proofs.Numerals
import DocTables.Proofs.Ownership
import DocTables.Proofs.UniqueScript
import Mathlib.Data.List.Basic

/-!
# Plain names are different

The name of a table goes on from that of its owner with an underscore, the sections around the item
and the name of the item, so the sections stand in it once for each table on the way. Where no name
of an item has an underscore, the first underscore after the owner and the sections ends the name of
the item whose table it is, or of the section that it stands in (`NamedFrom`). Items beside one
another whose names differ between hyphens then give different names, with all that is below them
(`Item.Apart.not_namedFrom`), also where names are empty.

So the tables of a document type have different names, and a foreign key leads to one table. The
constraints are named by the tables and differ as well. The columns of a table have different names
if those of its items do (`nodup_names_plain`).
-/

namespace DocTables

namespace Naming

/-! ## Where a name may end -/

/-- The text is empty or begins with an underscore. -/
def AtBreak (cs : List Char) : Prop := cs = [] ∨ ∃ ds, cs = '_' :: ds

/-- A text without underscores ends at the first underscore after it. -/
theorem append_inj_of_atBreak {as bs r s : List Char} (ha : '_' ∉ as) (hb : '_' ∉ bs)
    (hr : AtBreak r) (hs : AtBreak s) (h : as ++ r = bs ++ s) : as = bs ∧ r = s := by
  have htake : ∀ {cs t : List Char}, '_' ∉ cs → AtBreak t →
      (cs ++ t).takeWhile (· ≠ '_') = cs := by
    intro cs t hcs ht
    rw [List.takeWhile_append_of_pos fun c hc => by simpa using ne_of_mem_of_not_mem hc hcs]
    obtain rfl | ⟨ds, rfl⟩ := ht <;> simp
  obtain rfl : as = bs := by rw [← htake ha hr, h, htake hb hs]
  exact ⟨rfl, List.append_cancel_left h⟩

theorem underscore_notMem_hyphenated {name : String} (h : '_' ∉ name.toList) :
    '_' ∉ (hyphenated name).toList := by
  simp only [hyphenated, replaceChar, String.toList_map, List.mem_map, not_exists, not_and]
  intro c hc heq
  split_ifs at heq
  · exact absurd heq (by decide)
  · exact h (heq ▸ hc)

variable {style : ColumnStyle}

/-- What the name of a table has between those of its owner and of its item. -/
def infixOf (path : String) : List Char := if path.isEmpty then [] else '_' :: path.toList

theorem toList_childTable (style : ColumnStyle) (owner path name : String) :
    ((plain style).childTable owner path name).toList =
      owner.toList ++ infixOf path ++ '_' :: (hyphenated name).toList := by
  simp only [plain, infixOf]
  split <;> simp

/-- Two items of one owner whose names go on to the same text have one name between hyphens. -/
theorem hyphenated_eq_of_childTable_eq {owner path m n : String} {r s : List Char}
    (hm : '_' ∉ m.toList) (hn : '_' ∉ n.toList) (hr : AtBreak r) (hs : AtBreak s)
    (h : ((plain style).childTable owner path m).toList ++ r =
      ((plain style).childTable owner path n).toList ++ s) : hyphenated m = hyphenated n := by
  rw [toList_childTable, toList_childTable, List.append_assoc (_ ++ _), List.append_assoc (_ ++ _),
    List.append_cancel_left_eq] at h
  rw [← String.toList_inj]
  exact (append_inj_of_atBreak (underscore_notMem_hyphenated hm) (underscore_notMem_hyphenated hn)
    hr hs (List.cons.inj h).2).1

end Naming

open Naming

/-! ## The names of the tables -/

variable {style : ColumnStyle} {owner : String} {scope : Scope} {items : List Item}
  {tables : List Table} {x : Item}

/-- The name begins with the one that some of the items gives to its table when `owner` owns it, and
ends there or goes on with an underscore. -/
def NamedFrom (style : ColumnStyle) (owner path : String) (items : List Item) (name : String) :
    Prop :=
  ∃ x ∈ items, x.hasTable ∧ ∃ rest, AtBreak rest ∧
    name.toList = ((plain style).childTable owner path x.name).toList ++ rest

theorem namedFrom_self (style : ColumnStyle) (owner path : String) (items : List Item)
    (hx : x.hasTable) :
    NamedFrom style owner path (x :: items) ((plain style).childTable owner path x.name) :=
  ⟨x, List.mem_cons_self, hx, [], Or.inl rfl, (List.append_nil _).symm⟩

theorem NamedFrom.cons {path name : String} (h : NamedFrom style owner path items name)
    (x : Item) : NamedFrom style owner path (x :: items) name := by
  obtain ⟨y, hy, hname⟩ := h
  exact ⟨y, List.mem_cons_of_mem _ hy, hname⟩

/-- The name goes on from that of the owner with an underscore. -/
theorem NamedFrom.exists_append {path name : String}
    (h : NamedFrom style owner path items name) :
    ∃ rest, name.toList = owner.toList ++ '_' :: rest := by
  obtain ⟨x, -, -, rest, -, hname⟩ := h
  rw [hname, toList_childTable, infixOf]
  split
  · exact ⟨(hyphenated x.name).toList ++ rest, by simp⟩
  · exact ⟨path.toList ++ '_' :: (hyphenated x.name).toList ++ rest, by simp⟩

/-- What is named from the table of a section is named from the section. -/
theorem NamedFrom.inside {path path' name : String} {inner : List Item} (hx : x.hasTable)
    (h : NamedFrom style ((plain style).childTable owner path x.name) path' inner name) :
    NamedFrom style owner path (x :: items) name := by
  obtain ⟨rest, hname⟩ := h.exists_append
  exact ⟨x, List.mem_cons_self, hx, '_' :: rest, Or.inr ⟨rest, rfl⟩, hname⟩

theorem Tabulated.namedFrom (h : Tabulated (plain style) owner scope items tables) :
    ∀ t ∈ tables, NamedFrom style owner scope.path items t.name := by
  induction h with
  | nil => simp
  | column _ _ ih => exact fun t ht => (ih t ht).cons _
  | values hrep _ ih =>
    exact List.forall_mem_cons.mpr ⟨namedFrom_self _ _ _ _ hrep, fun t ht => (ih t ht).cons _⟩
  | file _ ih =>
    refine List.forall_mem_cons.mpr ⟨?_, fun t ht => (ih t ht).cons _⟩
    rw [name_ofFile]
    exact namedFrom_self _ _ _ _ rfl
  | group _ _ ihinner ih =>
    refine List.forall_mem_append.mpr ⟨fun t ht => (ihinner t ht).inside rfl, ?_⟩
    refine List.forall_mem_cons.mpr ⟨?_, fun t ht => (ih t ht).cons _⟩
    rw [name_ofSection]
    exact namedFrom_self _ _ _ _ rfl

/-! ## Names that are apart -/

namespace Item

/-- The list is that of all the items, or of the items of a section among them, at any depth. -/
def ListWithin (l items : List Item) : Prop :=
  l = items ∨ ∃ name flags, (group name flags l).Within items

/-- No item with a table has an underscore in its name, and no two beside one another have one name
between hyphens. -/
structure Apart (items : List Item) : Prop where
  underscore_notMem (x : Item) : x.Within items → x.hasTable → '_' ∉ x.name.toList
  nodup (l : List Item) : ListWithin l items →
    ((l.filter hasTable).map fun x => hyphenated x.name).Nodup

theorem Apart.tail (h : Apart (x :: items)) : Apart items where
  underscore_notMem y hy := h.underscore_notMem y (within_cons.mpr (Or.inr (Or.inr hy)))
  nodup l hl := by
    rcases hl with rfl | ⟨name, flags, hl⟩
    · refine (h.nodup _ (Or.inl rfl)).sublist (List.Sublist.map _ ?_)
      exact (List.sublist_cons_self x l).filter _
    · exact h.nodup l (Or.inr ⟨name, flags, within_cons.mpr (Or.inr (Or.inr hl))⟩)

theorem Apart.inner {name : String} {flags : Flags} {inner : List Item}
    (h : Apart (.group name flags inner :: items)) : Apart inner where
  underscore_notMem y hy := h.underscore_notMem y (.inside List.mem_cons_self hy)
  nodup l hl := by
    refine h.nodup l (Or.inr ?_)
    rcases hl with rfl | ⟨name', flags', hl⟩
    · exact ⟨name, flags, .here List.mem_cons_self⟩
    · exact ⟨name', flags', .inside List.mem_cons_self hl⟩

/-- Items that are apart give different names. -/
theorem Apart.not_namedFrom (h : Apart (x :: items)) (hx : x.hasTable) {path name : String}
    {rest : List Char} (hrest : AtBreak rest)
    (hname : name.toList = ((plain style).childTable owner path x.name).toList ++ rest) :
    ¬NamedFrom style owner path items name := by
  rintro ⟨y, hy, hytable, rest', hrest', hname'⟩
  have heq : hyphenated x.name = hyphenated y.name :=
    hyphenated_eq_of_childTable_eq (h.underscore_notMem x (.here List.mem_cons_self) hx)
      (h.underscore_notMem y (.here (List.mem_cons_of_mem _ hy)) hytable) hrest hrest'
      (hname.symm.trans hname')
  have hnodup := h.nodup _ (Or.inl rfl)
  rw [List.filter_cons_of_pos hx, List.map_cons, List.nodup_cons, heq] at hnodup
  exact hnodup.1 (List.mem_map.mpr ⟨y, List.mem_filter.mpr ⟨hy, hytable⟩, rfl⟩)

end Item

/-- The table of an item that is apart has a name of its own. -/
theorem Tabulated.childTable_notMem (h : Tabulated (plain style) owner scope items tables)
    (hapart : Item.Apart (x :: items)) (hx : x.hasTable) :
    (plain style).childTable owner scope.path x.name ∉ tables.map Table.name := by
  intro hmem
  obtain ⟨t, ht, hname⟩ := List.mem_map.mp hmem
  refine hapart.not_namedFrom hx (Or.inl rfl) ?_ (h.namedFrom t ht)
  rw [hname, List.append_nil]

theorem Tabulated.nodup_names (h : Tabulated (plain style) owner scope items tables)
    (hapart : Item.Apart items) : (tables.map Table.name).Nodup := by
  induction h with
  | nil => simp
  | column _ _ ih => exact ih hapart.tail
  | values hrep ht ih =>
    rw [List.map_cons, List.nodup_cons]
    exact ⟨ht.childTable_notMem hapart hrep, ih hapart.tail⟩
  | file ht ih =>
    rw [List.map_cons, List.nodup_cons, name_ofFile]
    exact ⟨ht.childTable_notMem hapart rfl, ih hapart.tail⟩
  | group hbelow ht ihinner ih =>
    rw [List.map_append, List.map_cons, name_ofSection, List.nodup_append, List.nodup_cons]
    refine ⟨ihinner hapart.inner, ⟨ht.childTable_notMem hapart rfl, ih hapart.tail⟩, ?_⟩
    -- A table inside the section has a longer name than that of the section.
    intro a ha b hb heq
    obtain ⟨t, htbelow, rfl⟩ := List.mem_map.mp ha
    obtain ⟨rest, hname⟩ := (hbelow.namedFrom t htbelow).exists_append
    rcases List.mem_cons.mp hb with rfl | hb
    · rw [heq] at hname
      simp at hname
    · obtain ⟨u, hu, rfl⟩ := List.mem_map.mp hb
      rw [heq] at hname
      exact hapart.not_namedFrom rfl (Or.inr ⟨rest, rfl⟩) hname (ht.namedFrom u hu)

/-! ## Constraints and columns -/

/-- The name of a constraint. -/
def Clause.constraint? : Clause → Option String
  | foreignKey name _ => some name
  | column _ | primaryKey _ | uniqueKey _ => none

/-- The names of the constraints in the statement of a table, whose lines are those of its clauses
(`Table.lines_eq`). -/
def Table.constraintNames (t : Table) : List String := t.clauses.filterMap Clause.constraint?

theorem constraintNames_eq (t : Table) : t.constraintNames =
    t.foreignKeys.mapIdx fun i _ => t.name ++ "_ibfk_" ++ toString (i + 1) := by
  rw [Table.constraintNames, Table.clauses, List.filterMap_append, List.filterMap_append,
    List.filterMap_append]
  have hcolumns : (t.columns.map Clause.column).filterMap Clause.constraint? = [] := by
    simp [Clause.constraint?]
  have hprimary : (if t.primaryKey.isEmpty then [] else [Clause.primaryKey t.primaryKey]).filterMap
      Clause.constraint? = [] := by
    split <;> simp [Clause.constraint?]
  have hunique : (t.uniqueKeys.map Clause.uniqueKey).filterMap Clause.constraint? = [] := by
    simp [Clause.constraint?]
  rw [hcolumns, hprimary, hunique]
  simp [List.mapIdx_eq_zipIdx_map, Clause.constraint?, Function.comp_def]

theorem constraintNames_table (naming : Naming) (name owner : String) (x : Item) :
    (x.table naming name owner).constraintNames = [name ++ "_ibfk_1"] := by
  have hone : "_ibfk_" ++ Nat.repr 1 = "_ibfk_1" := by decide
  simp [constraintNames_eq, Item.table, String.append_assoc, hone]

namespace Item

/-- The names of the columns that items have in the table of their owner. -/
def columnNames (style : ColumnStyle) (items : List Item) : List String :=
  (items.filterMap (column? (plain style))).map Column.name

/-- No two columns of one list of items have one name, and none has that of a column that is there
without them. -/
structure ColumnsApart (style : ColumnStyle) (items : List Item) : Prop where
  nodup (l : List Item) : ListWithin l items → (columnNames style l).Nodup
  id_notMem (l : List Item) : ListWithin l items → "id" ∉ columnNames style l
  parent_notMem (name : String) (flags : Flags) (inner : List Item) :
    (group name flags inner).Within items → "parent_id" ∉ columnNames style inner

theorem ColumnsApart.nodup_table (h : ColumnsApart style items) (hx : x.Within items)
    (name owner : String) : (x.table (plain style) name owner).columnNames.Nodup := by
  cases x with
  | scalar type n flags => simp [table, Table.columnNames, ownColumns]
  | file n flags => simp [table, Table.columnNames, ownColumns]
  | foreign kind n => simp [table, Table.columnNames, ownColumns]
  | group n flags inner =>
    have hid : "id" ∉ columnNames style inner := h.id_notMem inner (Or.inr ⟨n, flags, hx⟩)
    have hparent : "parent_id" ∉ columnNames style inner := h.parent_notMem n flags inner hx
    have hnodup : (columnNames style inner).Nodup := h.nodup inner (Or.inr ⟨n, flags, hx⟩)
    show ("id" :: "parent_id" :: columnNames style inner).Nodup
    simp [hid, hparent, hnodup]

end Item

/-! ## The tables of a document type -/

variable {doc : Document} {d : Decomposition}

theorem nodup_names_of_decompose (h : doc.decompose (plain style) = .ok d)
    (hapart : Item.Apart doc.items) : (d.tables.map Table.name).Nodup := by
  obtain ⟨hroot, ht⟩ := decompose_eq_ok_iff.mp h
  rw [Decomposition.tables, List.map_cons, List.nodup_cons]
  refine ⟨fun hmem => ?_, ht.nodup_names hapart⟩
  obtain ⟨t, htmem, hname⟩ := List.mem_map.mp hmem
  obtain ⟨rest, happend⟩ := (ht.namedFrom t htmem).exists_append
  rw [hname, hroot] at happend
  simp [Table.withItems, Table.keyed] at happend

/-- A foreign key leads to the name of a table. -/
theorem exists_mem_of_reference {naming : Naming} (h : doc.decompose naming = .ok d) {t : Table}
    (ht : t ∈ d.tables) {key : ForeignKey} (hkey : key ∈ t.foreignKeys) :
    ∃ u ∈ d.tables, u.name = key.table := by
  obtain ⟨hroot, -⟩ := decompose_eq_ok_iff.mp h
  rcases List.mem_cons.mp ht with rfl | ht
  · rw [hroot] at hkey
    cases hkey
  · obtain ⟨x, owner, path, -, howner, rfl⟩ := exists_item_of_mem_children h ht
    obtain rfl := List.mem_singleton.mp hkey
    exact ⟨owner, howner, rfl⟩

theorem nodup_columns_of_decompose (h : doc.decompose (plain style) = .ok d)
    (hcolumns : Item.ColumnsApart style doc.items) : ∀ t ∈ d.tables, t.columnNames.Nodup := by
  obtain ⟨hroot, -⟩ := decompose_eq_ok_iff.mp h
  rw [Decomposition.tables, List.forall_mem_cons]
  constructor
  · have hid : "id" ∉ Item.columnNames style doc.items := hcolumns.id_notMem _ (Or.inl rfl)
    have hnodup : (Item.columnNames style doc.items).Nodup := hcolumns.nodup _ (Or.inl rfl)
    rw [hroot]
    show ("id" :: Item.columnNames style doc.items).Nodup
    exact List.nodup_cons.mpr ⟨hid, hnodup⟩
  · intro t ht
    obtain ⟨x, owner, path, hx, -, rfl⟩ := exists_item_of_mem_children h ht
    exact hcolumns.nodup_table hx _ _

theorem constraintNames_of_decompose {naming : Naming} (h : doc.decompose naming = .ok d) :
    d.tables.flatMap Table.constraintNames = d.children.map fun t => t.name ++ "_ibfk_1" := by
  obtain ⟨hroot, -⟩ := decompose_eq_ok_iff.mp h
  have hnone : d.root.constraintNames = [] := by
    rw [constraintNames_eq, hroot]
    rfl
  rw [Decomposition.tables, List.flatMap_cons, hnone, List.nil_append, List.map_eq_flatMap]
  refine List.flatMap_congr fun t ht => ?_
  obtain ⟨x, owner, path, -, -, rfl⟩ := exists_item_of_mem_children h ht
  exact constraintNames_table ..

/-- No two tables of a document type have one name under a plain naming, if no item with a table has
an underscore in its name and the names of such items beside one another differ between hyphens. So
every foreign key leads to one table and no two constraints have one name. If the columns of the
items beside one another are apart too, no two columns of a table have one name. -/
theorem nodup_names_plain (style : ColumnStyle) (doc : Document) (hknown : Item.Known doc.items)
    (hapart : Item.Apart doc.items) :
    ∃ d, doc.decompose (.plain style) = .ok d ∧
      (d.tables.map Table.name).Nodup ∧
      (∀ t ∈ d.tables, ∀ key ∈ t.foreignKeys, ∃! u, u ∈ d.tables ∧ u.name = key.table) ∧
      (d.tables.flatMap Table.constraintNames).Nodup ∧
      (Item.ColumnsApart style doc.items → ∀ t ∈ d.tables, t.columnNames.Nodup) := by
  obtain ⟨d, hd⟩ := exists_decompose (.plain style) hknown
  have hnodup := nodup_names_of_decompose hd hapart
  refine ⟨d, hd, hnodup, ?_, ?_, ?_⟩
  · intro t ht key hkey
    obtain ⟨u, hu, hname⟩ := exists_mem_of_reference hd ht hkey
    refine ⟨u, ⟨hu, hname⟩, fun v hv => ?_⟩
    exact List.inj_on_of_nodup_map hnodup hv.1 hu (hv.2.trans hname.symm)
  · rw [constraintNames_of_decompose hd]
    have hchildren : (d.children.map Table.name).Nodup := (List.nodup_cons.mp hnodup).2
    have hinj : Function.Injective fun name : String => name ++ "_ibfk_1" := by
      intro a b hab
      simpa using hab
    simpa [Function.comp_def] using hchildren.map hinj
  · intro hcolumns
    exact nodup_columns_of_decompose hd hcolumns

/-- Items with empty names and with spaces, and a column of the root that is named like a key. -/
theorem nodup_names_plain_empty_name :
    let items := [.group "" {} [.upload "a b", .scalar .integer "" ⟨false, true⟩, .integer "n_1"],
      .upload "a", .string "parent_id"]
    Item.Known items ∧ Item.Apart items ∧ Item.ColumnsApart .underscore items ∧
    ∃ d, (Document.mk "i_1" 1 "d" items).decompose (.plain .underscore) = .ok d ∧
      (d.tables.map Table.name).Nodup ∧
      (∀ t ∈ d.tables, ∀ key ∈ t.foreignKeys, ∃! u, u ∈ d.tables ∧ u.name = key.table) ∧
      (d.tables.flatMap Table.constraintNames).Nodup ∧ ∀ t ∈ d.tables, t.columnNames.Nodup := by
  intro items
  have hknown : Item.Known items := by
    simp [items, Item.integer, Item.upload, Item.string]
  have hlists : ∀ l, Item.ListWithin l items → l = items ∨
      l = [.upload "a b", .scalar .integer "" ⟨false, true⟩, .integer "n_1"] := by
    intro l hl
    simpa [items, Item.ListWithin, Item.within_cons, Item.not_within_nil, Item.integer,
      Item.upload, Item.string] using hl
  have hwithin : ∀ x : Item, x.Within items → x = .group "" {} [.upload "a b",
      .scalar .integer "" ⟨false, true⟩, .integer "n_1"] ∨ (x = .upload "a b" ∨
        x = .scalar .integer "" ⟨false, true⟩ ∨ x = .integer "n_1") ∨ x = .upload "a" ∨
        x = .string "parent_id" := by
    intro x hx
    simpa [items, Item.within_cons, Item.not_within_nil, Item.integer, Item.upload,
      Item.string] using hx
  have hapart : Item.Apart items := by
    refine ⟨fun x hx htable => ?_, fun l hl => ?_⟩
    · rcases hwithin x hx with rfl | (rfl | rfl | rfl) | rfl | rfl
      all_goals revert htable; decide
    · rcases hlists l hl with rfl | rfl <;> decide +kernel
  have hcolumns : Item.ColumnsApart .underscore items := by
    refine ⟨fun l hl => ?_, fun l hl => ?_, fun name flags inner hinner => ?_⟩
    · rcases hlists l hl with rfl | rfl <;> decide +kernel
    · rcases hlists l hl with rfl | rfl <;> decide +kernel
    · rcases hwithin _ hinner with heq | (heq | heq | heq) | heq | heq
      all_goals cases heq
      decide +kernel
  obtain ⟨d, hd, hnames, hkeys, hconstraints, hcols⟩ :=
    nodup_names_plain .underscore (Document.mk "i_1" 1 "d" items) hknown hapart
  exact ⟨hknown, hapart, hcolumns, d, hd, hnames, hkeys, hconstraints, hcols hcolumns⟩

end DocTables
