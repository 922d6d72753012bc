import DocTables.Proofs.Tabulation
import Mathlib.Data.List.Basic

/-!
# The layout of the tables

Which tables a document type has, and which of them owns which, does not depend on the names that
are given to them. An item stands at an `Address`. The items with tables of their own, which are the
repeated scalars, the files and the sections, stand in post-order in the layout
(`Item.isLayout_addressesFrom`), and so do their tables below the root. A table is owned by the one
at the address around its own, by position and not by name, since names may be the same
(`Tabulated.owned`).

So there is one layout for all namings, and the tables under two namings differ in names alone
(`exists_layout`).
-/

namespace DocTables

/-! ## Addresses -/

/-- Where an item stands : the numbers of the sections around it, from the outermost inwards, and
its own number among the items there. -/
abbrev Address := List Nat

/-- In post-order an item comes after all that is in it, and before the items after it. -/
def Address.Before : Address → Address → Prop
  | i :: a, j :: b => i < j ∨ i = j ∧ Before a b
  | _ :: _, [] => True
  | [], _ => False

namespace Item

/-- The items of a section. -/
def inner : Item → List Item
  | group _ _ items => items
  | scalar .. | file .. | foreign .. => []

/-- The item at an address. -/
def at? : List Item → Address → Option Item
  | _, [] => none
  | items, [i] => items[i]?
  | items, i :: j :: a => items[i]?.bind fun x => at? x.inner (j :: a)

/-- The item has a table of its own. -/
def hasTable : Item → Bool
  | scalar _ _ flags => flags.repeated
  | file .. | group .. => true
  | foreign .. => false

mutual

/-- The addresses of the tables of an item, as they go on from its own address. -/
def addresses : Item → List Address
  | scalar _ _ flags => if flags.repeated then [[]] else []
  | file .. => [[]]
  | group _ _ items => addressesFrom 0 items ++ [[]]
  | foreign .. => []

/-- The addresses of the tables of items that are numbered from `i` on. -/
def addressesFrom (i : Nat) : List Item → List Address
  | [] => []
  | x :: items => x.addresses.map (i :: ·) ++ addressesFrom (i + 1) items

end

/-- The addresses in `layout` are those of the items with tables. -/
structure IsLayout (items : List Item) (layout : List Address) : Prop where
  mem_iff (a : Address) : a ∈ layout ↔ ∃ x, at? items a = some x ∧ x.hasTable
  /-- They stand in post-order, and so each of them once. -/
  pairwise : layout.Pairwise Address.Before

variable {x : Item} {items : List Item} {a : Address} {i : Nat}

theorem addresses_eq (x : Item) :
    x.addresses = addressesFrom 0 x.inner ++ if x.hasTable then [[]] else [] := by
  cases x with
  | scalar _ _ flags =>
    cases hrep : flags.repeated <;> simp [addresses, inner, hasTable, addressesFrom, hrep]
  | _ => simp [addresses, inner, hasTable, addressesFrom]

theorem mem_addressesFrom : a ∈ addressesFrom i items ↔
    ∃ k x b, items[k]? = some x ∧ b ∈ x.addresses ∧ a = (i + k) :: b := by
  induction items generalizing i with
  | nil => simp [addressesFrom]
  | cons y items ih =>
    rw [addressesFrom, List.mem_append, List.mem_map, ih]
    constructor
    · rintro (⟨b, hb, rfl⟩ | ⟨k, x, b, hx, hb, rfl⟩)
      · exact ⟨0, y, b, rfl, hb, rfl⟩
      · exact ⟨k + 1, x, b, hx, hb, by rw [Nat.add_right_comm, Nat.add_assoc]⟩
    · rintro ⟨_ | k, x, b, hx, hb, rfl⟩
      · obtain rfl := Option.some.inj hx
        exact Or.inl ⟨b, hb, rfl⟩
      · exact Or.inr ⟨k, x, b, hx, hb, by rw [Nat.add_right_comm, Nat.add_assoc]⟩

/-- No item stands at the empty address. -/
theorem nil_notMem_addressesFrom : [] ∉ addressesFrom i items := by
  simp [mem_addressesFrom]

theorem nil_mem_addresses_iff : [] ∈ x.addresses ↔ x.hasTable := by
  rw [addresses_eq, List.mem_append, or_iff_right nil_notMem_addressesFrom]
  split <;> simp [*]

theorem cons_mem_addresses_iff : i :: a ∈ x.addresses ↔ i :: a ∈ addressesFrom 0 x.inner := by
  rw [addresses_eq, List.mem_append, or_iff_left]
  split <;> simp

theorem mem_addressesFrom_zero_iff : ∀ {items : List Item} {a : Address},
    a ∈ addressesFrom 0 items ↔ ∃ x, at? items a = some x ∧ x.hasTable
  | _, [] => by simp [nil_notMem_addressesFrom, at?]
  | items, [i] => by
    simp [mem_addressesFrom, at?, nil_mem_addresses_iff]
  | items, i :: j :: a => by
    have hcons : ∀ x : Item, j :: a ∈ x.addresses ↔
        ∃ y, at? x.inner (j :: a) = some y ∧ y.hasTable := by
      intro x
      rw [cons_mem_addresses_iff, mem_addressesFrom_zero_iff]
    simp only [mem_addressesFrom, at?, Option.bind_eq_some_iff]
    constructor
    · rintro ⟨k, x, b, hx, hb, hab⟩
      obtain ⟨hk, rfl⟩ := List.cons.inj hab
      obtain rfl : i = k := by omega
      obtain ⟨y, hy, htable⟩ := (hcons x).mp hb
      exact ⟨y, ⟨x, hx, hy⟩, htable⟩
    · rintro ⟨y, ⟨x, hx, hy⟩, htable⟩
      exact ⟨i, x, j :: a, hx, (hcons x).mpr ⟨y, hy, htable⟩, by rw [Nat.zero_add]⟩

mutual

theorem pairwise_addresses : ∀ x : Item, x.addresses.Pairwise Address.Before
  | scalar _ _ flags => by
    rw [addresses]
    split <;> simp
  | file .. => by simp [addresses]
  | group _ _ items => by
    rw [addresses, List.pairwise_append]
    refine ⟨pairwise_addressesFrom 0 items, by simp, ?_⟩
    rintro (_ | ⟨i, a⟩) ha b hb
    · exact (nil_notMem_addressesFrom ha).elim
    · rw [List.mem_singleton.mp hb]
      trivial
  | foreign .. => by simp [addresses]

theorem pairwise_addressesFrom : ∀ (i : Nat) (items : List Item),
    (addressesFrom i items).Pairwise Address.Before
  | _, [] => by simp [addressesFrom]
  | i, x :: items => by
    rw [addressesFrom, List.pairwise_append]
    refine ⟨?_, pairwise_addressesFrom (i + 1) items, ?_⟩
    · rw [List.pairwise_map]
      exact (pairwise_addresses x).imp fun h => Or.inr ⟨rfl, h⟩
    · intro a ha b hb
      obtain ⟨a, -, rfl⟩ := List.mem_map.mp ha
      obtain ⟨k, y, b, -, -, rfl⟩ := mem_addressesFrom.mp hb
      exact Or.inl (by omega)

end

theorem isLayout_addressesFrom (items : List Item) : IsLayout items (addressesFrom 0 items) where
  mem_iff _ := mem_addressesFrom_zero_iff
  pairwise := pairwise_addressesFrom 0 items

example : addressesFrom 0 [.integer "a", .ofItems "b" [.upload "c", .integer "d", .upload "e"]] =
    [[1, 0], [1, 2], [1]] :=
  rfl

theorem within_of_at? : ∀ {items : List Item} {a : Address}, at? items a = some x → x.Within items
  | _, [i], h => .here (List.mem_of_getElem? h)
  | items, i :: j :: a, h => by
    obtain ⟨y, hy, hx⟩ := Option.bind_eq_some_iff.mp h
    have hwithin : x.Within y.inner := within_of_at? hx
    cases y with
    | group name flags inner => exact .inside (List.mem_of_getElem? hy) hwithin
    | _ => exact (not_within_nil hwithin).elim

end Item

/-! ## Tables -/

namespace Item

/-- The columns of an item's table after those that link it to its owner. -/
def ownColumns (naming : Naming) : Item → List Column
  | scalar type _ flags => [⟨"value", type.columnType, flags.optional⟩]
  | file .. => [⟨"filename", .fixedChar 200, false⟩, ⟨"filepath", .text, false⟩]
  | group _ _ items => items.filterMap (column? naming)
  | foreign .. => []

/-- The unique keys of an item's table. A file or a section that does not repeat is there once at
most for each row of its owner. -/
def uniqueKeys : Item → List (List String)
  | file _ flags | group _ flags _ => if flags.repeated then [] else [["parent_id"]]
  | scalar .. | foreign .. => []

/-- The table of an item. -/
def table (naming : Naming) (name owner : String) (x : Item) : Table where
  name
  columns := ⟨"id", .fixedChar 36, false⟩ :: ⟨"parent_id", .fixedChar 36, false⟩ ::
    x.ownColumns naming
  primaryKey := ["id"]
  foreignKeys := [⟨"parent_id", owner, "id"⟩]
  uniqueKeys := x.uniqueKeys

end Item

theorem ofValues_eq (naming : Naming) (name owner itemName : String) (type : ScalarType)
    (flags : Flags) : Table.ofValues name owner type flags =
      (Item.scalar type itemName flags).table naming name owner :=
  rfl

theorem ofFile_eq (naming : Naming) (name owner itemName : String) (flags : Flags) :
    Table.ofFile name owner flags = (Item.file itemName flags).table naming name owner := by
  cases hrep : flags.repeated <;>
    simp [Table.ofFile, Table.withArity, Table.addColumn, Table.addUniqueKey, Table.childOf,
      Table.idColumn, Table.parentColumn, Item.table, Item.ownColumns, Item.uniqueKeys, hrep]

theorem ofSection_eq (naming : Naming) (name owner itemName : String) (flags : Flags)
    (items : List Item) : Table.ofSection naming name owner flags items =
      (Item.group itemName flags items).table naming name owner := by
  cases hrep : flags.repeated <;>
    simp [Table.ofSection, Table.withArity, Table.withItems, Table.addUniqueKey, Table.childOf,
      Table.idColumn, Table.parentColumn, Item.table, Item.ownColumns, Item.uniqueKeys, hrep]

/-! ## Owners by address -/

/-- The table at an address is that of the item there. The address without its last number is that
of its owner, and `known` has the name of the owner at this address. -/
def Owned (naming : Naming) (known : List (Address × String)) (items : List Item)
    (e : Address × Table) : Prop :=
  ∃ x path owner, Item.at? items e.1 = some x ∧ (e.1.dropLast, owner) ∈ known ∧
    e.2 = x.table naming (naming.childTable owner path x.name) owner

variable {naming : Naming} {owner : String} {scope : Scope} {items all : List Item}
  {tables : List Table} {i : Nat}

theorem Owned.mono {known known' : List (Address × String)} {e : Address × Table}
    (hsub : known ⊆ known') (h : Owned naming known items e) : Owned naming known' items e := by
  obtain ⟨x, path, owner, hx, howner, ht⟩ := h
  exact ⟨x, path, owner, hx, hsub howner, ht⟩

theorem Tabulated.length_addressesFrom (h : Tabulated naming owner scope items tables) :
    ∀ i, (Item.addressesFrom i items).length = tables.length := by
  induction h with
  | nil => simp [Item.addressesFrom]
  | column hrep _ ih => simp [Item.addressesFrom, Item.addresses, hrep, ih]
  | values hrep _ ih => simp [Item.addressesFrom, Item.addresses, hrep, ih]
  | file _ ih => simp [Item.addressesFrom, Item.addresses, ih]
  | group _ _ ihinner ih => simp [Item.addressesFrom, Item.addresses, ihinner, ih]

/-- The names of tables at their addresses. -/
def named (layout : List Address) (tables : List Table) : List (Address × String) :=
  layout.zip (tables.map Table.name)

theorem getElem?_of_drop_eq_cons {x : Item} (h : all.drop i = x :: items) :
    all[i]? = some x ∧ all.drop (i + 1) = items := by
  constructor
  · have := congrArg (·[0]?) h
    simpa using this
  · have := congrArg (List.drop 1) h
    simpa using this

/-- An item among others is owned by what owns them, in front of the tables of the items after it.
-/
theorem owned_cons {layout : List Address} {x : Item} (hx : all[i]? = some x) (path : String)
    (h : ∀ e ∈ layout.zip tables, Owned naming (([], owner) :: named layout tables) all e) :
    let t := x.table naming (naming.childTable owner path x.name) owner
    ∀ e ∈ ([i] :: layout).zip (t :: tables),
      Owned naming (([], owner) :: named ([i] :: layout) (t :: tables)) all e := by
  intro t
  rw [List.zip_cons_cons, List.forall_mem_cons]
  refine ⟨⟨x, path, owner, hx, List.mem_cons_self, rfl⟩, fun e he => (h e he).mono ?_⟩
  exact List.cons_subset_cons _ (List.subset_cons_self _ _)

/-- What is owned inside a section is owned by the table of the section or by one inside it. -/
theorem Owned.inside {known known' : List (Address × String)} {x : Item} {e : Address × Table}
    (hx : all[i]? = some x) (h : Owned naming (([], owner) :: known) x.inner e)
    (hsub : (([], owner) :: known).map (fun e => (i :: e.1, e.2)) ⊆ known') :
    Owned naming known' all (i :: e.1, e.2) := by
  obtain ⟨a, t⟩ := e
  obtain ⟨y, path, o, hy, ho, rfl⟩ := h
  cases a with
  | nil => cases hy
  | cons j a =>
    refine ⟨y, path, o, ?_, hsub (List.mem_map_of_mem ho), rfl⟩
    show (all[i]?.bind fun x => Item.at? x.inner (j :: a)) = some y
    rw [hx, Option.bind_some, hy]

theorem Tabulated.owned (h : Tabulated naming owner scope items tables) :
    ∀ {all : List Item} {i : Nat}, all.drop i = items →
      ∀ e ∈ (Item.addressesFrom i items).zip tables,
        Owned naming (([], owner) :: named (Item.addressesFrom i items) tables) all e := by
  induction h with
  | nil => simp [Item.addressesFrom]
  | column hrep _ ih =>
    intro all i hall
    simpa [Item.addressesFrom, Item.addresses, hrep] using ih (getElem?_of_drop_eq_cons hall).2
  | @values _ itemName _ _ _ _ _ hrep _ ih =>
    intro all i hall
    obtain ⟨hx, hdrop⟩ := getElem?_of_drop_eq_cons hall
    rw [Item.addressesFrom, Item.addresses, if_pos hrep, ofValues_eq naming _ _ itemName]
    exact owned_cons hx _ (ih hdrop)
  | @file _ itemName _ _ _ _ _ ih =>
    intro all i hall
    obtain ⟨hx, hdrop⟩ := getElem?_of_drop_eq_cons hall
    rw [Item.addressesFrom, Item.addresses, ofFile_eq naming _ _ itemName]
    exact owned_cons hx _ (ih hdrop)
  | @group _ itemName scope _ inner _ below _ hbelow _ ihinner ih =>
    intro all i hall
    obtain ⟨hx, hdrop⟩ := getElem?_of_drop_eq_cons hall
    have hsection := owned_cons hx scope.path (ih hdrop)
    have hlength : ((Item.addressesFrom 0 inner).map (i :: ·)).length = below.length := by
      rw [List.length_map, hbelow.length_addressesFrom]
    rw [Item.addressesFrom, Item.addresses, List.map_append, List.append_assoc,
      ofSection_eq naming _ _ itemName, named, List.map_append, List.zip_append hlength,
      List.zip_append (by rw [hlength, List.length_map]), List.forall_mem_append]
    constructor
    · intro e he
      rw [List.zip_map_left] at he
      obtain ⟨e', he', rfl⟩ := List.mem_map.mp he
      refine (ihinner (List.drop_zero ..) e' he').inside hx ?_
      rw [List.map_cons, named, List.zip_map_left]
      refine List.cons_subset.mpr ⟨by simp [Item.table], ?_⟩
      exact List.Subset.trans (List.subset_append_left _ _) (List.subset_cons_self _ _)
    · refine fun e he => (hsection e he).mono (List.cons_subset_cons _ ?_)
      exact List.subset_append_right _ _

/-! ## The tables of a document type -/

/-- The tables of a document type stand at the addresses of a layout, with the root at the empty
address. -/
structure LaidOut (naming : Naming) (doc : Document) (layout : List Address) (d : Decomposition) :
    Prop where
  root : d.root = {
    name := naming.rootTable doc.id doc.revision
    columns := ⟨"id", .fixedChar 36, false⟩ :: doc.items.filterMap (Item.column? naming)
    primaryKey := ["id"] }
  length : d.children.length = layout.length
  /-- A table is that of the item at its address, and leads to the name of the table of the section
  around the item, or of the root if there is none. -/
  child (a : Address) (t : Table) : (a, t) ∈ layout.zip d.children →
    ∃ x owner, Item.at? doc.items a = some x ∧
      (a.dropLast, owner) ∈ ([] :: layout).zip d.tables ∧ t = x.table naming t.name owner.name

variable {doc : Document} {d : Decomposition}

/-- A table below the root is that of the item at its address, and named from its owner, which is
the table at the address around it. -/
theorem exists_owner_of_decompose (h : doc.decompose naming = .ok d) {a : Address} {t : Table}
    (hmem : (a, t) ∈ (Item.addressesFrom 0 doc.items).zip d.children) :
    ∃ (x : Item) (owner : Table) (path : String), Item.at? doc.items a = some x ∧
      (a.dropLast, owner) ∈ ([] :: Item.addressesFrom 0 doc.items).zip d.tables ∧
      t = x.table naming (naming.childTable owner.name path x.name) owner.name := by
  obtain ⟨hroot, ht⟩ := decompose_eq_ok_iff.mp h
  obtain ⟨x, path, owner, hx, howner, rfl⟩ := ht.owned (List.drop_zero ..) (a, t) hmem
  have hnamed : (a.dropLast, owner) ∈
      ([] :: Item.addressesFrom 0 doc.items).zip (d.tables.map Table.name) := by
    rw [Decomposition.tables, List.map_cons, List.zip_cons_cons, hroot]
    exact howner
  rw [List.zip_map_right] at hnamed
  obtain ⟨⟨b, u⟩, hu, heq⟩ := List.mem_map.mp hnamed
  obtain ⟨rfl, rfl⟩ := Prod.mk.inj heq
  exact ⟨x, u, path, hx, hu, rfl⟩

theorem laidOut_of_decompose (h : doc.decompose naming = .ok d) :
    LaidOut naming doc (Item.addressesFrom 0 doc.items) d := by
  obtain ⟨hroot, ht⟩ := decompose_eq_ok_iff.mp h
  refine ⟨hroot, (ht.length_addressesFrom 0).symm, fun a t hmem => ?_⟩
  obtain ⟨x, owner, path, hx, howner, rfl⟩ := exists_owner_of_decompose h hmem
  exact ⟨x, owner, hx, howner, rfl⟩

/-- A table below the root is that of an item, and named from one of the tables, which owns it. -/
theorem exists_item_of_mem_children (h : doc.decompose naming = .ok d) {t : Table}
    (ht : t ∈ d.children) : ∃ (x : Item) (owner : Table) (path : String), x.Within doc.items ∧
      owner ∈ d.tables ∧
      t = x.table naming (naming.childTable owner.name path x.name) owner.name := by
  obtain ⟨a, hmem⟩ : ∃ a, (a, t) ∈ (Item.addressesFrom 0 doc.items).zip d.children := by
    have hlength := (laidOut_of_decompose h).length
    rw [← List.map_snd_zip (Nat.le_of_eq hlength)] at ht
    obtain ⟨⟨a, u⟩, hmem, rfl⟩ := List.mem_map.mp ht
    exact ⟨a, hmem⟩
  obtain ⟨x, owner, path, hx, howner, ht⟩ := exists_owner_of_decompose h hmem
  exact ⟨x, owner, path, Item.within_of_at? hx, (List.of_mem_zip howner).2, ht⟩

/-! ## Two namings -/

/-- The table without its name, the names of its columns and those of the tables that it refers to.
-/
def Table.unnamed (t : Table) : Table :=
  { t with
    name := ""
    columns := t.columns.map ({ · with name := "" })
    foreignKeys := t.foreignKeys.map ({ · with table := "" }) }

theorem map_column?_unnamed (naming naming' : Naming) (items : List Item) :
    (items.filterMap (Item.column? naming)).map (fun c => { c with name := "" }) =
      (items.filterMap (Item.column? naming')).map (fun c => { c with name := "" }) := by
  rw [List.map_filterMap, List.map_filterMap]
  congr 1
  funext x
  cases x with
  | scalar type name flags => cases hrep : flags.repeated <;> simp [Item.column?, hrep]
  | _ => rfl

theorem unnamed_table (naming naming' : Naming) (x : Item) (name owner name' owner' : String) :
    (x.table naming name owner).unnamed = (x.table naming' name' owner').unnamed := by
  cases x with
  | group n flags items =>
    simp [Item.table, Table.unnamed, Item.ownColumns, Item.uniqueKeys,
      map_column?_unnamed naming naming']
  | _ => rfl

theorem LaidOut.unnamed_eq {naming' : Naming} {layout : List Address} {d' : Decomposition}
    (h : LaidOut naming doc layout d) (h' : LaidOut naming' doc layout d') :
    d.tables.map Table.unnamed = d'.tables.map Table.unnamed := by
  rw [Decomposition.tables, Decomposition.tables, List.map_cons, List.map_cons, h.root, h'.root]
  congr 1
  · simp [Table.unnamed, map_column?_unnamed naming naming']
  · refine List.ext_getElem (by simp [h.length, h'.length]) fun i hi hi' => ?_
    rw [List.length_map] at hi hi'
    have hlayout : i < layout.length := h.length ▸ hi
    have hmem : ∀ {e : Decomposition} (he : i < e.children.length),
        (layout[i], e.children[i]) ∈ layout.zip e.children := by
      intro e he
      rw [← List.getElem_zip (h := by simp; omega)]
      exact List.getElem_mem _
    obtain ⟨x, owner, hx, -, ht⟩ := h.child _ _ (hmem hi)
    obtain ⟨x', owner', hx', -, ht'⟩ := h'.child _ _ (hmem hi')
    obtain rfl := Option.some.inj (hx.symm.trans hx')
    rw [List.getElem_map, List.getElem_map, ht, ht']
    exact unnamed_table ..

/-- The tables of a document type without items of unknown kinds have one layout, whatever the
naming is. It has the root, and one table for each repeated scalar, file or section, in post-order.
The tables under two namings differ in the names of tables and columns alone. -/
theorem exists_layout (doc : Document) (h : Item.Known doc.items) :
    ∃ layout, Item.IsLayout doc.items layout ∧
      (∀ naming, ∃ d, doc.decompose naming = .ok d ∧ LaidOut naming doc layout d) ∧
      ∀ naming naming' d d', doc.decompose naming = .ok d → doc.decompose naming' = .ok d' →
        d.tables.map Table.unnamed = d'.tables.map Table.unnamed := by
  refine ⟨_, Item.isLayout_addressesFrom doc.items, fun naming => ?_, fun _ _ _ _ hd hd' => ?_⟩
  · obtain ⟨d, hd⟩ := exists_decompose naming h
    exact ⟨d, hd, laidOut_of_decompose hd⟩
  · exact (laidOut_of_decompose hd).unnamed_eq (laidOut_of_decompose hd')

/-- A section with columns between its tables, and a naming that gives every table one name. -/
theorem exists_layout_one_name :
    Item.Known [.group "s" {} [.scalar .integer "n" ⟨false, true⟩, .integer "m", .upload "f"],
      .string "t"] ∧
    ∃ layout,
      Item.IsLayout [.group "s" {} [.scalar .integer "n" ⟨false, true⟩, .integer "m", .upload "f"],
        .string "t"] layout ∧
      ∃ d, (Document.mk "a" 1 "d" [.group "s" {} [.scalar .integer "n" ⟨false, true⟩, .integer "m",
          .upload "f"], .string "t"]).decompose ⟨fun _ _ => "t", fun _ _ _ => "t", id, id⟩ = .ok d ∧
        LaidOut ⟨fun _ _ => "t", fun _ _ _ => "t", id, id⟩ (Document.mk "a" 1 "d" [.group "s" {}
          [.scalar .integer "n" ⟨false, true⟩, .integer "m", .upload "f"], .string "t"]) layout
          d := by
  have hknown : Item.Known [.group "s" {} [.scalar .integer "n" ⟨false, true⟩, .integer "m",
      .upload "f"], .string "t"] := by
    simp [Item.integer, Item.upload, Item.string]
  obtain ⟨layout, hlayout, hd, -⟩ := exists_layout (Document.mk "a" 1 "d" _) hknown
  exact ⟨hknown, layout, hlayout, hd _⟩

end DocTables
