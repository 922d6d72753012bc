import DocTables.Proofs.Layout
import DocTables.Proofs.Ownership
import DocTables.Proofs.QuotedNames
import DocTables.Settings

/-!
# How long the names in a script are

A naming that shortens names keeps to its limit with those of tables and of columns
(`Naming.bounded_shortened`), and the names that are always there have at most nine characters. The
names of constraints are made from those of tables that are already shortened, and so they may be
longer than the limit by the seven characters of `_ibfk_1`. Nothing else in a script is longer, and
everything in it fits if there is room for seven characters after the name of every table but the
root (`length_quotedNames`).
-/

namespace DocTables

namespace Naming

/-! ## Bounds on names -/

/-- No name of a table or of a column is longer than the limit. -/
structure Bounded (naming : Naming) (limit : Nat) : Prop where
  rootTable_le (id : String) (revision : Int32) : (naming.rootTable id revision).length ≤ limit
  childTable_le (owner path name : String) : (naming.childTable owner path name).length ≤ limit
  column_le (name : String) : (naming.column name).length ≤ limit

/-- The first characters and the suffix fill the limit, and no more. -/
theorem length_shorten_le (limit : Nat) (name : String) :
    (shorten limit name).length ≤ effectiveLimit limit := by
  unfold shorten
  dsimp only
  split
  · assumption
  · have hroom : suffixLength + 1 ≤ effectiveLimit limit := Nat.le_max_right _ _
    rw [String.length_ofList, List.length_append, List.length_cons, List.length_take,
      List.length_take]
    have hsuffix : suffixLength = digestLength + 1 := rfl
    omega

theorem bounded_shortened (inner : Naming) (limit : Nat) :
    (inner.shortened limit).Bounded (effectiveLimit limit) where
  rootTable_le _ _ := length_shorten_le _ _
  childTable_le _ _ _ := length_shorten_le _ _
  column_le _ := length_shorten_le _ _

theorem effectiveLimit_of_le {limit : Nat} (h : 18 ≤ limit) : effectiveLimit limit = limit :=
  Nat.max_eq_left h

end Naming

theorem Settings.bounded_naming {s : Settings} {limit : Nat} (h : s.maxNameLength = some limit)
    (hlimit : 18 ≤ limit) : s.naming.Bounded limit := by
  have hbounded := (Naming.plain s.columns).bounded_shortened limit
  rw [Naming.effectiveLimit_of_le hlimit] at hbounded
  rwa [Settings.naming, h]

/-! ## Bounds on what is quoted -/

theorem length_append_constraint (name : String) :
    (name ++ "_ibfk_1").length = name.length + 7 := by
  rw [String.length_append]
  rfl

variable {naming : Naming} {limit : Nat} {doc : Document} {d : Decomposition}

theorem length_le_of_mem_column? (h : naming.Bounded limit) (items : List Item) :
    ∀ c ∈ items.filterMap (Item.column? naming), c.name.length ≤ limit := by
  intro c hc
  obtain ⟨x, -, hx⟩ := List.mem_filterMap.mp hc
  cases x with
  | scalar type name flags =>
    simp only [Item.column?] at hx
    split_ifs at hx
    obtain rfl := Option.some.inj hx
    exact h.column_le name
  | _ => cases hx

/-- The quoted names in the statement of the root. -/
theorem identifiers_keyed (name : String) (columns : List Column) :
    (Table.identifiers { name, columns, primaryKey := ["id"] }) =
      name :: (columns.map Column.name ++ ["id"]) := by
  simp [identifiers_eq, Table.columnNames]

/-- The quoted names in the statement of an item's table. -/
theorem identifiers_table (x : Item) (name owner : String) :
    (x.table naming name owner).identifiers = name :: "id" :: "parent_id" ::
      ((x.ownColumns naming).map Column.name ++ "id" ::
        ((x.uniqueKeys.flatMap fun columns => "_".intercalate columns :: columns) ++
          [name ++ "_ibfk_1", "parent_id", owner, "id"])) := by
  have hone : "_ibfk_" ++ Nat.repr 1 = "_ibfk_1" := by decide
  simp [identifiers_eq, Table.columnNames, Item.table, String.append_assoc, hone]

theorem eq_of_mem_uniqueKeys (x : Item) :
    ∀ name ∈ x.uniqueKeys.flatMap fun columns => "_".intercalate columns :: columns,
      name = "parent_id" := by
  have hkeys : x.uniqueKeys = [] ∨ x.uniqueKeys = [["parent_id"]] := by
    cases x with
    | file _ flags | group _ flags _ => cases hrep : flags.repeated <;> simp [Item.uniqueKeys, hrep]
    | _ => exact Or.inl rfl
  rcases hkeys with h | h <;> simp [h]

theorem length_le_of_mem_ownColumns (h : naming.Bounded limit) (hlimit : 18 ≤ limit) (x : Item) :
    ∀ c ∈ x.ownColumns naming, c.name.length ≤ limit := by
  have hvalue : "value".length ≤ limit := Nat.le_trans (by decide) hlimit
  have hfilename : "filename".length ≤ limit := Nat.le_trans (by decide) hlimit
  have hfilepath : "filepath".length ≤ limit := Nat.le_trans (by decide) hlimit
  cases x with
  | scalar type name flags => exact List.forall_mem_singleton.mpr hvalue
  | file name flags =>
    exact List.forall_mem_cons.mpr ⟨hfilename, List.forall_mem_singleton.mpr hfilepath⟩
  | group name flags items => exact length_le_of_mem_column? h items
  | foreign kind name => simp [Item.ownColumns]

/-- Of what an item's table quotes, only the name of its constraint may be longer than the limit. -/
theorem length_le_of_mem_identifiers_table (h : naming.Bounded limit) (hlimit : 18 ≤ limit)
    {x : Item} {name owner : String} (hname : name.length ≤ limit) (howner : owner.length ≤ limit) :
    ∀ s ∈ (x.table naming name owner).identifiers,
      s.length ≤ limit ∨ s = name ++ "_ibfk_1" := by
  have hid : "id".length ≤ limit := Nat.le_trans (by decide) hlimit
  have hparent : "parent_id".length ≤ limit := Nat.le_trans (by decide) hlimit
  intro s hs
  simp only [identifiers_table, List.mem_cons, List.mem_append, List.mem_map, List.not_mem_nil,
    or_false] at hs
  rcases hs with rfl | rfl | rfl | ⟨c, hc, rfl⟩ | rfl | hs | rfl | rfl | rfl | rfl
  · exact Or.inl hname
  · exact Or.inl hid
  · exact Or.inl hparent
  · exact Or.inl (length_le_of_mem_ownColumns h hlimit x c hc)
  · exact Or.inl hid
  · exact Or.inl (eq_of_mem_uniqueKeys x s hs ▸ hparent)
  · exact Or.inr rfl
  · exact Or.inl hparent
  · exact Or.inl howner
  · exact Or.inl hid

/-! ## The tables of a document type -/

theorem length_name_le (h : naming.Bounded limit) (hd : doc.decompose naming = .ok d) :
    ∀ t ∈ d.tables, t.name.length ≤ limit := by
  obtain ⟨hroot, -⟩ := decompose_eq_ok_iff.mp hd
  refine List.forall_mem_cons.mpr ⟨?_, fun t ht => ?_⟩
  · rw [hroot]
    exact h.rootTable_le _ _
  · obtain ⟨x, owner, path, -, -, rfl⟩ := exists_item_of_mem_children hd ht
    exact h.childTable_le _ _ _

theorem constraint_mem_identifiers (hd : doc.decompose naming = .ok d) :
    ∀ t ∈ d.children, t.name ++ "_ibfk_1" ∈ t.identifiers := by
  intro t ht
  obtain ⟨x, owner, path, -, -, rfl⟩ := exists_item_of_mem_children hd ht
  rw [identifiers_table]
  simp [Item.table]

theorem length_le_of_mem_identifiers (h : naming.Bounded limit) (hlimit : 18 ≤ limit)
    (hd : doc.decompose naming = .ok d) : ∀ t ∈ d.tables, ∀ s ∈ t.identifiers,
      s.length ≤ limit ∨ t ∈ d.children ∧ s = t.name ++ "_ibfk_1" := by
  refine List.forall_mem_cons.mpr ⟨fun s hs => Or.inl ?_, fun t ht s hs => ?_⟩
  · have hid : "id".length ≤ limit := Nat.le_trans (by decide) hlimit
    rw [(laidOut_of_decompose hd).root, identifiers_keyed] at hs
    simp only [List.map_cons, List.mem_cons, List.mem_append, List.mem_map, List.not_mem_nil,
      or_false] at hs
    rcases hs with rfl | (rfl | ⟨c, hc, rfl⟩) | rfl
    · exact h.rootTable_le _ _
    · exact hid
    · exact length_le_of_mem_column? h doc.items c hc
    · exact hid
  · obtain ⟨x, owner, path, -, howner, rfl⟩ := exists_item_of_mem_children hd ht
    exact (length_le_of_mem_identifiers_table h hlimit (h.childTable_le _ _ _)
      (length_name_le h hd owner howner) s hs).imp_right fun hs => ⟨ht, hs⟩

/-- The names that are quoted in a script are those of the tables, their columns and their keys. If
names are shortened to a limit of eighteen characters or more, none of them is longer except for
those of constraints, which are made from the shortened names of tables and so are longer than these
by seven characters. Everything fits the limit exactly if there is room for these characters after
the name of every table but the root. -/
theorem length_quotedNames (s : Settings) (limit : Nat) (doc : Document) (sql : String)
    (hname : s.maxNameLength = some limit) (hlimit : 18 ≤ limit)
    (h : s.compiler.compile doc = .ok sql) :
    ∃ d, doc.decompose s.naming = .ok d ∧ Creates s.dialect sql (d.root :: d.children.reverse) ∧
      (s.dialect.Unquoted →
        quotedNames sql = (d.root :: d.children.reverse).flatMap Table.identifiers) ∧
      (∀ t ∈ d.tables, ∀ name ∈ t.identifiers, name.length ≤ limit ∨
        t ∈ d.children ∧ name = t.name ++ "_ibfk_1" ∧ name.length ≤ limit + 7) ∧
      ((∀ t ∈ d.tables, ∀ name ∈ t.identifiers, name.length ≤ limit) ↔
        ∀ t ∈ d.children, t.name.length + 7 ≤ limit) := by
  obtain ⟨d, hd, hcreates⟩ := creates_of_compile h
  have hbounded := Settings.bounded_naming hname hlimit
  have hnames := length_name_le hbounded hd
  have hidentifiers := length_le_of_mem_identifiers hbounded hlimit hd
  refine ⟨d, hd, hcreates, ?_, ?_, ?_⟩
  · intro hdialect
    rw [hcreates]
    exact quotedNames_join_statements hdialect _
  · intro t ht name hmem
    refine (hidentifiers t ht name hmem).imp_right fun ⟨hchild, heq⟩ => ⟨hchild, heq, ?_⟩
    have hlength := hnames t ht
    rw [heq, length_append_constraint]
    omega
  · constructor
    · intro hfits t ht
      rw [← length_append_constraint]
      exact hfits t (List.mem_cons_of_mem _ ht) _ (constraint_mem_identifiers hd t ht)
    · intro hroom t ht name hmem
      rcases hidentifiers t ht name hmem with hle | ⟨hchild, rfl⟩
      · exact hle
      · rw [length_append_constraint]
        exact hroom t hchild

theorem exists_of_isOk {ε α : Type} {x : Except ε α} (h : x.isOk) : ∃ a, x = .ok a := by
  cases x with
  | error e => cases h
  | ok a => exact ⟨a, rfl⟩

/-- A name that is cut to eighteen characters, and the constraint that is made from it. -/
theorem length_quotedNames_eighteen :
    let doc : Document := .mk "i" 1 "d" [.upload "attachment", .integer "n"]
    ∃ sql d, (Settings.compiler { maxNameLength := some 18 }).compile doc = .ok sql ∧
      doc.decompose (Settings.naming { maxNameLength := some 18 }) = .ok d ∧
      quotedNames sql = (d.root :: d.children.reverse).flatMap Table.identifiers ∧
      ∀ t ∈ d.tables, ∀ name ∈ t.identifiers, name.length ≤ 18 ∨
        t ∈ d.children ∧ name = t.name ++ "_ibfk_1" ∧ name.length ≤ 25 := by
  intro doc
  have hok : ((Settings.compiler { maxNameLength := some 18 }).compile doc).isOk := by
    decide +kernel
  obtain ⟨sql, hsql⟩ := exists_of_isOk hok
  obtain ⟨d, hd, -, hquoted, hlength, -⟩ := length_quotedNames { maxNameLength := some 18 } 18 doc
    sql rfl (Nat.le_refl 18) hsql
  exact ⟨sql, d, hsql, hd, hquoted ⟨by decide, by decide, by decide⟩, hlength⟩

/-- The name of the table is as long as the limit, so that the name of the constraint is longer. -/
theorem exists_length_quotedNames_gt :
    let doc : Document := .mk "733bee1b-f79a-4cb7-b675-842317b994b5" 1 "invoice"
      [.upload "attachment-of-order"]
    let name := "data_733bee1b-f79a-4cb7-b675-842317b994b5_r1_attachment-of-order"
    ∃ sql, (Settings.compiler { maxNameLength := some 64 }).compile doc = .ok sql ∧
      name.length = 64 ∧ name ++ "_ibfk_1" ∈ quotedNames sql ∧ 64 < (name ++ "_ibfk_1").length := by
  intro doc name
  obtain ⟨hok, hnames⟩ : ((Settings.compiler { maxNameLength := some 64 }).compile doc).isOk ∧
      (doc.decompose (Settings.naming { maxNameLength := some 64 })).toOption.map
        (fun d => d.children.map Table.name) = some [name] := by
    decide +kernel
  obtain ⟨sql, hsql⟩ := exists_of_isOk hok
  obtain ⟨d, hd, hcreates⟩ := creates_of_compile hsql
  refine ⟨sql, hsql, by decide, ?_, by decide⟩
  have hchildren : d.children.map Table.name = [name] := by
    rw [show doc.decompose (Settings.naming { maxNameLength := some 64 }) = .ok d from hd] at hnames
    exact Option.some.inj hnames
  obtain ⟨t, ht, hname⟩ := List.mem_map.mp (hchildren ▸ List.mem_singleton_self name)
  rw [hcreates, quotedNames_join_statements ⟨by decide, by decide, by decide⟩, ← hname]
  refine List.mem_flatMap.mpr ⟨t, by simp [ht], ?_⟩
  exact constraint_mem_identifiers hd t ht

end DocTables
