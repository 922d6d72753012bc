import DocTables.EmissionOrder
import Mathlib.Data.List.Nodup

/-!
# References between places

A foreign key names a table, and the name stands for the first table that bears it. `Refers` says of
two places that the table in one has a foreign key to the table in the other, in terms of the tables
alone. `edge_edges_iff` : it holds exactly when the second place is among the numbers that `edges`
keeps for the first.

Nothing is asked of the tables. Several may bear one name, a table may have many foreign keys to one
table or to itself, and a foreign key may lead nowhere.
-/

namespace DocTables.EmissionOrder

/-- The table in place `i` has a foreign key to the table in place `j`, which is another place and
the first one with a table of that name. -/
def Refers (tables : List Table) (i j : Nat) : Prop :=
  i ≠ j ∧ ∃ t u, tables[i]? = some t ∧ tables[j]? = some u ∧ u.name ∈ t.references ∧
    ∀ v ∈ tables.take j, v.name ≠ u.name

/-- Place `j` is among the places kept for place `i`. -/
def Edge (edges : List (List Nat)) (i j : Nat) : Prop := ∃ ts, edges[i]? = some ts ∧ j ∈ ts

/-! ## Names -/

variable {tables : List Table} {i j : Nat}

/-- A name stands for the first table that bears it. -/
theorem resolve_eq_some_iff {name : String} : resolve tables name = some j ↔
    ∃ u, tables[j]? = some u ∧ u.name = name ∧ ∀ v ∈ tables.take j, v.name ≠ name := by
  unfold resolve
  rw [List.findIdx?_eq_some_iff_getElem]
  constructor
  · rintro ⟨hj, hname, hfirst⟩
    refine ⟨tables[j], List.getElem?_eq_getElem hj, by simpa using hname, fun v hv => ?_⟩
    obtain ⟨k, hk, rfl⟩ := List.mem_take_iff_getElem.mp hv
    simpa using hfirst k (by omega)
  · rintro ⟨u, hu, hname, hfirst⟩
    obtain ⟨hj, rfl⟩ := List.getElem?_eq_some_iff.mp hu
    refine ⟨hj, by simpa using hname, fun k hk => ?_⟩
    have hmem : tables[k] ∈ tables.take j :=
      List.mem_take_iff_getElem.mpr ⟨k, by omega, rfl⟩
    simpa using hfirst _ hmem

/-- A name that a table bears stands for a table. -/
theorem exists_resolve {u : Table} (h : u ∈ tables) : ∃ j, resolve tables u.name = some j := by
  rw [← Option.isSome_iff_exists, resolve, List.findIdx?_isSome, List.any_eq_true]
  exact ⟨u, h, beq_self_eq_true u.name⟩

/-! ## Edges -/

@[simp] theorem length_edges (tables : List Table) : (edges tables).length = tables.length := by
  simp [edges]

theorem mem_targets {t : Table} : j ∈ targets tables i t ↔
    j ≠ i ∧ ∃ name ∈ t.references, resolve tables name = some j := by
  unfold targets
  simp only [List.mem_filterMap, Option.filter_eq_some_iff, bne_iff_ne]
  constructor
  · rintro ⟨name, hname, hres, hne⟩
    exact ⟨hne, name, hname, hres⟩
  · rintro ⟨hne, name, hname, hres⟩
    exact ⟨name, hname, hres, hne⟩

/-- The numbers kept for a place are those of the places that it refers to. -/
theorem edge_edges_iff : Edge (edges tables) i j ↔ Refers tables i j := by
  unfold Edge edges Refers
  simp only [List.getElem?_mapIdx, Option.map_eq_some_iff]
  constructor
  · rintro ⟨ts, ⟨t, ht, rfl⟩, hj⟩
    obtain ⟨hne, name, hname, hres⟩ := mem_targets.mp hj
    obtain ⟨u, hu, rfl, hfirst⟩ := resolve_eq_some_iff.mp hres
    exact ⟨hne.symm, t, u, ht, hu, hname, hfirst⟩
  · rintro ⟨hne, t, u, ht, hu, hname, hfirst⟩
    refine ⟨_, ⟨t, ht, rfl⟩, mem_targets.mpr ⟨hne.symm, u.name, hname, ?_⟩⟩
    exact resolve_eq_some_iff.mpr ⟨u, hu, rfl, hfirst⟩

theorem Refers.lt_left (h : Refers tables i j) : i < tables.length := by
  obtain ⟨-, t, u, ht, -⟩ := h
  exact (List.getElem?_eq_some_iff.mp ht).1

theorem Refers.lt_right (h : Refers tables i j) : j < tables.length := by
  obtain ⟨-, t, u, -, hu, -⟩ := h
  exact (List.getElem?_eq_some_iff.mp hu).1

end DocTables.EmissionOrder
