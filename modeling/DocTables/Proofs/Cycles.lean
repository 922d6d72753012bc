import DocTables.Proofs.CreationOrder
import Mathlib.Data.Fintype.EquivFin
import Mathlib.Order.WellFounded

/-!
# Cycles of references

`emissionOrder` fails exactly if references lead from some table back to it, and then it names the
tables that lie on such a cycle or reach one (`exists_emissionOrder_error_iff`).

What is placed refers to what has been placed before, so no cycle is reached from there
(`Greedy.not_leadsToCycle`). A place that is left over refers to another one that is left over, and
since there are finitely many of them, some of them are reached again
(`leadsToCycle_of_forall_exists`). So the places that still wait for a reference in the end are
those from which a cycle is reached (`mem_stuck_iff`).
-/

namespace DocTables.EmissionOrder

open Relation

variable {tables : List Table} {ps : List Nat} {i j : Nat}

/-- References lead from the table in place `i` back to it. -/
def OnCycle (tables : List Table) (i : Nat) : Prop := TransGen (Refers tables) i i

/-- The table in place `i` lies on a cycle, or references lead from it to a table that does. -/
def LeadsToCycle (tables : List Table) (i : Nat) : Prop :=
  ∃ j, ReflTransGen (Refers tables) i j ∧ OnCycle tables j

/-- What leads to a cycle refers to something that leads to the same cycle. -/
theorem LeadsToCycle.exists_refers (h : LeadsToCycle tables i) :
    ∃ j, Refers tables i j ∧ LeadsToCycle tables j := by
  obtain ⟨k, hik, hk⟩ := h
  have hstep : TransGen (Refers tables) i k := TransGen.trans_right hik hk
  obtain ⟨j, hij, hjk⟩ := TransGen.head'_iff.mp hstep
  exact ⟨j, hij, k, hjk, hk⟩

/-! ## What is placed -/

theorem Greedy.before_of_transGen (h : Greedy (edges tables) ps) (hi : i ∈ ps)
    (hij : TransGen (Refers tables) i j) : j ∈ ps ∧ ps.idxOf j < ps.idxOf i := by
  induction hij with
  | single hij => exact h.before_of_refers hi hij
  | tail _ hjk ih =>
    obtain ⟨hk, hlt⟩ := h.before_of_refers ih.1 hjk
    exact ⟨hk, hlt.trans ih.2⟩

/-- No cycle is reached from a place in a greedy list : references lead to the front. -/
theorem Greedy.not_leadsToCycle (h : Greedy (edges tables) ps) (hi : i ∈ ps) :
    ¬LeadsToCycle tables i := by
  rintro ⟨j, hij, hj⟩
  have hmem : j ∈ ps := by
    rcases reflTransGen_iff_eq_or_transGen.mp hij with rfl | hij
    · exact hi
    · exact (h.before_of_transGen hi hij).1
  exact Nat.lt_irrefl _ (h.before_of_transGen hmem hj).2

/-! ## What is left over -/

/-- Where every place refers to another one of the same kind, references lead to a cycle. -/
theorem leadsToCycle_of_forall_exists {p : Nat → Prop}
    (hp : ∀ i, p i → ∃ j, Refers tables i j ∧ p j) (hi : p i) : LeadsToCycle tables i := by
  by_contra hno
  -- With no cycle, references run in one direction over the places that are reached, so that one
  -- of these places comes last.
  let r (a b : Fin tables.length) : Prop :=
    ReflTransGen (Refers tables) i b ∧ TransGen (Refers tables) b a
  have hirrefl : Std.Irrefl r := ⟨fun a ha => hno ⟨a, ha⟩⟩
  have htrans : IsTrans (Fin tables.length) r :=
    ⟨fun a b c hab hbc => ⟨hbc.1, hbc.2.trans hab.2⟩⟩
  have hwf : WellFounded r := Finite.wellFounded_of_trans_of_irrefl r
  obtain ⟨_, hij, -⟩ := hp i hi
  obtain ⟨last, ⟨hreached, hlast⟩, hleast⟩ :=
    hwf.has_min {k | ReflTransGen (Refers tables) i k ∧ p k}
      ⟨⟨i, hij.lt_left⟩, ReflTransGen.refl, hi⟩
  obtain ⟨k, hk, hpk⟩ := hp last hlast
  exact hleast ⟨k, hk.lt_right⟩ ⟨hreached.tail hk, hpk⟩ ⟨hreached, TransGen.single hk⟩

/-- A place that is left over refers to one that is left over, since it could come next if not. -/
theorem exists_refers_of_notMem_placed (hi : i < tables.length)
    (hplaced : i ∉ (sort (edges tables)).placed) :
    ∃ j, Refers tables i j ∧ j ∉ (sort (edges tables)).placed := by
  by_contra hall
  push Not at hall
  refine not_open_sort _ i ⟨by simpa using hi, hplaced, fun j hj => ?_⟩
  exact hall j (edge_edges_iff.mp hj)

/-- The places that wait in the end are those that refer to places which are left over. -/
theorem mem_stuck_sort : i ∈ (sort (edges tables)).stuck ↔
    ∃ j, Refers tables i j ∧ j ∉ (sort (edges tables)).placed := by
  have hpending := (counts_sort (edges tables)).pending i
  simp only [← edge_edges_iff, Edge, Progress.stuck, List.mem_filter, List.mem_range, bne_iff_ne]
  cases hts : (edges tables)[i]? with
  | none =>
    rw [hts, Option.map_none, List.getElem?_eq_none_iff] at hpending
    simp [Nat.not_lt.mpr hpending]
  | some ts =>
    rw [hts, Option.map_some, List.count_nil, Nat.add_zero] at hpending
    rw [hpending, and_iff_right (List.getElem?_eq_some_iff.mp hpending).1]
    simp [List.countP_eq_zero]

/-- They are the places from which a cycle is reached. -/
theorem mem_stuck_iff : i ∈ (sort (edges tables)).stuck ↔ LeadsToCycle tables i := by
  constructor
  · refine leadsToCycle_of_forall_exists fun i hi => ?_
    obtain ⟨j, hij, hj⟩ := mem_stuck_sort.mp hi
    exact ⟨j, hij, mem_stuck_sort.mpr (exists_refers_of_notMem_placed hij.lt_right hj)⟩
  · intro h
    obtain ⟨j, hij, hj⟩ := h.exists_refers
    exact mem_stuck_sort.mpr
      ⟨j, hij, fun hplaced => (greedy_sort _).not_leadsToCycle hplaced hj⟩

/-- A place is left over exactly if there is a cycle. -/
theorem length_sort_lt_iff :
    (sort (edges tables)).placed.length < tables.length ↔ ∃ i, OnCycle tables i := by
  constructor
  · intro hlt
    obtain ⟨i, hi, hplaced⟩ := exists_notMem_placed hlt
    obtain ⟨j, -, hj⟩ :=
      mem_stuck_iff.mp (mem_stuck_sort.mpr (exists_refers_of_notMem_placed hi hplaced))
    exact ⟨j, hj⟩
  · rintro ⟨i, hi⟩
    by_contra hle
    obtain ⟨j, hij, -⟩ := TransGen.head'_iff.mp hi
    have hperm := (greedy_sort (edges tables)).perm_range (by simpa using hle)
    have hmem : i ∈ (sort (edges tables)).placed :=
      hperm.mem_iff.mpr (by simpa using hij.lt_left)
    exact (greedy_sort _).not_leadsToCycle hmem ⟨i, ReflTransGen.refl, hi⟩

/-! ## The error -/

theorem places_eq_error_iff {e : Error} : places tables = .error e ↔
    (sort (edges tables)).placed.length < tables.length ∧
      e = .dependencyCycle ((sort (edges tables)).stuck.filterMap fun i =>
        tables[i]?.map Table.name) := by
  unfold places
  dsimp only
  split_ifs with hlt
  · simp [hlt, eq_comm]
  · simp [hlt]

theorem emissionOrder_eq_error_iff {root : Table} {children : List Table} {e : Error} :
    emissionOrder root children = .error e ↔ places (preferred root children) = .error e := by
  unfold emissionOrder
  dsimp only
  cases places (preferred root children) <;> simp [Except.map]

theorem pairwise_stuck (p : Progress) : p.stuck.Pairwise (· < ·) :=
  List.pairwise_lt_range.filter _

/-- There is a name for each place of a table. -/
theorem map_some_filterMap_name (h : ∀ i ∈ ps, i < tables.length) :
    (ps.filterMap fun i => tables[i]?.map Table.name).map some =
      ps.map fun i => tables[i]?.map Table.name := by
  have hmap := congrArg (List.map (Option.map Table.name)) (map_some_filterMap h)
  rw [List.map_map, List.map_map] at hmap
  rw [← List.map_filterMap, List.map_map]
  exact hmap

/-- There is no order of creation exactly if references lead from some table back to it. The error
then names the tables that lie on such a cycle or reach one, each of them once and in the preferred
order, with a comma and a space between the names. -/
theorem exists_emissionOrder_error_iff (root : Table) (children : List Table) :
    ((∃ e, emissionOrder root children = .error e) ↔ ∃ i, OnCycle (preferred root children) i) ∧
    ∀ e, emissionOrder root children = .error e → ∃ (ps : List Nat) (names : List String),
      ps.Pairwise (· < ·) ∧ (∀ i, i ∈ ps ↔ LeadsToCycle (preferred root children) i) ∧
      names.map some = ps.map (fun i => (preferred root children)[i]?.map Table.name) ∧
      e = .dependencyCycle names ∧
      e.message = some ("Dependency cycle between tables: " ++ String.intercalate ", " names) := by
  simp only [emissionOrder_eq_error_iff, places_eq_error_iff]
  constructor
  · rw [← length_sort_lt_iff]
    exact ⟨fun ⟨_, hlt, _⟩ => hlt, fun hlt => ⟨_, hlt, rfl⟩⟩
  · rintro e ⟨-, rfl⟩
    refine ⟨_, _, pairwise_stuck _, fun i => mem_stuck_iff, map_some_filterMap_name ?_, rfl, rfl⟩
    intro i hi
    obtain ⟨j, hij, -⟩ := mem_stuck_sort.mp hi
    exact hij.lt_left

open Table in
/-- Two tables bear the name `a`. The first of them and `b` refer to each other, twice in one
direction, and the second and `c` lead there. The root refers to itself and `d` to a table that is
not there. -/
theorem exists_emissionOrder_error_iff_repeated_name :
    let root := childOf "r" "r"
    let children := [childOf "d" "users", childOf "a" "b", childOf "c" "a",
      (childOf "b" "a").addForeignKey "id" "a" "id", childOf "a" "b"]
    emissionOrder root children = .error (.dependencyCycle ["a", "b", "c", "a"]) ∧
    (∃ i, OnCycle (preferred root children) i) ∧
    ∃ ps : List Nat, (∀ i, i ∈ ps ↔ LeadsToCycle (preferred root children) i) ∧
      ["a", "b", "c", "a"].map some =
        ps.map fun i => (preferred root children)[i]?.map Table.name := by
  intro root children
  have he : emissionOrder root children = .error (.dependencyCycle ["a", "b", "c", "a"]) := by
    decide +kernel
  obtain ⟨hcycle, herror⟩ := exists_emissionOrder_error_iff root children
  obtain ⟨ps, names, -, hps, hnames, heq, -⟩ := herror _ he
  obtain rfl := Error.dependencyCycle.inj heq
  exact ⟨he, hcycle.mp ⟨_, he⟩, ps, hps, hnames⟩

end DocTables.EmissionOrder
