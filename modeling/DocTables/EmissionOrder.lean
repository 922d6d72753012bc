import DocTables.Error
import DocTables.Table

/-!
# The order in which tables are created

A table can only be created once the tables that its foreign keys lead to are there. Tables are
numbered by their place in the *preferred order*, which is the root and then the other tables from
the last to the first. A reference stands for the first table of that name; one to a table that is
not in the list, or to the table itself, asks for nothing.

`EmissionOrder.sort` places one table at a time, always the first in the preferred order whose
references are all placed. It keeps, for every table, the number of references still to be placed,
and the list of tables for which that number is zero.
-/

namespace DocTables

namespace EmissionOrder

/-! ## References as numbers -/

/-- The root, and the other tables from the last to the first. -/
def preferred (root : Table) (children : List Table) : List Table := root :: children.reverse

/-- The place, in the root and the other tables as they are given, of the table with this place in
the preferred order of `count` tables below the root. -/
def declaredPlace (count : Nat) : Nat → Nat
  | 0 => 0
  | i + 1 => count - i

/-- The place of the table that a name stands for. -/
def resolve (tables : List Table) (name : String) : Option Nat :=
  tables.findIdx? (·.name == name)

/-- The places that the table in place `i` refers to, one for each foreign key that asks for
something. -/
def targets (tables : List Table) (i : Nat) (t : Table) : List Nat :=
  t.references.filterMap fun name => (resolve tables name).filter (· != i)

/-- What every table refers to, by place. -/
def edges (tables : List Table) : List (List Nat) :=
  tables.mapIdx (targets tables)

/-- The places that refer to place `i`, as many times as they do. -/
def dependents (edges : List (List Nat)) (i : Nat) : List Nat :=
  edges.zipIdx.flatMap fun (targets, j) => List.replicate (targets.count i) j

/-! ## Placing tables -/

/-- How far the placing has come. -/
structure Progress where
  /-- For every place, its references that are not placed yet. -/
  pending : List Nat
  /-- The places left with no such reference, in increasing order. -/
  ready : List Nat
  /-- The places in the order in which they were placed. -/
  placed : List Nat

/-- Insert into an increasing list. -/
def insert (i : Nat) : List Nat → List Nat
  | [] => [i]
  | j :: js => if i ≤ j then i :: j :: js else j :: insert i js

namespace Progress

/-- Nothing is placed. -/
def start (edges : List (List Nat)) : Progress where
  pending := edges.map List.length
  ready := (List.range edges.length).filter fun i => edges[i]? == some []
  placed := []

/-- One reference of place `j` is placed. -/
def release (p : Progress) (j : Nat) : Progress :=
  let pending := p.pending.modify j (· - 1)
  { p with
    pending
    ready := if pending[j]? = some 0 then insert j p.ready else p.ready }

/-- Place the first of the ready tables. -/
def step (edges : List (List Nat)) (p : Progress) : Progress :=
  match p.ready with
  | [] => p
  | i :: rest =>
    (dependents edges i).foldl release { p with ready := rest, placed := p.placed ++ [i] }

/-- Place up to `n` tables. -/
def run (edges : List (List Nat)) : Nat → Progress → Progress
  | 0, p => p
  | n + 1, p => run edges n (p.step edges)

/-- The places that still wait for a reference, in increasing order. -/
def stuck (p : Progress) : List Nat :=
  (List.range p.pending.length).filter fun i => p.pending[i]? != some 0

end Progress

/-- Place as many tables as possible. -/
def sort (edges : List (List Nat)) : Progress := (Progress.start edges).run edges edges.length

/-- The places of `tables` in the order of creation. -/
def places (tables : List Table) : Except Error (List Nat) :=
  let result := sort (edges tables)
  if result.placed.length < tables.length then
    .error (.dependencyCycle (result.stuck.filterMap fun i => tables[i]?.map Table.name))
  else .ok result.placed

end EmissionOrder

/-- The root and its descendants in an order in which they can be created. The descendants are given
with every table after the ones below it. -/
def emissionOrder (root : Table) (children : List Table) : Except Error (List Table) :=
  let tables := EmissionOrder.preferred root children
  (EmissionOrder.places tables).map fun places => places.filterMap fun i => tables[i]?

end DocTables
