import DocTables.Proofs.Placing
import Mathlib.Data.Nat.Find

/-!
# The loop that places tables

Between two steps the count that is kept for a table is the number of its foreign keys that stand
for another table which is not placed (`Progress.Tallied`), each key by itself, also where several
of them stand for the same table. What is ready are the tables of count zero that are not placed.

`Progress.step?` is a step that looks before it acts : it fails where it would place a table that is
not there or is placed, and where it would take one off a count that is not there or is zero. It
never fails as long as a table is ready, and then does what `Progress.step` does
(`Progress.Counts.step?_eq`). Every step places a table, and so there are at most as many steps as
tables before nothing is ready (`tallied_steps`).
-/

namespace DocTables.EmissionOrder

variable {tables : List Table} {es : List (List Nat)} {done : List Nat} {i j n : Nat}

/-! ## Foreign keys that wait -/

/-- The foreign key `k` of the table in place `i` stands for the table in place `j` : another place,
and the first one with a table of that name. -/
def StandsFor (tables : List Table) (i : Nat) (k : ForeignKey) (j : Nat) : Prop :=
  j ≠ i ∧ ∃ u, tables[j]? = some u ∧ u.name = k.table ∧ ∀ v ∈ tables.take j, v.name ≠ k.table

/-- The foreign key `k` of the table in place `i` stands for another table that is not `done`. -/
def Waits (tables : List Table) (done : List Nat) (i : Nat) (k : ForeignKey) : Prop :=
  ∃ j, StandsFor tables i k j ∧ j ∉ done

theorem waits_iff {k : ForeignKey} : Waits tables done i k ↔
    ∃ j ∈ (resolve tables k.table).filter (· != i), j ∉ done := by
  simp only [Waits, StandsFor, ← resolve_eq_some_iff, Option.mem_def, Option.filter_eq_some_iff,
    bne_iff_ne, and_comm]

instance (tables : List Table) (done : List Nat) (i : Nat) (k : ForeignKey) :
    Decidable (Waits tables done i k) :=
  decidable_of_iff _ waits_iff.symm

/-- The places kept for a table that are not done are as many as its foreign keys that wait. -/
theorem countP_targets (t : Table) : (targets tables i t).countP (· ∉ done) =
    t.foreignKeys.countP fun k => Waits tables done i k := by
  unfold targets Table.references
  rw [List.countP_filterMap, List.countP_map]
  refine List.countP_congr fun k _ => ?_
  simp only [Function.comp_apply, decide_eq_true_eq, waits_iff]
  cases (resolve tables k.table).filter (· != i) <;> simp

/-- A place that depends on another is the place of a table. -/
theorem lt_of_mem_dependents (h : j ∈ dependents es i) : j < es.length := by
  by_contra hge
  have hcount := count_dependents es i j
  rw [List.getElem?_eq_none (Nat.not_lt.mp hge)] at hcount
  exact List.count_eq_zero.mp hcount h

namespace Progress

variable {p : Progress} {owed : List Nat}

/-! ## Steps that look before they act -/

/-- One reference of place `j` is placed, if there is such a place and its count is not zero. -/
def release? (p : Progress) (j : Nat) : Option Progress :=
  match p.pending[j]? with
  | some (n + 1) =>
    some { p with
      pending := p.pending.set j n
      ready := if n = 0 then insert j p.ready else p.ready }
  | _ => none

/-- Place the first of the ready tables, if there is one, and it is a table that is not placed. -/
def step? (es : List (List Nat)) (p : Progress) : Option Progress :=
  match p.ready with
  | [] => none
  | i :: rest =>
    if i < es.length ∧ i ∉ p.placed then
      (dependents es i).foldlM release? { p with ready := rest, placed := p.placed ++ [i] }
    else none

/-- A reference that is owed is counted. -/
theorem Counts.release?_eq (h : Counts es (j :: owed) p) (hj : j < es.length) :
    p.release? j = some (p.release j) := by
  obtain ⟨n, hn⟩ : ∃ n, p.pending[j]? = some (n + 1) := by
    have hpending := h.pending j
    rw [List.getElem?_eq_getElem hj, Option.map_some, List.count_cons_self] at hpending
    exact ⟨_, hpending⟩
  have hset : p.pending.modify j (· - 1) = p.pending.set j n := by
    rw [List.modify_eq_set_getElem?, hn]
    rfl
  have hlen : j < p.pending.length := (List.getElem?_eq_some_iff.mp hn).1
  simp only [release?, hn, Progress.release, hset, List.getElem?_set_self hlen, Option.some.injEq]

theorem Counts.foldlM_release?_eq (h : Counts es owed p) (howed : ∀ j ∈ owed, j < es.length) :
    owed.foldlM release? p = some (owed.foldl Progress.release p) := by
  induction owed generalizing p with
  | nil => rfl
  | cons j owed ih =>
    rw [List.forall_mem_cons] at howed
    rw [List.foldlM_cons, h.release?_eq howed.1]
    exact ih h.release howed.2

/-- While a table is ready, a step places one that is there and is not placed, and takes one off
counts that are there and are not zero. -/
theorem Counts.step?_eq (h : Counts es [] p) (hready : p.ready ≠ []) :
    p.step? es = some (p.step es) := by
  obtain ⟨i, rest, hcons⟩ := List.exists_cons_of_ne_nil hready
  have hopen : Open es p.placed i := h.mem_ready_iff.mp (by simp [hcons])
  simp only [step?, hcons]
  rw [if_pos ⟨hopen.lt, hopen.fresh⟩, step_of_ready_cons hcons]
  exact (h.place hcons).foldlM_release?_eq fun j => lt_of_mem_dependents

/-! ## Between two steps -/

/-- What holds of the tables between two steps. -/
structure Tallied (tables : List Table) (p : Progress) : Prop where
  /-- The count of a table is the number of its foreign keys that stand for another table which is
  not placed. -/
  pending : p.pending = tables.mapIdx fun i t => t.foreignKeys.countP fun k =>
    Waits tables p.placed i k
  /-- The ready places are those of the tables that are not placed and have count zero. -/
  mem_ready : ∀ i, i ∈ p.ready ↔ i ∉ p.placed ∧ p.pending[i]? = some 0
  nodup_ready : p.ready.Nodup
  nodup_placed : p.placed.Nodup
  lt_of_mem_placed : ∀ i ∈ p.placed, i < tables.length

theorem Counts.tallied (h : Counts (edges tables) [] p) (hp : Greedy (edges tables) p.placed) :
    p.Tallied tables where
  pending := by
    refine List.ext_getElem? fun i => ?_
    rw [h.pending, edges, List.getElem?_mapIdx, List.getElem?_mapIdx, Option.map_map]
    simp only [Function.comp_def, List.count_nil, Nat.add_zero, countP_targets]
  mem_ready i := by rw [h.mem_ready, and_comm]
  nodup_ready := h.sorted.imp Nat.ne_of_lt
  nodup_placed := hp.nodup
  lt_of_mem_placed i hi := by simpa using hp.lt hi

/-! ## The end of the loop -/

/-- The steps that sorting takes until no table is ready are no more than there are tables, and
those that are left over change nothing. -/
theorem exists_run_eq_sort (es : List (List Nat)) : ∃ n ≤ es.length,
    (∀ m < n, ((start es).run es m).ready ≠ []) ∧ (start es).run es n = sort es := by
  have hend : ∃ n, ((start es).run es n).ready = [] := ⟨es.length, ready_sort es⟩
  have hle : Nat.find hend ≤ es.length := Nat.find_min' hend (ready_sort es)
  refine ⟨Nat.find hend, hle, fun m => Nat.find_min hend, ?_⟩
  exact (run_eq_of_ready_nil (Nat.find_spec hend) hle).symm

/-- How far placing the tables has come after `n` steps. -/
def after (tables : List Table) (n : Nat) : Progress :=
  (start (edges tables)).run (edges tables) n

end Progress

/-- Between any two steps the counts and the ready places are what the foreign keys of the tables
say they are. A step never has to do with a table that is not there, or is placed, or whose count is
zero and is to go down. After at most as many steps as there are tables, each of which has placed
one, nothing is ready. -/
theorem tallied_steps (tables : List Table) :
    (∀ i j, Edge (edges tables) i j → i < tables.length ∧ j < tables.length) ∧
    (∀ n, (Progress.after tables n).Tallied tables) ∧
    (∀ n, (Progress.after tables n).ready ≠ [] →
      (Progress.after tables n).step? (edges tables) = some (Progress.after tables (n + 1))) ∧
    ∃ n ≤ tables.length, (∀ m < n, (Progress.after tables m).ready ≠ []) ∧
      (Progress.after tables n).ready = [] ∧ (Progress.after tables n).placed.length = n ∧
      Progress.after tables n = sort (edges tables) := by
  have hcounts (n : Nat) : (Progress.after tables n).Counts (edges tables) [] :=
    (Progress.counts_start (edges tables)).run n
  have hgreedy (n : Nat) : Greedy (edges tables) (Progress.after tables n).placed :=
    (Progress.counts_start (edges tables)).greedy_run greedy_nil n
  refine ⟨fun i j hij => ?_, fun n => (hcounts n).tallied (hgreedy n), fun n hready => ?_, ?_⟩
  · have hrefers := edge_edges_iff.mp hij
    exact ⟨hrefers.lt_left, hrefers.lt_right⟩
  · rw [(hcounts n).step?_eq hready, Progress.after, Progress.after, Progress.run_succ]
  · obtain ⟨n, hle, hready, hsort⟩ := Progress.exists_run_eq_sort (edges tables)
    have hlen := Progress.length_placed_run hready
    refine ⟨n, by simpa using hle, hready, ?_, ?_, hsort⟩
    · rw [Progress.after, hsort, ready_sort]
    · rwa [Progress.start, List.length_nil, Nat.zero_add] at hlen

open Table in
/-- Two foreign keys of `b` stand for `a`. Both are counted, and both are taken off when `a` is
placed. -/
theorem tallied_steps_repeated_reference :
    let tables := [keyed "a", (childOf "b" "a").addForeignKey "id" "a" "id"]
    (Progress.after tables 0).pending = [0, 2] ∧ (Progress.after tables 0).ready = [0] ∧
    (Progress.after tables 0).step? (edges tables) = some (Progress.after tables 1) ∧
    (Progress.after tables 1).pending = [0, 0] ∧ (Progress.after tables 1).ready = [1] := by
  intro tables
  have hready : (Progress.after tables 0).ready = [0] := by decide +kernel
  obtain ⟨-, -, hstep, -⟩ := tallied_steps tables
  exact ⟨by decide +kernel, hready, hstep 0 (by simp [hready]), by decide +kernel,
    by decide +kernel⟩

end DocTables.EmissionOrder
