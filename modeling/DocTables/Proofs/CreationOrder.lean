import DocTables.Proofs.Placing
import Mathlib.Data.List.Basic
import Mathlib.Data.Nat.Find
import Mathlib.Data.Option.Basic

/-!
# Orders of creation

A list of places is an order of creation if every place is in it once, after all the places that it
refers to (`IsCreationOrder`). The places that `emissionOrder` gives are an order of creation, and
of all of them the least, compared place by place from the front (`emissionOrder_isLeast`).

A greedy list is least because any other order of creation parts from it at a place that could have
come next, and so at a greater one (`Greedy.eq_or_lex`). Where every reference leads to an earlier
place the tables stay as they are (`emissionOrder_of_refers_lt`), and in particular none is left
over.

Sorting once more changes nothing (`emissionOrder_idempotent`). A name may stand for another table
in the new list, and a reference of a table to itself may become one to a table of the same name;
still no reference leads to a later place (`IsCreationOrder.lt_of_refers_filterMap`).
-/

namespace DocTables.EmissionOrder

variable {tables : List Table} {ps qs pre : List Nat} {i j : Nat}

/-! ## Orders of creation and greedy lists -/

/-- Every place once, and after the places that it refers to. -/
structure IsCreationOrder (tables : List Table) (ps : List Nat) : Prop where
  perm : ps.Perm (List.range tables.length)
  after : ∀ i j, Refers tables i j → ps.idxOf j < ps.idxOf i

/-- An order of creation that comes before every other one when they are compared place by place
from the front. -/
structure IsLeastCreationOrder (tables : List Table) (ps : List Nat) : Prop where
  isCreationOrder : IsCreationOrder tables ps
  least : ∀ qs, IsCreationOrder tables qs → qs = ps ∨ List.Lex (· < ·) ps qs

theorem IsCreationOrder.mem_iff (h : IsCreationOrder tables ps) : i ∈ ps ↔ i < tables.length := by
  rw [h.perm.mem_iff, List.mem_range]

theorem IsCreationOrder.nodup (h : IsCreationOrder tables ps) : ps.Nodup :=
  h.perm.nodup_iff.mpr List.nodup_range

/-- In an order of creation every place can come next after those before it. -/
theorem IsCreationOrder.open_append (h : IsCreationOrder tables (pre ++ i :: qs)) :
    Open (edges tables) pre i := by
  have hi : i ∉ pre := fun hi => (List.nodup_append.mp h.nodup).2.2 i hi i (by simp) rfl
  refine ⟨by simpa using h.mem_iff.mp (by simp), hi, fun j hj => ?_⟩
  have hlt := h.after i j (edge_edges_iff.mp hj)
  rw [List.idxOf_append_of_notMem hi, List.idxOf_cons_self, Nat.add_zero] at hlt
  by_contra hpre
  rw [List.idxOf_append_of_notMem hpre] at hlt
  omega

theorem Greedy.open_append {edges : List (List Nat)} (h : Greedy edges (pre ++ i :: ps)) :
    Open edges pre i ∧ ∀ j, Open edges pre j → i ≤ j := by
  simpa using h pre.length (by simp)

/-- What a place in a greedy list refers to stands before it. -/
theorem Greedy.before_of_refers (h : Greedy (edges tables) ps) (hi : i ∈ ps)
    (hij : Refers tables i j) : j ∈ ps ∧ ps.idxOf j < ps.idxOf i := by
  obtain ⟨pre, post, rfl⟩ := List.append_of_mem hi
  have hopen := h.open_append.1
  have hj : j ∈ pre := hopen.targets j (edge_edges_iff.mpr hij)
  refine ⟨List.mem_append_left _ hj, ?_⟩
  rw [List.idxOf_append_of_mem hj, List.idxOf_append_of_notMem hopen.fresh, List.idxOf_cons_self]
  exact List.idxOf_lt_length_of_mem hj

/-- A greedy list of all places is an order of creation. -/
theorem Greedy.isCreationOrder (h : Greedy (edges tables) ps) (hlen : tables.length ≤ ps.length) :
    IsCreationOrder tables ps := by
  have hperm : ps.Perm (List.range tables.length) := by
    simpa using h.perm_range (by simpa using hlen)
  refine ⟨hperm, fun i j hij => ?_⟩
  have hi : i ∈ ps := hperm.mem_iff.mpr (List.mem_range.mpr hij.lt_left)
  exact (h.before_of_refers hi hij).2

/-- An order of creation parts from a greedy list at a greater place. -/
theorem Greedy.eq_or_lex : ∀ (pre : List Nat) {ps qs : List Nat},
    Greedy (edges tables) (pre ++ ps) → IsCreationOrder tables (pre ++ qs) →
    ps.length = qs.length → qs = ps ∨ List.Lex (· < ·) ps qs
  | _, [], [], _, _, _ => Or.inl rfl
  | pre, p :: ps, q :: qs, hps, hqs, hlen => by
    rcases Nat.lt_or_eq_of_le (hps.open_append.2 q hqs.open_append) with hlt | rfl
    · exact Or.inr (List.Lex.rel hlt)
    · rw [List.append_cons] at hps hqs
      rcases Greedy.eq_or_lex (pre ++ [p]) hps hqs (by simpa using hlen) with rfl | hlex
      · exact Or.inl rfl
      · exact Or.inr (List.Lex.cons hlex)

/-- There is one greedy list of each length. -/
theorem Greedy.unique {edges : List (List Nat)} : ∀ (pre : List Nat) {ps qs : List Nat},
    Greedy edges (pre ++ ps) → Greedy edges (pre ++ qs) → ps.length = qs.length → ps = qs
  | _, [], [], _, _, _ => rfl
  | pre, p :: ps, q :: qs, hps, hqs, hlen => by
    obtain rfl : p = q := Nat.le_antisymm (hps.open_append.2 q hqs.open_append.1)
      (hqs.open_append.2 p hps.open_append.1)
    rw [List.append_cons] at hps hqs
    rw [Greedy.unique (pre ++ [p]) hps hqs (by simpa using hlen)]

/-! ## References to earlier places -/

theorem greedy_range (h : ∀ i j, Refers tables i j → j < i) :
    Greedy (edges tables) (List.range tables.length) := by
  intro k hk
  rw [List.length_range] at hk
  rw [List.take_range, Nat.min_eq_left (Nat.le_of_lt hk), List.getElem_range]
  refine ⟨⟨by simpa using hk, by simp, fun j hj => ?_⟩, fun i hi => ?_⟩
  · exact List.mem_range.mpr (h k j (edge_edges_iff.mp hj))
  · simpa using hi.fresh

/-- If fewer places are placed than there are, one is left over. -/
theorem exists_notMem_placed (hlt : (sort (edges tables)).placed.length < tables.length) :
    ∃ i, i < tables.length ∧ i ∉ (sort (edges tables)).placed := by
  by_contra hall
  push Not at hall
  have hsub : List.range tables.length ⊆ (sort (edges tables)).placed := fun i hi =>
    hall i (List.mem_range.mp hi)
  have := (List.subperm_of_subset List.nodup_range hsub).length_le
  rw [List.length_range] at this
  omega

/-- If every reference leads to an earlier place, every place is placed : the least one left over
could have come next. -/
theorem le_length_sort (h : ∀ i j, Refers tables i j → j < i) :
    tables.length ≤ (sort (edges tables)).placed.length := by
  by_contra hlt
  rw [Nat.not_le] at hlt
  have hex := exists_notMem_placed hlt
  -- The least place left over refers to lesser ones alone, and those are placed.
  obtain ⟨hi, hfresh⟩ := Nat.find_spec hex
  refine not_open_sort _ (Nat.find hex) ⟨by simpa using hi, hfresh, fun j hj => ?_⟩
  have hj := edge_edges_iff.mp hj
  by_contra hplaced
  exact Nat.find_min hex (h _ _ hj) ⟨hj.lt_right, hplaced⟩

theorem placed_sort_of_refers_lt (h : ∀ i j, Refers tables i j → j < i) :
    (sort (edges tables)).placed = List.range tables.length := by
  have hperm := (greedy_sort (edges tables)).perm_range (by simpa using le_length_sort h)
  refine Greedy.unique [] (greedy_sort _) (greedy_range h) ?_
  simpa using hperm.length_eq

/-! ## The tables in order -/

theorem places_eq_ok_iff : places tables = .ok ps ↔
    tables.length ≤ ps.length ∧ (sort (edges tables)).placed = ps := by
  unfold places
  constructor
  · intro h
    dsimp only at h
    split_ifs at h with hlt
    obtain rfl := Except.ok.inj h
    exact ⟨Nat.not_lt.mp hlt, rfl⟩
  · rintro ⟨hlen, rfl⟩
    rw [if_neg (Nat.not_lt.mpr hlen)]

theorem emissionOrder_eq_ok_iff {root : Table} {children order : List Table} :
    emissionOrder root children = .ok order ↔
      ∃ ps, places (preferred root children) = .ok ps ∧
        ps.filterMap (fun i => (preferred root children)[i]?) = order := by
  unfold emissionOrder
  dsimp only
  cases places (preferred root children) with
  | error e => simp [Except.map]
  | ok ps => simp [Except.map]

/-- The tables in the places of a list are one for each place. -/
theorem map_some_filterMap (h : ∀ i ∈ ps, i < tables.length) :
    (ps.filterMap fun i => tables[i]?).map some = ps.map fun i => tables[i]? := by
  induction ps with
  | nil => rfl
  | cons i ps ih =>
    have hi := List.getElem?_eq_getElem (h i (by simp))
    rw [List.filterMap_cons_some hi, List.map_cons, List.map_cons, hi,
      ih fun j hj => h j (by simp [hj])]

theorem filterMap_range (tables : List Table) :
    ((List.range tables.length).filterMap fun i => tables[i]?) = tables := by
  apply (List.map_injective_iff.mpr (Option.some_injective Table))
  rw [map_some_filterMap fun i hi => List.mem_range.mp hi]
  apply List.ext_getElem
  · simp
  · intro k hk hk'
    simp

/-- The tables in the order of creation are those that are given, each of them as often. -/
theorem perm_of_emissionOrder {root : Table} {children order : List Table}
    (h : emissionOrder root children = .ok order) : order.Perm (root :: children) := by
  obtain ⟨ps, hps, rfl⟩ := emissionOrder_eq_ok_iff.mp h
  obtain ⟨hlen, rfl⟩ := places_eq_ok_iff.mp hps
  have hcreate := (greedy_sort (edges (preferred root children))).isCreationOrder hlen
  have hperm := hcreate.perm.filterMap fun i => (preferred root children)[i]?
  rw [filterMap_range] at hperm
  exact hperm.trans ((List.reverse_perm children).cons root)

theorem places_of_refers_lt (h : ∀ i j, Refers tables i j → j < i) :
    places tables = .ok (List.range tables.length) :=
  places_eq_ok_iff.mpr ⟨by simp, placed_sort_of_refers_lt h⟩

/-- Tables that refer to earlier ones alone are created in the preferred order. -/
theorem emissionOrder_of_refers_lt {root : Table} {children : List Table}
    (h : ∀ i j, Refers (preferred root children) i j → j < i) :
    emissionOrder root children = .ok (preferred root children) :=
  emissionOrder_eq_ok_iff.mpr ⟨_, places_of_refers_lt h, filterMap_range _⟩

/-- Where the numbers in increasing order are an order of creation, references lead to earlier
places. -/
theorem IsCreationOrder.lt_of_refers (h : IsCreationOrder tables (List.range tables.length))
    (hij : Refers tables i j) : j < i := by
  have hlt := h.after i j hij
  have idxOf_range : ∀ k < tables.length, (List.range tables.length).idxOf k = k := by
    intro k hk
    have hk' : k < (List.range tables.length).length := by simpa using hk
    have := List.nodup_range.idxOf_getElem k hk'
    rwa [List.getElem_range] at this
  rwa [idxOf_range j hij.lt_right, idxOf_range i hij.lt_left] at hlt

/-- What `emissionOrder` gives are the tables in the least order of creation, each of them as often
as it is given. They are in the preferred order whenever that is an order of creation. -/
theorem emissionOrder_isLeast {root : Table} {children order : List Table}
    (h : emissionOrder root children = .ok order) :
    ∃ ps, IsLeastCreationOrder (preferred root children) ps ∧
      order.map some = ps.map (fun i => (preferred root children)[i]?) ∧
      order.Perm (preferred root children) ∧
      (IsCreationOrder (preferred root children) (List.range (preferred root children).length) →
        order = preferred root children) := by
  obtain ⟨ps, hps, rfl⟩ := emissionOrder_eq_ok_iff.mp h
  obtain ⟨hlen, rfl⟩ := places_eq_ok_iff.mp hps
  have hgreedy := greedy_sort (edges (preferred root children))
  have hcreate := hgreedy.isCreationOrder hlen
  refine ⟨_, ⟨hcreate, fun qs hqs => ?_⟩, map_some_filterMap fun i hi => hcreate.mem_iff.mp hi, ?_,
    fun hpreferred => ?_⟩
  · refine Greedy.eq_or_lex [] hgreedy hqs ?_
    rw [hcreate.perm.length_eq, hqs.perm.length_eq]
  · have := hcreate.perm.filterMap fun i => (preferred root children)[i]?
    rwa [filterMap_range] at this
  · rw [placed_sort_of_refers_lt fun i j => hpreferred.lt_of_refers, filterMap_range]

open Table in
/-- Two tables bear one name, one of them refers to itself and to a table that is not there, the
other refers twice to a table after it in the preferred order. -/
theorem emissionOrder_isLeast_repeated_name :
    emissionOrder (keyed "r") [childOf "s" "r", (childOf "t" "s").addForeignKey "id" "s" "id",
        (childOf "t" "t").addForeignKey "id" "users" "id"] =
      .ok [keyed "r", (childOf "t" "t").addForeignKey "id" "users" "id", childOf "s" "r",
        (childOf "t" "s").addForeignKey "id" "s" "id"] ∧
    ∃ ps, IsLeastCreationOrder [keyed "r", (childOf "t" "t").addForeignKey "id" "users" "id",
        (childOf "t" "s").addForeignKey "id" "s" "id", childOf "s" "r"] ps ∧
      [keyed "r", (childOf "t" "t").addForeignKey "id" "users" "id", childOf "s" "r",
        (childOf "t" "s").addForeignKey "id" "s" "id"].map some =
      ps.map fun i => [keyed "r", (childOf "t" "t").addForeignKey "id" "users" "id",
        (childOf "t" "s").addForeignKey "id" "s" "id", childOf "s" "r"][i]? := by
  refine ⟨rfl, ?_⟩
  obtain ⟨ps, hleast, hmap, -⟩ := emissionOrder_isLeast (show
    emissionOrder (keyed "r") [childOf "s" "r", (childOf "t" "s").addForeignKey "id" "s" "id",
        (childOf "t" "t").addForeignKey "id" "users" "id"] = .ok _ from rfl)
  exact ⟨ps, hleast, hmap⟩

/-! ## Sorting once more -/

/-- The table that stands in place `i` once the tables are in the order of `ps`. -/
theorem getElem?_filterMap_eq_some_iff {t : Table} (h : ∀ p ∈ ps, p < tables.length) :
    (ps.filterMap fun p => tables[p]?)[i]? = some t ↔
      ∃ p, ps[i]? = some p ∧ tables[p]? = some t := by
  have hget := congrArg (fun l => l[i]?) (map_some_filterMap h)
  simp only [List.getElem?_map] at hget
  constructor
  · intro ht
    rw [ht, Option.map_some, eq_comm, Option.map_eq_some_iff] at hget
    exact hget
  · rintro ⟨p, hp, ht⟩
    rw [hp, Option.map_some, ht, Option.map_eq_some_iff] at hget
    obtain ⟨t', ht', h'⟩ := hget
    rw [ht', Option.some.inj h']

/-- Once the tables are in an order of creation, references lead to earlier places. This is so
although a name may stand for another table of that name then, even where it stood for the table
itself : the one that it stood for before is not after the reference. -/
theorem IsCreationOrder.lt_of_refers_filterMap (h : IsCreationOrder tables ps)
    (hij : Refers (ps.filterMap fun p => tables[p]?) i j) : j < i := by
  obtain ⟨hne, t, u, ht, hu, hname, hfirst⟩ := hij
  have hget {k : Nat} {v : Table} := getElem?_filterMap_eq_some_iff (i := k) (t := v)
    fun p hp => h.mem_iff.mp hp
  obtain ⟨p, hp, ht⟩ := hget.mp ht
  obtain ⟨q, -, hu⟩ := hget.mp hu
  -- The name stands for place `r` in `tables`, and for place `j` in the new list.
  obtain ⟨r, hr⟩ := exists_resolve (List.mem_of_getElem? hu)
  obtain ⟨w, hw, hwname, hwfirst⟩ := resolve_eq_some_iff.mp hr
  have hrmem : r ∈ ps := h.mem_iff.mpr (List.getElem?_eq_some_iff.mp hw).1
  have hpi : ps.idxOf p = i := by
    obtain ⟨hi, rfl⟩ := List.getElem?_eq_some_iff.mp hp
    exact h.nodup.idxOf_getElem i hi
  have hjr : j ≤ ps.idxOf r := by
    by_contra hlt
    have hnew : (ps.filterMap fun p => tables[p]?)[ps.idxOf r]? = some w :=
      hget.mpr ⟨r, List.getElem?_idxOf hrmem, hw⟩
    obtain ⟨hlen, rfl⟩ := List.getElem?_eq_some_iff.mp hnew
    exact hfirst _ (List.mem_take_iff_getElem.mpr ⟨_, by omega, rfl⟩) hwname
  have hri : ps.idxOf r ≤ i := by
    by_cases hpr : p = r
    · rw [← hpr, hpi]
    · have hrefers : Refers tables p r :=
        ⟨hpr, t, w, ht, hw, hwname ▸ hname, fun v hv => hwname ▸ hwfirst v hv⟩
      exact hpi ▸ Nat.le_of_lt (h.after p r hrefers)
  omega

/-- The tables in the order of creation stay where they are when they are sorted once more, the first
of them as the root. -/
theorem emissionOrder_idempotent {root : Table} {children order : List Table}
    (h : emissionOrder root children = .ok order) : ∃ first rest, order = first :: rest ∧
      emissionOrder first rest.reverse = .ok order ∧
      places (preferred first rest.reverse) = .ok (List.range order.length) := by
  obtain ⟨first, rest, rfl⟩ : ∃ first rest, order = first :: rest :=
    List.exists_cons_of_length_pos (by simp [(perm_of_emissionOrder h).length_eq])
  have hpreferred : preferred first rest.reverse = first :: rest := by
    rw [preferred, List.reverse_reverse]
  have hlt : ∀ i j, Refers (preferred first rest.reverse) i j → j < i := by
    obtain ⟨ps, hps, horder⟩ := emissionOrder_eq_ok_iff.mp h
    obtain ⟨hlen, rfl⟩ := places_eq_ok_iff.mp hps
    rw [hpreferred, ← horder]
    exact fun i j => ((greedy_sort _).isCreationOrder hlen).lt_of_refers_filterMap
  refine ⟨first, rest, rfl, ?_, ?_⟩
  · rw [emissionOrder_of_refers_lt hlt, hpreferred]
  · rw [places_of_refers_lt hlt, hpreferred]

open Table in
/-- The first of two tables `t` refers to its own name, which asks for nothing, and comes last. In
the new list the name stands for the other one. -/
theorem emissionOrder_idempotent_repeated_name :
    let self := (childOf "t" "t").addForeignKey "id" "s" "id"
    let children := [childOf "s" "r", childOf "t" "r", self]
    let order := [keyed "r", childOf "t" "r", childOf "s" "r", self]
    edges (preferred (keyed "r") children) = [[], [3], [0], [0]] ∧
      edges order = [[], [0], [0], [1, 2]] ∧
      emissionOrder (keyed "r") children = .ok order ∧
      emissionOrder (keyed "r") [self, childOf "s" "r", childOf "t" "r"] = .ok order := by
  intro self children order
  have horder : emissionOrder (keyed "r") children = .ok order := by decide +kernel
  obtain ⟨first, rest, heq, hagain, -⟩ := emissionOrder_idempotent horder
  obtain ⟨rfl, rfl⟩ := List.cons.inj heq
  exact ⟨by decide +kernel, by decide +kernel, horder, hagain⟩

end DocTables.EmissionOrder
