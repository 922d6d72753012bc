import DocTables.Proofs.References
import Mathlib.Data.List.Count

/-!
# Placing tables one at a time

`Progress.step` places the first of the ready places and takes one reference off the count of every
place that refers to it, as often as it does. Between two steps the counts and the ready places are
what the placed ones say they are (`Progress.Counts`) : the count of a place is the number of its
references to places that are not placed, and a place is ready when it is not placed and its count
is zero. In the middle of a step some references are still `owed`, one for every count that is to go
down.

It follows that a step places the least place all of whose references are placed
(`Progress.Counts.mem_ready_iff`), so that the places in order are `Greedy`, and that steps place
one table each while some place is ready (`Progress.length_placed_run`), so that none is ready in
the end (`ready_sort`).
-/

namespace DocTables.EmissionOrder

variable {edges : List (List Nat)} {i j k : Nat}

/-! ## Greedy lists of places -/

/-- Place `i` can come next after the places `done` : it is not among them, and all that it refers
to is. -/
structure Open (edges : List (List Nat)) (done : List Nat) (i : Nat) : Prop where
  lt : i < edges.length
  fresh : i ∉ done
  targets : ∀ j, Edge edges i j → j ∈ done

/-- Each place in the list is the least that can come after the places before it. -/
def Greedy (edges : List (List Nat)) (ps : List Nat) : Prop :=
  ∀ k (h : k < ps.length),
    Open edges (ps.take k) ps[k] ∧ ∀ i, Open edges (ps.take k) i → ps[k] ≤ i

theorem greedy_nil : Greedy edges [] := by
  intro k hk
  simp at hk

theorem Greedy.append {ps : List Nat} (h : Greedy edges ps) (hi : Open edges ps i)
    (hleast : ∀ j, Open edges ps j → i ≤ j) : Greedy edges (ps ++ [i]) := by
  intro k hk
  rcases Nat.lt_or_ge k ps.length with hlt | hge
  · rw [List.getElem_append_left hlt, List.take_append_of_le_length (Nat.le_of_lt hlt)]
    exact h k hlt
  · obtain rfl : k = ps.length := by simp at hk; omega
    simpa using ⟨hi, hleast⟩

theorem Greedy.nodup {ps : List Nat} (h : Greedy edges ps) : ps.Nodup := by
  rw [List.nodup_iff_getElem?_ne_getElem?]
  intro a b hab hb heq
  rw [List.getElem?_eq_getElem (by omega), List.getElem?_eq_getElem hb] at heq
  apply (h b hb).1.fresh
  exact List.mem_take_iff_getElem.mpr ⟨a, by omega, Option.some.inj heq⟩

theorem Greedy.lt {ps : List Nat} (h : Greedy edges ps) (hi : i ∈ ps) : i < edges.length := by
  obtain ⟨k, hk, rfl⟩ := List.getElem_of_mem hi
  exact (h k hk).1.lt

/-- A greedy list that is long enough has every place. -/
theorem Greedy.perm_range {ps : List Nat} (h : Greedy edges ps) (hlen : edges.length ≤ ps.length) :
    ps.Perm (List.range edges.length) := by
  apply (List.subperm_of_subset h.nodup _).perm_of_length_le
  · simpa using hlen
  · intro i hi
    exact List.mem_range.mpr (h.lt hi)

/-! ## Counting references -/

/-- A new place takes its references off the count of the references that are not yet placed. -/
theorem countP_notMem_append {done : List Nat} (hi : i ∉ done) (ts : List Nat) :
    ts.countP (· ∉ done) = ts.countP (· ∉ done ++ [i]) + ts.count i := by
  induction ts with
  | nil => rfl
  | cons t ts ih =>
    simp only [List.countP_cons, List.count_cons, ih, List.mem_append, List.mem_singleton]
    by_cases ht : t = i
    · simp [ht, hi]
      omega
    · simp [ht]
      omega

theorem count_flatMap_zipIdx (i j : Nat) : ∀ (es : List (List Nat)) (n : Nat),
    ((es.zipIdx n).flatMap fun e => List.replicate (e.1.count i) e.2).count j =
      if n ≤ j then (es[j - n]?.map (List.count i)).getD 0 else 0
  | [], n => by simp
  | ts :: es, n => by
    rw [List.zipIdx_cons, List.flatMap_cons, List.count_append, count_flatMap_zipIdx i j es,
      List.count_replicate]
    rcases Nat.lt_trichotomy n j with h | rfl | h
    · obtain ⟨m, rfl⟩ : ∃ m, j = n + 1 + m := ⟨j - (n + 1), by omega⟩
      rw [if_neg (by simp; omega), if_pos (by omega), if_pos (by omega), Nat.add_sub_cancel_left,
        show n + 1 + m - n = m + 1 by omega, List.getElem?_cons_succ, Nat.zero_add]
    · rw [if_pos (by simp), if_neg (by omega), if_pos (Nat.le_refl n), Nat.sub_self]
      rfl
    · rw [if_neg (by simp; omega), if_neg (by omega), if_neg (by omega)]

/-- A place depends on another as many times as it refers to it. -/
theorem count_dependents (edges : List (List Nat)) (i j : Nat) :
    (dependents edges i).count j = (edges[j]?.map (List.count i)).getD 0 := by
  have h := count_flatMap_zipIdx i j edges 0
  rwa [if_pos (Nat.zero_le j), Nat.sub_zero] at h

/-! ## Increasing lists -/

@[simp] theorem mem_insert {js : List Nat} : k ∈ insert i js ↔ k = i ∨ k ∈ js := by
  induction js with
  | nil => simp [insert]
  | cons j js ih =>
    unfold insert
    split_ifs
    · simp
    · simp only [List.mem_cons, ih]
      tauto

theorem pairwise_insert {js : List Nat} (hjs : js.Pairwise (· < ·)) (hi : i ∉ js) :
    (insert i js).Pairwise (· < ·) := by
  induction js with
  | nil => simp [insert]
  | cons j js ih =>
    rw [List.pairwise_cons] at hjs
    rw [List.mem_cons, not_or] at hi
    unfold insert
    split_ifs with hij
    · refine List.pairwise_cons.mpr ⟨fun k hk => ?_, List.pairwise_cons.mpr hjs⟩
      rcases List.mem_cons.mp hk with rfl | hk
      · omega
      · have := hjs.1 k hk
        omega
    · refine List.pairwise_cons.mpr ⟨fun k hk => ?_, ih hjs.2 hi.2⟩
      rcases mem_insert.mp hk with rfl | hk
      · omega
      · exact hjs.1 k hk

/-! ## The invariant -/

namespace Progress

/-- What the counts and the ready places are, while the references in `owed` lead to a place that is
placed but are still counted. -/
structure Counts (edges : List (List Nat)) (owed : List Nat) (p : Progress) : Prop where
  /-- The count of a place is the number of its references that are not placed. -/
  pending : ∀ j, p.pending[j]? =
    edges[j]?.map fun ts => ts.countP (· ∉ p.placed) + owed.count j
  /-- The ready places are those of count zero that are not placed. -/
  mem_ready : ∀ j, j ∈ p.ready ↔ p.pending[j]? = some 0 ∧ j ∉ p.placed
  sorted : p.ready.Pairwise (· < ·)
  placed : ∀ j ∈ p.placed, p.pending[j]? = some 0

variable {p : Progress} {owed : List Nat}

theorem counts_start (edges : List (List Nat)) : Counts edges [] (start edges) where
  pending j := by
    rw [start, List.getElem?_map]
    congr 1
    funext ts
    simp
  mem_ready j := by
    simp only [start, List.mem_filter, List.mem_range, List.getElem?_map, beq_iff_eq,
      Option.map_eq_some_iff, List.length_eq_zero_iff, exists_eq_right, List.not_mem_nil,
      not_false_eq_true, and_true, and_iff_right_iff_imp]
    intro h
    exact (List.getElem?_eq_some_iff.mp h).1
  sorted := List.pairwise_lt_range.filter _
  placed j hj := by simp [start] at hj

@[simp] theorem placed_release (p : Progress) (j : Nat) : (p.release j).placed = p.placed :=
  rfl

@[simp] theorem placed_foldl_release (js : List Nat) (p : Progress) :
    (js.foldl release p).placed = p.placed := by
  induction js generalizing p with
  | nil => rfl
  | cons j js ih => rw [List.foldl_cons, ih, placed_release]

/-- Before a reference is taken off the count of a place, the count is not zero. -/
theorem Counts.pending_ne_zero (h : Counts edges (j :: owed) p) : p.pending[j]? ≠ some 0 := by
  rw [h.pending j]
  simp

theorem Counts.getElem?_release (h : Counts edges (j :: owed) p) (k : Nat) :
    (p.release j).pending[k]? =
      edges[k]?.map fun ts => ts.countP (· ∉ p.placed) + owed.count k := by
  unfold release
  simp only [List.getElem?_modify, h.pending k, Option.map_eq_map, Option.map_map, List.count_cons,
    Function.comp_def]
  congr 1
  funext ts
  by_cases hk : j = k
  · simp [hk]
  · simp [hk]

theorem ready_release (p : Progress) (j : Nat) : (p.release j).ready =
    if (p.release j).pending[j]? = some 0 then insert j p.ready else p.ready :=
  rfl

theorem getElem?_release_of_ne (h : j ≠ k) (p : Progress) :
    (p.release j).pending[k]? = p.pending[k]? :=
  List.getElem?_modify_ne _ _ h

/-- Taking off a reference that is owed. -/
theorem Counts.release (h : Counts edges (j :: owed) p) : Counts edges owed (p.release j) where
  pending := h.getElem?_release
  mem_ready k := by
    -- Place `j` still has a reference to wait for.
    have hj : j ∉ p.ready := fun hj => h.pending_ne_zero ((h.mem_ready j).mp hj).1
    have hj' : j ∉ p.placed := fun hj => h.pending_ne_zero (h.placed j hj)
    rw [ready_release, placed_release]
    by_cases hk : j = k
    · subst hk
      split_ifs with h0 <;> simp [*]
    · rw [getElem?_release_of_ne hk, ← h.mem_ready k]
      split_ifs
      · simp [Ne.symm hk]
      · rfl
  sorted := by
    have hj : j ∉ p.ready := fun hj => h.pending_ne_zero ((h.mem_ready j).mp hj).1
    rw [ready_release]
    split_ifs
    · exact pairwise_insert h.sorted hj
    · exact h.sorted
  placed k hk := by
    have hne : j ≠ k := by
      rintro rfl
      exact h.pending_ne_zero (h.placed j hk)
    rw [getElem?_release_of_ne hne]
    exact h.placed k hk

theorem Counts.foldl_release (h : Counts edges owed p) :
    Counts edges [] (owed.foldl Progress.release p) := by
  induction owed generalizing p with
  | nil => exact h
  | cons j owed ih => exact ih h.release

/-- Placing the first of the ready places leaves owed what refers to it. -/
theorem Counts.place {rest : List Nat} (h : Counts edges [] p) (hready : p.ready = i :: rest) :
    Counts edges (dependents edges i) { p with ready := rest, placed := p.placed ++ [i] } := by
  have hi := (h.mem_ready i).mp (by simp [hready])
  have hsorted := h.sorted
  rw [hready, List.pairwise_cons] at hsorted
  refine ⟨fun j => ?_, fun j => ?_, hsorted.2, fun j hj => ?_⟩
  · show p.pending[j]? = _
    rw [h.pending j, count_dependents]
    cases hts : edges[j]? with
    | none => rfl
    | some ts =>
      rw [Option.map_some, Option.map_some, Option.map_some, Option.getD_some, List.count_nil,
        countP_notMem_append hi.2 ts, Nat.add_zero]
  · show j ∈ rest ↔ p.pending[j]? = some 0 ∧ j ∉ p.placed ++ [i]
    have hj := h.mem_ready j
    rw [hready, List.mem_cons] at hj
    simp only [List.mem_append, List.mem_singleton, not_or, ← and_assoc, ← hj]
    constructor
    · intro hmem
      exact ⟨Or.inr hmem, Nat.ne_of_gt (hsorted.1 j hmem)⟩
    · rintro ⟨hmem, hne⟩
      exact hmem.resolve_left hne
  · rcases List.mem_append.mp hj with hj | hj
    · exact h.placed j hj
    · rw [List.mem_singleton.mp hj]
      exact hi.1

theorem step_of_ready_nil (h : p.ready = []) : p.step edges = p := by
  simp [step, h]

theorem step_of_ready_cons {rest : List Nat} (h : p.ready = i :: rest) : p.step edges =
    (dependents edges i).foldl release { p with ready := rest, placed := p.placed ++ [i] } := by
  simp [step, h]

/-- What a step keeps. -/
theorem Counts.step (h : Counts edges [] p) : Counts edges [] (p.step edges) := by
  cases hready : p.ready with
  | nil => rwa [step_of_ready_nil hready]
  | cons i rest =>
    rw [step_of_ready_cons hready]
    exact (h.place hready).foldl_release

/-- What a run keeps. -/
theorem Counts.run (h : Counts edges [] p) (n : Nat) : Counts edges [] (p.run edges n) := by
  induction n generalizing p with
  | zero => exact h
  | succ n ih => exact ih h.step

/-! ## The places that are placed -/

/-- The ready places are those that can come next. -/
theorem Counts.mem_ready_iff (h : Counts edges [] p) : i ∈ p.ready ↔ Open edges p.placed i := by
  rw [h.mem_ready, h.pending, Option.map_eq_some_iff]
  constructor
  · rintro ⟨⟨ts, hts, hcount⟩, hfresh⟩
    refine ⟨(List.getElem?_eq_some_iff.mp hts).1, hfresh, ?_⟩
    rintro j ⟨ts', hts', hj⟩
    rw [hts, Option.some.injEq] at hts'
    subst hts'
    simpa using List.countP_eq_zero.mp hcount j hj
  · rintro ⟨hlt, hfresh, htargets⟩
    have hts := List.getElem?_eq_getElem hlt
    refine ⟨⟨edges[i], hts, List.countP_eq_zero.mpr fun j hj => ?_⟩, hfresh⟩
    simpa using htargets j ⟨_, hts, hj⟩

theorem placed_step {rest : List Nat} (h : p.ready = i :: rest) :
    (p.step edges).placed = p.placed ++ [i] := by
  rw [step_of_ready_cons h, placed_foldl_release]

/-- A step places the least place that can come next. -/
theorem Counts.greedy_step (h : Counts edges [] p) (hp : Greedy edges p.placed) :
    Greedy edges (p.step edges).placed := by
  cases hready : p.ready with
  | nil => rwa [step_of_ready_nil hready]
  | cons i rest =>
    have hsorted := h.sorted
    rw [hready, List.pairwise_cons] at hsorted
    rw [placed_step hready]
    refine hp.append (h.mem_ready_iff.mp (by simp [hready])) fun j hj => ?_
    rcases List.mem_cons.mp (hready ▸ h.mem_ready_iff.mpr hj) with rfl | hj
    · exact Nat.le_refl j
    · exact Nat.le_of_lt (hsorted.1 j hj)

theorem Counts.greedy_run (h : Counts edges [] p) (hp : Greedy edges p.placed) (n : Nat) :
    Greedy edges (p.run edges n).placed := by
  induction n generalizing p with
  | zero => exact hp
  | succ n ih => exact ih h.step (h.greedy_step hp)

theorem run_of_ready_nil (h : p.ready = []) (n : Nat) : p.run edges n = p := by
  induction n with
  | zero => rfl
  | succ n ih => rw [Progress.run, step_of_ready_nil h, ih]

theorem run_add (edges : List (List Nat)) (m n : Nat) (p : Progress) :
    p.run edges (m + n) = (p.run edges m).run edges n := by
  induction m generalizing p with
  | zero => rw [Nat.zero_add, run]
  | succ m ih => rw [Nat.succ_add, run, run, ih]

theorem run_succ (edges : List (List Nat)) (n : Nat) (p : Progress) :
    p.run edges (n + 1) = (p.run edges n).step edges :=
  run_add edges n 1 p

/-- Once no place is ready, further steps change nothing. -/
theorem run_eq_of_ready_nil {m n : Nat} (h : (p.run edges m).ready = []) (hmn : m ≤ n) :
    p.run edges n = p.run edges m := by
  rw [← Nat.add_sub_cancel' hmn, run_add, run_of_ready_nil h]

/-- While some place is ready, every step places one table. -/
theorem length_placed_run {n : Nat} (h : ∀ m < n, (p.run edges m).ready ≠ []) :
    (p.run edges n).placed.length = p.placed.length + n := by
  induction n with
  | zero => rfl
  | succ n ih =>
    obtain ⟨i, rest, hcons⟩ := List.exists_cons_of_ne_nil (h n (Nat.lt_succ_self n))
    rw [run_succ, placed_step hcons, List.length_append, List.length_singleton,
      ih fun m hm => h m (Nat.lt_succ_of_lt hm), Nat.add_assoc]

end Progress

/-! ## Sorting -/

theorem counts_sort (edges : List (List Nat)) : (sort edges).Counts edges [] :=
  (Progress.counts_start edges).run _

/-- The places in the order of creation are greedy. -/
theorem greedy_sort (edges : List (List Nat)) : Greedy edges (sort edges).placed :=
  (Progress.counts_start edges).greedy_run greedy_nil _

/-- Nothing is ready in the end : if something were, every step would have placed a table, so that
none is left. -/
theorem ready_sort (edges : List (List Nat)) : (sort edges).ready = [] := by
  by_contra hready
  have hlen : (sort edges).placed.length = edges.length := by
    refine (Progress.length_placed_run fun m hm hnil => hready ?_).trans (Nat.zero_add _)
    rw [sort, Progress.run_eq_of_ready_nil hnil (Nat.le_of_lt hm), hnil]
  have hperm := (greedy_sort edges).perm_range (Nat.le_of_eq hlen.symm)
  obtain ⟨i, hi⟩ := List.exists_mem_of_ne_nil _ hready
  have hopen := (counts_sort edges).mem_ready_iff.mp hi
  exact hopen.fresh (hperm.mem_iff.mpr (List.mem_range.mpr hopen.lt))

/-- No place can come next in the end. -/
theorem not_open_sort (edges : List (List Nat)) (i : Nat) : ¬Open edges (sort edges).placed i := by
  rw [← (counts_sort edges).mem_ready_iff, ready_sort]
  exact List.not_mem_nil

end DocTables.EmissionOrder
