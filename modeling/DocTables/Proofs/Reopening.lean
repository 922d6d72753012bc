import DocTables.Proofs.RegistryRuns

/-!
# Opening a registry again

A registry in a file may be closed and opened again between any two operations. The other operations
are answered as if it had been in memory all the time and never been closed, and the registry that
comes of them is the same (`Registry.run_file_eq`).
-/

namespace DocTables.Registry

variable {text : DefinitionText} {r : Registry}

/-- The operations that do not open the registry again. -/
def unopened : List Operation → List Operation
  | [] => []
  | .reopen :: ops => unopened ops
  | op :: ops => op :: unopened ops

/-- The answers to operations, given those to the ones that do not open the registry again : to open
it is always answered in one way. -/
def answersAmid : List Operation → List (Except Error Answer) → List (Except Error Answer)
  | [], _ => []
  | .reopen :: ops, answers => .ok .done :: answersAmid ops answers
  | _ :: _, [] => []
  | _ :: ops, answer :: answers => answer :: answersAmid ops answers

theorem run_cons (medium : Medium) (op : Operation) (ops : List Operation) :
    r.run text medium (op :: ops) =
      ((r.step text medium op).1 :: ((r.step text medium op).2.run text medium ops).1,
        ((r.step text medium op).2.run text medium ops).2) := rfl

theorem run_append (medium : Medium) (ops ops' : List Operation) :
    (r.run text medium (ops ++ ops')).2 = ((r.run text medium ops).2.run text medium ops').2 := by
  induction ops generalizing r with
  | nil => rfl
  | cons op ops ih => exact ih

/-- To open a registry again that is kept in a file does nothing. -/
theorem step_reopen : r.step text .file .reopen = (.ok .done, r) := by
  rw [step, apply, reload_eq]
  rfl

/-- A run in a file gives what the run in memory gives without the operations that open the registry
again : the same answers to the others, and the same registry. -/
theorem run_file_eq (text : DefinitionText) (r : Registry) (ops : List Operation) :
    r.run text .file ops = (answersAmid ops (r.run text .memory (unopened ops)).1,
      (r.run text .memory (unopened ops)).2) := by
  induction ops generalizing r with
  | nil => rfl
  | cons op ops ih =>
    cases op with
    | reopen => rw [run_cons, step_reopen, ih, unopened, answersAmid]
    | _ =>
      -- where the registry is kept makes no difference to any other operation
      rw [run_cons, ih]
      rfl

end DocTables.Registry
