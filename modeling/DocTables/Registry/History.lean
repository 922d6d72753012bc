import DocTables.Registry.Storage

/-!
# Histories of a registry

The operations that may change a registry, as data. `Registry.step` carries one out : it gives an
answer and the registry that comes of it, which is the same registry if the operation fails.
`Registry.run` carries out a list of them.
-/

namespace DocTables.Registry

/-- Where a registry is kept. -/
inductive Medium where
  /-- It is lost when it is closed. -/
  | memory
  /-- It is in a file. -/
  | file
  deriving DecidableEq, Repr

/-- Something that may change a registry. -/
inductive Operation where
  | addInfo (id name description : String)
  | updateInfo (name description : String) (active : Bool)
  | addSchema (doc : Document) (remark : String)
  | saveDraft (doc : Document) (remark : String)
  | publish (name : String) (compiler : Compiler)
  /-- Close the registry and open it again. -/
  | reopen

/-- What a successful operation gives. -/
inductive Answer where
  | done
  | info (info : Info)
  | revision (number : Int32)
  | published (published : Published)
  deriving DecidableEq, Repr

variable (text : DefinitionText) (medium : Medium)

/-- Carry out an operation, if it can be. -/
def apply (r : Registry) : Operation → Except Error (Answer × Registry)
  | .addInfo id name description =>
    (r.addInfo id name description).map fun (info, r) => (.info info, r)
  | .updateInfo name description active =>
    (r.updateInfo name description active).map fun (info, r) => (.info info, r)
  | .addSchema doc remark =>
    (r.addSchema text doc remark).map fun (number, r) => (.revision number, r)
  | .saveDraft doc remark => (r.saveDraft text doc remark).map fun r => (.done, r)
  | .publish name compiler =>
    (r.publish text name compiler).map fun (published, r) => (.published published, r)
  | .reopen =>
    match medium with
    | .memory => .ok (.done, empty)
    | .file => r.reload.map fun r => (.done, r)

/-- Carry out an operation. A failure leaves the registry as it was. -/
def step (r : Registry) (op : Operation) : Except Error Answer × Registry :=
  match r.apply text medium op with
  | .ok (answer, r) => (.ok answer, r)
  | .error e => (.error e, r)

/-- Carry out operations one after the other. -/
def run (r : Registry) : List Operation → List (Except Error Answer) × Registry
  | [] => ([], r)
  | op :: ops =>
    let (answer, r) := r.step text medium op
    let (answers, r) := r.run ops
    (answer :: answers, r)

end DocTables.Registry
