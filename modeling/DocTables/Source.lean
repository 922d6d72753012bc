/-!
# Asking a parsed text

A decoder asks a tree for what it should hold and does not mind which notation the tree came from.
`Source m α` answers the questions for trees of type `α`. A question may fail, in the monad `m`.

The fields of a record come as a list in the order of the text. `Source.field` finds the one that a
decoder wants and refuses a text that gives it twice; the others are never looked at.
-/

namespace DocTables

/-- The answers that a tree of type `α` gives. -/
structure Source (m : Type → Type) (α : Type) where
  /-- There is no answer. -/
  reject : {β : Type} → m β
  text : α → m String
  bool : α → m Bool
  /-- A whole number that fits in a word of thirty-two bits with a sign. -/
  int32 : α → m Int32
  /-- A whole number from zero up, less than the bound. -/
  natBelow : Nat → α → m Nat
  /-- The same tree, or none for null. -/
  nullable : α → m (Option α)
  /-- The items of a list, or none for a value that is left blank. -/
  list : α → m (Option (List α))
  /-- The fields of a record whose keys are known, in their order, or none for a value that is left
  blank. -/
  fields : List String → α → m (Option (List (String × α)))

namespace Source

variable {m : Type → Type} [Monad m] {α : Type}

/-- The value of a field that may be missing. -/
def field (src : Source m α) (fields : List (String × α)) (name : String) : m (Option α) :=
  match fields.filter (·.1 == name) with
  | [] => pure none
  | [(_, value)] => pure (some value)
  | _ => src.reject

/-- What a field says, or a default if it is missing. -/
def fieldD {β : Type} (src : Source m α) (fields : List (String × α)) (name : String)
    (read : α → m β) (default : β) : m β := do
  match ← src.field fields name with
  | some value => read value
  | none => return default

/-- What a field says, which must be there. -/
def required {β : Type} (src : Source m α) (fields : List (String × α)) (name : String)
    (read : α → m β) : m β := do
  match ← src.field fields name with
  | some value => read value
  | none => src.reject

/-- What a value says, if it is not null. -/
def optional {β : Type} (src : Source m α) (read : α → m β) (value : α) : m (Option β) := do
  match ← src.nullable value with
  | some value => some <$> read value
  | none => return none

/-- A whole number of thirty-two bits. -/
def uint32 (src : Source m α) (value : α) : m UInt32 :=
  UInt32.ofNat <$> src.natBelow UInt32.size value

end Source

end DocTables
