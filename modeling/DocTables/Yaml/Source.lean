import DocTables.Source
import DocTables.Yaml.Node
import DocTables.Yaml.Plain

/-!
# The answers of a YAML tree

Any scalar is a text, whatever it looks like. Null, booleans and numbers must be written plainly, or
as literal blocks with the tag of their type. A value that is left blank is an empty list or record,
and no null, boolean or number but for a field that may be null.

Every alias that is followed costs one jump, and a tree allows a hundred jumps for its size. This
bounds the work on a small text that stands for a large one.
-/

namespace DocTables.Yaml

/-- An answer, with the jumps that are left. -/
abbrev Answer := StateT Nat Option

/-- The node that a node stands for. -/
def follow (t : Tree) : Node → Answer Node
  | .alias number => do
    match ← get with
    | 0 => failure
    | jumps + 1 =>
      set jumps
      match t.find? number with
      | some node => return node
      | none => failure
  | node => return node

/-- The text of a scalar that may be of the standard type with this name. -/
def typed (name : String) : Node → Option String
  | .scalar _ text .plain => some text
  | .scalar (some tag) text .literal => if tag = Tag.standard name then some text else none
  | _ => none

/-- The answer, if there is one. -/
def answer {α : Type} : Option α → Answer α
  | some a => return a
  | none => failure

/-- The value is left blank. -/
def isLeftBlank : Node → Bool
  | .scalar _ text .plain => text.isEmpty
  | _ => false

/-- The text of a scalar. -/
def text (t : Tree) (x : Node) : Answer String := do
  match ← follow t x with
  | .scalar _ text _ => return text
  | _ => failure

/-- The value is null. A value with another tag than that of null is not. -/
def null? : Node → Option Bool
  | .scalar none text .plain => some (text.isEmpty || isNull text)
  | .scalar (some tag) text .plain =>
    if tag = Tag.standard "null" then if isNull text then some true else none else some false
  | _ => some false

/-- The questions that a YAML tree answers. -/
def source (t : Tree) : Source Answer Node where
  reject := failure
  text := text t
  bool x := do answer ((typed "bool" (← follow t x)).bind bool?)
  int32 x := do
    let i ← answer ((typed "int" (← follow t x)).bind int?)
    answer (Digits.int32? i)
  natBelow bound x := do
    let n ← answer ((typed "int" (← follow t x)).bind nat?)
    if n < bound then return n else failure
  nullable x := do
    let node ← follow t x
    return if ← answer (null? node) then none else some node
  list x := do
    match ← follow t x with
    | .sequence items => return some items
    | node => if isLeftBlank node then return none else failure
  fields _ x := do
    match ← follow t x with
    | .mapping entries => some <$> entries.mapM fun (key, value) => return (← text t key, value)
    | node => if isLeftBlank node then return none else failure

/-- The one of a set of choices that a value names : by a local tag if it has one and is null, and by
its text if not. -/
def choice (t : Tree) (x : Node) : Answer String := do
  match ← follow t x with
  | .scalar tag text style =>
    match tag.bind Tag.localName? with
    | none => return text
    | some name => if style = .plain ∧ (text.isEmpty ∨ isNull text) then return name else failure
  | _ => failure

/-- What a decoder finds in a YAML text. -/
def read? {α : Type} (s : String) (decode : Tree → Node → Answer α) : Option α := do
  let t ← parse? s
  (decode t t.root).run' (100 * t.size)

/-- The levels of maps and lists that a text may have where it is read. -/
def maxDepth : Nat := 128

end DocTables.Yaml
