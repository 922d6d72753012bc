import DocTables.Yaml.Token

/-!
# The tree of a YAML text

`Yaml.parse?` reads a text that holds at most one document into a tree. An alias is a node of the tree
that holds a number, and the tree has a table of the nodes with an anchor. A text in which nothing
is written is an empty plain scalar, and so is a value that is left blank.

An anchor gets as its number the number of names that have been used before it. So a name that is
used again can get the number that the next new name gets too; of the nodes with one number it is
the last that counts.
-/

namespace DocTables.Yaml

inductive Node where
  | alias (number : Nat)
  | scalar (tag : Option Tag) (text : String) (style : Style)
  | sequence (items : List Node)
  | mapping (entries : List (Node × Node))
  deriving Repr, Inhabited

/-- A value that is left blank. -/
def Node.blank : Node := .scalar none "" .plain

/-- A node with an anchor. -/
structure Anchored where
  number : Nat
  /-- The number of anchors before it in the text. -/
  place : Nat
  node : Node

/-- The tree of a text. -/
structure Tree where
  root : Node
  anchored : List Anchored := []
  /-- The number of nodes, and one more for every end of a sequence or mapping. -/
  size : Nat := 1

/-- The last of the nodes with this number. -/
def Tree.find? (t : Tree) (number : Nat) : Option Node :=
  (t.anchored.foldl (fun best a =>
    if a.number ≠ number then best
    else match best with
      | none => some a
      | some b => if b.place < a.place then some a else best) none).map Anchored.node

/-! ## Reading nodes -/

/-- The state of reading nodes. -/
structure Reading where
  /-- The tokens from here on. -/
  tokens : List Token
  /-- The short forms of tags, with what they are short for. -/
  handles : List (String × Bytes)
  /-- The names of anchors, each with its last number. -/
  names : List (String × Nat) := []
  /-- The number of anchors so far. -/
  anchors : Nat := 0
  anchored : List Anchored := []
  size : Nat := 0

/-- A step of reading, which may find that the text is not well formed. -/
abbrev Reader := StateT Reading Option

namespace Reader

/-- The next token, if there is one. -/
def peek : Reader (Option Token) := do return (← get).tokens.head?

/-- Leave the next token. -/
def skip : Reader Unit := modify fun r => { r with tokens := r.tokens.tail }

/-- Count a node, or the end of one. -/
def count : Reader Unit := modify fun r => { r with size := r.size + 1 }

/-- Leave the next token if it is this one, and tell whether it is. -/
def take (t : Token) : Reader Bool := do
  if (← peek) = some t then
    skip
    return true
  else return false

/-- The short forms of tags that need not be declared. -/
def defaultHandles : List (String × Bytes) := [("!", Tag.mark), ("!!", Tag.standardStart)]

/-- The full form of a tag. -/
def fullTag (handle : String) (suffix : Bytes) : Reader Tag := do
  if handle.isEmpty then return suffix
  else
    match (← get).handles.lookup handle with
    | some start => return start ++ suffix
    | none => failure

/-- What stands before a node. -/
structure Properties where
  anchor : Option String := none
  tag : Option Tag := none

/-- An anchor, if one is next. -/
def anchor : Reader (Option String) := do
  match ← peek with
  | some (.anchor name) =>
    skip
    return some name
  | _ => return none

/-- A tag, if one is next. -/
def tag : Reader (Option (String × Bytes)) := do
  match ← peek with
  | some (.tag handle suffix) =>
    skip
    return some (handle, suffix)
  | _ => return none

/-- An anchor and a tag, in either order, of which each may be missing. -/
def properties : Reader Properties := do
  let first ← anchor
  let tag ← tag
  let anchor ← if first.isSome then pure first else anchor
  return { anchor, tag := ← tag.mapM fun (handle, suffix) => fullTag handle suffix }

/-- Use a name for a node that begins here. The number that the node gets and its place. -/
def name (name : String) : Reader (Nat × Nat) := do
  let r ← get
  let number := r.names.length
  set { r with names := (name, number) :: r.names.filter (·.1 != name), anchors := r.anchors + 1 }
  return (number, r.anchors)

/-- Read a node that may have an anchor. -/
def withAnchor (anchor : Option String) (read : Reader Node) : Reader Node := do
  match anchor with
  | none => read
  | some anchor =>
    let (number, place) ← name anchor
    let node ← read
    modify fun r => { r with anchored := ⟨number, place, node⟩ :: r.anchored }
    return node

/-- A scalar with its value. -/
def leaf (node : Node) : Reader Node := do
  count
  return node

/-- The node that an anchor with this name has been given last. -/
def aliasOf (name : String) : Reader Node := do
  match (← get).names.lookup name with
  | some number => leaf (.alias number)
  | none => failure

/-- A blank value. -/
def blank : Reader Node := leaf .blank

/-- The next token is one of these. -/
def nextIs (ts : List Token) : Reader Bool := do return (← peek).any ts.contains

/-- The comma that stands before every item or entry but the first. -/
def separator (first : Bool) : Reader Unit := do
  if first then pure ()
  else if ← take .comma then pure ()
  else failure

mutual

/-- A node. A block may begin here if `block` is true, and a sequence at the column of its key if
`flat` is true. -/
def node (block flat : Bool) : Nat → Reader Node
  | 0 => failure
  | fuel + 1 => do
    if let some (.alias name) ← peek then
      skip
      aliasOf name
    else
      let p ← properties
      withAnchor p.anchor do
        match ← peek with
        | some (.scalar text style) =>
          skip
          leaf (.scalar p.tag text style)
        | some .sequenceOpen =>
          skip
          count
          return .sequence (← flowItems true fuel)
        | some .mappingOpen =>
          skip
          count
          return .mapping (← flowEntries true fuel)
        | next =>
          if flat && next = some .dash then
            count
            return .sequence (← flatItems fuel)
          else if block && next = some .sequenceBlock then
            skip
            count
            return .sequence (← blockItems fuel)
          else if block && next = some .mappingBlock then
            skip
            count
            return .mapping (← blockEntries fuel)
          else if p.anchor.isSome || p.tag.isSome then leaf (.scalar p.tag "" .plain)
          else failure

/-- A node, or a blank before one of these tokens. -/
def nodeBefore (block flat : Bool) (ts : List Token) : Nat → Reader Node
  | 0 => failure
  | fuel + 1 => do
    if ← nextIs ts then blank else node block flat fuel

/-- The items of a block. -/
def blockItems : Nat → Reader (List Node)
  | 0 => failure
  | fuel + 1 => do
    if ← take .dash then
      let item ← nodeBefore true false [.dash, .blockEnd] fuel
      return item :: (← blockItems fuel)
    else if ← take .blockEnd then
      count
      return []
    else failure

/-- The items of a sequence at the column of its key. -/
def flatItems : Nat → Reader (List Node)
  | 0 => failure
  | fuel + 1 => do
    if ← take .dash then
      let item ← nodeBefore true false [.dash, .key, .value, .blockEnd] fuel
      return item :: (← flatItems fuel)
    else
      count
      return []

/-- The entries of a block. -/
def blockEntries : Nat → Reader (List (Node × Node))
  | 0 => failure
  | fuel + 1 => do
    if ← take .key then
      let key ← nodeBefore true true [.key, .value, .blockEnd] fuel
      let value ←
        if ← take .value then nodeBefore true true [.key, .value, .blockEnd] fuel else blank
      return (key, value) :: (← blockEntries fuel)
    else if ← take .blockEnd then
      count
      return []
    else failure

/-- The items of a sequence on one line. An item may be a mapping of one entry. -/
def flowItems (first : Bool) : Nat → Reader (List Node)
  | 0 => failure
  | fuel + 1 => do
    if ← take .sequenceClose then
      count
      return []
    else
      separator first
      if ← take .sequenceClose then
        count
        return []
      let item ← if ← take .key then pairItem fuel else node false false fuel
      return item :: (← flowItems false fuel)

/-- A mapping of one entry. If its key is blank, the token after the key is left too. -/
def pairItem : Nat → Reader Node
  | 0 => failure
  | fuel + 1 => do
    count
    let key ←
      if ← nextIs [.value, .comma, .sequenceClose] then do
        skip
        blank
      else node false false fuel
    let value ←
      if ← take .value then nodeBefore false false [.comma, .sequenceClose] fuel else blank
    count
    return .mapping [(key, value)]

/-- The entries of a mapping on one line. A key may stand alone. -/
def flowEntries (first : Bool) : Nat → Reader (List (Node × Node))
  | 0 => failure
  | fuel + 1 => do
    if ← take .mappingClose then
      count
      return []
    else
      separator first
      if ← take .mappingClose then
        count
        return []
      if ← take .key then
        let key ← nodeBefore false false [.value, .comma, .mappingClose] fuel
        let value ←
          if ← take .value then nodeBefore false false [.comma, .mappingClose] fuel else blank
        return (key, value) :: (← flowEntries false fuel)
      else
        let key ← node false false fuel
        let value ← blank
        return (key, value) :: (← flowEntries false fuel)

end

/-! ## Reading documents -/

/-- The directives before a document. There is at most one of the version, which is 1.1 or 1.2, and
at most one for each short form. -/
def directives : Nat → (version : Bool) → (handles : List (String × Bytes)) →
    Reader (List (String × Bytes))
  | 0, _, _ => failure
  | fuel + 1, version, handles => do
    match ← peek with
    | some (.version major minor) =>
      if version || major ≠ 1 || (minor ≠ 1 && minor ≠ 2) then failure
      skip
      directives fuel true handles
    | some (.tagHandle handle start) =>
      if (handles.lookup handle).isSome then failure
      skip
      directives fuel version (handles ++ [(handle, start)])
    | _ => return handles

/-- A directive is next. -/
def atDirective : Reader Bool := do
  match ← peek with
  | some (.version ..) | some (.tagHandle ..) => return true
  | _ => return false

/-- Leave any number of these tokens. -/
def skipAll (t : Token) : Nat → Reader Unit
  | 0 => pure ()
  | fuel + 1 => do if ← take t then skipAll t fuel

/-- The next token cannot be part of a document. -/
def atDocumentLimit : Reader Bool := do
  let next ← peek
  return next.isNone || (← atDirective) || (← nextIs [.documentStart, .documentEnd])

/-- The one document of a text. It may be left out. -/
def document (fuel : Nat) : Reader Node := do
  if (← peek).isNone then blank
  else
    let directed ← atDirective
    let handles ← directives fuel false []
    modify fun r => { r with handles := handles ++ defaultHandles }
    let explicit ← take .documentStart
    if directed && !explicit then failure
    let root ← if explicit && (← atDocumentLimit) then blank else node true false fuel
    skipAll .documentEnd fuel
    if (← peek).isSome then failure
    return root

end Reader

/-- The tree of a text. -/
def parse? (text : String) : Option Tree := do
  let tokens ← Token.scan? text
  let (root, r) ← (Reader.document (2 * tokens.length + 4)).run
    { tokens, handles := Reader.defaultHandles }
  return { root, anchored := r.anchored, size := r.size }

end DocTables.Yaml
