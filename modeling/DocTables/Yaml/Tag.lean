import DocTables.Bytes
import DocTables.Yaml.Cursor

/-!
# Tags in a YAML text

A tag is written as a handle and a suffix. The handle stands for a beginning of tags that is given
elsewhere; it is empty if the suffix is all of the tag.

What is written stands for bytes, some of them after percent signs. Those that begin a character in
UTF-8 must have the right number of bytes after them, but they need not be a character. A tag and
each part of it end before the first zero.
-/

namespace DocTables.Yaml

/-- The bytes of a tag. -/
abbrev Tag := Bytes

/-- A tag as it is written. -/
structure WrittenTag where
  handle : String
  suffix : Bytes
  deriving DecidableEq, Repr

namespace Tag

/-- The tag that is only an exclamation mark. -/
def mark : Tag := Bytes.ofText "!"

/-- The beginning of the tags of the standard types. -/
def standardStart : Bytes := Bytes.ofText "tag:yaml.org,2002:"

/-- The tag of a standard type. -/
def standard (name : String) : Tag := standardStart ++ Bytes.ofText name

/-- The name in a local tag, which begins with an exclamation mark. -/
def localName? (tag : Tag) : Option String :=
  match tag with
  | b :: name => if [b] = mark then Bytes.text? name else none
  | [] => none

end Tag

/-! ## Characters of a tag -/

/-- A character of a tag. A tag between angle brackets may hold commas and brackets too. -/
def isTagChar (verbatim : Bool) (c : Char) : Bool :=
  isNameChar c || ";/?:@&=+$.!~*'()".toList.contains c || (verbatim && ",[]".toList.contains c)

/-- The number of bytes of a character in UTF-8, by the first. -/
def byteCount? (b : UInt8) : Option Nat :=
  if b < 0x80 then some 1
  else if 0xC0 ≤ b ∧ b < 0xE0 then some 2
  else if 0xE0 ≤ b ∧ b < 0xF0 then some 3
  else if 0xF0 ≤ b ∧ b < 0xF8 then some 4
  else none

/-- This many further bytes of an escaped character. -/
def continuation? : Nat → List Char → Option Bytes
  | 0, _ => some []
  | n + 1, cs => do
    let (b, rest) ← Bytes.escaped? cs
    if 0x80 ≤ b ∧ b < 0xC0 then return b :: (← continuation? n rest) else none

/-- The bytes of an escaped character. -/
def escapedChar? (cs : List Char) : Option Bytes := do
  let (b, rest) ← Bytes.escaped? cs
  let n ← byteCount? b
  return b :: (← continuation? (n - 1) rest)

/-- The bytes of a tag from here on. -/
def tagBytes? (verbatim : Bool) : (fuel : List Char) → Cursor → Option (Bytes × Cursor)
  | [], c => some ([], c)
  | _ :: fuel, c =>
    match c.rest with
    | '%' :: _ => do
      let char ← escapedChar? c.rest
      let (bytes, c) ← tagBytes? verbatim fuel (c.skip (3 * char.length))
      return (char ++ bytes, c)
    | char :: _ =>
      if isTagChar verbatim char then
        (tagBytes? verbatim fuel (c.skip 1)).map fun (bytes, c) => (char.toUInt8 :: bytes, c)
      else some ([], c)
    | [] => some ([], c)

/-- The bytes before the first zero. -/
def untilZero (bytes : Bytes) : Bytes := bytes.takeWhile (· ≠ 0)

/-- Part of a tag from here on, for which something must be written. -/
def tagPart? (verbatim : Bool) (c : Cursor) : Option (Bytes × Cursor) := do
  let (bytes, c) ← tagBytes? verbatim c.rest c
  if bytes.isEmpty then none else return (untilZero bytes, c)

/-! ## Tags -/

/-- A handle, from its exclamation mark : the name in it, whether a second mark ends it, and what
follows. -/
def takeHandle (c : Cursor) : String × Bool × Cursor :=
  let (name, c) := (c.skip 1).takeName
  match c.rest with
  | '!' :: _ => (name, true, c.skip 1)
  | _ => (name, false, c)

/-- The handle with a name between two marks. -/
def handleOf (name : String) : String := "!" ++ name ++ "!"

/-- A tag, from its exclamation mark. The tag that is only this mark has no handle. -/
def tag? (inFlow : Bool) (c : Cursor) : Option (WrittenTag × Cursor) := do
  let (tag, c) ←
    match c.rest with
    | _ :: '<' :: _ => do
      let (suffix, c) ← tagPart? true (c.skip 2)
      match c.rest with
      | '>' :: _ => some (⟨"", suffix⟩, c.skip 1)
      | _ => none
    | _ =>
      let (name, closed, after) := takeHandle c
      if closed then do
        let (suffix, c) ← tagPart? false after
        some (⟨handleOf name, suffix⟩, c)
      else do
        let (bytes, c) ← tagBytes? false after.rest after
        let suffix := untilZero (Bytes.ofText name ++ bytes)
        some (if suffix.isEmpty then ⟨"", Tag.mark⟩ else ⟨"!", suffix⟩, c)
  if endsWord c.rest || (inFlow && c.rest.head? = some ',') then some (tag, c) else none

/-- A short form of a beginning of tags, from its exclamation mark : the handle, what it stands for,
and what follows. -/
def tagShortForm? (c : Cursor) : Option (WrittenTag × Cursor) := do
  if c.rest.head? ≠ some '!' then none
  let (name, closed, c) := takeHandle c
  if !closed && !name.isEmpty then none
  if !c.rest.head?.any isBlank then none
  let (start, c) ← tagPart? true (c.skipWhile isBlank)
  if !endsWord c.rest then none
  return (⟨if closed then handleOf name else "!", start⟩, c)

end DocTables.Yaml
