import DocTables.Data
import DocTables.Digits

/-!
# Writing JSON

Two forms of the same data : `Json.compact` has no blanks, and `Json.pretty` puts every item and
every field on a line of its own, two spaces further in than what holds it. Strings are written as
they are but for quotes, backslashes and control characters.
-/

namespace DocTables.Json

/-! ## Strings -/

/-- A character as it stands in a string. -/
def escape (c : Char) : List Char :=
  if c = '"' then ['\\', '"']
  else if c = '\\' then ['\\', '\\']
  else if c = '\x08' then ['\\', 'b']
  else if c = '\t' then ['\\', 't']
  else if c = '\n' then ['\\', 'n']
  else if c = '\x0c' then ['\\', 'f']
  else if c = '\r' then ['\\', 'r']
  else if c.toNat < 0x20 then '\\' :: 'u' :: Digits.hex 'a' 4 c.toNat
  else [c]

/-- A string between quotes. -/
def quoted (s : String) : List Char := '"' :: (s.toList.flatMap escape ++ ['"'])

/-! ## The compact form -/

mutual

/-- The characters of the compact form. -/
def compactChars : Data → List Char
  | .null => "null".toList
  | .bool true => "true".toList
  | .bool false => "false".toList
  | .int i => (toString i).toList
  | .text s => quoted s
  | .list items => '[' :: (compactItems items ++ [']'])
  | .map fields => '\x7b' :: (compactFields fields ++ ['\x7d'])

/-- Items with commas between them. -/
def compactItems : List Data → List Char
  | [] => []
  | [item] => compactChars item
  | item :: items => compactChars item ++ ',' :: compactItems items

/-- Fields with commas between them. -/
def compactFields : List (String × Data) → List Char
  | [] => []
  | [(name, value)] => quoted name ++ ':' :: compactChars value
  | (name, value) :: fields => quoted name ++ ':' :: (compactChars value ++ ',' :: compactFields fields)

end

/-- The data on one line. -/
def compact (d : Data) : String := String.ofList (compactChars d)

/-! ## The pretty form -/

/-- A new line that begins with `indent` spaces. -/
def newLine (indent : Nat) : List Char := '\n' :: List.replicate indent ' '

mutual

/-- The characters of the pretty form, for data that begins on a line with `indent` spaces. -/
def prettyChars (indent : Nat) : Data → List Char
  | .list [] => ['[', ']']
  | .list items => '[' :: (prettyItems (indent + 2) items ++ newLine indent ++ [']'])
  | .map [] => ['\x7b', '\x7d']
  | .map fields => '\x7b' :: (prettyFields (indent + 2) fields ++ newLine indent ++ ['\x7d'])
  | .null => compactChars .null
  | .bool b => compactChars (.bool b)
  | .int i => compactChars (.int i)
  | .text s => quoted s

/-- Items on lines of their own. -/
def prettyItems (indent : Nat) : List Data → List Char
  | [] => []
  | [item] => newLine indent ++ prettyChars indent item
  | item :: items =>
    newLine indent ++ (prettyChars indent item ++ ',' :: prettyItems indent items)

/-- Fields on lines of their own. -/
def prettyFields (indent : Nat) : List (String × Data) → List Char
  | [] => []
  | [(name, value)] => newLine indent ++ quoted name ++ ':' :: ' ' :: prettyChars indent value
  | (name, value) :: fields =>
    newLine indent ++ quoted name ++
      ':' :: ' ' :: (prettyChars indent value ++ ',' :: prettyFields indent fields)

end

/-- The data on as many lines as it has parts. -/
def pretty (d : Data) : String := String.ofList (prettyChars 0 d)

end DocTables.Json
