import DocTables.Data
import DocTables.Yaml.Cursor
import DocTables.Yaml.Plain

/-!
# Writing YAML

Data is written in blocks, two spaces further in at every level, but for a list in a map, which
begins at the column of its key. An empty list or map is written on the line of its key.

Text is written plainly if that reads back as the same text. Text of several lines is written as a
block of lines, other text between single quotes, and text that needs escapes between double quotes.
-/

namespace DocTables.Yaml

/-! ## How a text can be written -/

/-- A character that may stand in a text as it is. -/
def isPrintable (c : Char) : Bool :=
  c = '\n' || (0x20 ≤ c.toNat && c.toNat ≤ 0x7E) || (0xA0 ≤ c.toNat && c.toNat ≤ 0xD7FF) ||
    (0xE000 ≤ c.toNat && c.toNat ≤ 0xFFFD && c ≠ byteOrderMark) || 0x10000 ≤ c.toNat

/-- The characters that a plain text must not begin with. -/
def reservedFirst : List Char := "#,[]\x7b\x7d&*!|>'\"%@\x60".toList

/-- In a text that follows the character `before`, a colon ends a word or a hash begins one. -/
def hasMark : (before : Char) → List Char → Bool
  | _, [] => false
  | before, c :: rest =>
    (c = ':' && endsWord rest) || (c = '#' && (isBlank before || isBreak before)) ||
      hasMark c rest

/-- A text that would be taken for something else in a block. -/
def hasIndicator : List Char → Bool
  | [] => false
  | c :: rest =>
    ['-', '-', '-'].isPrefixOf (c :: rest) || ['.', '.', '.'].isPrefixOf (c :: rest) ||
      reservedFirst.contains c || ((c = '?' || c = ':' || c = '-') && endsWord rest) ||
      hasMark c rest

/-- Two characters with these properties stand side by side. -/
def hasPair (p q : Char → Bool) : List Char → Bool
  | a :: b :: rest => (p a && q b) || hasPair p q (b :: rest)
  | _ => false

/-- A space. -/
def isSpace (c : Char) : Bool := c = ' '

/-- The text needs escapes : it holds other characters than printable ones, or a line of it ends with
a space. -/
def needsEscapes (cs : List Char) : Bool := !cs.all isPrintable || hasPair isSpace isBreak cs

/-- A text that is not empty can be written plainly in a block. -/
def allowsPlain (cs : List Char) : Bool :=
  !needsEscapes cs && !cs.any isBreak && cs.head? ≠ some ' ' && cs.getLast? ≠ some ' ' &&
    !hasIndicator cs

/-- The text can be written between single quotes. -/
def allowsSingleQuotes (cs : List Char) : Bool := !needsEscapes cs && !hasPair isBreak isSpace cs

/-- A text that is not empty can be written as a block of lines. -/
def allowsLines (cs : List Char) : Bool := !needsEscapes cs && cs.getLast? ≠ some ' '

/-! ## Writing text -/

/-- `n` spaces. -/
def spaces (n : Nat) : List Char := List.replicate n ' '

/-- Lines that begin at column `indent`. `lineStart` tells whether a line begins here. -/
def indented (indent : Nat) (write : Char → List Char) : (lineStart : Bool) → List Char → List Char
  | _, [] => []
  | lineStart, c :: rest =>
    if isBreak c then c :: indented indent write true rest
    else if lineStart then spaces indent ++ write c ++ indented indent write false rest
    else write c ++ indented indent write false rest

/-- A text between single quotes, in which a quote is written twice. -/
def singleQuoted (indent : Nat) (cs : List Char) : List Char :=
  let ended := cs.getLast?.any isBreak
  '\'' :: indented indent (fun c => if c = '\'' then ['\'', '\''] else [c]) false cs ++
    (if ended then spaces indent else []) ++ ['\'']

/-- The letter that stands for a character after a backslash. -/
def escapeLetter? (c : Char) : Option Char :=
  match c with
  | '\x00' => some '0'
  | '\x07' => some 'a'
  | '\x08' => some 'b'
  | '\t' => some 't'
  | '\n' => some 'n'
  | '\x0b' => some 'v'
  | '\x0c' => some 'f'
  | '\r' => some 'r'
  | '\x1b' => some 'e'
  | '"' => some '"'
  | '\\' => some '\\'
  | '\u0085' => some 'N'
  | '\u00a0' => some '_'
  | '\u2028' => some 'L'
  | '\u2029' => some 'P'
  | _ => none

/-- A character as it stands between double quotes. -/
def escape (c : Char) : List Char :=
  if isPrintable c && !isBreak c && c ≠ '"' && c ≠ '\\' then [c]
  else
    match escapeLetter? c with
    | some letter => ['\\', letter]
    | none =>
      if c.toNat ≤ 0xFF then '\\' :: 'x' :: Digits.hex 'A' 2 c.toNat
      else if c.toNat ≤ 0xFFFF then '\\' :: 'u' :: Digits.hex 'A' 4 c.toNat
      else '\\' :: 'U' :: Digits.hex 'A' 8 c.toNat

/-- A text between double quotes. -/
def doubleQuoted (cs : List Char) : List Char := '"' :: (cs.flatMap escape ++ ['"'])

/-- The marks of a block : its column if a space or a break begins it, and how it ends. -/
def blockMarks (cs : List Char) : List Char :=
  (if cs.head?.any fun c => isSpace c || isBreak c then ['2'] else []) ++
    match cs.reverse with
    | last :: before =>
      if !isBreak last then ['-']
      else if before.head?.all isBreak then ['+']
      else []
    | [] => ['-']

/-- A text as a block of lines that begin at column `indent`. -/
def lineBlock (indent : Nat) (cs : List Char) : List Char :=
  '|' :: (blockMarks cs ++ '\n' :: indented indent (fun c => [c]) true cs)

/-- A text whose further lines begin at column `indent`. -/
def textChars (indent : Nat) (s : String) : List Char :=
  let cs := s.toList
  let quoted := if allowsSingleQuotes cs then singleQuoted indent cs else doubleQuoted cs
  if cs.contains '\n' then if allowsLines cs then lineBlock indent cs else doubleQuoted cs
  else if isAmbiguous s then quoted
  else if allowsPlain cs then cs
  else quoted

/-- The characters of a scalar, with the end of the line. -/
def endLine (cs : List Char) : List Char :=
  if cs.getLast?.any isBreak then cs else cs ++ ['\n']

/-! ## Writing data -/

mutual

/-- Data that begins at column `indent`, to the end of its last line. -/
def chars (indent : Nat) : Data → List Char
  | .null => "null\n".toList
  | .bool true => "true\n".toList
  | .bool false => "false\n".toList
  | .int i => (toString i).toList ++ ['\n']
  | .text s => endLine (textChars indent s)
  | .list [] => "[]\n".toList
  | .map [] => "\x7b\x7d\n".toList
  | .list items => itemsChars indent items
  | .map fields => fieldsChars indent fields

/-- The items of a list, each after a dash. The first begins on this line. -/
def itemsChars (indent : Nat) : List Data → List Char
  | [] => []
  | item :: items =>
    '-' :: ' ' :: (chars (indent + 2) item ++
      if items.isEmpty then [] else spaces indent ++ itemsChars indent items)

/-- The fields of a map, each a key and a colon and its value. The first begins on this line. -/
def fieldsChars (indent : Nat) : List (String × Data) → List Char
  | [] => []
  | (name, value) :: fields =>
    textChars (indent + 2) name ++ ':' :: (afterKey indent value ++
      if fields.isEmpty then [] else spaces indent ++ fieldsChars indent fields)

/-- A value after its key, which begins at column `indent`. -/
def afterKey (indent : Nat) : Data → List Char
  | .list (item :: items) =>
    '\n' :: (spaces indent ++ '-' :: ' ' :: (chars (indent + 2) item ++
      if items.isEmpty then [] else spaces indent ++ itemsChars indent items))
  | .map ((name, value) :: fields) =>
    '\n' :: (spaces (indent + 2) ++ textChars (indent + 4) name ++
      ':' :: (afterKey (indent + 2) value ++
        if fields.isEmpty then [] else spaces (indent + 2) ++ fieldsChars (indent + 2) fields))
  | .list [] => " []\n".toList
  | .map [] => " \x7b\x7d\n".toList
  | .null => " null\n".toList
  | .bool true => " true\n".toList
  | .bool false => " false\n".toList
  | .int i => ' ' :: ((toString i).toList ++ ['\n'])
  | .text s => ' ' :: endLine (textChars (indent + 2) s)

end

/-- The data as a text. -/
def render (d : Data) : String :=
  String.ofList (match d with
    | .text s => endLine (textChars 2 s)
    | d => chars 0 d)

end DocTables.Yaml
