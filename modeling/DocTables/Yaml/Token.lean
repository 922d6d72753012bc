import DocTables.Yaml.Scalar
import DocTables.Yaml.Tag

/-!
# Tokens of a YAML text

`Token.scan?` cuts a text into tokens. Indentation becomes tokens too : a block of lines begins with
`sequenceBlock` or `mappingBlock` and ends with `blockEnd`.

A key is known only by the colon after it. So a place where a key may begin is kept as a `Candidate`,
and when the colon comes the token `key`, and `mappingBlock` if a block begins, are put in before it.
A candidate lasts to the end of its line and for 1024 bytes, and there is one at most in every
list or map on one line, and one outside of them.
-/

namespace DocTables.Yaml

inductive Token where
  | version (major minor : Nat)
  /-- A short form of a beginning of tags. -/
  | tagHandle (handle : String) (start : Bytes)
  | documentStart
  | documentEnd
  | sequenceBlock
  | mappingBlock
  | blockEnd
  | sequenceOpen
  | sequenceClose
  | mappingOpen
  | mappingClose
  | comma
  | dash
  | key
  | value
  | alias (name : String)
  | anchor (name : String)
  | tag (handle : String) (suffix : Bytes)
  | scalar (text : String) (style : Style)
  deriving DecidableEq, Repr

/-! ## Anchors -/

/-- The name of an anchor, from after its indicator. -/
def anchorName? (c : Cursor) : Option (String × Cursor) :=
  let (name, c) := c.takeName
  let ended := endsWord c.rest ||
    c.rest.head?.any fun c => c = '?' || c = ':' || c = ',' || c = ']' || c = '\x7d' || c = '%' ||
      c = '@' || c = '\x60'
  if !name.isEmpty && ended then some (name, c) else none

/-! ## Directives -/

/-- A number of at most nine digits. -/
def versionNumber? (c : Cursor) : Option (Nat × Cursor) :=
  let digits := c.rest.takeWhile Char.isDigit
  if digits.isEmpty ∨ 9 < digits.length then none
  else some (digits.foldl (fun n d => 10 * n + (d.toNat - '0'.toNat)) 0, c.skip digits.length)

/-- A directive, from its percent sign to the end of the line. -/
def directive? (c : Cursor) : Option (Token × Cursor) := do
  let (name, c) := (c.skip 1).takeName
  if name.isEmpty || !endsWord c.rest then none
  let c := c.skipWhile isBlank
  let (token, c) ←
    if name = "YAML" then do
      let (major, c) ← versionNumber? c
      if c.rest.head? ≠ some '.' then none
      let (minor, c) ← versionNumber? (c.skip 1)
      some (Token.version major minor, c)
    else if name = "TAG" then
      (tagShortForm? c).map fun (short, c) => (.tagHandle short.handle short.suffix, c)
    else none
  return (token, ← c.endLine?)

/-! ## The state of a scan -/

/-- A place where a key may begin. -/
structure Candidate where
  /-- The number of tokens before it. -/
  number : Nat
  line : Nat
  index : Nat
  column : Nat
  /-- Nothing but a key may stand here. -/
  required : Bool

structure Scanner where
  cursor : Cursor
  /-- The tokens so far, the last one first. -/
  tokens : List Token := []
  /-- The number of tokens so far. -/
  count : Nat := 0
  /-- The column of the innermost block, with those of the blocks around it. -/
  indent : Int := -1
  indents : List Int := []
  /-- A key may begin at the next token. -/
  keyAllowed : Bool := true
  /-- The candidate in the innermost list or map on one line, or outside of them. -/
  candidate : Option Candidate := none
  /-- The candidates around it, one for each list or map on one line that is open. -/
  outer : List (Option Candidate) := []

namespace Scanner

/-- A list or map on one line is open. -/
def inFlow (s : Scanner) : Bool := !s.outer.isEmpty

/-- Add a token, and go on from another place. -/
def push (s : Scanner) (t : Token) (c : Cursor) : Scanner :=
  { s with tokens := t :: s.tokens, count := s.count + 1, cursor := c }

/-- Put a token in before all but the first `number` tokens. -/
def insert (s : Scanner) (number : Nat) (t : Token) : Scanner :=
  { s with tokens := s.tokens.insertIdx (s.count - number) t, count := s.count + 1 }

/-- Begin a block at a column further in than the innermost block, with its token in place
`number`. -/
def roll (s : Scanner) (column number : Nat) (t : Token) : Scanner :=
  if s.inFlow || (column : Int) ≤ s.indent then s
  else { s.insert number t with indents := s.indent :: s.indents, indent := column }

/-- End the blocks that are further in than a column. -/
def unrollTo (column : Int) (s : Scanner) : (indents : List Int) → (indent : Int) → Scanner
  | [], indent => { s with indents := [], indent }
  | outer :: indents, indent =>
    if column < indent then (s.push .blockEnd s.cursor).unrollTo column indents outer
    else { s with indents := outer :: indents, indent }

/-- End the blocks that are further in than a column. -/
def unroll (s : Scanner) (column : Int) : Scanner :=
  if s.inFlow then s else s.unrollTo column s.indents s.indent

/-- Give up the innermost candidate. It must not be required. -/
def dropCandidate? (s : Scanner) : Option Scanner :=
  if s.candidate.any Candidate.required then none else some { s with candidate := none }

/-- A candidate that lasts no longer is given up, and must not be required. -/
def refresh? (c : Cursor) : Option Candidate → Option (Option Candidate)
  | none => some none
  | some k =>
    if k.line < c.line ∨ k.index + 1024 < c.index then if k.required then none else some none
    else some (some k)

/-- Give up the candidates that last no longer. -/
def dropStale? (s : Scanner) : Option Scanner := do
  let candidate ← refresh? s.cursor s.candidate
  let outer ← s.outer.mapM (refresh? s.cursor)
  return { s with candidate, outer }

/-- A key may begin here, if keys are allowed. -/
def saveCandidate? (s : Scanner) : Option Scanner :=
  if s.keyAllowed then do
    let c := s.cursor
    let s ← s.dropCandidate?
    let required := !s.inFlow && s.indent == (c.column : Int)
    return { s with
      candidate := some ⟨s.count, c.line, c.index, c.column, required⟩ }
  else some s

/-- Skip blanks, comments and line breaks. Tabs count as blanks only where no key may begin. -/
def skipToToken : (fuel : List Char) → Scanner → Scanner
  | [], s => s
  | _ :: fuel, s =>
    let c := s.cursor
    let c := if c.column == 0 && c.rest.head? = some byteOrderMark then c.skip 1 else c
    let tabs := s.inFlow || !s.keyAllowed
    let c := (c.skipWhile fun b => b = ' ' || (tabs && b = '\t')).skipComment
    match c.break? with
    | some (_, next) =>
      skipToToken fuel { s with cursor := next, keyAllowed := !s.inFlow || s.keyAllowed }
    | none => { s with cursor := c }

/-! ## Reading a token -/

/-- A token between documents. It ends all blocks. -/
def fetchMark? (s : Scanner) (t : Token) (c : Cursor) : Option Scanner := do
  let s ← (s.unroll (-1)).dropCandidate?
  return { s.push t c with keyAllowed := false }

/-- The beginning of a list or map on one line. -/
def fetchOpen? (s : Scanner) (t : Token) : Option Scanner := do
  let s ← s.saveCandidate?
  return { s.push t (s.cursor.skip 1) with
    keyAllowed := true, candidate := none, outer := s.candidate :: s.outer }

/-- The end of a list or map on one line. -/
def fetchClose? (s : Scanner) (t : Token) : Option Scanner := do
  let s ← s.dropCandidate?
  let s := { s.push t (s.cursor.skip 1) with keyAllowed := false }
  match s.outer with
  | [] => return s
  | candidate :: outer => return { s with candidate, outer }

/-- A comma. -/
def fetchComma? (s : Scanner) : Option Scanner := do
  let s ← s.dropCandidate?
  return { s.push .comma (s.cursor.skip 1) with keyAllowed := true }

/-- A dash before an item. -/
def fetchDash? (s : Scanner) : Option Scanner := do
  if !s.inFlow && !s.keyAllowed then none
  let s ← (s.roll s.cursor.column s.count .sequenceBlock).dropCandidate?
  return { s.push .dash (s.cursor.skip 1) with keyAllowed := true }

/-- A question mark before a key. -/
def fetchKey? (s : Scanner) : Option Scanner := do
  if !s.inFlow && !s.keyAllowed then none
  let s ← (s.roll s.cursor.column s.count .mappingBlock).dropCandidate?
  return { s.push .key (s.cursor.skip 1) with keyAllowed := !s.inFlow }

/-- A colon. If a key may have begun, it is one now. -/
def fetchValue? (s : Scanner) : Option Scanner :=
  match s.candidate with
  | some k =>
    let s := (s.insert k.number .key).roll k.column k.number .mappingBlock
    some { s.push .value (s.cursor.skip 1) with keyAllowed := false, candidate := none }
  | none => do
    if !s.inFlow && !s.keyAllowed then none
    let s := s.roll s.cursor.column s.count .mappingBlock
    return { s.push .value (s.cursor.skip 1) with keyAllowed := !s.inFlow }

/-- A token that may begin a key. -/
def fetchWith? (s : Scanner) (read : Cursor → Option (Token × Cursor)) : Option Scanner := do
  let s ← s.saveCandidate?
  let (t, c) ← read s.cursor
  return { s.push t c with keyAllowed := false }

/-- An anchor or an alias. -/
def fetchName? (s : Scanner) (token : String → Token) : Option Scanner :=
  s.fetchWith? fun c => (anchorName? (c.skip 1)).map fun (name, c) => (token name, c)

def fetchTag? (s : Scanner) : Option Scanner :=
  s.fetchWith? fun c => (tag? s.inFlow c).map fun (tag, c) => (.tag tag.handle tag.suffix, c)

/-- A block of lines as a scalar. -/
def fetchBlock? (s : Scanner) (folded : Bool) : Option Scanner := do
  let s ← s.dropCandidate?
  let (text, c) ← blockScalar? folded s.indent (s.cursor.skip 1)
  return { s.push (.scalar (String.ofList text) (if folded then .folded else .literal)) c with
    keyAllowed := true }

/-- A scalar between quotes. -/
def fetchQuoted? (s : Scanner) (double : Bool) : Option Scanner :=
  s.fetchWith? fun c =>
    (quotedScalar? double c.rest (c.skip 1)).map fun (text, c) =>
      (.scalar (String.ofList text) .quoted, c)

/-- A plain scalar. A key may follow only on a new line. -/
def fetchPlain? (s : Scanner) : Option Scanner := do
  let s ← s.saveCandidate?
  let c := s.cursor
  let p ← plainScalar? s.inFlow (s.indent + 1).toNat c.rest c [] false
  return { s.push (.scalar (String.ofList p.text) .plain) p.next with keyAllowed := p.lineEnded }

/-- The characters that cannot begin a plain scalar. -/
def indicators : List Char := "-?:,[]\x7b\x7d#&*!|>'\"%@\x60".toList

/-- A plain scalar may begin with this text. -/
def startsPlain (inFlow : Bool) : List Char → Bool
  | [] => false
  | c :: rest =>
    !(isBlank c || isBreak c || indicators.contains c) ||
      (c = '-' && !rest.head?.any isBlank) ||
      (!inFlow && (c = '?' || c = ':') && !endsWord rest)

/-- Read the token that begins here. -/
def fetch? (s : Scanner) : Option Scanner :=
  let c := s.cursor
  match c.rest with
  | [] => none
  | char :: rest =>
    if c.column == 0 && char = '%' then do
      let s ← (s.unroll (-1)).dropCandidate?
      let (t, c) ← directive? c
      return { s.push t c with keyAllowed := false }
    else if c.atDocumentStart then s.fetchMark? .documentStart (c.skip 3)
    else if c.atDocumentEnd then s.fetchMark? .documentEnd (c.skip 3)
    else if char = '[' then s.fetchOpen? .sequenceOpen
    else if char = '\x7b' then s.fetchOpen? .mappingOpen
    else if char = ']' then s.fetchClose? .sequenceClose
    else if char = '\x7d' then s.fetchClose? .mappingClose
    else if char = ',' then s.fetchComma?
    else if char = '-' && endsWord rest then s.fetchDash?
    else if char = '?' && (s.inFlow || endsWord rest) then s.fetchKey?
    else if char = ':' && (s.inFlow || endsWord rest) then s.fetchValue?
    else if char = '*' then s.fetchName? .alias
    else if char = '&' then s.fetchName? .anchor
    else if char = '!' then s.fetchTag?
    else if char = '|' && !s.inFlow then s.fetchBlock? false
    else if char = '>' && !s.inFlow then s.fetchBlock? true
    else if char = '\'' then s.fetchQuoted? false
    else if char = '"' then s.fetchQuoted? true
    else if startsPlain s.inFlow c.rest then s.fetchPlain?
    else none

/-- Read tokens to the end of the text. -/
def run? : Nat → Scanner → Option (List Token)
  | 0, _ => none
  | fuel + 1, s => do
    let s ← (skipToToken s.cursor.rest s).dropStale?
    let s := s.unroll s.cursor.column
    if s.cursor.rest.isEmpty then
      let s ← (s.unroll (-1)).dropCandidate?
      return s.tokens.reverse
    else run? fuel (← s.fetch?)

end Scanner

/-- The tokens of a text. -/
def Token.scan? (text : String) : Option (List Token) :=
  let cs := text.toList
  if cs.all isAllowed then Scanner.run? (cs.length + 1) { cursor := { rest := cs } } else none

end DocTables.Yaml
