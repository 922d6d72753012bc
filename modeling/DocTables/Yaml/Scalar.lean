import DocTables.Digits
import DocTables.Yaml.Cursor

/-!
# The text of a scalar

A scalar is written plainly, between quotes, or as a block of lines. In the first two forms a line
break counts as a space and several as one less; in a block they are kept, or folded the same way.
Every function here reads one scalar from a cursor and gives its value with the place after it, or
nothing if it is not well formed. A function that goes over lines is given the rest of the text once
more as its fuel : it never needs more steps than there are characters.
-/

namespace DocTables.Yaml

/-- How a scalar is written. -/
inductive Style where
  | plain
  | quoted
  /-- A block of lines that are kept. -/
  | literal
  /-- A block of lines that are folded. -/
  | folded
  deriving DecidableEq, Repr

/-! ## Between the words -/

/-- The line breaks from here on, with the blanks that begin the lines left out. None of the first
`tabLimit` characters of a line may be a tab. -/
def lineBreaks? (tabLimit : Nat) : (fuel : List Char) → Cursor → Option (List Char × Cursor)
  | [], c => some ([], c)
  | _ :: fuel, c =>
    match c.break? with
    | none => some ([], c)
    | some (b, c) =>
      let blanks := c.rest.takeWhile isBlank
      if (blanks.take tabLimit).contains '\t' then none
      else (lineBreaks? tabLimit fuel (c.skip blanks.length)).map fun (bs, c) => (b :: bs, c)

/-- What stands between two words of a scalar. -/
structure Gap where
  /-- The blanks on the line of the first word. -/
  blanks : List Char
  breaks : List Char
  next : Cursor

/-- The blanks and line breaks from here on. -/
def gap? (tabLimit : Nat) (c : Cursor) : Option Gap :=
  let blanks := c.rest.takeWhile isBlank
  (lineBreaks? tabLimit c.rest (c.skip blanks.length)).map fun (breaks, next) =>
    { blanks, breaks, next }

/-- What line breaks between two words stand for. -/
def foldBreaks : List Char → List Char
  | ['\n'] => [' ']
  | '\n' :: breaks => breaks
  | breaks => breaks

/-- What a gap stands for in a value. -/
def Gap.text (g : Gap) : List Char := if g.breaks.isEmpty then g.blanks else foldBreaks g.breaks

/-! ## Between quotes -/

/-- Part of a word, up to a blank, a line break or a quote. -/
structure Word where
  text : List Char := []
  /-- The number of characters it is written with. -/
  length : Nat := 0
  /-- A backslash stands before the line break that ends it. -/
  joined : Bool := false

/-- Put a character, written with `n` characters, before a word. -/
def Word.cons (c : Char) (n : Nat) (w : Word) : Word :=
  { w with text := c :: w.text, length := w.length + n }

/-- A word between single quotes, in which a quote is written twice. -/
def singleQuotedWord : List Char → Word
  | '\'' :: '\'' :: rest => (singleQuotedWord rest).cons '\'' 2
  | c :: rest =>
    if c = '\'' ∨ isBlank c ∨ isBreak c then {} else (singleQuotedWord rest).cons c 1
  | [] => {}

/-- The character that a backslash and this letter stand for. -/
def unescape? (c : Char) : Option Char :=
  match c with
  | '0' => some '\x00'
  | 'a' => some '\x07'
  | 'b' => some '\x08'
  | 't' | '\t' => some '\t'
  | 'n' => some '\n'
  | 'v' => some '\x0b'
  | 'f' => some '\x0c'
  | 'r' => some '\r'
  | 'e' => some '\x1b'
  | ' ' => some ' '
  | '"' => some '"'
  | '/' => some '/'
  | '\\' => some '\\'
  | 'N' => some '\u0085'
  | '_' => some '\u00a0'
  | 'L' => some '\u2028'
  | 'P' => some '\u2029'
  | _ => none

/-- The character with the code that these digits of base sixteen give. -/
def charOfHex? (digits : List Char) : Option Char := do
  let code ← Digits.number? 16 digits
  if code.isValidChar then some (Char.ofNat code) else none

/-- A word between double quotes, with its escapes. -/
def doubleQuotedWord? : List Char → Option Word
  | [] => some {}
  | '\\' :: 'x' :: a :: b :: rest => do
    let c ← charOfHex? [a, b]
    return (← doubleQuotedWord? rest).cons c 4
  | '\\' :: 'u' :: a :: b :: c :: d :: rest => do
    let c ← charOfHex? [a, b, c, d]
    return (← doubleQuotedWord? rest).cons c 6
  | '\\' :: 'U' :: a :: b :: c :: d :: e :: f :: g :: h :: rest => do
    let c ← charOfHex? [a, b, c, d, e, f, g, h]
    return (← doubleQuotedWord? rest).cons c 10
  | '\\' :: c :: rest =>
    if isBreak c then some { length := 1, joined := true }
    else do
      let c ← unescape? c
      return (← doubleQuotedWord? rest).cons c 2
  | c :: rest =>
    if c = '\\' then none
    else if c = '"' ∨ isBlank c ∨ isBreak c then some {}
    else do return (← doubleQuotedWord? rest).cons c 1

/-- The value of a scalar between quotes, from after the first quote. -/
def quotedScalar? (double : Bool) : (fuel : List Char) → Cursor → Option (List Char × Cursor)
  | [], _ => none
  | _ :: fuel, c => do
    if c.atDocumentMark || c.rest.isEmpty then none
    let word ← if double then doubleQuotedWord? c.rest else some (singleQuotedWord c.rest)
    let c := c.skip word.length
    let c := if word.joined then c.skipBreak else c
    if c.rest.head? = some (if double then '"' else '\'') then return (word.text, c.skip 1)
    let gap ← gap? 0 c
    let (text, c) ← quotedScalar? double fuel gap.next
    return (word.text ++ (if word.joined then gap.breaks else gap.text) ++ text, c)

/-! ## Plain scalars -/

/-- A word of a plain scalar. It ends before a colon that ends a word, and inside a list or map on
one line before the characters that separate its parts, which must not follow a colon. -/
def plainWord? (inFlow : Bool) : List Char → Option Word
  | [] => some {}
  | ':' :: rest =>
    if inFlow && rest.head?.any fun c => isFlowIndicator c || c = '?' then none
    else if endsWord rest then some {}
    else do return (← plainWord? inFlow rest).cons ':' 1
  | c :: rest =>
    if isBlank c || isBreak c || (inFlow && isFlowIndicator c) then some {}
    else do return (← plainWord? inFlow rest).cons c 1

/-- A plain scalar that has been read. -/
structure Plain where
  text : List Char
  next : Cursor
  /-- A line break stands after the scalar. -/
  lineEnded : Bool

/-- The value of a plain scalar, with the gap before the next word. Its lines begin at column
`indent` or further in. -/
def plainScalar? (inFlow : Bool) (indent : Nat) : (fuel : List Char) → Cursor →
    (gap : List Char) → (lineEnded : Bool) → Option Plain
  | [], c, _, lineEnded => some ⟨[], c, lineEnded⟩
  | _ :: fuel, c, gap, lineEnded => do
    if c.atDocumentMark || c.rest.head? = some '#' then return ⟨[], c, lineEnded⟩
    let word ← plainWord? inFlow c.rest
    let c := c.skip word.length
    let text := if word.text.isEmpty then [] else gap ++ word.text
    let lineEnded := lineEnded && word.text.isEmpty
    match c.rest with
    | [] => return ⟨text, c, lineEnded⟩
    | b :: _ =>
      if !(isBlank b || isBreak b) then return ⟨text, c, lineEnded⟩
      let next ← gap? indent c
      let broken := !next.breaks.isEmpty
      if !inFlow && next.next.column < indent then return ⟨text, next.next, broken⟩
      let more ← plainScalar? inFlow indent fuel next.next next.text broken
      return { more with text := text ++ more.text }

/-! ## Blocks of lines -/

/-- What is done with the line breaks at the end of a block. -/
inductive Chomping where
  /-- The first is kept. -/
  | clip
  /-- None is kept. -/
  | strip
  /-- All are kept. -/
  | keep
  deriving DecidableEq

/-- The mark of a way to end a block. -/
def Chomping.ofChar? : Char → Option Chomping
  | '-' => some strip
  | '+' => some keep
  | _ => none

/-- How much further in than its parent a block is, from one to nine. -/
def increment? (c : Char) : Option Nat :=
  if '1' ≤ c ∧ c ≤ '9' then some (c.toNat - '0'.toNat) else none

/-- The head of a block, from after its indicator : how it ends, and how far in it is if that is
said. The two marks stand in either order. -/
def blockHead? (c : Cursor) : Option (Chomping × Option Nat × Cursor) :=
  match c.rest with
  | a :: b :: _ =>
    match Chomping.ofChar? a, increment? a, Chomping.ofChar? b, increment? b with
    | some chomping, _, _, some n => some (chomping, some n, c.skip 2)
    | some chomping, _, _, none => if b = '0' then none else some (chomping, none, c.skip 1)
    | none, some n, some chomping, _ => some (chomping, some n, c.skip 2)
    | none, some n, none, _ => some (.clip, some n, c.skip 1)
    | none, none, _, _ => if a = '0' then none else some (.clip, none, c)
  | [a] =>
    match Chomping.ofChar? a, increment? a with
    | some chomping, _ => some (chomping, none, c.skip 1)
    | none, some n => some (.clip, some n, c.skip 1)
    | none, none => if a = '0' then none else some (.clip, none, c)
  | [] => some (.clip, none, c)

/-- The empty lines from here on, in a block whose lines begin at column `indent` if that is known,
and the largest column that a line begins at. -/
def emptyLines? (indent : Option Nat) : (fuel : List Char) → Cursor → (most : Nat) →
    Option (List Char × Nat × Cursor)
  | [], c, most => some ([], most, c)
  | _ :: fuel, c, most =>
    let spaces := (c.rest.takeWhile (· = ' ')).length
    let c := c.skip (indent.elim spaces fun n => min spaces (n - c.column))
    let most := max most c.column
    if (indent.all fun n => c.column < n) && c.rest.head? = some '\t' then none
    else
      match c.break? with
      | none => some ([], most, c)
      | some (b, c) => (emptyLines? indent fuel c most).map fun (bs, r) => (b :: bs, r)

/-- The lines of a block. Between two lines stand the break that ends the first and the breaks of the
empty lines after it; `afterBlank` tells whether the first began with a blank. The last breaks are
given apart from the text. -/
def blockLines? (folded : Bool) (indent : Nat) : (fuel : List Char) → Cursor →
    (first breaks : List Char) → (afterBlank : Bool) →
    Option (List Char × List Char × List Char × Cursor)
  | [], c, first, breaks, _ => some ([], first, breaks, c)
  | _ :: fuel, c, first, breaks, afterBlank => do
    match c.rest with
    | [] => return ([], first, breaks, c)
    | b :: _ =>
      if c.column ≠ indent then return ([], first, breaks, c)
      let blank := isBlank b
      let joint :=
        if folded && first = ['\n'] && !afterBlank && !blank then
          if breaks.isEmpty then [' '] else breaks
        else first ++ breaks
      let line := c.rest.takeWhile fun c => !isBreak c
      let c := c.skip line.length
      let (first, c) := c.break?.elim ([], c) fun (b, c) => ([b], c)
      let (breaks, _, c) ← emptyLines? (some indent) c.rest c 0
      let (text, rest) ← blockLines? folded indent fuel c first breaks blank
      return (joint ++ line ++ text, rest)

/-- The value of a block, from after its indicator. The parent begins at column `parent`. -/
def blockScalar? (folded : Bool) (parent : Int) (c : Cursor) : Option (List Char × Cursor) := do
  let (chomping, increment, c) ← blockHead? c
  let c ← c.endLine?
  let given := increment.map fun n => (max parent 0).toNat + n
  let (breaks, most, c) ← emptyLines? given c.rest c 0
  let indent := given.getD (max most (max (parent + 1) 1).toNat)
  let (text, first, breaks, c) ← blockLines? folded indent c.rest c [] breaks false
  let tail := match chomping with
    | .strip => []
    | .clip => first
    | .keep => first ++ breaks
  return (text ++ tail, c)

end DocTables.Yaml
