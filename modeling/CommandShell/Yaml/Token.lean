import CommandShell.Yaml.Source

/-! Tokens of YAML and the scanner's state. A key without its own mark is recognised only when the
colon behind it is met, so a place where a key may have begun is remembered, and the tokens that
open the key and its mapping are put in there later. -/
namespace CommandShell.Yaml

inductive Token where
  | version (major minor : Nat)
  | handle (name expansion : Bytes)
  | documentStart
  | documentEnd
  | streamEnd
  | blockSequence
  | blockMapping
  | blockEnd
  | flowSequence
  | flowSequenceEnd
  | flowMapping
  | flowMappingEnd
  | blockEntry
  | flowEntry
  | key
  | value
  | reference (name : Bytes)
  | anchor (name : Bytes)
  | tag (handle suffix : Bytes)
  | scalar (text : Bytes) (plain : Bool)
  deriving DecidableEq, Repr

structure Mark where
  index : Nat
  line : Nat
  column : Nat
  deriving DecidableEq, Repr

/-- A place where a key may have begun, with the number of tokens before it. A required key must
be followed by its colon. -/
structure PossibleKey where
  required : Bool
  number : Nat
  mark : Mark
  deriving DecidableEq, Repr

structure Scanner where
  rest : List Char
  complete : Bool
  mark : Mark
  flow : Nat
  indent : Int
  indents : List Int
  /-- One entry for the block level and one for each flow collection, innermost first. -/
  keys : List (Option PossibleKey)
  keyAllowed : Bool
  /-- Last token first. -/
  tokens : List Token
  count : Nat

def Scanner.start (source : Source) : Scanner where
  rest := source.chars
  complete := source.complete
  mark := ⟨0, 0, 0⟩
  flow := 0
  indent := -1
  indents := []
  keys := [none]
  keyAllowed := true
  tokens := []
  count := 0

def hexDigit? (c : Char) : Option Nat :=
  if c.isDigit then some (c.toNat - 48)
  else if 'a' ≤ c && c ≤ 'f' then some (c.toNat - 87)
  else if 'A' ≤ c && c ≤ 'F' then some (c.toNat - 55)
  else none

abbrev Scan := StateT Scanner Option

namespace Scan

def refuse {α : Type} : Scan α := fun _ => none

/-- Repeats a step until it asks to stop; a step that goes on takes at least one character. -/
def repeated (step : Scan Bool) : Scan Unit := do
  go ((← get).rest.length + 2)
where
  go : Nat → Scan Unit
    | 0 => refuse
    | n + 1 => do if ← step then go n

/-- The character some places ahead. The end of a text that goes on unreadably is an error. -/
def peek (ahead : Nat) : Scan (Option Char) := do
  let s ← get
  match s.rest[ahead]? with
  | some c => return some c
  | none => if s.complete then return none else refuse

def sees (c : Char) : Scan Bool := return (← peek 0) == some c

def satisfies (p : Char → Bool) (ahead : Nat) : Scan Bool := return ((← peek ahead).map p).getD false

def blankOrEnd (ahead : Nat) : Scan Bool :=
  return ((← peek ahead).map fun c => isBlank c || isBreak c).getD true

def breakOrEnd (ahead : Nat) : Scan Bool := return ((← peek ahead).map isBreak).getD true

def skip : Scan Unit := modify fun s =>
  { s with rest := s.rest.tail,
           mark := { s.mark with index := s.mark.index + 1, column := s.mark.column + 1 } }

def skipMany (n : Nat) : Scan Unit := modify fun s =>
  { s with rest := s.rest.drop n,
           mark := { s.mark with index := s.mark.index + n, column := s.mark.column + n } }

def takeWhile (p : Char → Bool) : Scan (List Char) := do
  let taken := (← get).rest.takeWhile p
  skipMany taken.length
  discard (peek 0)
  return taken

def skipWhile (p : Char → Bool) : Scan Unit := discard (takeWhile p)

/-- Takes a line break: the usual ones read as a newline, the two separators as themselves. -/
def takeBreak : Scan (List Char) := do
  match ← peek 0 with
  | none => return []
  | some c =>
    if !isBreak c then return []
    let n := if c == '\r' && (← peek 1) == some '\n' then 2 else 1
    modify fun s =>
      { s with rest := s.rest.drop n, mark := ⟨s.mark.index + n, s.mark.line + 1, 0⟩ }
    return [if c == '\u2028' || c == '\u2029' then c else '\n']

def atDocumentMark : Scan Bool := do
  if (← get).mark.column ≠ 0 then return false
  let a ← peek 0
  if a ≠ some '-' && a ≠ some '.' then return false
  return (← peek 1) == a && (← peek 2) == a && (← blankOrEnd 3)

def emit (token : Token) : Scan Unit := modify fun s =>
  { s with tokens := token :: s.tokens, count := s.count + 1 }

/-- Puts a token behind the first `number` tokens. -/
def insert (number : Nat) (token : Token) : Scan Unit := modify fun s =>
  let (later, earlier) := s.tokens.splitAt (s.count - number)
  { s with tokens := later ++ token :: earlier, count := s.count + 1 }

end Scan

end CommandShell.Yaml
