import CommandShell.Grammar.Fault

/-! The reader of the full grammar, one character at a time: where it stands, the literal it is
collecting, and the last token. -/
namespace CommandShell.Grammar

/-- The character under the cursor, an escaped line break, or the end. -/
inductive Current where
  | eof
  | joint
  | char (c : Char)
  deriving DecidableEq, Repr

/-- Literals come as a part of a word, a whole word, or the number of a redirection. -/
inductive Token where
  | eof
  | newline
  | lit
  | litWord
  | litRedir
  | op (text : String)
  | glob (text : String)
  deriving DecidableEq, Repr

def Token.text : Token → Bytes
  | .eof => "EOF"
  | .newline => "Newl"
  | .lit => "Lit"
  | .litWord => "LitWord"
  | .litRedir => "LitRedir"
  | .op text => text
  | .glob text => text

/-- What encloses the cursor; it decides which characters are tokens. -/
inductive Context where
  | plain
  | group
  | backquote
  | double
  | hereWord
  | hereBody (stripTabs : Bool)
  | arithmetic
  | caseItem
  | parameter
  | operand
  deriving DecidableEq, Repr

/-- A part of a word. Expansions are kept as their place and name. -/
inductive Part where
  | lit (raw : Bytes)
  | single (text : Bytes)
  | double (inner : List (Bytes ⊕ (Position × Bytes)))
  | expansion (place : Position) (what : Bytes)
  deriving DecidableEq, Repr

/-- A here-document that has been announced: where, with which end, and how. -/
structure Heredoc where
  place : Position
  word : List Part
  stripTabs : Bool
  deriving Repr

structure Reader where
  /-- The length of the line. -/
  size : Nat
  rest : Bytes
  current : Current
  width : Nat
  line : Nat
  column : Nat
  /-- The literal being collected, last byte first. -/
  collected : Option Bytes
  openTicks : Nat
  buriedTicks : Nat
  lastTickEscapes : Nat
  token : Token
  value : Bytes
  place : Position
  spaced : Bool
  /-- Offset of the first equals sign in a bare literal. -/
  equals : Option Nat
  context : Context
  pending : List Heredoc
  buried : Nat
  inHereWord : Bool
  /-- Ends of the here-document bodies being read, innermost first; none once found. -/
  stops : List (Option Bytes)

def Reader.start (line : Bytes) : Reader where
  size := line.length
  rest := line
  current := .char ' '
  width := 0
  line := 1
  column := 1
  collected := none
  openTicks := 0
  buriedTicks := 0
  lastTickEscapes := 0
  token := .eof
  value := []
  place := ⟨0, 0⟩
  spaced := false
  equals := none
  context := .plain
  pending := []
  buried := 0
  inHereWord := false
  stops := []

abbrev Reading := StateT Reader (Except Fault)

namespace Reading

def failAt {α : Type} (place : Position) (text : Bytes) : Reading α := throw (.malformed place text)

def fail {α : Type} (text : Bytes) : Reading α := do failAt (← get).place text

def foreign {α : Type} (place : Position) (feature : Bytes) (shells : List Bytes) : Reading α :=
  throw (.foreign place feature shells)

/-- Never reached: every bound is above what the length of the line allows. -/
def exhausted {α : Type} : Reading α := throw (.malformed ⟨0, 0⟩ "line too deeply nested")

/-- Repeats a step until it asks to stop; a step that goes on has moved the cursor or taken a
token, so the length of the line bounds the repetitions. -/
def repeated (step : Reading Bool) : Reading Unit := do
  go (2 * (← get).size + 8)
where
  go : Nat → Reading Unit
    | 0 => exhausted
    | n + 1 => do if ← step then go n

end Reading

open Reading

private structure Fetched where
  current : Current
  width : Nat
  bytes : Bytes
  rest : Bytes
  tickEscapes : Option Nat := none
  valid : Bool := true

/-- The control characters U+0080 and U+0081 are read as the end and as an escaped line break. -/
private def currentOf (c : Char) : Current :=
  if c = '\u0080' then .eof else if c = '\u0081' then .joint else .char c

/-- NUL bytes are skipped, and so is a carriage return before a newline. Inside backquotes a
backslash that only protects the quoted text from the backquotes is dropped, one per level of
nesting. -/
private def fetch (ticks : Nat) (afterBackslash : Bool) (dropped : Nat) : Bytes → Fetched
  | [] => { current := .eof, width := 1, bytes := [], rest := [] }
  | b :: s =>
    if b = 0 || (b = 13 && s.head? = some 10) then fetch ticks afterBackslash dropped s
    else if b = 92 then
      match afterBackslash, s with
      | false, 10 :: t => { current := .joint, width := 1, bytes := [], rest := t }
      | false, 13 :: 10 :: t => { current := .joint, width := 2, bytes := [], rest := t }
      | _, c :: _ =>
        if dropped < ticks && (c == 36 || c == 96 || c == 92) then
          fetch ticks afterBackslash (dropped + 1) s
        else { current := .char '\\', width := 1, bytes := [92], rest := s }
      | _, [] => { current := .char '\\', width := 1, bytes := [92], rest := s }
    else
      let (rune, n) := Utf8.first b s
      match rune with
      | .char c =>
        { current := currentOf c, width := n + 1, bytes := b :: s.take n, rest := s.drop n,
          tickEscapes := if b = 96 then some dropped else none }
      | .bad _ => { current := .eof, width := 1, bytes := [], rest := [], valid := false }

def advance : Reading Current := do
  let s ← get
  let newLine := s.current = .joint || s.current = .char '\n'
  let line := if newLine then s.line + 1 else s.line
  let column := (if newLine then 0 else s.column) + s.width
  let f := fetch s.openTicks (s.current = .char '\\') 0 s.rest
  if !f.valid then failAt (.ofCounts line column) "invalid UTF-8 encoding"
  set { s with
    rest := f.rest, current := f.current, width := f.width, line, column,
    collected := s.collected.map (f.bytes.reverse ++ ·),
    lastTickEscapes := f.tickEscapes.getD s.lastTickEscapes }
  return f.current

def current : Reading Current := return (← get).current

def sees (c : Char) : Reading Bool := return (← get).current = .char c

def here : Reading Position := do
  let s ← get
  return .ofCounts s.line s.column

def follows (text : Bytes) : Reading Bool := return Bytes.startsWith (← get).rest text

def beginLit : Reading Unit := modify fun s =>
  { s with collected := match s.current with
      | .char c => some (Bytes.ofChar c).reverse
      | _ => some [] }

def endLit : Reading Bytes := do
  let s ← get
  let bytes := s.collected.getD []
  set { s with collected := none }
  return match s.current with
    | .char _ => (bytes.drop s.width).reverse
    | _ => bytes.reverse

def collect (text : Bytes) : Reading Unit := modify fun s =>
  { s with collected := s.collected.map (text.reverse ++ ·) }

def setToken (token : Token) : Reading Unit := modify ({ · with token })

def setValue (token : Token) (value : Bytes) : Reading Unit := modify ({ · with token, value })

def setPlace (place : Position) : Reading Unit := modify ({ · with place })

def setContext (context : Context) : Reading Unit := modify ({ · with context })

def ticksClose : Reading Bool := do
  let s ← get
  return s.lastTickEscapes < s.openTicks

end CommandShell.Grammar
