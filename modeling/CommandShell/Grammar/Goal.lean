import CommandShell.Grammar.Token

/-! The mutually recursive constructs of the grammar as goals, with the steps every construct is
made of. A statement is read only for its faults, so nothing else of it is kept. -/
namespace CommandShell.Grammar

open Reading

/-- A statement: where it starts, what stands around its command, and the first fault within. -/
structure Statement where
  start : Position
  negated : Bool := false
  background : Bool := false
  inner : Option Fault := none

/-- The first fault of a statement; a background job is refused before anything in it. -/
def Statement.fault (s : Statement) : Option Fault :=
  if s.background then some (.unsupported s.start "background jobs (&)")
  else if s.negated then some (.unsupported s.start "negation (!)")
  else s.inner

structure Statements where
  isEmpty : Bool
  fault : Option Fault

/-- A value in an arithmetic expression: something that can be assigned to, or not. -/
inductive Operand where
  | name
  | other
  deriving DecidableEq, Repr

inductive Goal : Type → Type 1 where
  | token : Goal Unit
  | heredocs : Goal Unit
  | parts : Goal (List Part)
  | unary : Goal (Option Operand)
  | expression : Goal (Option Operand)
  | statements (stops : List Bytes) : Goal Statements
  | statement (ends operand : Bool) : Goal (Option Statement)

/-- Answers goals about the rest of the line. -/
structure Solver where
  solve : {α : Type} → Goal α → Reading α

/-- A construct must be followed by another; names are quoted and operators are not. -/
def mustFollow {α : Type} (place : Position) (left right : Bytes) : Reading α :=
  let shown := match left with
    | b :: _ => if Bytes.isLower b then Bytes.quoted left else left
    | [] => left
  failAt place (shown ++ " must be followed by " ++ right)

def unmatched {α : Type} (place : Position) (left right : Bytes) : Reading α := do
  failAt place ("reached " ++ (← get).token.text ++ " without matching " ++ left ++ " with " ++ right)

def unclosedQuote {α : Type} (place : Position) (quote : Bytes) : Reading α := do
  failAt place ("reached " ++ (← get).token.text ++ " without closing quote " ++ quote)

/-- An arithmetic expression that goes on where it should have been closed. -/
def arithmeticUnmatched {α : Type} (place : Position) (left right : Bytes) : Reading α := do
  let s ← get
  match s.token with
  | .lit | .litWord => fail ("not a valid arithmetic operator: " ++ s.value)
  | .op "[" => fail "[ must follow a name"
  | .op ":" => fail "ternary operator missing ? before :"
  | .op ")" | .eof => unmatched place left right
  | token => fail ("not a valid arithmetic operator: " ++ token.text)

/-- Reads something nested inside other delimiters; here-documents announced outside wait until it
is over. -/
def nested {α : Type} (context : Context) (body : Reading α) : Reading α := do
  let s ← get
  set { s with context, buried := s.pending.length }
  let result ← body
  modify ({ · with context := s.context, buried := s.buried })
  return result

/-- Literals may carry text of their own. -/
def Token.isLit : Token → Bool
  | .lit | .litWord | .litRedir => true
  | _ => false

def at? (text : String) : Reading Bool := return (← get).token = .op text

def atWord (text : Bytes) : Reading Bool := do
  let s ← get
  return s.token = .litWord && s.value == text

def atStop : Reading Bool := do
  match (← get).token with
  | .eof | .newline => return true
  | .op ";" | .op "&" | .op "|" | .op "&&" | .op "||" | .op ";;" | .op ")" => return true
  | .op "`" => ticksClose
  | _ => return false

namespace Solver

variable (r : Solver)

def next : Reading Unit := r.solve .token

def take (token : Token) : Reading Bool := do
  if (← get).token = token then
    r.next
    return true
  else return false

def takeOp (text : String) : Reading Bool := r.take (.op text)

def skipNewline : Reading Unit := discard (r.take .newline)

/-- Takes a reserved word if it is next, and tells where it would be. -/
def takeWord (text : Bytes) : Reading (Position × Bool) := do
  let place := (← get).place
  if ← atWord text then
    r.next
    return (place, true)
  else return (place, false)

def literal : Reading (Option (Position × Bytes)) := do
  let s ← get
  if s.token.isLit then
    r.next
    return some (s.place, s.value)
  else return none

def matched (place : Position) (left right : String) : Reading Unit := do
  if !(← r.takeOp right) then unmatched place left right

/-- A word, if one starts here. -/
def word : Reading (Option (List Part)) := do
  match ← r.solve .parts with
  | [] => return none
  | parts => return some parts

end Solver

end CommandShell.Grammar
