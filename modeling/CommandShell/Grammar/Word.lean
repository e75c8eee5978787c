import CommandShell.Grammar.Goal
import CommandShell.Line.Lexeme

/-! Words: literals, quoted texts and expansions standing together. -/
namespace CommandShell.Grammar

open Reading

def Part.fault? : Part → Option Fault
  | .lit _ | .single _ => none
  | .double inner => inner.findSome? fun
    | .inl _ => none
    | .inr (place, what) => some (.unsupported place what)
  | .expansion place what => some (.unsupported place what)

def wordFault? (parts : List Part) : Option Fault := parts.findSome? Part.fault?

def Part.text : Part → Bytes
  | .lit raw => Line.unescape false raw
  | .single text => text
  | .double inner => inner.flatMap fun
    | .inl raw => Line.unescape true raw
    | .inr _ => []
  | .expansion .. => []

def wordText (parts : List Part) : Bytes := parts.flatMap Part.text

/-- The text of a word made of bare literals only, as written. -/
def wordLiteral? (parts : List Part) : Option Bytes :=
  (parts.mapM literal?).map List.flatten
where
  literal? : Part → Option Bytes
    | .lit raw => some raw
    | _ => none

private def noExpansionHere : Reading Unit := do
  if (← get).inHereWord then fail "expansions not allowed in heredoc words"

private def isOperatorAfterName (c : Char) : Bool := "\x7d:+=%[]/^,".toList.contains c

/-- Whether what follows a length or indirection mark can be a parameter's name. -/
private def nameFollows : Reading Bool := do
  match ← current with
  | .char c => return !isOperatorAfterName c
  | _ => return true

namespace Solver

variable (r : Solver)

/-- The parameter's name; `length` holds behind a number sign and the answer says whether it still
does. -/
private def parameterName (length : Bool) : Reading Bool := do
  let s ← get
  match s.token with
  | .lit | .litWord =>
    if !(!s.value.isEmpty && s.value.all Bytes.isDigit) && !Bytes.isName s.value then
      fail "invalid parameter name"
    r.next
    return length
  | .op "?" | .op "-" =>
    if length && !(← sees '\x7d') then return false
    r.next
    return length
  | .op "@" | .op "*" | .op "#" | .op "!" | .op "$" =>
    r.next
    return length
  | _ => fail "parameter expansion requires a literal"

private def parameterOperand : Reading Unit := do
  setContext .operand
  r.next
  discard r.word

private def parameterOperator (dollar : Position) (indirect : Bool) : Reading Unit := do
  let s ← get
  match s.token with
  | .op "/" | .op "//" => foreign s.place "search and replace" ["bash", "mksh"]
  | .op ":" => foreign s.place "slicing" ["bash", "mksh"]
  | .op "^" | .op "^^" | .op "," | .op ",," =>
    foreign s.place "this expansion operator" ["bash"]
  | .op "@" => foreign s.place "this expansion operator" ["bash", "mksh"]
  | .op "*" =>
    if !indirect then fail "not a valid parameter expansion operator: *"
    else if ← sees '\x7d' then failAt dollar "\"$\x7b!foo*\x7d\" is a bash feature"
    else r.parameterOperand
  | .op "+" | .op ":+" | .op "-" | .op ":-" | .op "?" | .op ":?" | .op "=" | .op ":="
  | .op "%" | .op "%%" | .op "#" | .op "##" => r.parameterOperand
  | .eof => pure ()
  | token => fail ("not a valid parameter expansion operator: " ++ token.text)

private def parameter (dollar : Position) : Reading Unit := do
  let outer := (← get).context
  setContext .parameter
  if ← sees '#' then
    setToken (.op "#")
    setPlace (← here)
    discard advance
  else r.next
  let mut length := false
  let mut indirect := false
  match (← get).token with
  | .op "#" =>
    if ← nameFollows then
      length := true
      r.next
  | .op "%" => failAt dollar "\"$\x7b%foo\x7d\" is a mksh feature"
  | .op "!" =>
    if ← nameFollows then
      indirect := true
      r.next
  | _ => pure ()
  let name := (← get).token
  length ← r.parameterName length
  let s ← get
  match s.token with
  | .lit | .litWord => fail (name.text ++ " cannot be followed by a word")
  | .op "\x7d" =>
    if indirect then failAt dollar "\"$\x7b!foo\x7d\" is a bash/mksh feature"
    setContext outer
    r.next
  | token =>
    if token = .op "[" then foreign s.place "arrays" ["bash", "mksh"]
    if token ≠ .eof && length then
      fail "cannot combine multiple parameter expansion operators"
    r.parameterOperator dollar indirect
    setContext outer
    r.matched dollar "$\x7b" "\x7d"

/-- Characters that are a parameter by themselves behind a dollar sign. -/
private def isSpecialParameter (c : Char) : Bool := "@*#$?!-0123456789".toList.contains c

private def dollar : Reading Part := do
  let place := (← get).place
  match ← current with
  | .char c =>
    if isSpecialParameter c then
      setValue .litWord (Bytes.ofChar c)
      discard advance
    else if c.isAlpha || c = '_' || c = '\\' then nameLiteral
    else
      r.next
      return .lit "$"
  | _ =>
    r.next
    return .lit "$"
  noExpansionHere
  setPlace (place.right 1)
  let name := (← get).value
  r.next
  if name.isEmpty then return .lit "$" else return .expansion place "parameter expansion"

private def singleQuoted : Reading Part := do
  let place := (← get).place
  beginLit
  repeated do
    match ← current with
    | .joint =>
      collect "\\\n"
      discard advance
      return true
    | .char '\'' => return false
    | .eof =>
      setToken .eof
      unclosedQuote place "'"
    | .char _ => discard advance; return true
  let text ← endLit
  modify fun s => { s with openTicks := s.buriedTicks, buriedTicks := 0 }
  discard advance
  r.next
  return .single text

private def doubleQuoted : Reading Part := do
  let s ← get
  setContext .double
  r.next
  let parts ← r.solve .parts
  setContext s.context
  if !(← r.takeOp "\"") then unclosedQuote s.place "\""
  return .double (parts.map fun
    | .lit raw => .inl raw
    | .expansion place what => .inr (place, what)
    | .single text => .inl text
    | .double _ => .inl [])

private def backquoted : Reading Part := do
  let place := (← get).place
  nested .backquote do
    modify fun s => { s with openTicks := s.openTicks + 1 }
    discard advance
    r.next
    discard (r.solve (.statements []))
    let s ← get
    if s.token = .op "`" && s.lastTickEscapes + 1 < s.openTicks then
      setToken .eof
      unclosedQuote place "`"
  modify fun s => { s with openTicks := s.openTicks - 1 }
  discard advance
  if !(← r.takeOp "`") then unclosedQuote place "`"
  return .expansion place "command substitution"

private def arithmetic : Reading Part := do
  let place := (← get).place
  nested .arithmetic do
    r.next
    if ← r.takeOp "#" then foreign place "unsigned expressions" ["mksh"]
    if (← r.solve .expression).isNone then mustFollow place "$((" "an expression"
    let s ← get
    if !(s.token = .op ")" && s.current = .char ')') then arithmeticUnmatched place "$((" "))"
    discard advance
  r.next
  return .expansion place "arithmetic expansion"

private def substitution : Reading Part := do
  let place := (← get).place
  nested .group do
    r.next
    discard (r.solve (.statements []))
  r.matched place "(" ")"
  return .expansion place "command substitution"

/-- The part of a word that starts at the current token, if one does. -/
def part : Reading (Option Part) := do
  let s ← get
  match s.token with
  | .lit | .litWord | .litRedir =>
    r.next
    return some (.lit s.value)
  | .op "$\x7b" =>
    noExpansionHere
    match s.current with
    | .char '|' => fail "\"$\x7b|stmts;\x7d\" is a mksh feature"
    | .char ' ' | .char '\t' | .char '\n' => fail "\"$\x7b stmts;\x7d\" is a mksh feature"
    | _ =>
      r.parameter s.place
      return some (.expansion s.place "parameter expansion")
  | .op "$((" => noExpansionHere; return some (← r.arithmetic)
  | .op "$(" => noExpansionHere; return some (← r.substitution)
  | .op "$" => return some (← r.dollar)
  | .op "'" => return some (← r.singleQuoted)
  | .op "\"" => if s.context = .double then return none else return some (← r.doubleQuoted)
  | .op "`" =>
    if ← ticksClose then return none
    noExpansionHere
    return some (← r.backquoted)
  | .glob _ => foreign s.place "extended globs" ["bash", "mksh"]
  | _ => return none

/-- The parts of a word, up to white space or something that is no part. -/
def parts : Reading (List Part) := do
  go (2 * (← get).size + 8)
where
  go : Nat → Reading (List Part)
    | 0 => exhausted
    | n + 1 => do
      match ← r.part with
      | none => return []
      | some p =>
        if (← get).spaced then return [p]
        else return p :: (← go n)

end Solver

end CommandShell.Grammar
