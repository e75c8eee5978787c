import CommandShell.Grammar.Redirection

/-! Statements: simple commands, groups, and the lists and pipelines they form. -/
namespace CommandShell.Grammar

open Reading

/-- What has been read of a simple command, last items first. -/
structure Call where
  assigned : Option Position := none
  words : List (List Part) := []
  redirections : List Redirection := []

def redirectionsFault? (ds : List Redirection) : Option Fault :=
  ds.reverse.findSome? Redirection.fault?

/-- The first fault of a simple command that starts at a place. -/
def Call.fault? (call : Call) (start : Position) : Option Fault :=
  match call.assigned with
  | some place => some (.unsupported place "variable assignments")
  | none =>
    if call.words.isEmpty then some (.unsupported start "redirections without a command")
    else (call.words.reverse.findSome? wordFault?).or (redirectionsFault? call.redirections)

private def atAssignment : Reading Bool := do
  let s ← get
  if s.token ≠ .lit && s.token ≠ .litWord then return false
  match s.equals with
  | some n => return n > 0 && Bytes.isName (s.value.take n)
  | none => return false

/-- Commands another shell would read differently. -/
private def foreignCommands : List Bytes :=
  ["\x7b", "if", "while", "until", "for", "case", "[[", "coproc", "let", "function", "declare",
   "local", "export", "readonly", "typeset", "nameref"]

namespace Solver

variable (r : Solver)

private def wordAssignment : Reading Unit := do
  let s ← get
  let isBare := (s.value.drop (s.equals.getD 0 + 1)).isEmpty
  r.next
  if (← get).spaced || (← atStop) then return
  if isBare && (← at? "(") then foreign (← get).place "arrays" ["bash", "mksh"]
  discard r.word

private def argument (call : Call) : Reading Call := do
  match ← r.word with
  | some parts => return { call with words := parts :: call.words }
  | none => return call

private def assign (call : Call) : Reading Call := do
  let place := (← get).place
  r.wordAssignment
  return { call with assigned := call.assigned.or (some place) }

private def redirect (call : Call) : Reading Call := do
  let d ← r.redirection
  return { call with redirections := d :: call.redirections }

private def strayToken (call : Call) : Reading Call := do
  match call.words.getLast?.bind wordLiteral? with
  | some name =>
    if foreignCommands.contains name then
      fail ("the " ++ Bytes.quoted name ++ " builtin exists in bash; tried parsing as posix")
  | none => pure ()
  fail ("a command can only contain words and redirects; encountered " ++ (← get).token.text)

private def simpleCommand (call : Call) : Reading Call := do
  go (2 * (← get).size + 8) call
where
  go : Nat → Call → Reading Call
    | 0, _ => exhausted
    | n + 1, call => do
      let s ← get
      match s.token with
      | .eof | .newline | .op ";" | .op "&" | .op "|" | .op "&&" | .op "||" | .op ";;" =>
        return call
      | .litWord =>
        if call.words.isEmpty && (← atAssignment) then go n (← r.assign call)
        else
          r.next
          go n { call with words := [.lit s.value] :: call.words }
      | .lit =>
        if call.words.isEmpty && (← atAssignment) then go n (← r.assign call)
        else go n (← r.argument call)
      | .op "`" => if ← ticksClose then return call else go n (← r.argument call)
      | .op "$\x7b" | .op "$((" | .op "$(" | .op "$" | .op "'" | .op "\"" | .glob _ =>
        go n (← r.argument call)
      | .op ")" => if s.context = .group then return call else go n (← strayToken call)
      | _ =>
        if ← atRedirection then go n (← r.redirect call)
        else go n (← strayToken call)

private def closeRedirections (inner : Option Fault) : Reading (Option Fault) := do
  go (2 * (← get).size + 8) []
where
  go : Nat → List Redirection → Reading (Option Fault)
    | 0, _ => exhausted
    | n + 1, ds => do
      if ← atRedirection then go n ((← r.redirection) :: ds)
      else return inner.or (redirectionsFault? ds)

/-- A construct this shell does not run; its own redirections do not matter any more. -/
private def refused (place : Position) (what : Bytes) : Reading (Option Fault) :=
  r.closeRedirections (some (.unsupported place what))

private def call (start : Position) (begun : Call) : Reading (Option Fault) := do
  return (← r.simpleCommand begun).fault? start

/-- A list of statements that a word opens and others close. -/
private def body (left : Bytes) (place : Position) (stops : List Bytes) : Reading Unit := do
  if !(← r.takeOp ";") then
    let newline ← r.take .newline
    let list ← r.solve (.statements stops)
    if list.isEmpty && !newline then mustFollow place left "a statement list"

private def needsWord (place : Position) (left text : Bytes) : Reading Position := do
  let (there, found) ← r.takeWord text
  if !found then mustFollow place left (Bytes.quoted text)
  return there

private def endsWith (place : Position) (opening closing : Bytes) : Reading Unit := do
  if !(← r.takeWord closing).2 then
    failAt place (opening ++ " statement must end with " ++ Bytes.quoted closing)

private def block (place : Position) : Reading (Option Fault) := do
  r.next
  discard (r.solve (.statements ["\x7d"]))
  if !(← r.takeWord "\x7d").2 then unmatched place "\x7b" "\x7d"
  r.refused place "blocks"

private def condition (opening : Bytes) (place : Position) : Reading Unit := do
  r.next
  r.body opening place ["then"]
  let there ← r.needsWord place (opening ++ " <cond>") "then"
  r.body "then" there ["fi", "elif", "else"]

private def ifStatement (place : Position) : Reading (Option Fault) := do
  r.condition "if" place
  repeated do
    if ← atWord "elif" then
      r.condition "elif" (← get).place
      return true
    else return false
  let (there, found) ← r.takeWord "else"
  if found then r.body "else" there ["fi"]
  r.endsWith place "if" "fi"
  r.refused place "if statements"

private def whileLoop (opening : Bytes) (place : Position) : Reading (Option Fault) := do
  r.next
  r.body opening place ["do"]
  let there ← r.needsWord place (opening ++ " <cond>") "do"
  r.body "do" there ["done"]
  r.endsWith place opening "done"
  r.refused place "while loops"

private def forWords (place : Position) : Reading Unit := do
  if (← r.literal).isNone then mustFollow place "for" "a literal"
  if ← r.takeOp ";" then r.skipNewline
  else
    r.skipNewline
    if (← r.takeWord "in").2 then
      repeated do
        if ← atStop then return false
        if (← r.word).isNone then fail "word list can only contain words"
        return true
      discard (r.takeOp ";")
      r.skipNewline
    else if !(← atWord "do") then
      mustFollow place "for foo" "\"in\", \"do\", ;, or a newline"

private def forLoop (place : Position) : Reading (Option Fault) := do
  r.next
  if ← at? "(" then foreign (← get).place "c-style fors" ["bash"]
  r.forWords place
  let (there, braced) ← r.takeWord "\x7b"
  if braced then foreign there "for loops with braces" ["bash", "mksh"]
  let there ← r.needsWord place "for foo [in words]" "do"
  r.body "do" there ["done"]
  r.endsWith place "for" "done"
  r.refused place "for loops"

private def casePatterns : Reading Unit := repeated do
  if (← get).token = .eof then return false
  if (← r.word).isNone then fail "case patterns must consist of words"
  if ← at? ")" then return false
  if !(← r.takeOp "|") then fail "case patterns must be separated with |"
  return true

private def caseItems : Reading Unit := do
  r.skipNewline
  repeated do
    if (← get).token = .eof || (← atWord "esac") then return false
    discard (r.takeOp "(")
    r.casePatterns
    nested .caseItem do
      r.next
      discard (r.solve (.statements ["esac"]))
    if ← r.takeOp ";;" then
      r.skipNewline
      return true
    else return false

private def caseStatement (place : Position) : Reading (Option Fault) := do
  r.next
  if (← r.word).isNone then mustFollow place "case" "a word"
  r.skipNewline
  if (← r.takeWord "\x7b").2 then failAt place "\"case i \x7b\" is a mksh feature"
  discard (r.needsWord place "case x" "in")
  r.caseItems
  r.endsWith place "case" "esac"
  r.refused place "case statements"

private def function (place : Position) (name : Bytes) : Reading (Option Fault) := do
  if !(← r.takeOp ")") then mustFollow place "foo(" ")"
  if !Bytes.isName name then failAt place "invalid func name"
  r.skipNewline
  if (← r.solve (.statement false false)).isNone then mustFollow place "foo()" "a statement"
  r.refused place "function declarations"

private def group (place : Position) : Reading (Option Fault) := do
  let list ← nested .group do
    r.next
    r.solve (.statements [])
  r.matched place "(" ")"
  r.closeRedirections <| list.fault.or <|
    if list.isEmpty then some (.unsupported place "empty groups") else none

private def misplaced (what : Bytes) : Reading (Option Fault) := do
  fail (Bytes.quoted (← get).value ++ " can only be used " ++ what)

private def bareCommand (start : Position) (negated : Bool) : Reading (Option Fault) := do
  let s ← get
  let reserved : List (Bytes × Reading (Option Fault)) :=
    [("\x7b", r.block s.place), ("if", r.ifStatement s.place),
     ("while", r.whileLoop "while" s.place), ("until", r.whileLoop "until" s.place),
     ("for", r.forLoop s.place), ("case", r.caseStatement s.place),
     ("\x7d", misplaced "to close a block"), ("then", misplaced "in an if"),
     ("elif", misplaced "in an if"), ("fi", misplaced "to end an if"),
     ("do", misplaced "in a loop"), ("done", misplaced "to end a loop"),
     ("esac", misplaced "to end a case")]
  match reserved.find? (·.1 == s.value) with
  | some (_, command) => command
  | none =>
    if s.value = ("!" : Bytes) && !negated then misplaced "in full statements"
    else if ← atAssignment then r.call start (← r.assign {})
    else
      r.next
      if ← r.takeOp "(" then r.function s.place s.value
      else r.call start { words := [[.lit s.value]] }

/-- A command; none if nothing here starts one. -/
private def command (start : Position) (negated : Bool) : Reading (Option (Option Fault)) := do
  let s ← get
  match s.token with
  | .litWord => return some (← r.bareCommand start negated)
  | .op "(" => return some (← r.group s.place)
  | .op "`" => if ← ticksClose then return none else return some (← wordCommand s.place)
  | .lit | .op "$\x7b" | .op "$((" | .op "$(" | .op "$" | .op "'" | .op "\"" | .glob _ =>
    return some (← wordCommand s.place)
  | _ =>
    if ← atRedirection then return some (← r.call start (← r.redirect {}))
    else return none
where
  wordCommand (place : Position) : Reading (Option Fault) := do
    if ← atAssignment then r.call start (← r.assign {})
    else
      let begun ← r.argument {}
      if ← r.takeOp "(" then failAt place "invalid func name"
      r.call start begun

/-- Commands joined by bars; an `operand` of a bar ends before the next one. -/
private def pipeline (start : Position) (negated : Bool) : Reading (Option Statement) := do
  match ← r.command start negated with
  | none => return none
  | some fault => return some (← go (2 * (← get).size + 8) { start, negated, inner := fault })
where
  go : Nat → Statement → Reading Statement
    | 0, _ => exhausted
    | n + 1, s => do
      let place := (← get).place
      if ← r.takeOp "|" then
        r.skipNewline
        let right := (← get).place
        match ← r.command right false with
        | none => mustFollow place "|" "a statement"
        | some fault => go n { s with inner := s.inner.or fault }
      else return s

/-- A statement; as an `operand` it ends before the next operator, and with `ends` it takes its
separator. -/
def statement (ends operand : Bool) : Reading (Option Statement) := do
  let (start, negated) ← r.takeWord "!"
  if negated then
    if ← atStop then failAt start "\"!\" cannot form a statement alone"
    if (← r.takeWord "!").2 then failAt start "cannot negate a command multiple times"
  match ← r.pipeline start negated with
  | none => return none
  | some s =>
    let s ← if operand then pure s else go (2 * (← get).size + 8) s
    if !ends then return some s
    else if ← r.takeOp "&" then return some { s with background := true }
    else return some s
where
  go : Nat → Statement → Reading Statement
    | 0, _ => exhausted
    | n + 1, s => do
      let t ← get
      if t.token = .op "&&" || t.token = .op "||" then
        r.next
        r.skipNewline
        match ← r.solve (.statement false true) with
        | none => mustFollow t.place t.token.text "a statement"
        | some right => go n { start := s.start, inner := s.fault.or right.fault }
      else return s

private def invalidStart {α : Type} : Reading α := do
  let token := (← get).token
  match token with
  | .op ";" | .op "&" | .op "|" | .op "&&" | .op "||" =>
    fail (token.text ++ " can only immediately follow a statement")
  | .op ")" => fail (token.text ++ " can only be used to close a subshell")
  | _ => fail (token.text ++ " is not a valid start for a statement")

private def listEnds (stops : List Bytes) : Reading Bool := do
  let s ← get
  match s.token with
  | .litWord => return stops.contains s.value
  | .op ")" => return s.context = .group
  | .op "`" => ticksClose
  | .op ";;" =>
    if s.context = .caseItem then return true else fail ";; can only be used in a case clause"
  | _ => return false

def statements (stops : List Bytes) : Reading Statements := do
  go (2 * (← get).size + 8) true ⟨true, none⟩
where
  go : Nat → Bool → Statements → Reading Statements
    | 0, _, _ => exhausted
    | n + 1, ended, list => do
      if (← get).token = .eof then return list
      let newline ← r.take .newline
      if ← listEnds stops then return list
      if !newline && !ended then fail "statements must be separated by &, ; or a newline"
      if (← get).token = .eof then return list
      match ← r.solve (.statement true false) with
      | none => invalidStart
      | some s =>
        let ended ← if s.background then pure true else r.takeOp ";"
        go n ended ⟨false, list.fault.or s.fault⟩

end Solver

end CommandShell.Grammar
