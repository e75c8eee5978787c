import CommandShell.Grammar.Cursor

/-! Tokens. Which characters form one depends on what encloses the cursor. -/
namespace CommandShell.Grammar

open Reading

private def isOneOf (set : String) (c : Char) : Bool := set.toList.contains c

/-- The longest of some continuations that stands at the cursor, consumed; `text` is what has been
consumed already. -/
private def longest (text : String) (choices : List (Char × String)) : Reading Token := do
  match ← current with
  | .char c =>
    match choices.find? (·.1 == c) with
    | some (_, longer) => discard advance; return .op longer
    | none => return .op text
  | _ => return .op text

/-- An operator or the start of a quoted text or expansion. A backquote is left under the cursor,
since reading on depends on how deep backquotes nest by then. -/
def operatorToken (c : Char) : Reading Token := do
  match c with
  | '\'' =>
    modify fun s =>
      if s.openTicks > 0 then { s with buriedTicks := s.openTicks, openTicks := 0 } else s
    discard advance
    return .op "'"
  | '`' => return .op "`"
  | '&' =>
    discard advance
    match ← longest "&" [('&', "&&"), ('>', "&>")] with
    | .op "&>" => longest "&>" [('>', "&>>")]
    | token => return token
  | '|' => discard advance; longest "|" [('|', "||")]
  | ';' => discard advance; longest ";" [(';', ";;")]
  | '$' =>
    discard advance
    match ← longest "$" [('\x7b', "$\x7b"), ('(', "$(")] with
    | .op "$(" => longest "$(" [('(', "$((")]
    | token => return token
  | '<' =>
    discard advance
    match ← longest "<" [('<', "<<"), ('>', "<>"), ('&', "<&")] with
    | .op "<<" => longest "<<" [('-', "<<-"), ('<', "<<<")]
    | token => return token
  | '>' => discard advance; longest ">" [('>', ">>"), ('&', ">&"), ('|', ">|")]
  | _ => discard advance; return .op c.toString

private def arithmeticToken (c : Char) : Reading Token := do
  discard advance
  match c with
  | '!' => longest "!" [('=', "!=")]
  | '=' => longest "=" [('=', "==")]
  | '*' => longest "*" [('*', "**"), ('=', "*=")]
  | '/' => longest "/" [('=', "/=")]
  | '%' => longest "%" [('=', "%=")]
  | '^' => longest "^" [('=', "^=")]
  | '+' => longest "+" [('+', "++"), ('=', "+=")]
  | '-' => longest "-" [('-', "--"), ('=', "-=")]
  | '<' =>
    match ← longest "<" [('<', "<<"), ('=', "<=")] with
    | .op "<<" => longest "<<" [('=', "<<=")]
    | token => return token
  | '>' =>
    match ← longest ">" [('>', ">>"), ('=', ">=")] with
    | .op ">>" => longest ">>" [('=', ">>=")]
    | token => return token
  | '&' => longest "&" [('&', "&&"), ('=', "&=")]
  | '|' => longest "|" [('|', "||"), ('=', "|=")]
  | _ => return .op c.toString

private def parameterToken (c : Char) : Reading Token := do
  discard advance
  match c with
  | ':' => longest ":" [('+', ":+"), ('-', ":-"), ('?', ":?"), ('=', ":=")]
  | '%' => longest "%" [('%', "%%")]
  | '#' => longest "#" [('#', "##")]
  | '/' => longest "/" [('/', "//")]
  | '^' => longest "^" [('^', "^^")]
  | ',' => longest "," [(',', ",,")]
  | _ => return .op c.toString

/-- An opening parenthesis right behind the cursor makes an extended glob, unless it closes at
once. -/
private def globStarts : Reading Bool := do
  let s ← get
  return s.value != "function" && Bytes.startsWith s.rest "(" && !Bytes.startsWith s.rest "()"

/-- Digits, or a name in braces. -/
def isRedirectNumber (raw : Bytes) : Bool :=
  (!raw.isEmpty && raw.all Bytes.isDigit) ||
  match raw with
  | 123 :: s => s.getLast? == some 125 && Bytes.isName s.dropLast
  | _ => false

/-- Stands in for an escaped line break where a character is asked for. -/
private def jointMark : Char := '\uFFFF'

/-- Collects a literal while `step` asks for more; `step` may change the token. -/
private def collectLit (step : Char → Token → Reading (Bool × Token)) : Reading Unit := do
  beginLit
  go (2 * (← get).size + 8) .litWord
where
  go : Nat → Token → Reading Unit
    | 0, _ => exhausted
    | n + 1, token => do
      match ← current with
      | .eof => setValue token (← endLit)
      | .joint =>
        let (more, token) ← step jointMark token
        if more then discard advance; go n token
        else setValue token (← endLit)
      | .char c =>
        let (more, token) ← step c token
        if more then discard advance; go n token
        else setValue token (← endLit)

private def onJoint : Reading Bool := return (← get).current = .joint

private def bareLiteral : Reading Unit := do
  modify ({ · with equals := none })
  collectLit fun c token => do
    if ← onJoint then return (true, token)
    if isOneOf " \t\n\r&|;()" c then return (false, token)
    else if c = '\\' then discard advance; return (true, token)
    else if c = '>' || c = '<' then
      if ← follows "(" then return (false, .lit)
      let raw := (((← get).collected.getD []).drop 1).reverse
      return (false, if isRedirectNumber raw then .litRedir else token)
    else if c = '`' then
      return (false, if (← get).context = .backquote then token else .lit)
    else if isOneOf "\"'$" c then return (false, .lit)
    else if isOneOf "?*+@!" c then
      if ← globStarts then return (false, .lit) else return (true, token)
    else if c = '=' then
      modify fun s =>
        if s.equals.isNone then { s with equals := some ((s.collected.getD []).length - 1) } else s
      return (true, token)
    else return (true, token)

private def doubleLiteral : Reading Unit :=
  collectLit fun c token => do
    if ← onJoint then return (false, .lit)
    if c = '"' then return (false, token)
    else if c = '\\' then discard advance; return (true, token)
    else if c = '`' || c = '$' then return (false, .lit)
    else return (true, token)

private def otherLiteral : Reading Unit := do
  let context := (← get).context
  collectLit fun c token => do
    if ← onJoint then return (true, token)
    if c = '\\' then discard advance; return (true, token)
    else if isOneOf "'\"`$" c then return (false, .lit)
    else
      let stops :=
        if c = '\x7d' then context = .parameter || context = .operand
        else if c = '/' then context ≠ .operand
        else if isOneOf ":=%^,?!~*" c then context = .arithmetic || context = .parameter
        else if isOneOf "[]#@" c then context = .parameter
        else if isOneOf "+- \t;&><|()\n\r" c then context ≠ .operand
        else false
      return (!stops, token)

/-- A stretch of a here-document's body, up to an expansion or the end of the body. -/
private def hereLiteral : Reading Unit := do
  let before := (← get).token
  let mut afterJoint := decide (before = .lit)
  if ← onJoint then
    repeated do
      discard advance
      onJoint
    afterJoint := true
  setPlace (← here)
  setToken .lit
  beginLit
  let strip := (← get).context = .hereBody true
  if strip then
    repeated do
      if ← sees '\t' then discard advance; return true else return false
  let start : Int := (((← get).collected.getD []).length : Int) - 1
  go (2 * (← get).size + 8) afterJoint strip start
where
  /-- The end of a line: either it is the end of the body, or reading goes on behind it. -/
  lineEnd (afterJoint strip : Bool) (start : Int) : Reading (Option Int) := do
    let s ← get
    let bytes := (s.collected.getD []).reverse
    if start = 0 && afterJoint then pure ()
    else if start ≥ 0 then
      let line := bytes.drop start.toNat
      let line := if s.current ≠ .eof && !line.isEmpty then line.dropLast else line
      if some line == s.stops.head?.join || (line.isEmpty && s.stops.head? == some none) then
        let value := (← endLit).take start.toNat
        setValue (if value.isEmpty then .newline else .litWord) value
        modify fun s => { s with stops := none :: s.stops.drop 1 }
        return none
    if s.current ≠ .char '\n' then return none
    if strip then
      repeated do
        if ← follows "\t" then discard advance; return true else return false
    return some ((← get).collected.getD []).length
  go : Nat → Bool → Bool → Int → Reading Unit
    | 0, _, _, _ => exhausted
    | n + 1, afterJoint, strip, start => do
      match ← current with
      | .joint => modify ({ · with value := [] }); setValue .lit (← endLit)
      | .char '$' => setValue .lit (← endLit)
      | .char '\\' => discard advance; discard advance; go n afterJoint strip start
      | .char '`' =>
        if !(← ticksClose) then setValue .lit (← endLit)
        else discard (lineEnd afterJoint strip start)
      | .eof => discard (lineEnd afterJoint strip start)
      | .char '\n' =>
        match ← lineEnd afterJoint strip start with
        | some start => discard advance; go n afterJoint strip start
        | none => pure ()
      | .char _ => discard advance; go n afterJoint strip start

/-- Inside quotes, bodies and operands white space is text. -/
private def nextKeepingSpaces : Reading Unit := do
  let context := (← get).context
  let body := match context with
    | .hereBody _ => true
    | _ => false
  if !body then
    if ← onJoint then
      repeated do
        discard advance
        onJoint
  setPlace (← here)
  let c := match ← current with
    | .char c => c
    | _ => jointMark
  match context with
  | .double =>
    if isOneOf "`\"$" c then setToken (← operatorToken c) else doubleLiteral
  | .hereBody _ =>
    if isOneOf "`$" c then setToken (← operatorToken c) else hereLiteral
  | _ =>
    if c = '\x7d' then setToken (← parameterToken c)
    else if isOneOf "`\"$'" c then setToken (← operatorToken c)
    else otherLiteral

/-- White space and escaped line breaks; stops at a token, or with the newline or the end as the
token. -/
private def skipBlanks (heredocs : Reading Unit) : Reading Bool := do
  go (2 * (← get).size + 8)
where
  go : Nat → Reading Bool
    | 0 => exhausted
    | n + 1 => do
      match ← current with
      | .eof => setToken .eof; return false
      | .joint => discard advance; go n
      | .char c =>
        if c = ' ' || c = '\t' || c = '\r' then
          modify ({ · with spaced := true })
          discard advance
          go n
        else if c = '\n' then
          let s ← get
          if s.token = .newline then discard advance; go n
          else
            set { s with spaced := true, token := .newline }
            if s.context ≠ .hereWord && s.pending.length > s.buried then heredocs
            return false
        else return true

private def skipComment : Reading Unit := do
  discard advance
  repeated do
    match ← current with
    | .eof | .joint | .char '\n' => return false
    | .char '`' => if ← ticksClose then return false else discard advance; return true
    | .char _ => discard advance; return true

/-- Reads the next token. `again` reads one more after a comment and `heredocs` the bodies that a
newline makes due. -/
def readToken (again heredocs : Reading Unit) : Reading Unit := do
  if (← current) = .eof then setToken .eof
  else
    modify ({ · with spaced := false })
    let context := (← get).context
    let keeps := match context with
      | .double | .hereBody _ | .operand => true
      | _ => false
    if keeps then nextKeepingSpaces
    else if ← skipBlanks heredocs then
      setPlace (← here)
      let c := match ← current with
        | .char c => c
        | _ => jointMark
      let commands := match context with
        | .plain | .group | .backquote | .hereWord | .caseItem => true
        | _ => false
      if commands then
        if isOneOf ";\"'()$|&><`" c then setToken (← operatorToken c)
        else if c = '#' then
          let s ← get
          if !s.spaced && (s.token = .litWord || s.token = .op "\x7d" || s.token = .op "'" ||
              s.token = .op "\"") then bareLiteral
          else
            skipComment
            again
        else if isOneOf "?*+@!" c then
          if ← globStarts then
            setToken (.glob (c.toString ++ "("))
            discard advance
            discard advance
          else bareLiteral
        else bareLiteral
      else if context = .arithmetic && isOneOf "+-!~*/%()^<>:=,?|&[]#" c then
        setToken (← arithmeticToken c)
      else if context = .parameter && isOneOf "\x7d#!:-+=?%[]/^,@*" c then
        setToken (← parameterToken c)
      else if isOneOf ";\"'()$|&><`" c then setToken (← operatorToken c)
      else otherLiteral

/-- The letters, digits and underscores of a name behind a dollar sign. -/
def nameLiteral : Reading Unit := do
  beginLit
  repeated do
    match ← current with
    | .joint => discard advance; return true
    | .char c =>
      if c.isAlphanum || c = '_' then discard advance; return true else return false
    | .eof => return false
  setValue .litWord (← endLit)

end CommandShell.Grammar
