import CommandShell.Yaml.Scalar
import CommandShell.Yaml.Tag

/-! The tokens of a YAML text. -/
namespace CommandShell.Yaml

namespace Scan

private def unroll (column : Int) : Scan Unit := do
  if (← get).flow = 0 then go (← get).indents
where
  go : List Int → Scan Unit
    | [] => pure ()
    | outer :: rest => do
      if (← get).indent > column then
        emit .blockEnd
        modify ({ · with indent := outer, indents := rest })
        go rest

/-- Opens a block collection at a column unless one is open there; its token goes behind the first
`number` tokens. -/
private def roll (column : Nat) (number : Nat) (token : Token) : Scan Unit := do
  let s ← get
  if s.flow = 0 && s.indent < column then
    set { s with indents := s.indent :: s.indents, indent := (column : Int) }
    if s.indents.length ≥ 10000 then refuse
    insert number token

private def setKey (key : Option PossibleKey) : Scan Unit := modify fun s =>
  { s with keys := key :: s.keys.tail }

/-- A key that was possible is none; an error if it had to be one. -/
private def dropKey : Scan Unit := do
  match (← get).keys.head?.join with
  | some key => if key.required then refuse else setKey none
  | none => pure ()

/-- A key may begin here. -/
private def saveKey : Scan Unit := do
  let s ← get
  if s.keyAllowed then
    dropKey
    setKey (some ⟨s.flow = 0 && s.indent = s.mark.column, s.count, s.mark⟩)

/-- The possible key, if it is on this line and not too far back. -/
private def validKey : Scan (Option PossibleKey) := do
  let s ← get
  match s.keys.head?.join with
  | none => return none
  | some key =>
    if key.mark.line < s.mark.line || key.mark.index + 1024 < s.mark.index then
      if key.required then refuse
      setKey none
      return none
    else return some key

private def allowKey (allowed : Bool) : Scan Unit := modify ({ · with keyAllowed := allowed })

private def documentToken (token : Token) : Scan Unit := do
  unroll (-1)
  dropKey
  allowKey false
  skipMany 3
  emit token

private def flowStart (token : Token) : Scan Unit := do
  saveKey
  if (← get).flow ≥ 10000 then refuse
  modify fun s => { s with flow := s.flow + 1, keys := none :: s.keys, keyAllowed := true }
  skip
  emit token

private def flowEnd (token : Token) : Scan Unit := do
  dropKey
  modify fun s =>
    if s.flow > 0 then { s with flow := s.flow - 1, keys := s.keys.tail } else s
  allowKey false
  skip
  emit token

private def blockItem (token opener : Token) (allowedAfter : Bool) : Scan Unit := do
  let s ← get
  if s.flow = 0 then
    if !s.keyAllowed then refuse
    roll s.mark.column s.count opener
  dropKey
  allowKey allowedAfter
  skip
  emit token

private def valueToken : Scan Unit := do
  match ← validKey with
  | some key =>
    insert key.number .key
    roll key.mark.column key.number .blockMapping
    setKey none
    allowKey false
  | none =>
    let s ← get
    if s.flow = 0 then
      if !s.keyAllowed then refuse
      roll s.mark.column s.count .blockMapping
    allowKey (s.flow = 0)
  skip
  emit .value

/-- White space and comments before a token. Tabs do not count where a key may begin. -/
private def toToken : Scan Unit := repeated do
  if (← get).mark.column = 0 && (← sees '\uFEFF') then skip
  let s ← get
  skipWhile fun c => c == ' ' || ((s.flow > 0 || !s.keyAllowed) && c == '\t')
  if ← sees '#' then skipWhile fun c => !isBreak c
  if ← satisfies isBreak 0 then
    discard takeBreak
    if (← get).flow = 0 then allowKey true
    return true
  else return false

private def streamEnd : Scan Unit := do
  modify fun s =>
    if s.mark.column = 0 then s else { s with mark := { s.mark with column := 0, line := s.mark.line + 1 } }
  unroll (-1)
  dropKey
  allowKey false
  emit .streamEnd

private def startsPlain (c : Char) : Scan Bool := do
  if !"-?:,[]\x7b\x7d#&*!|>'\"%@`".toList.contains c && !isBlank c && !isBreak c then return true
  if c == '-' && !(← satisfies isBlank 1) then return true
  return (← get).flow = 0 && (c == '?' || c == ':') && !(← blankOrEnd 1)

private def fetch : Scan Bool := do
  toToken
  unroll (← get).mark.column
  let s ← get
  match ← peek 0 with
  | none =>
    streamEnd
    return false
  | some c =>
    if s.mark.column = 0 && c == '%' then
      unroll (-1)
      dropKey
      allowKey false
      emit (← directive)
    else if ← atDocumentMark then
      documentToken (if c == '-' then .documentStart else .documentEnd)
    else if c == '[' then flowStart .flowSequence
    else if c == '\x7b' then flowStart .flowMapping
    else if c == ']' then flowEnd .flowSequenceEnd
    else if c == '\x7d' then flowEnd .flowMappingEnd
    else if c == ',' then
      dropKey
      allowKey true
      skip
      emit .flowEntry
    else if c == '-' && (← blankOrEnd 1) then blockItem .blockEntry .blockSequence true
    else if c == '?' && (s.flow > 0 || (← blankOrEnd 1)) then
      blockItem .key .blockMapping (s.flow = 0)
    else if c == ':' && (s.flow > 0 || (← blankOrEnd 1)) then valueToken
    else if c == '*' || c == '&' then
      saveKey
      allowKey false
      let name ← anchorName
      emit (if c == '*' then .reference name else .anchor name)
    else if c == '!' then
      saveKey
      allowKey false
      let (handle, suffix) ← tag
      emit (.tag handle suffix)
    else if (c == '|' || c == '>') && s.flow = 0 then
      dropKey
      allowKey true
      blockScalar (c == '|')
    else if c == '\'' || c == '"' then
      saveKey
      allowKey false
      quotedScalar (c == '\'')
    else if ← startsPlain c then
      saveKey
      allowKey false
      plainScalar
    else refuse
    return true

end Scan

/-- The tokens of a text up to the first error; a list without the end of the stream was cut
short. -/
def tokens (source : Source) : List Token :=
  go (source.chars.length + 2) (.start source)
where
  go : Nat → Scanner → List Token
    | 0, s => s.tokens.reverse
    | n + 1, s =>
      match Scan.fetch s with
      | none => s.tokens.reverse
      | some (true, s) => go n s
      | some (false, s) => s.tokens.reverse

end CommandShell.Yaml
