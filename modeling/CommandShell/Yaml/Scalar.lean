import CommandShell.Yaml.Token

/-! Scanning of scalars: quoted, plain and block style. Line breaks inside the first two fold into
spaces. -/
namespace CommandShell.Yaml.Scan

/-- White space met inside a scalar: blanks on the line, or a first line break and those after it. -/
private structure Gap where
  broken : Bool := false
  blanks : List Char := []
  first : List Char := []
  more : List Char := []

/-- A single line break becomes a space and of several the first one goes. -/
private def Gap.folded (g : Gap) : List Char :=
  if !g.broken then g.blanks
  else if g.first == ['\n'] then if g.more.isEmpty then [' '] else g.more
  else g.first ++ g.more

/-- Consumes white space. A tab below the indentation is refused on a line that `tabLimit` applies
to. -/
private def takeGap (gap : Gap) (tabLimit : Int) : Scan Gap := do
  go ((← get).rest.length + 2) gap
where
  go : Nat → Gap → Scan Gap
    | 0, _ => refuse
    | n + 1, g => do
      match ← peek 0 with
      | none => return g
      | some c =>
        if isBlank c then
          if g.broken && ((← get).mark.column : Int) < tabLimit && c == '\t' then refuse
          skip
          go n (if g.broken then g else { g with blanks := g.blanks ++ [c] })
        else if isBreak c then
          let b ← takeBreak
          go n (if g.broken then { g with more := g.more ++ b }
                else { broken := true, first := b })
        else return g

private def hexCode : Nat → Nat → Scan Char
  | 0, n =>
    if (0xD800 ≤ n && n < 0xE000) || n > 0x10FFFF then refuse else return Char.ofNat n
  | k + 1, n => do
    match (← peek 0).bind hexDigit? with
    | none => refuse
    | some d =>
      skip
      hexCode k (16 * n + d)

private def escaped : Scan Char := do
  let c ← peek 1
  skipMany 2
  match c with
  | some '0' => return Char.ofNat 0
  | some 'a' => return '\x07'
  | some 'b' => return '\x08'
  | some 't' | some '\t' => return '\t'
  | some 'n' => return '\n'
  | some 'v' => return '\x0B'
  | some 'f' => return '\x0C'
  | some 'r' => return '\r'
  | some 'e' => return '\x1B'
  | some ' ' => return ' '
  | some '"' => return '"'
  | some '\'' => return '\''
  | some '\\' => return '\\'
  | some 'N' => return '\x85'
  | some '_' => return '\xA0'
  | some 'L' => return '\u2028'
  | some 'P' => return '\u2029'
  | some 'x' => hexCode 2 0
  | some 'u' => hexCode 4 0
  | some 'U' => hexCode 8 0
  | _ => refuse

/-- Text in quotes up to the next white space or the closing quote, reversed, and whether an escaped
line break ended it. -/
private def quotedRun (single : Bool) : Nat → List Char → Scan (List Char × Bool)
  | 0, _ => refuse
  | n + 1, text => do
    match ← peek 0 with
    | none => return (text, false)
    | some c =>
      if isBlank c || isBreak c then return (text, false)
      else if single then
        if c == '\'' then
          if (← peek 1) == some '\'' then
            skipMany 2
            quotedRun single n ('\'' :: text)
          else return (text, false)
        else
          skip
          quotedRun single n (c :: text)
      else if c == '"' then return (text, false)
      else if c == '\\' then
        if ← satisfies isBreak 1 then
          skip
          discard takeBreak
          return (text, true)
        else
          let e ← escaped
          quotedRun single n (e :: text)
      else
        skip
        quotedRun single n (c :: text)

def quotedScalar (single : Bool) : Scan Unit := do
  skip
  let text ← go ((← get).rest.length + 2) []
  skip
  emit (.scalar (Utf8.encode text.reverse) false)
where
  go : Nat → List Char → Scan (List Char)
    | 0, _ => refuse
    | n + 1, text => do
      if ← atDocumentMark then refuse
      if (← peek 0).isNone then refuse
      let (text, joined) ← quotedRun single ((← get).rest.length + 2) text
      if ← sees (if single then '\'' else '"') then return text
      let gap ← takeGap { broken := joined } (-1)
      go n (gap.folded.reverse ++ text)

private def endsPlain (c : Char) : Scan Bool := do
  if c == ':' && (← blankOrEnd 1) then return true
  return (← get).flow > 0 && ",?[]\x7b\x7d".toList.contains c

/-- Plain text up to white space or an indicator, reversed, with the white space before it. -/
private def plainRun : Nat → Gap → List Char → Scan (Gap × List Char)
  | 0, _, _ => refuse
  | n + 1, gap, text => do
    match ← peek 0 with
    | none => return (gap, text)
    | some c =>
      if isBlank c || isBreak c || (← endsPlain c) then return (gap, text)
      skip
      plainRun n {} (c :: (gap.folded.reverse ++ text))

/-- A scalar without quotes. It may go on over lines that are indented more than its parent. -/
def plainScalar : Scan Unit := do
  let (gap, text) ← go ((← get).rest.length + 2) {} []
  emit (.scalar (Utf8.encode text.reverse) true)
  if gap.broken then modify ({ · with keyAllowed := true })
where
  go : Nat → Gap → List Char → Scan (Gap × List Char)
    | 0, _, _ => refuse
    | n + 1, gap, text => do
      if (← atDocumentMark) || (← sees '#') then return (gap, text)
      let (gap, text) ← plainRun ((← get).rest.length + 2) gap text
      if !(← satisfies (fun c => isBlank c || isBreak c) 0) then return (gap, text)
      let limit := (← get).indent + 1
      let gap ← takeGap gap limit
      let s ← get
      if s.flow = 0 && (s.mark.column : Int) < limit then return (gap, text)
      go n gap text

/-- What happens to the line breaks at the end of a block scalar. -/
private inductive Chomp where
  | clip
  | strip
  | keep
  deriving DecidableEq

private def chompMark : Scan (Option Chomp) := do
  if ← sees '+' then
    skip
    return some .keep
  else if ← sees '-' then
    skip
    return some .strip
  else return none

private def indentMark : Scan Nat := do
  match ← peek 0 with
  | some c =>
    if !c.isDigit then return 0
    if c == '0' then refuse
    skip
    return c.toNat - 48
  | none => return 0

private def blockHeader : Scan (Chomp × Nat) := do
  match ← chompMark with
  | some chomp => return (chomp, ← indentMark)
  | none =>
    let n ← indentMark
    if n = 0 then return (.clip, 0)
    return ((← chompMark).getD .clip, n)

/-- Indentation and empty lines; an indentation of zero is still to be found. -/
private def blockBreaks (indent : Nat) : Scan (Nat × List Char) := do
  go ((← get).rest.length + 2) 0 []
where
  inIndent : Scan Bool := return indent = 0 || (← get).mark.column < indent
  go : Nat → Nat → List Char → Scan (Nat × List Char)
    | 0, _, _ => refuse
    | n + 1, deepest, breaks => do
      repeated do
        if (← inIndent) && (← sees ' ') then
          skip
          return true
        else return false
      let column := (← get).mark.column
      let deepest := max deepest column
      if (← inIndent) && (← sees '\t') then refuse
      if ← satisfies isBreak 0 then
        let b ← takeBreak
        go n deepest (breaks ++ b)
      else if indent = 0 then
        let least := ((← get).indent + 1).toNat
        return (max (max deepest least) 1, breaks)
      else return (indent, breaks)

def blockScalar (literal : Bool) : Scan Unit := do
  skip
  let (chomp, increment) ← blockHeader
  skipWhile isBlank
  if ← sees '#' then skipWhile fun c => !isBreak c
  if !(← breakOrEnd 0) then refuse
  discard takeBreak
  let parent := (← get).indent
  let indent := if increment = 0 then 0 else (max parent 0).toNat + increment
  let (indent, breaks) ← blockBreaks indent
  let (text, leading, trailing) ← go indent ((← get).rest.length + 2) false [] [] breaks
  let tail := match chomp with
    | .strip => []
    | .clip => leading
    | .keep => leading ++ trailing
  emit (.scalar (Utf8.encode (text ++ tail)) false)
where
  go (indent : Nat) : Nat → Bool → List Char → List Char → List Char →
      Scan (List Char × List Char × List Char)
    | 0, _, _, _, _ => refuse
    | n + 1, afterBlank, text, leading, trailing => do
      if (← get).mark.column ≠ indent || (← peek 0).isNone then return (text, leading, trailing)
      let blank ← satisfies isBlank 0
      let joint :=
        if !literal && !afterBlank && !blank && leading == ['\n'] then
          if trailing.isEmpty then [' '] else []
        else leading
      let line ← takeWhile fun c => !isBreak c
      let leading ← takeBreak
      let (_, breaks) ← blockBreaks indent
      go indent n blank (text ++ joint ++ trailing ++ line) leading breaks

end CommandShell.Yaml.Scan
