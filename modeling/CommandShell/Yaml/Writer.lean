import CommandShell.Json
import CommandShell.Number.Shortest
import CommandShell.Yaml.KeyOrder
import CommandShell.Yaml.Value

/-! Writing YAML in block style. -/
namespace CommandShell.Yaml

private def isPrintable (c : Char) : Bool :=
  c == '\n' || (' ' ≤ c && c ≤ '~') || ('\xA0' ≤ c && c ≤ '\uFFFD' && c != '\uFEFF')

/-- What the look of a text allows. -/
private structure Look where
  multiline : Bool
  plain : Bool
  single : Bool
  literal : Bool

private def adjacent (p q : Char → Bool) : List Char → Bool
  | a :: b :: s => (p a && q b) || adjacent p q (b :: s)
  | _ => false

private def blankAt : Option Char → Bool
  | none => true
  | some c => isBlank c

/-- A character that would be read as an indicator, given the one before it and the ones after. -/
private def indicator : Option Char → List Char → Bool
  | _, [] => false
  | before, c :: rest =>
    let here :=
      if before.isNone then
        "#,[]\x7b\x7d&*!|>'\"%@`".toList.contains c ||
          ((c == '?' || c == ':' || c == '-') && blankAt rest.head?)
      else (c == ':' && blankAt rest.head?) ||
        (c == '#' && (before.map fun b => isBlank b || isBreak b).getD true)
    here || indicator (some c) rest

private def look (text : List Char) : Look :=
  let space (c : Char) := c == ' '
  let multiline := text.any isBreak
  let special := text.any fun c => !isPrintable c
  let breakSpace := adjacent isBreak space text
  let spaceBreak := adjacent space isBreak text
  let edge c := (c : Option Char) == some ' '
  let marks := "---".toList.isPrefixOf text || "...".toList.isPrefixOf text ||
    indicator none text
  { multiline
    plain := !(edge text.head? || edge text.getLast? || multiline || special || marks)
    single := !(breakSpace || spaceBreak || special)
    literal := !text.isEmpty && !(edge text.getLast? || spaceBreak || special) }

/-- Text written so far, last character first, and where the writer stands. -/
structure Writer where
  out : List Char
  column : Nat
  /-- The last character was white space. -/
  whitespace : Bool
  /-- Nothing but indentation was written on this line. -/
  indention : Bool
  indent : Int

abbrev Writing := StateM Writer

private def put (c : Char) : Writing Unit := modify fun w =>
  { w with out := c :: w.out, column := w.column + 1 }

private def putBreak (c : Char) : Writing Unit := modify fun w =>
  { w with out := c :: w.out, column := 0 }

private def putAll (cs : List Char) : Writing Unit := cs.forM put

private def writeIndent : Writing Unit := do
  let w ← get
  let indent := w.indent.toNat
  if !w.indention || w.column > indent || (w.column = indent && !w.whitespace) then putBreak '\n'
  putAll (List.replicate (indent - (← get).column) ' ')
  modify ({ · with whitespace := true, indention := true })

private def writeIndicator (text : String) (needSpace isIndention : Bool) : Writing Unit := do
  if needSpace && !(← get).whitespace then put ' '
  putAll text.toList
  modify fun w => { w with whitespace := false, indention := w.indention && isIndention }

/-- Lines longer than this are folded at the next space. -/
private def bestWidth : Nat := 80

private def setIndention (b : Bool) : Writing Unit := modify ({ · with indention := b })

private def endScalar : Writing Unit :=
  modify ({ · with whitespace := false, indention := false })

/-- The characters of a plain or single-quoted text. A quoted one is not folded at its ends. -/
private def folded (quoted allowBreaks : Bool) : Bool → Bool → Bool → List Char → Writing Unit
  | _, _, _, [] => pure ()
  | first, spaces, breaks, c :: rest => do
    if c == ' ' then
      let inside := !quoted || (!first && !rest.isEmpty)
      if allowBreaks && !spaces && (← get).column > bestWidth && inside &&
          rest.head? ≠ some ' ' then writeIndent
      else put c
      folded quoted allowBreaks false true breaks rest
    else if isBreak c then
      if !breaks && c == '\n' then putBreak '\n'
      putBreak c
      setIndention true
      folded quoted allowBreaks false spaces true rest
    else
      if breaks then writeIndent
      if quoted && c == '\'' then put '\''
      put c
      setIndention false
      folded quoted allowBreaks false false false rest

private def writePlain (allowBreaks : Bool) (text : List Char) : Writing Unit := do
  if !(← get).whitespace then put ' '
  folded false allowBreaks true false false text
  endScalar

private def writeSingle (allowBreaks : Bool) (text : List Char) : Writing Unit := do
  writeIndicator "'" true false
  folded true allowBreaks true false false text
  writeIndicator "'" false false
  endScalar

private def hex (width n : Nat) : List Char :=
  Utf8.chars (Bytes.padded width (Bytes.digits 16 n true))

private def escape (c : Char) : List Char :=
  match c.toNat with
  | 0x00 => ['0']
  | 0x07 => ['a']
  | 0x08 => ['b']
  | 0x09 => ['t']
  | 0x0A => ['n']
  | 0x0B => ['v']
  | 0x0C => ['f']
  | 0x0D => ['r']
  | 0x1B => ['e']
  | 0x22 => ['"']
  | 0x5C => ['\\']
  | 0x85 => ['N']
  | 0xA0 => ['_']
  | 0x2028 => ['L']
  | 0x2029 => ['P']
  | n => if n ≤ 0xFF then 'x' :: hex 2 n else if n ≤ 0xFFFF then 'u' :: hex 4 n else 'U' :: hex 8 n

/-- The characters of a double-quoted text; `all` escapes every one. -/
private def doubled (all allowBreaks : Bool) : Bool → Bool → List Char → Writing Unit
  | _, _, [] => pure ()
  | first, spaces, c :: rest => do
    if all || !isPrintable c || isBreak c || c == '"' || c == '\\' then
      putAll ('\\' :: escape c)
      doubled all allowBreaks false false rest
    else if c == ' ' then
      if allowBreaks && !spaces && (← get).column > bestWidth && !first && !rest.isEmpty then
        writeIndent
        if rest.head? = some ' ' then put '\\'
      else put c
      doubled all allowBreaks false true rest
    else
      put c
      doubled all allowBreaks false false rest

/-- A text that starts with a byte order mark is escaped throughout. -/
private def writeDouble (allowBreaks : Bool) (text : List Char) : Writing Unit := do
  writeIndicator "\"" true false
  doubled (text.head? == some '\uFEFF') allowBreaks true false text
  writeIndicator "\"" false false
  endScalar

/-- The marks behind a bar: indentation if the text starts with white space, and what becomes of the
line breaks at its end. -/
private def literalHints (text : List Char) : String :=
  let start := if (text.head?.map fun c => c == ' ' || isBreak c).getD false then "2" else ""
  let finish := match text.reverse with
    | [] => "-"
    | [c] => if isBreak c then "+" else "-"
    | c :: d :: _ => if !isBreak c then "-" else if isBreak d then "+" else ""
  start ++ finish

private def literalLines : Bool → List Char → Writing Unit
  | _, [] => pure ()
  | breaks, c :: rest => do
    if isBreak c then
      putBreak c
      setIndention true
      literalLines true rest
    else
      if breaks then writeIndent
      put c
      setIndention false
      literalLines false rest

private def writeLiteral (text : List Char) : Writing Unit := do
  writeIndicator "|" true false
  putAll (literalHints text).toList
  putBreak '\n'
  modify ({ · with indention := true, whitespace := true })
  literalLines true text

/-- Runs with deeper indentation; `flat` keeps it, and the outermost collection is not indented. -/
private def indented (scalar flat : Bool) (body : Writing Unit) : Writing Unit := do
  let outer := (← get).indent
  let inner := if outer < 0 then if scalar then 2 else 0 else if flat then outer else outer + 2
  modify ({ · with indent := inner })
  body
  modify ({ · with indent := outer })

/-- A text that would be read as something else without quotes. -/
private def needsQuotes (s : Bytes) : Bool :=
  isBaseSixty s || match meaning s with
    | .text => false
    | _ => true

/-- A text in the plainest style that reads back as the same text. -/
private def writeText (simpleKey : Bool) (s : Bytes) : Writing Unit := do
  let text := Utf8.chars s
  let can := look text
  let allowBreaks := !simpleKey
  indented true false <|
    if simpleKey && can.multiline then writeDouble allowBreaks text
    else if text.contains '\n' then
      if can.literal && !simpleKey then writeLiteral text else writeDouble allowBreaks text
    else if needsQuotes s then writeDouble allowBreaks text
    else if can.plain then writePlain allowBreaks text
    else if can.single then writeSingle allowBreaks text
    else writeDouble allowBreaks text

private def writeWord (s : Bytes) : Writing Unit := writePlain false (Utf8.chars s)

private def isSimpleKey : Value → Bool
  | .text s => s.length ≤ 128 && !(Utf8.chars s).any isBreak
  | _ => true

private def writeScalar (simpleKey : Bool) : Value → Writing Unit
  | .null => writeWord "null"
  | .bool b => writeWord (Bytes.ofBool b)
  | .int n => writeWord (Bytes.ofInt n)
  | .float x => writeWord x.shortText
  | .text s => writeText simpleKey s
  | .list _ => writeWord "[]"
  | .map _ => writeWord "\x7b\x7d"

private def writeKey (key : Value) : Writing Unit := do
  if isSimpleKey key then
    writeScalar true key
    writeIndicator ":" false false
  else
    writeIndicator "?" true true
    writeScalar false key
    writeIndent
    writeIndicator ":" true true

mutual

private def writeNode (inMapping : Bool) : Value → Writing Unit
  | .list (item :: items) => do
    let flat := inMapping && !(← get).indention
    indented false flat (writeItems (item :: items))
  | .map (entry :: entries) => indented false false (writeEntries (entry :: entries))
  | v => writeScalar false v

private def writeItems : List Value → Writing Unit
  | [] => pure ()
  | item :: rest => do
    writeIndent
    writeIndicator "-" true true
    writeNode false item
    writeItems rest

private def writeEntries : List (Value × Value) → Writing Unit
  | [] => pure ()
  | entry :: rest => do
    writeEntry entry
    writeEntries rest

private def writeEntry : Value × Value → Writing Unit
  | (key, value) => do
    writeIndent
    writeKey key
    writeNode true value

end

private def entryLess : Value × Value → Value × Value → Bool
  | (.text a, _), (.text b, _) => keyLess a b
  | _, _ => false

mutual

private def sorted : Value → Value
  | .list items => .list (sortedItems items)
  | .map entries => .map ((sortedEntries entries).mergeSort fun a b => !entryLess b a)
  | v => v

private def sortedItems : List Value → List Value
  | [] => []
  | item :: rest => sorted item :: sortedItems rest

private def sortedEntries : List (Value × Value) → List (Value × Value)
  | [] => []
  | entry :: rest => sortedEntry entry :: sortedEntries rest

private def sortedEntry : Value × Value → Value × Value
  | (key, value) => (key, sorted value)

end

def Value.write (v : Value) : Bytes :=
  let (_, w) := (do writeNode false (sorted v); writeIndent : Writing Unit).run
    ⟨[], 0, true, true, -1⟩
  Utf8.encode w.out.reverse

/-- JSON as YAML: its text is read as YAML, which refuses some characters, and written anew. -/
def ofJson? (v : Json) : Option Bytes := (Value.ofBytes (v.write true)).map Value.write

end CommandShell.Yaml
