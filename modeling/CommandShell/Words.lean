import CommandShell.Unicode.Category

/-! Splitting a command text into words: blanks separate, quotes and backslashes group, and no
character is an operator. A word that comes out empty is dropped. -/
namespace CommandShell.Words

inductive SplitError where
  | openQuote
  | danglingEscape
  deriving DecidableEq, Repr

def SplitError.message : SplitError → Bytes
  | .openQuote => "No closing quotation"
  | .danglingEscape => "No escaped character"

def isQuote (c : Char) : Bool := c == '\'' || c == '"'

/-- Where the reader stands: between words, in a word's bare text, in quotes, or after a backslash
met in bare text or in quotes. -/
inductive State where
  | between
  | bare
  | quote (mark : Char)
  | escape (within : Option Char)
  deriving DecidableEq, Repr

/-- A word in progress, its characters reversed; `quoted` once a quoted character was seen. -/
structure Partial where
  state : State
  text : List Char
  quoted : Bool
  deriving DecidableEq, Repr

def Partial.empty : Partial := ⟨.between, [], false⟩

/-- One character: the word in progress afterwards, and the word it ended, if it ended one. -/
def step (p : Partial) (c : Char) : Partial × Option (List Char) :=
  match p.state with
  | .between =>
    if Unicode.isBlank c then (.empty, none)
    else if c = '\\' then (⟨.escape none, p.text, p.quoted⟩, none)
    else if isQuote c then (⟨.quote c, p.text, p.quoted⟩, none)
    else (⟨.bare, [c], p.quoted⟩, none)
  | .quote mark =>
    if c = mark then (⟨.bare, p.text, true⟩, none)
    else if c = '\\' ∧ mark = '"' then (⟨.escape (some mark), p.text, true⟩, none)
    else (⟨.quote mark, c :: p.text, true⟩, none)
  | .escape (some mark) =>
    let kept := if c ≠ '\\' ∧ c ≠ mark then '\\' :: p.text else p.text
    (⟨.quote mark, c :: kept, p.quoted⟩, none)
  | .escape none => (⟨.bare, c :: p.text, p.quoted⟩, none)
  | .bare =>
    if Unicode.isBlank c then
      if !p.text.isEmpty || p.quoted then (.empty, some p.text) else (p, none)
    else if isQuote c then (⟨.quote c, p.text, p.quoted⟩, none)
    else if c = '\\' then (⟨.escape none, p.text, p.quoted⟩, none)
    else (⟨.bare, c :: p.text, p.quoted⟩, none)

def finish (p : Partial) : Except SplitError (List Char) :=
  match p.state with
  | .quote _ => .error .openQuote
  | .escape _ => .error .danglingEscape
  | _ => .ok p.text

def keep (text : List Char) (rest : List Bytes) : List Bytes :=
  if text.isEmpty then rest else Utf8.encode text.reverse :: rest

def go (p : Partial) : List Char → Except SplitError (List Bytes)
  | [] => (finish p).map fun text => keep text []
  | c :: rest =>
    match step p c with
    | (p', none) => go p' rest
    | (p', some text) => (go p' rest).map (keep text)

/-- The words of a text; a stray byte reads as the replacement character. -/
def split (s : Bytes) : Except SplitError (List Bytes) := go .empty (Utf8.chars s)

end CommandShell.Words
