import CommandShell.Grammar.Word

/-! Redirections and the here-documents they announce. -/
namespace CommandShell.Grammar

open Reading

structure Redirection where
  place : Position
  number : Option Bytes
  op : Bytes
  target : List Part

/-- Only input from a file, output to a file, and errors to a file can be redirected. -/
def Redirection.fault? (d : Redirection) : Option Fault :=
  let supported : List (Bytes × Bytes) := [("<", "0"), (">", "1"), (">>", "1"), (">", "2")]
  let number := d.number.getD (if d.op = ("<" : Bytes) then "0" else "1")
  (wordFault? d.target).or <|
    if (wordText d.target).isEmpty then some (.unsupported d.place "empty redirection targets")
    else if supported.contains (d.op, number) then none
    else some (.unsupported d.place ("the " ++ d.number.getD [] ++ d.op ++ " redirection"))

private def redirectionOps : List String :=
  [">", ">>", "<", "<&", ">&", ">|", "<>", "<<", "<<-", "<<<", "&>", "&>>"]

def atRedirection : Reading Bool := do
  match (← get).token with
  | .litRedir => return true
  | .op text => return redirectionOps.contains text
  | _ => return false

/-- The text that ends a here-document: the parts of its word without quotes and backslashes, and
whether the last of them was quoted, which makes the body plain text. -/
private def hereStop (parts : List Part) : Bytes × Bool :=
  parts.foldl (fun (text, _) part =>
    match part with
    | .lit raw => (text ++ bare raw, raw.contains 92)
    | .single inner => (text ++ inner, true)
    | .double inner => (text ++ inner.flatMap fun
      | .inl raw => raw
      | .inr _ => [], true)
    | .expansion .. => (text, false)) ([], false)
where
  bare : Bytes → Bytes
    | [] => []
    | [b] => if b = 92 then [] else [b]
    | b :: c :: s => if b = 92 then c :: bare s else b :: bare (c :: s)

namespace Solver

variable (r : Solver)

/-- One line of a plain body, up to its newline. -/
private def plainLine : Reading Unit := repeated do
  match ← current with
  | .eof | .char '\n' => return false
  | .char '`' => if ← ticksClose then return false else discard advance; return true
  | .joint => collect "\\\n"; return false
  | .char _ => discard advance; return true

/-- A body without expansions: lines until one is the end. -/
private def plainBody (stop : Bytes) (stripTabs : Bool) : Reading Unit := do
  beginLit
  repeated do
    if (← current) = .eof then return false
    if stripTabs then
      repeated do
        if ← sees '\t' then discard advance; return true else return false
    let start := ((← get).collected.getD []).length
    plainLine
    if start = 0 then
      discard advance
      return true
    let s ← get
    let line := ((s.collected.getD []).reverse).drop (start - 1)
    let line := if s.current ≠ .eof && !line.isEmpty then line.dropLast else line
    if line = stop then
      set { s with stops := none :: s.stops.drop 1, collected := none }
      return false
    discard advance
    return true

/-- The bodies of the here-documents announced since the enclosing construct began. -/
def heredocs : Reading Unit := do
  let s ← get
  let due := s.pending.drop s.buried
  if !due.isEmpty then
    discard advance
    modify ({ · with pending := s.pending.take s.buried })
    go true due
    setContext s.context
where
  go (first : Bool) : List Heredoc → Reading Unit
    | [] => pure ()
    | doc :: rest => do
      setContext (.hereBody doc.stripTabs)
      let (stop, quoted) := hereStop doc.word
      modify fun s => { s with stops := some stop :: s.stops }
      if !first then
        if ← sees '\n' then discard advance
      if quoted then plainBody stop doc.stripTabs
      else
        r.next
        discard r.word
      if (← get).stops.head?.join.isSome then
        failAt doc.place ("unclosed here-document '" ++ stop ++ "'")
      modify fun s => { s with stops := s.stops.drop 1 }
      go false rest

private def target (place : Position) (op : Bytes) : Reading (List Part) := do
  match ← r.word with
  | some parts => return parts
  | none => mustFollow place op "a word"

def redirection : Reading Redirection := do
  let number ← r.literal
  match number with
  | some (place, 123 :: _) => foreign place "\x7bvarname\x7d redirects" ["bash"]
  | _ => pure ()
  let s ← get
  if s.token = .op "&>" || s.token = .op "&>>" then
    foreign s.place "&> redirects" ["bash", "mksh"]
  let op := s.token.text
  let place := match number with
    | some (place, _) => place
    | none => s.place
  r.next
  let target ←
    if s.token = .op "<<" || s.token = .op "<<-" then do
      let outer := (← get).context
      modify ({ · with context := .hereWord, inHereWord := true })
      let word ← r.target s.place op
      let doc : Heredoc := ⟨place, word, s.token = .op "<<-"⟩
      modify fun t =>
        { t with context := outer, inHereWord := false, pending := t.pending ++ [doc] }
      if (← get).token = .newline then r.solve .heredocs
      pure word
    else do
      if s.token = .op "<<<" then foreign s.place "herestrings" ["bash", "mksh"]
      r.target s.place op
  return ⟨place, number.map Prod.snd, op, target⟩

end Solver

end CommandShell.Grammar
