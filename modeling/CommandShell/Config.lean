import CommandShell.Json
import CommandShell.Path
import CommandShell.Status

/-! The configuration of the shell and the rules it has to keep. -/
namespace CommandShell

/-- The settings with the directory they were loaded from, which is empty for the built-in ones.
Alias definitions are sorted by name and may be absent. -/
structure Config where
  name : Bytes := []
  prompt : Bytes := []
  colorPrompt : Bool := false
  banner : Bool := false
  historyFile : Bytes := []
  eventLog : Bytes := []
  subshellStatus : Bytes := []
  aliases : Option (List (Bytes × Bytes)) := none
  directory : Bytes := []
  deriving DecidableEq, Repr

namespace Config

/-- Adds a definition or replaces the one with that name, keeping the order of names. -/
def define (name text : Bytes) : List (Bytes × Bytes) → List (Bytes × Bytes)
  | [] => [(name, text)]
  | (other, old) :: rest =>
    if name == other then (name, text) :: rest
    else if Bytes.le name other then (name, text) :: (other, old) :: rest
    else (other, old) :: define name text rest

def definitions (c : Config) : List (Bytes × Bytes) := c.aliases.getD []

def policy? (c : Config) : Option Policy := Policy.ofName? c.subshellStatus

/-- Where a file of the configuration is. Relative names need a directory. -/
def locate (c : Config) (name : Bytes) : Bytes :=
  if name.isEmpty then []
  else if Path.isAbsolute name then name
  else if c.directory.isEmpty then []
  else Path.join [c.directory, name]

/-- The file that keeps the history, empty if there is none. -/
def historyPath (c : Config) : Bytes := c.locate c.historyFile

/-- The file that keeps the events, empty if there is none. -/
def eventLogPath (c : Config) : Bytes := c.locate c.eventLog

def toJson (c : Config) : Json :=
  let aliases := match c.aliases with
    | none => Json.null
    | some entries => .object (entries.map fun (name, text) => (name, .string text))
  .object [("name", .string c.name), ("prompt", .string c.prompt),
    ("color_prompt", .bool c.colorPrompt), ("banner", .bool c.banner),
    ("history_file", .string c.historyFile), ("event_log", .string c.eventLog),
    ("subshell_status", .string c.subshellStatus), ("aliases", aliases)]

inductive Rule where
  /-- It must not be empty. -/
  | required
  /-- It must not contain certain characters. -/
  | excludesAll
  /-- It must be one of several words. -/
  | oneOf
  deriving DecidableEq, Repr

def Rule.name : Rule → Bytes
  | required => "required"
  | excludesAll => "excludesall"
  | oneOf => "oneof"

structure Violation where
  field : Bytes
  rule : Rule
  deriving DecidableEq, Repr

def Violation.message (v : Violation) : Bytes :=
  "Key: 'Configuration." ++ v.field ++ "' Error:Field validation for '" ++ v.field ++
    "' failed on the '" ++ v.rule.name ++ "' tag"

def required (field text : Bytes) : List Violation :=
  if text.isEmpty then [⟨field, .required⟩] else []

def checkName (c : Config) : List Violation :=
  if c.name.isEmpty then [⟨"name", .required⟩]
  else if c.name.contains 47 then [⟨"name", .excludesAll⟩]
  else []

def checkPolicy (c : Config) : List Violation :=
  if c.subshellStatus == "discard" || c.subshellStatus == "propagate" then []
  else [⟨"subshell_status", .oneOf⟩]

def checkAlias (entry : Bytes × Bytes) : List Violation :=
  let field : Bytes := "aliases[" ++ entry.1 ++ "]"
  required field entry.1 ++ required field entry.2

def violations (c : Config) : List Violation :=
  c.checkName ++ c.checkPolicy ++ c.definitions.flatMap checkAlias

/-- One line for each violation, in the order of the lines. -/
def violationsText (vs : List Violation) : Bytes :=
  Bytes.join "\n" (Bytes.sort (vs.map Violation.message))

end Config

end CommandShell
