import CommandShell.Bytes.Quoted
import CommandShell.Config
import CommandShell.Environment

/-! Environment variables that override settings. A variable that is empty counts as not set. -/
namespace CommandShell.Config

inductive BadVariable where
  | truth (field value : Bytes)
  /-- A part of the alias list that has no colon. -/
  | definition (part : Bytes)
  deriving DecidableEq, Repr

def parseError (field type reason : Bytes) : Bytes :=
  "parse error on field \"" ++ field ++ "\" of type \"" ++ type ++ "\": " ++ reason

def BadVariable.message : BadVariable → Bytes
  | truth field value =>
    parseError field "bool"
      ("strconv.ParseBool: parsing " ++ Bytes.quoted value ++ ": invalid syntax")
  | definition part =>
    parseError "Aliases" "map[string]string"
      (Bytes.quoted part ++ " should be in \"key:value\" format")

def badVariablesText (bad : List BadVariable) : Bytes :=
  "env: " ++ Bytes.join "; " (bad.map BadVariable.message)

def truth? (s : Bytes) : Option Bool :=
  if (["1", "t", "T", "TRUE", "true", "True"] : List Bytes).contains s then some true
  else if (["0", "f", "F", "FALSE", "false", "False"] : List Bytes).contains s then some false
  else none

/-- A list of definitions: names and texts with a colon between them, divided by commas. -/
def parseDefinitions : List Bytes → Except BadVariable (List (Bytes × Bytes))
  | parts => parts.foldlM (fun defs part =>
    match Bytes.cut 58 part with
    | some (name, text) => .ok (define name text defs)
    | none => .error (.definition part)) []

/-- The variable that overrides a setting. -/
def setting (env : Environment) (name : Bytes) : Bytes := env.get ("MYSHELL_" ++ name)

def text (env : Environment) (name old : Bytes) : Bytes :=
  let value := setting env name
  if value.isEmpty then old else value

def truth (env : Environment) (name field : Bytes) (old : Bool) : Except BadVariable Bool :=
  let value := setting env name
  if value.isEmpty then .ok old
  else match truth? value with
    | some b => .ok b
    | none => .error (.truth field value)

def aliasList (env : Environment) (old : Option (List (Bytes × Bytes))) :
    Except BadVariable (Option (List (Bytes × Bytes))) :=
  let value := setting env "ALIASES"
  if value.isEmpty then .ok old else (parseDefinitions (Bytes.splitOn 44 value)).map some

def bad? {α : Type} : Except BadVariable α → List BadVariable
  | .error e => [e]
  | .ok _ => []

/-- Overrides settings by variables, or lists every variable that does not fit. -/
def override (env : Environment) (c : Config) : Except (List BadVariable) Config :=
  let color := truth env "COLOR_PROMPT" "ColorPrompt" c.colorPrompt
  let banner := truth env "BANNER" "Banner" c.banner
  let aliases := aliasList env c.aliases
  match color, banner, aliases with
  | .ok color, .ok banner, .ok aliases =>
    .ok { c with
          name := text env "NAME" c.name
          prompt := text env "PROMPT" c.prompt
          colorPrompt := color
          banner := banner
          historyFile := text env "HISTORY_FILE" c.historyFile
          eventLog := text env "EVENT_LOG" c.eventLog
          subshellStatus := text env "SUBSHELL_STATUS" c.subshellStatus
          aliases := aliases }
  | color, banner, aliases => .error (bad? color ++ bad? banner ++ bad? aliases)

end CommandShell.Config
