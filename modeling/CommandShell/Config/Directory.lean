import CommandShell.Config.Document
import CommandShell.Config.Variables
import CommandShell.Storage

/-! Configuration directories: making one, loading one, and the event log it may have. -/
namespace CommandShell.Config

inductive LoadError where
  | storage (failure : StorageFailure)
  | document (e : DocumentError)
  | badVariables (bad : List BadVariable)
  | violations (vs : List Violation)
  deriving DecidableEq, Repr

def LoadError.message : LoadError → Bytes
  | storage failure => failure.message
  | document e => e.message
  | badVariables bad => badVariablesText bad
  | violations vs => violationsText vs

def LoadError.isMissing : LoadError → Bool
  | storage failure => failure.missing
  | _ => false

def fileName : Bytes := "config.yaml"

def finish (env : Environment) (c : Config) : Except LoadError Config :=
  match c.override env with
  | .error bad => .error (.badVariables bad)
  | .ok c => if c.violations.isEmpty then .ok c else .error (.violations c.violations)

/-- The built-in configuration with variables applied. -/
def standard (env : Environment) : Except LoadError Config := finish env builtIn

/-- The directory that a path means: a path of the file itself means the directory it is in. -/
def directoryOf (workingDir path : Bytes) : Bytes :=
  let dir := if Path.base path == fileName then Path.directory path else path
  Path.absolute workingDir dir

variable {σ : Type} (files : Storage σ)

def load (env : Environment) (workingDir path : Bytes) (s : σ) : Except LoadError Config :=
  let dir := directoryOf workingDir path
  match files.read (Path.join [dir, fileName]) s with
  | .error failure => .error (.storage failure)
  | .ok text =>
    match ofBytes text with
    | .error e => .error (.document e)
    | .ok c => finish env { c with directory := dir }

/-- What making a directory reports, and the files afterwards or the failure that stopped it. -/
structure Creation (σ : Type) where
  log : Bytes
  result : Except StorageFailure σ

/-- Makes a configuration directory with the default file; a file that exists is left alone. -/
def create (dir : Bytes) (s : σ) : Creation σ :=
  let start : Bytes := "Initializing " ++ dir ++ "\n"
  let path := Path.join [dir, fileName]
  match files.makeDirectories dir s with
  | .error failure => ⟨start, .error failure⟩
  | .ok s =>
    match files.contains path s with
    | .error failure => ⟨start, .error failure⟩
    | .ok true => ⟨start ++ "- " ++ path ++ " already exists, skipping\n", .ok s⟩
    | .ok false => ⟨start ++ "- Writing " ++ path ++ "\n", files.write path defaultText s⟩

private def noEventLog : StorageFailure := { missing := true, message := "file does not exist" }

/-- Adds a text to the event log, making the directory it is in. -/
def appendEvents (c : Config) (text : Bytes) (s : σ) : Except StorageFailure σ :=
  let path := c.eventLogPath
  if path.isEmpty then .error noEventLog
  else do files.append path text (← files.makeDirectories (Path.directory path) s)

def openEvents (c : Config) (read : Bytes → Except StorageFailure Bytes) :
    Except StorageFailure Bytes :=
  let path := c.eventLogPath
  if path.isEmpty then .error noEventLog else read path

def readEvents (c : Config) (s : σ) : Except StorageFailure Bytes :=
  c.openEvents fun path => files.read path s

end CommandShell.Config
