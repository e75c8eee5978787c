import CommandShell.Json

/-! Events the shell records, and the entries of its event log. -/
namespace CommandShell

/-- A line of input with the status of what it ran. -/
structure InputLine where
  line : Bytes := []
  status : Int := 0
  deriving DecidableEq, Repr

/-- A program was started. A list of words may be absent, as in a log written by someone else. -/
structure RunCommand where
  command : Option (List Bytes) := none
  path : Bytes := []
  dir : Bytes := []
  pid : Int := 0
  deriving DecidableEq, Repr

structure CommandExit where
  command : Option (List Bytes) := none
  pid : Int := 0
  status : Int := 0
  signaled : Bool := false
  deriving DecidableEq, Repr

structure BuiltinRun where
  command : Option (List Bytes) := none
  status : Int := 0
  error : Bytes := []
  deriving DecidableEq, Repr

structure RedirectFailure where
  command : Option (List Bytes) := none
  path : Bytes := []
  error : Bytes := []
  deriving DecidableEq, Repr

structure ExecFailure where
  command : Option (List Bytes) := none
  error : Bytes := []
  deriving DecidableEq, Repr

inductive Event where
  | inputLine (e : InputLine)
  | runCommand (e : RunCommand)
  | commandExit (e : CommandExit)
  | builtin (e : BuiltinRun)
  | redirectFailure (e : RedirectFailure)
  | execFailure (e : ExecFailure)
  deriving DecidableEq, Repr

/-- An entry of the log. It is meant to hold one event and may hold any number. -/
structure Entry where
  time : Int := 0
  session : Bytes := []
  inputLine : Option InputLine := none
  runCommand : Option RunCommand := none
  commandExit : Option CommandExit := none
  builtin : Option BuiltinRun := none
  redirectFailure : Option RedirectFailure := none
  execFailure : Option ExecFailure := none
  deriving DecidableEq, Repr

namespace Entry

def event? (e : Entry) : Option Event :=
  (e.inputLine.map .inputLine).or <| (e.runCommand.map .runCommand).or <|
  (e.commandExit.map .commandExit).or <| (e.builtin.map .builtin).or <|
  (e.redirectFailure.map .redirectFailure).or (e.execFailure.map .execFailure)

def ofEvent (time : Int) (session : Bytes) : Event → Entry
  | .inputLine e => { time, session, inputLine := some e }
  | .runCommand e => { time, session, runCommand := some e }
  | .commandExit e => { time, session, commandExit := some e }
  | .builtin e => { time, session, builtin := some e }
  | .redirectFailure e => { time, session, redirectFailure := some e }
  | .execFailure e => { time, session, execFailure := some e }

end Entry

/-- The words of a command; null if it has none. -/
def Json.words (command : Option (List Bytes)) : Json :=
  (command.map Json.strings).getD .null

def InputLine.toJson (e : InputLine) : Json :=
  .object [("line", .string e.line), ("status", .int e.status)]

def RunCommand.toJson (e : RunCommand) : Json :=
  .object [("command", Json.words e.command), ("resolved_command_path", .string e.path),
    ("dir", .string e.dir), ("pid", .int e.pid)]

def CommandExit.toJson (e : CommandExit) : Json :=
  .object (("command", Json.words e.command) :: ("pid", .int e.pid) :: ("status", .int e.status) ::
    Json.fieldIf e.signaled "signaled" (.bool true))

def BuiltinRun.toJson (e : BuiltinRun) : Json :=
  .object (("command", Json.words e.command) :: ("status", .int e.status) ::
    Json.optional "error" e.error)

def RedirectFailure.toJson (e : RedirectFailure) : Json :=
  let target : List (Bytes × Json) := [("path", .string e.path), ("error", .string e.error)]
  .object (Json.fieldIf (!(e.command.getD []).isEmpty) "command" (Json.words e.command) ++ target)

def ExecFailure.toJson (e : ExecFailure) : Json :=
  .object [("command", Json.words e.command), ("error", .string e.error)]

def Entry.payload {α : Type} (name : Bytes) (toJson : α → Json) (e : Option α) :
    List (Bytes × Json) :=
  match e with
  | none => []
  | some e => [(name, toJson e)]

namespace Entry

def payloads (e : Entry) : List (Bytes × Json) :=
  payload "input_line" InputLine.toJson e.inputLine ++
  payload "run_command" RunCommand.toJson e.runCommand ++
  payload "command_exit" CommandExit.toJson e.commandExit ++
  payload "builtin" BuiltinRun.toJson e.builtin ++
  payload "redirect_failure" RedirectFailure.toJson e.redirectFailure ++
  payload "exec_failure" ExecFailure.toJson e.execFailure

def toJson (e : Entry) : Json :=
  .object (("timestamp_micros", .int e.time) ::
    (Json.optional "session_id" e.session ++ e.payloads))

def line (e : Entry) : Bytes := e.toJson.write true ++ "\n"

end Entry

end CommandShell
