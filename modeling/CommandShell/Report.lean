import CommandShell.Counter
import CommandShell.Event

/-! Statistics about an event log. -/
namespace CommandShell

/-- Tables that count pairs may not exist yet. -/
structure Report where
  entries : Nat := 0
  invalid : Counter := {}
  sessions : Counter := {}
  lines : Nat := 0
  lineStatuses : Counter := {}
  paths : Counter := {}
  names : Counter := {}
  exitStatuses : Counter := {}
  signaled : Nat := 0
  builtinLines : Counter := {}
  builtinFailures : Nat := 0
  redirectFailures : Option TableCounter := none
  execFailures : Option TableCounter := none
  deriving DecidableEq, Repr

namespace Report

def redirectTable : TableCounter := { columns := ["path", "error"] }

def execTable : TableCounter := { columns := ["command", "error"] }

def empty : Report :=
  { redirectFailures := some redirectTable, execFailures := some execTable }

def countRow (table : TableCounter) (row : List Bytes) : Option TableCounter :=
  some ((table.increment? row).getD table)

def countEvent (r : Report) : Event → Report
  | .inputLine e =>
    { r with lines := r.lines + 1,
             lineStatuses := r.lineStatuses.increment (Bytes.ofInt e.status) }
  | .runCommand e =>
    { r with
        paths := r.paths.increment e.path,
        names := match e.command.getD [] with
          | [] => r.names
          | name :: _ => r.names.increment name }
  | .commandExit e =>
    { r with exitStatuses := r.exitStatuses.increment (Bytes.ofInt e.status),
             signaled := if e.signaled then r.signaled + 1 else r.signaled }
  | .builtin e =>
    { r with builtinLines := r.builtinLines.increment (Bytes.join " " (e.command.getD [])),
             builtinFailures := if e.status = 0 then r.builtinFailures
                                else r.builtinFailures + 1 }
  | .redirectFailure e =>
    { r with redirectFailures :=
               countRow (r.redirectFailures.getD redirectTable) [e.path, e.error] }
  | .execFailure e =>
    { r with execFailures :=
               countRow (r.execFailures.getD execTable) [(e.command.getD []).headD [], e.error] }

/-- Counts one entry. An entry without an event counts as invalid. -/
def update (r : Report) (e : Entry) : Report :=
  let r := { r with
    entries := r.entries + 1,
    sessions := if e.session.isEmpty then r.sessions else r.sessions.increment e.session }
  match e.event? with
  | some event => r.countEvent event
  | none => { r with invalid := r.invalid.increment "<nil>" }

def ofEntries (start : Report) (entries : List Entry) : Report := entries.foldl update start

def table (t : Option TableCounter) : Json := (t.map TableCounter.toJson).getD .null

def layout (r : Report) (redirectFailures execFailures : Json) : Json :=
  .object
    [("log_entries", .nat r.entries),
     ("unknown_log_entries", r.invalid.toJson),
     ("sessions", r.sessions.toJson),
     ("input_report", .object [("lines", .nat r.lines), ("statuses", r.lineStatuses.toJson)]),
     ("run_command_report",
       .object [("resolved_command_paths", r.paths.toJson), ("command_names", r.names.toJson)]),
     ("command_exit_report",
       .object [("statuses", r.exitStatuses.toJson), ("signaled", .nat r.signaled)]),
     ("builtin_report",
       .object [("command_lines", r.builtinLines.toJson), ("failures", .nat r.builtinFailures)]),
     ("redirect_failure_report", .object [("paths", redirectFailures)]),
     ("exec_failure_report", .object [("commands", execFailures)])]

def toJson (r : Report) : Json := r.layout (table r.redirectFailures) (table r.execFailures)

end Report

end CommandShell
