import CommandShell.Event
import CommandShell.Json.Decode
import CommandShell.Json.Reader

/-! Reading an event log. Entries follow one another with or without white space between them, and
what was read before an error stays read. -/
namespace CommandShell

namespace Entry

/-- A value of the wrong type: what it is, the field it was meant for, none if it was to be the entry
itself, and the type of that field. -/
structure Wrong where
  found : Bytes
  field : Bytes
  type : Bytes
  deriving DecidableEq, Repr

def Wrong.message (w : Wrong) : Bytes :=
  let place : Bytes := if w.field.isEmpty then "value" else "struct field " ++ w.field
  "json: cannot unmarshal " ++ w.found ++ " into Go " ++ place ++ " of type " ++ w.type

def kindName : Json → Bytes
  | .null => "null"
  | .bool _ => "bool"
  | .number _ => "number"
  | .string _ => "string"
  | .array _ => "array"
  | .object _ => "object"

def wrong (field type : Bytes) (v : Json) : Wrong := { found := kindName v, field, type }

/-- A number that is no integer is shown. -/
def wrongInteger (field type : Bytes) (v : Json) : Wrong :=
  match v with
  | .number s => { found := "number " ++ s, field, type }
  | v => wrong field type v

def text (field : Bytes) := Json.text (wrong field "string")

def integer (field : Bytes) := Json.integer (wrongInteger field "int")

def texts (field : Bytes) := Json.texts (wrong field "[]string") (wrong field "string")

def truth (field : Bytes) := Json.truth (wrong field "bool")

def ignore (_ : Bytes) : Json.Decode Wrong Unit := pure ()

def record {α : Type} (field type : Bytes) (fields : List (Bytes × Json.Into Wrong α)) :
    Json.Into Wrong α :=
  Json.record fields ignore (wrong field type)

def readInputLine : Json.Into Wrong InputLine :=
  let within (name : Bytes) := "InputLine.input_line." ++ name
  record "LogEntry.input_line" "logger.InputLine"
    [("line", fun v e => do return { e with line := ← text (within "line") v e.line }),
     ("status", fun v e => do return { e with status := ← integer (within "status") v e.status })]

def readRunCommand : Json.Into Wrong RunCommand :=
  let within (name : Bytes) := "RunCommand.run_command." ++ name
  record "LogEntry.run_command" "logger.RunCommand"
    [("command", fun v e => do return { e with command := ← texts (within "command") v e.command }),
     ("resolved_command_path", fun v e => do
       return { e with path := ← text (within "resolved_command_path") v e.path }),
     ("dir", fun v e => do return { e with dir := ← text (within "dir") v e.dir }),
     ("pid", fun v e => do return { e with pid := ← integer (within "pid") v e.pid })]

def readCommandExit : Json.Into Wrong CommandExit :=
  let within (name : Bytes) := "CommandExit.command_exit." ++ name
  record "LogEntry.command_exit" "logger.CommandExit"
    [("command", fun v e => do return { e with command := ← texts (within "command") v e.command }),
     ("pid", fun v e => do return { e with pid := ← integer (within "pid") v e.pid }),
     ("status", fun v e => do return { e with status := ← integer (within "status") v e.status }),
     ("signaled", fun v e => do
       return { e with signaled := ← truth (within "signaled") v e.signaled })]

def readBuiltin : Json.Into Wrong BuiltinRun :=
  let within (name : Bytes) := "Builtin.builtin." ++ name
  record "LogEntry.builtin" "logger.Builtin"
    [("command", fun v e => do return { e with command := ← texts (within "command") v e.command }),
     ("status", fun v e => do return { e with status := ← integer (within "status") v e.status }),
     ("error", fun v e => do return { e with error := ← text (within "error") v e.error })]

def readRedirectFailure : Json.Into Wrong RedirectFailure :=
  let within (name : Bytes) := "RedirectFailure.redirect_failure." ++ name
  record "LogEntry.redirect_failure" "logger.RedirectFailure"
    [("command", fun v e => do return { e with command := ← texts (within "command") v e.command }),
     ("path", fun v e => do return { e with path := ← text (within "path") v e.path }),
     ("error", fun v e => do return { e with error := ← text (within "error") v e.error })]

def readExecFailure : Json.Into Wrong ExecFailure :=
  let within (name : Bytes) := "ExecFailure.exec_failure." ++ name
  record "LogEntry.exec_failure" "logger.ExecFailure"
    [("command", fun v e => do return { e with command := ← texts (within "command") v e.command }),
     ("error", fun v e => do return { e with error := ← text (within "error") v e.error })]

def readEntry : Json.Into Wrong Entry :=
  record [] "logger.LogEntry"
    [("timestamp_micros", fun v e => do
       let wrong := wrongInteger "LogEntry.timestamp_micros" "int64"
       return { e with time := ← Json.integer wrong v e.time }),
     ("session_id", fun v e => do
       return { e with session := ← text "LogEntry.session_id" v e.session }),
     ("input_line", fun v e => do
       return { e with inputLine := ← Json.pointer {} readInputLine v e.inputLine }),
     ("run_command", fun v e => do
       return { e with runCommand := ← Json.pointer {} readRunCommand v e.runCommand }),
     ("command_exit", fun v e => do
       return { e with commandExit := ← Json.pointer {} readCommandExit v e.commandExit }),
     ("builtin", fun v e => do
       return { e with builtin := ← Json.pointer {} readBuiltin v e.builtin }),
     ("redirect_failure", fun v e => do
       return { e with redirectFailure :=
         ← Json.pointer {} readRedirectFailure v e.redirectFailure }),
     ("exec_failure", fun v e => do
       return { e with execFailure := ← Json.pointer {} readExecFailure v e.execFailure })]

/-- The entry a value stands for; null is an entry with nothing set. -/
def ofJson (v : Json) : Except Wrong Entry := (readEntry v {}).result

end Entry

namespace Log

inductive Failure where
  | malformed (e : Json.ReadError)
  | wrongType (e : Entry.Wrong)
  deriving DecidableEq, Repr

def Failure.message : Failure → Bytes
  | malformed e => e.message
  | wrongType e => e.message

/-- What was read of a log, and what stopped the reading. -/
structure Contents where
  entries : List Entry
  failure : Option Failure
  deriving DecidableEq, Repr

def Contents.cons (e : Entry) (c : Contents) : Contents := ⟨e :: c.entries, c.failure⟩

def go : Nat → Bytes → Contents
  | 0, _ => ⟨[], none⟩
  | n + 1, s =>
    match s.dropWhile Json.isSpace with
    | [] => ⟨[], none⟩
    | b :: rest =>
      if b = 93 || b = 125 then ⟨[], none⟩
      else
        match Json.readFirst (b :: rest) with
        | .error e => ⟨[], some (.malformed e)⟩
        | .ok (v, rest) =>
          match Entry.ofJson v with
          | .error e => ⟨[], some (.wrongType e)⟩
          | .ok e => (go n rest).cons e

/-- Reads entries up to the end, an error, or a closing bracket between entries. -/
def read (s : Bytes) : Contents := go (s.length + 1) s

def write (entries : List Entry) : Bytes := entries.flatMap Entry.line

end Log

end CommandShell
