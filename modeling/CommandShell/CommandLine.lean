import CommandShell.CommandLine.Arguments
import CommandShell.Config.Directory
import CommandShell.Disk.Storage
import CommandShell.Event.Log
import CommandShell.Report
import CommandShell.Session
import CommandShell.Tree.Json
import CommandShell.Tree.OneLine
import CommandShell.Yaml.Writer

/-! The command line: showing trees and builtins, making a configuration, reporting on the event log,
and running the shell itself. -/
namespace CommandShell.CommandLine

/-- What a run of the program finds when it starts. -/
structure Host where
  env : Environment
  dir : Bytes
  place : Place
  streams : Streams
  programs : Programs
  /-- The name under which events are recorded. -/
  session : Bytes
  /-- How many lines of the standard input are read at most. -/
  lines : Nat

/-- What a run prints itself, and how it ends. -/
structure Result where
  output : Bytes := []
  notices : Bytes := []
  exit : Status := Status.success
  error : Option Bytes := none
  world : World

namespace Host

def failed (w : World) (error : Bytes) : Result :=
  { exit := 1, error := some error, world := w }

private def configDir (host : Host) (o : Options) : Bytes :=
  let home := host.env.get "HOME"
  if !o.config.isEmpty then o.config
  else if home.isEmpty then "."
  else Path.join [home, ".myshell"]

/-- Loads the configuration. One that was not asked for may be missing. -/
def loadConfig (host : Host) (o : Options) (w : World) :
    Except Config.LoadError Config × World :=
  match Config.load (Disk.storage host.place) host.env host.dir (host.configDir o) w.disk with
  | .ok c => (.ok c, w)
  | .error e =>
    if !e.isMissing then (.error e, w)
    else if o.config.isEmpty then (Config.standard host.env, w)
    else (.error e, w.note "Couldn't load config: did you run init?")

private def showTree (o : Options) (line : Bytes) (w : World) : Result :=
  match Line.parse line with
  | .error fault => failed w fault.message
  | .ok .absent => { world := w }
  | .ok tree =>
    if o.oneLine then { output := tree.oneLine ++ "\n", world := w }
    else match Yaml.ofJson? tree.toJson with
      | some text => { output := text, world := w }
      | none =>
        failed w "error converting JSON to YAML: yaml: control characters are not allowed"

private def showBuiltins (w : World) : Result :=
  { output := Builtin.names.flatMap (· ++ [10]), world := w }

private def makeConfig (host : Host) (o : Options) (w : World) : Result :=
  let made := Config.create (Disk.storage host.place) (host.configDir o) w.disk
  match made.result with
  | .ok disk => { notices := made.log, world := { w with disk } }
  | .error e => { failed w e.message with notices := made.log }

private def reportOn (text : Bytes) (w : World) : Result :=
  let contents := Log.read text
  match contents.failure, Yaml.ofJson? (Report.ofEntries .empty contents.entries).toJson with
  | some e, _ => failed w e.message
  | none, some text => { output := text ++ "\n", world := w }
  | none, none => failed w "error converting JSON to YAML: yaml: control characters are not allowed"

/-- Summarizes an event log, the configured one if no file is given. -/
private def report (host : Host) (o : Options) (words : List Bytes) (w : World) : Result :=
  match words with
  | path :: _ =>
    match w.disk.readOpen host.place path with
    | .ok text => reportOn text w
    | .error e => failed w e.message
  | [] =>
    match host.loadConfig o w with
    | (.error e, w) => failed w e.message
    | (.ok c, w) =>
      match c.openEvents (w.disk.readOpen host.place) with
      | .ok text => reportOn text w
      | .error e => failed w e.message

/-- Opens the event log of a configuration, if it has one. -/
def openRecorder (host : Host) (c : Config) (w : World) :
    Except Bytes Recorder × World :=
  let path := c.eventLogPath
  if path.isEmpty then (.ok .silent, w)
  else match (Disk.storage host.place).makeDirectories (Path.directory path) w.disk with
    | .error e => (.error e.message, w)
    | .ok disk =>
      match { w with disk }.openPath (.extend 0o600) host.place path with
      | (.error e, w) => (.error ("open " ++ path ++ ": " ++ e.message), w)
      | (.ok handle, w) => (.ok (.file handle host.session), w)

def closeRecorder (r : Recorder) (w : World) : World :=
  match r with
  | .file handle _ => w.close handle
  | _ => w

def opening (host : Host) (w : World) : Session.State :=
  { running := { here := .start host.dir [] host.env, world := w } }

def runSession (host : Host) (o : Options) (s : Session) (w : World) : Status × World :=
  match o.command with
  | some line =>
    let after := s.runLine line (host.opening w)
    (after.last, after.running.world)
  | none =>
    let (status, after) := s.runInput host.lines (host.opening w)
    (status, after.running.world)

theorem runSession_command {o : Options} {line : Bytes} (h : o.command = some line) (host : Host)
    (s : Session) (w : World) : (host.runSession o s w).1 = (s.runLine line (host.opening w)).last := by
  rw [runSession, h]

theorem runSession_input {o : Options} (h : o.command = none) (host : Host) (s : Session) (w : World) :
    (host.runSession o s w).1 = (s.runInput host.lines (host.opening w)).1 := by
  rw [runSession, h]

/-- Runs the shell itself and ends with the status of its last line. -/
def runShell (host : Host) (o : Options) (w : World) : Result :=
  match host.loadConfig o w with
  | (.error e, w) => failed w e.message
  | (.ok c, w) =>
    match host.openRecorder c w with
    | (.error e, w) => failed w e
    | (.ok recorder, w) =>
      match Session.make c recorder host.programs host.streams with
      | .error e => failed (closeRecorder recorder w) e.message
      | .ok session =>
        let (status, w) := host.runSession o session w
        { exit := Status.exitCode status, world := closeRecorder recorder w }

def perform (host : Host) (call : Call) (w : World) : Result :=
  if call.wantsHelp then { world := w }
  else match call.command with
    | .shell => host.runShell call.options w
    | .create => host.makeConfig call.options w
    | .tree => showTree call.options (call.words.headD []) w
    | .builtins => showBuiltins w
    | .report => host.report call.options call.words w
    | .logs => { world := w }

def run (host : Host) (args : List Bytes) (w : World) : Except ArgumentError Result :=
  (parse args).map fun call => host.perform call w

end Host

end CommandShell.CommandLine
