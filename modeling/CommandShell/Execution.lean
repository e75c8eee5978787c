import CommandShell.ChangeDirectory
import CommandShell.Launch
import CommandShell.Search
import CommandShell.Status
import CommandShell.Tree

/-! Running command trees. Each kind of node has a fixed rule for what runs, where the standard
streams lead, and which one status it reports. -/
namespace CommandShell

/-- Where the shell puts its events. -/
inductive Recorder where
  /-- Nothing is recorded. -/
  | silent
  /-- Recording always fails. -/
  | broken
  /-- Events are kept in the world. -/
  | memory
  /-- Events are lines of a file that is open, under the name of a session. -/
  | file (handle : Nat) (session : Bytes)
  deriving DecidableEq, Repr

/-- Records an event; `subject` says in the log what could not be recorded. -/
def Recorder.record (r : Recorder) (subject : Bytes) (e : Event) (w : World) : World :=
  match r with
  | silent => w
  | broken => w.note ("recording " ++ subject ++ ": disk full")
  | memory => { w with events := w.events ++ [e] }
  | file handle session => w.print handle (Entry.ofEvent w.clock session e).line

/-- What stays the same while trees are run. -/
structure Executor where
  name : Bytes
  policy : Policy := .discard
  recorder : Recorder := .memory
  programs : Programs
  /-- Which programs the system has no process for. -/
  shortage : Invocation → Option Launch.Shortage := fun _ => none

structure Running where
  here : Surroundings
  world : World

abbrev Run := StateM Running

/-- The status of a command that ended. A command that was killed has none of its own. -/
def Outcome.status : Outcome → Status
  | exited code => code.toNat
  | killed => Status.unknown

namespace Executor

def defaultName : Bytes := "myshell"

def title (ex : Executor) : Bytes := if ex.name.isEmpty then defaultName else ex.name

def changeWorld (f : World → World) : Run Unit := modify fun s => { s with world := f s.world }

def say (ex : Executor) (streams : Streams) (text : Bytes) : Run Unit :=
  changeWorld (·.print streams.error (ex.title ++ ": " ++ text ++ "\n"))

def record (ex : Executor) (e : Event) : Run Unit :=
  changeWorld (ex.recorder.record "event" e)

inductive Slot where
  | input
  | output
  | error

def Slot.set (slot : Slot) (streams : Streams) (handle : Nat) : Streams :=
  match slot with
  | input => { streams with input := handle }
  | output => { streams with output := handle }
  | error => { streams with error := handle }

/-- A file that takes the place of a standard stream. -/
structure Target where
  slot : Slot
  path : Bytes
  access : Disk.Access
  title : Bytes

/-- The targets that are set, in the order in which they are opened. Two are for the output, and the
later one wins. -/
def targets (files : Redirections) : List Target :=
  let all : List Target := [
    ⟨.input, files.input, .read, "input"⟩,
    ⟨.output, files.output, .replace 0o644, "output"⟩,
    ⟨.output, files.append, .extend 0o644, "output"⟩,
    ⟨.error, files.error, .replace 0o644, "error"⟩]
  all.filter (!·.path.isEmpty)

def openPath (access : Disk.Access) (path : Bytes) : Run (Except PathError Nat) :=
  modifyGet fun s =>
    let (result, world) := s.world.openPath access [] path
    (result, { s with world })

def closeAll (handles : List Nat) : Run Unit :=
  changeWorld fun w => handles.foldl World.close w

/-- Opens targets one after the other. The first failure is reported to the streams that there are by
then and closes what was opened before. -/
def openTargets (ex : Executor) (argv : List Bytes) :
    List Target → Streams → List Nat → Run (Option (Streams × List Nat))
  | [], streams, opened => return some (streams, opened)
  | target :: rest, streams, opened => do
    let path := Path.resolve (← get).here.dir target.path
    match ← openPath target.access path with
    | .ok handle =>
      ex.openTargets argv rest (target.slot.set streams handle) (opened ++ [handle])
    | .error e =>
      let reason := "open " ++ path ++ ": " ++ e.message
      ex.say streams ("error opening " ++ target.title ++ " file: " ++ reason)
      ex.record (.redirectFailure
        { command := if argv.isEmpty then none else some argv, path := target.path, error := reason })
      closeAll opened
      return none

/-- Runs something with the targets of a node in place of its streams. -/
def redirected (ex : Executor) (argv : List Bytes) (files : Redirections) (streams : Streams)
    (body : Streams → Run Status) : Run Status := do
  match ← ex.openTargets argv (targets files) streams [] with
  | none => return Status.redirectFailed
  | some (inner, opened) =>
    let status ← body inner
    closeAll opened
    return status

def notStarted (ex : Executor) (streams : Streams) (argv : List Bytes) (subject reason : Bytes)
    (status : Status) : Run Status := do
  ex.say streams (subject ++ ": " ++ reason)
  ex.record (.execFailure { command := some argv, error := reason })
  return status

def execFailed (ex : Executor) (streams : Streams) (argv : List Bytes) (reason : Bytes) :
    Run Status :=
  ex.notStarted streams argv (argv.headD []) reason Status.execFailed

def forkFailed (ex : Executor) (streams : Streams) (argv : List Bytes) (path : Bytes)
    (e : Launch.Shortage) : Run Status :=
  ex.notStarted streams argv "fork" ("fork/exec " ++ path ++ ": " ++ e.message) Status.unknown

/-- Numbers the process of a program and runs it to its end, which it is always told of. -/
def runProgram (ex : Executor) (streams : Streams) (argv : List Bytes) (path dir : Bytes)
    (invocation : Invocation) : Run Status := do
  changeWorld World.begin
  let number := (← get).world.started
  let pid : Int := number
  ex.record (.runCommand { command := some argv, path, dir, pid })
  let outcome ← modifyGet fun (s : Running) =>
    let (outcome, world) := (ex.programs invocation).run streams invocation.dir s.world
    (outcome, { s with world := world.tell (.ended number) })
  let status := outcome.status
  ex.record (.commandExit
    { command := some argv, pid, status, signaled := outcome == .killed })
  return status

/-- Finds a program, starts it and waits for it. -/
def spawn (ex : Executor) (streams : Streams) (argv : List Bytes) : Run Status := do
  let { here, world } ← get
  match Search.lookup world.disk here.env here.dir (argv.headD []) with
  | .error e => ex.execFailed streams argv e.message
  | .ok path =>
    match Launch.prepare world.disk here.dir path argv here.env.listing with
    | .error e => ex.execFailed streams argv e.message
    | .ok invocation =>
      match ex.shortage invocation with
      | some e => ex.forkFailed streams argv path e
      | none => ex.runProgram streams argv path here.dir invocation

/-- Runs a builtin. Redirections do not apply to it. -/
def builtin (ex : Executor) (streams : Streams) (argv : List Bytes) : Builtin → Run Status
  | .cd => do
    let { here, world } ← get
    match ChangeDirectory.run world.disk here argv.tail with
    | .ok (text, here) =>
      modify fun s => { s with here }
      changeWorld (·.print streams.output text)
      ex.record (.builtin { command := some argv })
      return Status.success
    | .error e =>
      ex.say streams (argv.headD [] ++ ": " ++ e.message)
      ex.record (.builtin { command := some argv, status := Status.unknown, error := e.message })
      return Status.unknown

def plain (ex : Executor) (argv : List Bytes) (files : Redirections) (streams : Streams) :
    Run Status := do
  match argv with
  | [] =>
    ex.say streams "empty command"
    return Status.unknown
  | name :: _ =>
    match Builtin.ofName? name with
    | some b => ex.builtin streams argv b
    | none => ex.redirected argv files streams fun inner => ex.spawn inner argv

/-- How far a writer can get ahead of the reader of a pipe. -/
def pipeCapacity : Nat := 65536

structure Piped where
  status : Status
  /-- The bytes that the left side wrote. -/
  written : Nat
  /-- The bytes that the right side did not read. -/
  unread : Nat
  after : Running

/-- Runs the left side of a pipe in surroundings of its own. Its end is closed as soon as it is
done. -/
def leftSide (left : Streams → Run Status) (streams : Streams) (here : Surroundings)
    (ends : World.PipeEnds) (world : World) : World :=
  let (_, s) := (left { streams with output := ends.write }).run { here := here.fork, world }
  (s.world.close ends.write).unbind ends.number

/-- Runs the right side of a pipe in surroundings of its own. -/
def rightSide (right : Streams → Run Status) (streams : Streams) (here : Surroundings)
    (ends : World.PipeEnds) (world : World) : Status × World :=
  let (status, s) := (right { streams with input := ends.read }).run { here := here.fork, world }
  (Status.exitCode status, s.world)

def pipeSides (left right : Streams → Run Status) (streams : Streams) (here : Surroundings)
    (ends : World.PipeEnds) (world : World) : Piped :=
  let waiting (w : World) := (w.available ends.read).length
  let middle := leftSide left streams here ends world
  let (status, last) := rightSide right streams here ends middle
  { status, written := waiting middle, unread := waiting last,
    after := { here, world := (last.close ends.read).dropPipe ends.number } }

/-- Runs the two sides of a pipe whose left side may leave `room` bytes more than are read. -/
def pipeWith (left right : Streams → Run Status) (streams : Streams) (room : Option Nat)
    (s : Running) : Except Running Piped :=
  match s.world.openPipe room with
  | (none, world) => .error { s with world }
  | (some ends, world) => .ok (pipeSides left right streams s.here ends world)

/-- Joins two commands by a pipe. A left side that writes more than the right side reads and the pipe
holds is stopped when the right side has ended. -/
def pipe (ex : Executor) (left right : Streams → Run Status) (streams : Streams) : Run Status := do
  let start ← get
  let free := pipeWith left right streams none start
  let result := match free with
    | .ok p =>
      if p.unread ≤ pipeCapacity then free
      else pipeWith left right streams (some (p.written - p.unread + pipeCapacity)) start
    | .error _ => free
  match result with
  | .ok p =>
    set p.after
    return p.status
  | .error after =>
    set after
    ex.say streams ("pipe: pipe2: " ++ PathError.tooManyFiles.message)
    return Status.unknown

def reportSide (ex : Executor) (streams : Streams) (side : Bytes) (status : Status) :
    Run Unit := do
  if status != Status.success then
    ex.say streams (side ++ " side of sequence exited with status " ++ Bytes.ofInt status)

def execute (ex : Executor) : Tree → Streams → Run Status
  | .absent, streams => do
    ex.say streams "nothing to execute"
    return Status.unknown
  | .node kind argv files left right, streams =>
    match kind with
    | .plain => ex.plain argv files streams
    | .sequence => do
      ex.reportSide streams "left" (← ex.execute left streams)
      let status ← ex.execute right streams
      ex.reportSide streams "right" status
      return status
    | .and => do
      let status ← ex.execute left streams
      if status != Status.success then return status
      ex.execute right streams
    | .or => do
      let status ← ex.execute left streams
      if status == Status.success then return status
      ex.execute right streams
    | .pipe => ex.pipe (ex.execute left) (ex.execute right) streams
    | .subshell =>
      ex.redirected argv files streams fun inner => do
        let status ← ex.execute left inner
        return if ex.policy == .propagate then status else Status.success
    | .unknown _ => do
      ex.say streams ("don't know how to execute a " ++ kind.name ++ " node")
      return Status.unknown

end Executor

end CommandShell
