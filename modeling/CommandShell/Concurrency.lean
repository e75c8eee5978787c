import CommandShell.Execution

/-! Running command trees with both sides of every pipe at the same time. What a part of the shell can
do is given by the moves it makes. Others may make theirs between any two of them, so that a move finds
a world that need not be the one the move before it left. -/
namespace CommandShell

inductive Side where
  | left
  | right
  deriving DecidableEq, Repr

/-- A node of a tree, by the sides that lead to it from the root. -/
abbrev TreePosition := List Side

/-- Something that happened, and the node that it happened for. -/
structure News where
  position : TreePosition := []
  happening : Happening
  deriving DecidableEq, Repr

/-- One thing that is done to the world with nothing else in between. `choice` is what was up to the
system. -/
structure Move where
  position : TreePosition
  choice : Nat
  before : World
  after : World
  news : List News

def News.within (side : Side) (n : News) : News := { n with position := side :: n.position }

def Move.within (side : Side) (m : Move) : Move :=
  { m with position := side :: m.position, news := m.news.map (News.within side) }

/-- A sequence of what two sides do, each in its own order. -/
inductive Interleaving {α : Type} : List α → List α → List α → Prop where
  | nil : Interleaving [] [] []
  | left {xs ys zs : List α} (x : α) (h : Interleaving xs ys zs) : Interleaving (x :: xs) ys (x :: zs)
  | right {xs ys zs : List α} (y : α) (h : Interleaving xs ys zs) : Interleaving xs (y :: ys) (y :: zs)

/-- What can come of something that is done in some surroundings: the moves that it makes, its result,
and the surroundings afterwards. -/
def Behaviour (α : Type) : Type := Surroundings → List Move → α → Surroundings → Prop

instance : Monad Behaviour where
  pure a := fun here moves b there => moves = [] ∧ b = a ∧ there = here
  bind x f := fun here moves b there =>
    ∃ first a middle rest, x here first a middle ∧ f a middle rest b there ∧ moves = first ++ rest

structure Step (α : Type) where
  result : α
  world : World
  news : List News := []

namespace Behaviour
variable {α β : Type}

def step (f : Nat → World → Step α) : Behaviour α := fun here moves a there =>
  ∃ choice before, let s := f choice before
    moves = [⟨[], choice, before, s.world, s.news⟩] ∧ a = s.result ∧ there = here

def look (f : World → α) : Behaviour α := step fun _ w => { result := f w, world := w }

def change (f : World → α × World) : Behaviour α :=
  step fun _ w => { result := (f w).1, world := (f w).2 }

/-- Something that is up to the system. -/
def choose : Behaviour Nat := step fun choice w => { result := choice, world := w }

def surroundings : Behaviour Surroundings := fun here moves a there =>
  moves = [] ∧ a = here ∧ there = here

def enter (place : Surroundings) : Behaviour Unit := fun _ moves _ there =>
  moves = [] ∧ there = place

/-- What is done for one side of a node. -/
def within (side : Side) (x : Behaviour α) : Behaviour α := fun here moves a there =>
  ∃ inner, x here inner a there ∧ moves = inner.map (Move.within side)

/-- Two things at the same time, each in surroundings of its own. -/
def both (x : Behaviour α) (y : Behaviour β) : Behaviour (α × β) := fun here moves c there =>
  there = here ∧ ∃ left right, (∃ place, within .left x here.fork left c.1 place) ∧
    (∃ place, within .right y here.fork right c.2 place) ∧ Interleaving left right moves

/-! Reading and writing. Neither needs to be done at once. -/

/-- Reads some of what there is. `got` was read before. -/
def readSome (h : Nat) (amount : Bytes → Nat) (got : Bytes) : Behaviour Bytes :=
  step fun choice w =>
    let seen := got ++ w.available h
    let n := min choice (min (amount seen) seen.length - got.length)
    { result := got ++ (w.available h).take n, world := w.consume h n }

def readRounds (h : Nat) (amount : Bytes → Nat) : Nat → Bytes → Behaviour Bytes
  | 0, got => pure got
  | n + 1, got => do readRounds h amount n (← readSome h amount got)

def read (h : Nat) (amount : Bytes → Nat) : Behaviour Bytes := do
  readRounds h amount (← choose) []

/-- Copies some of what there is. The answer is false if the writer is to be stopped. -/
def copySome (source target : Nat) : Behaviour Bool :=
  step fun choice w =>
    let s := (w.available source).take choice
    let (alive, w) := (w.consume source s.length).write target s
    { result := alive, world := w }

def copyRounds (source target : Nat) : Nat → Behaviour Bool
  | 0 => return true
  | n + 1 => do if ← copySome source target then copyRounds source target n else return false

def copy (source target : Nat) : Behaviour Bool := do copyRounds source target (← choose)

/-- Writes some of a text, and gives what is left of it. -/
def writeSome (h : Nat) (s : Bytes) : Behaviour (Bool × Bytes) :=
  step fun choice w =>
    let (alive, w) := w.write h (s.take choice)
    { result := (alive, s.drop choice), world := w }

def writeRounds (h : Nat) : Nat → Bytes → Behaviour Bool
  | 0, s => change (·.write h s)
  | n + 1, s => do
    let (alive, rest) ← writeSome h s
    if alive then writeRounds h n rest else return false

def write (h : Nat) (s : Bytes) : Behaviour Bool := do writeRounds h (← choose) s

end Behaviour

open Behaviour

/-- What a program does while others are at work. -/
def Program.behaviour (streams : Streams) (dir : Place) : Program → Behaviour Outcome
  | exit code => return .exited code
  | die => return .killed
  | read amount next => do
    let s ← Behaviour.read streams.input amount
    (next s).behaviour streams dir
  | copy next => do
    if ← Behaviour.copy streams.input streams.output then next.behaviour streams dir
    else return .killed
  | print text next => do
    if ← write streams.output text then next.behaviour streams dir else return .killed
  | complain text next => do
    if ← write streams.error text then next.behaviour streams dir else return .killed
  | readFile path next => do
    let data ← look fun w => (w.disk.readFile dir path).toOption
    (next data).behaviour streams dir
  | remove path next => do
    let done ← Behaviour.change fun w => Program.change w fun d => d.remove dir path
    (next done).behaviour streams dir
  | makeDirectory path next => do
    let done ← Behaviour.change fun w => Program.change w fun d => d.makeDirectory 0o755 dir path
    (next done).behaviour streams dir

namespace Executor.Concurrent

def say (ex : Executor) (streams : Streams) (text : Bytes) : Behaviour Unit :=
  discard (write streams.error (ex.title ++ ": " ++ text ++ "\n"))

def record (ex : Executor) (e : Event) : Behaviour Unit :=
  change fun w => ((), ex.recorder.record "event" e w)

def openPath (access : Disk.Access) (path : Bytes) : Behaviour (Except PathError Nat) :=
  step fun _ w =>
    match w.openPath access [] path with
    | (.ok handle, w) => { result := .ok handle, world := w, news := [⟨[], .opened handle⟩] }
    | (.error e, w) => { result := .error e, world := w }

def close (handle : Nat) : Behaviour Unit :=
  step fun _ w => { result := (), world := w.close handle, news := [⟨[], .closed handle⟩] }

def closeAll : List Nat → Behaviour Unit
  | [] => return
  | handle :: rest => do
    close handle
    closeAll rest

def openTargets (ex : Executor) (argv : List Bytes) :
    List Target → Streams → List Nat → Behaviour (Option (Streams × List Nat))
  | [], streams, opened => return some (streams, opened)
  | target :: rest, streams, opened => do
    let path := Path.resolve (← surroundings).dir target.path
    match ← openPath target.access path with
    | .ok handle => openTargets ex argv rest (target.slot.set streams handle) (opened ++ [handle])
    | .error e =>
      let reason := "open " ++ path ++ ": " ++ e.message
      say ex streams ("error opening " ++ target.title ++ " file: " ++ reason)
      record ex (.redirectFailure
        { command := if argv.isEmpty then none else some argv, path := target.path, error := reason })
      closeAll opened
      return none

def redirected (ex : Executor) (argv : List Bytes) (files : Redirections) (streams : Streams)
    (body : Streams → Behaviour Status) : Behaviour Status := do
  match ← openTargets ex argv (targets files) streams [] with
  | none => return Status.redirectFailed
  | some (inner, opened) =>
    let status ← body inner
    closeAll opened
    return status

def notStarted (ex : Executor) (streams : Streams) (argv : List Bytes) (subject reason : Bytes)
    (status : Status) : Behaviour Status := do
  say ex streams (subject ++ ": " ++ reason)
  record ex (.execFailure { command := some argv, error := reason })
  return status

inductive Launched where
  | failed (reason : Bytes)
  | short (e : Launch.Shortage)
  | started (number : Nat) (invocation : Invocation)

def launch (ex : Executor) (path : Bytes) (argv : List Bytes) (here : Surroundings) :
    Behaviour Launched :=
  step fun _ w =>
    match Launch.prepare w.disk here.dir path argv here.env.listing with
    | .error e => { result := .failed e.message, world := w }
    | .ok invocation =>
      match ex.shortage invocation with
      | some e => { result := .short e, world := w }
      | none =>
        let number := w.begin.started
        { result := .started number invocation, world := w.begin, news := [⟨[], .began number⟩] }

def hearEnd (number : Nat) : Behaviour Unit :=
  step fun _ w => { result := (), world := w.tell (.ended number), news := [⟨[], .ended number⟩] }

/-- Waits for a program. It runs while its start is being recorded. -/
def await (ex : Executor) (streams : Streams) (argv : List Bytes) (path dir : Bytes) (number : Nat)
    (invocation : Invocation) : Behaviour Status := do
  let ((), outcome) ← both (record ex (.runCommand { command := some argv, path, dir, pid := number }))
    ((ex.programs invocation).behaviour streams invocation.dir)
  hearEnd number
  let status := outcome.status
  record ex (.commandExit
    { command := some argv, pid := number, status, signaled := outcome == .killed })
  return status

def spawn (ex : Executor) (streams : Streams) (argv : List Bytes) : Behaviour Status := do
  let here ← surroundings
  match ← look fun w => Search.lookup w.disk here.env here.dir (argv.headD []) with
  | .error e => notStarted ex streams argv (argv.headD []) e.message Status.execFailed
  | .ok path =>
    match ← launch ex path argv here with
    | .failed reason => notStarted ex streams argv (argv.headD []) reason Status.execFailed
    | .short e =>
      notStarted ex streams argv "fork" ("fork/exec " ++ path ++ ": " ++ e.message) Status.unknown
    | .started number invocation => await ex streams argv path here.dir number invocation

def builtin (ex : Executor) (streams : Streams) (argv : List Bytes) : Builtin → Behaviour Status
  | .cd => do
    let here ← surroundings
    match ← look fun w => ChangeDirectory.run w.disk here argv.tail with
    | .ok (text, there) =>
      enter there
      discard (write streams.output text)
      record ex (.builtin { command := some argv })
      return Status.success
    | .error e =>
      say ex streams (argv.headD [] ++ ": " ++ e.message)
      record ex (.builtin { command := some argv, status := Status.unknown, error := e.message })
      return Status.unknown

def plain (ex : Executor) (argv : List Bytes) (files : Redirections) (streams : Streams) :
    Behaviour Status := do
  match argv with
  | [] =>
    say ex streams "empty command"
    return Status.unknown
  | name :: _ =>
    match Builtin.ofName? name with
    | some b => builtin ex streams argv b
    | none => redirected ex argv files streams fun inner => spawn ex inner argv

/-- Makes a pipe. One end is opened for the right side and the other for the left one. -/
def openPipe : Behaviour (Option World.PipeEnds) :=
  step fun _ w =>
    match w.openPipe none with
    | (none, w) => { result := none, world := w }
    | (some ends, w) =>
      { result := some ends, world := w,
        news := [⟨[.right], .opened ends.read⟩, ⟨[.left], .opened ends.write⟩] }

/-- Runs one side of a pipe. Its end is closed as soon as it is done. -/
def side (body : Behaviour Status) (handle : Nat) : Behaviour Status := do
  let status ← body
  close handle
  return Status.exitCode status

/-- Joins two commands by a pipe. Both run at the same time, and the status is that of the right. -/
def pipe (ex : Executor) (left right : Streams → Behaviour Status) (streams : Streams) :
    Behaviour Status := do
  match ← openPipe with
  | none =>
    say ex streams ("pipe: pipe2: " ++ PathError.tooManyFiles.message)
    return Status.unknown
  | some ends =>
    let (_, status) ← both (side (left { streams with output := ends.write }) ends.write)
      (side (right { streams with input := ends.read }) ends.read)
    change fun w => ((), w.dropPipe ends.number)
    return status

def reportSide (ex : Executor) (streams : Streams) (name : Bytes) (status : Status) :
    Behaviour Unit := do
  if status != Status.success then
    say ex streams (name ++ " side of sequence exited with status " ++ Bytes.ofInt status)

def execute (ex : Executor) : Tree → Streams → Behaviour Status
  | .absent, streams => do
    say ex streams "nothing to execute"
    return Status.unknown
  | .node kind argv files l r, streams =>
    match kind with
    | .plain => plain ex argv files streams
    | .sequence => do
      reportSide ex streams "left" (← within .left (execute ex l streams))
      let status ← within .right (execute ex r streams)
      reportSide ex streams "right" status
      return status
    | .and => do
      let status ← within .left (execute ex l streams)
      if status != Status.success then return status else within .right (execute ex r streams)
    | .or => do
      let status ← within .left (execute ex l streams)
      if status == Status.success then return status else within .right (execute ex r streams)
    | .pipe => pipe ex (execute ex l) (execute ex r) streams
    | .subshell =>
      redirected ex argv files streams fun inner => do
        let status ← within .left (execute ex l inner)
        return if ex.policy == .propagate then status else Status.success
    | .unknown _ => do
      say ex streams ("don't know how to execute a " ++ kind.name ++ " node")
      return Status.unknown

end Executor.Concurrent

end CommandShell
