import CommandShell.Alias
import CommandShell.Config
import CommandShell.Execution
import CommandShell.Line.Reading
import CommandShell.Prompt
import CommandShell.Unicode.Category

/-! A shell session: lines are read one after the other, and each is parsed and run. A line of input
that commands share with the shell is taken byte by byte, and nothing behind its newline. -/
namespace CommandShell

namespace LineInput

/-- Takes bytes one at a time up to a newline, at most so many, and gives the line without it. A last
line may lack its newline; at the end of input there is no line. `line` holds what came before, the
last byte first; it is lost if a byte cannot be read. -/
def readLine {ε σ : Type} (next : σ → Except ε (Option UInt8) × σ) :
    Nat → Bytes → σ → Except ε (Option Bytes) × σ
  | 0, line, s => (.ok (if line.isEmpty then none else some line.reverse), s)
  | n + 1, line, s =>
    match next s with
    | (.error e, s) => (.error e, s)
    | (.ok none, s) => (.ok (if line.isEmpty then none else some line.reverse), s)
    | (.ok (some b), s) =>
      if b = 10 then (.ok (some line.reverse), s) else readLine next n (b :: line) s

def nextOf (s : Bytes) : Except Empty (Option UInt8) × Bytes := (.ok s.head?, s.tail)

/-- A number of lines, none behind the end of input, and what is left. -/
def takeMany : Nat → Bytes → List (Option Bytes) × Bytes
  | 0, input => ([], input)
  | n + 1, input =>
    let (line, rest) := readLine nextOf (input.length + 1) [] input
    let (lines, rest) := takeMany n rest
    (line.toOption.join :: lines, rest)

end LineInput

structure Session where
  config : Config
  aliases : Aliases
  executor : Executor
  streams : Streams
  user : Bytes := []
  host : Bytes := []
  root : Bool := true
  /-- Whether anything is painted at all. -/
  colors : Bool := false

namespace Session

inductive Failure where
  | policy (name : Bytes)
  | badAlias (e : Aliases.BadDefinition)
  deriving DecidableEq, Repr

def Failure.message : Failure → Bytes
  | policy name => Policy.unknownName name
  | badAlias e => e.message

/-- A session with the settings of a configuration. -/
def make (config : Config) (recorder : Recorder) (programs : Programs) (streams : Streams) :
    Except Failure Session :=
  match config.policy?, Aliases.parse config.definitions with
  | none, _ => .error (.policy config.subshellStatus)
  | _, .error e => .error (.badAlias e)
  | some policy, .ok aliases =>
    .ok { config, aliases, streams, executor := { name := config.name, policy, recorder, programs } }

structure State where
  running : Running
  last : Status := Status.success

def prompt (s : Session) (here : Surroundings) : Bytes :=
  Prompt.expand
    { name := s.config.name, user := s.user, host := s.host, dir := here.dir,
      home := here.env.get "HOME", root := s.root, color := s.config.colorPrompt && s.colors }
    s.config.prompt

def onWorld (f : World → World) (st : State) : State :=
  { st with running := { st.running with world := f st.running.world } }

def recordLine (s : Session) (line : Bytes) (st : State) : State :=
  onWorld (s.executor.recorder.record "input" (.inputLine { line, status := st.last })) st

/-- Parses one line and runs its tree by `execute`. A line without commands changes nothing. -/
def runLineBy (s : Session) (execute : Tree → Streams → Run Status) (line : Bytes) (st : State) :
    State :=
  match Line.parse line with
  | .error fault =>
    let text := s.config.name ++ ": syntax error: " ++ fault.message ++ "\n"
    s.recordLine line { onWorld (·.print s.streams.error text) st with last := Status.badLine }
  | .ok .absent => st
  | .ok tree =>
    let (last, running) := (execute (s.aliases.expand tree) s.streams).run st.running
    s.recordLine line { running, last }

def runLine (s : Session) : Bytes → State → State := s.runLineBy s.executor.execute

section
variable {s : Session} {line : Bytes} {st : State}

theorem runLine_of_error {fault : Grammar.Fault} (h : Line.parse line = .error fault) :
    s.runLine line st = s.recordLine line
      { onWorld (·.print s.streams.error (s.config.name ++ ": syntax error: " ++ fault.message ++
          "\n")) st with last := Status.badLine } := by
  rw [runLine, runLineBy, h]

theorem runLine_of_absent (h : Line.parse line = .ok .absent) : s.runLine line st = st := by
  rw [runLine, runLineBy, h]

theorem runLine_of_tree {tree : Tree} (h : Line.parse line = .ok tree) (ht : tree ≠ .absent) :
    s.runLine line st =
      let after := (s.executor.execute (s.aliases.expand tree) s.streams).run st.running
      s.recordLine line { running := after.2, last := after.1 } := by
  cases tree with
  | absent => exact absurd rfl ht
  | node =>
    rw [runLine, runLineBy, h]
    rfl

end

inductive Reading where
  | line (text : Bytes)
  | interrupted
  | ended
  | failed (reason : Bytes)
  deriving DecidableEq, Repr

def banner (s : Session) (text : Bytes) (st : State) : State :=
  if s.config.banner then onWorld (·.print s.streams.output text) st else st

def welcome (s : Session) : State → State :=
  s.banner ("welcome to " ++ s.config.name ++ "!\n")

/-- What a reading leads to: the status the session ends with, or nothing if it goes on. -/
def handle (s : Session) (reading : Reading) (st : State) : Option Status × State :=
  match reading with
  | .ended => (some st.last, s.banner "goodbye!\n" st)
  | .interrupted => (none, st)
  | .failed reason => (some Status.unknown, onWorld (·.note ("Error readline: " ++ reason)) st)
  | .line text => (none, if text.isBlank then st else s.runLine text st)

/-- What is left of a session when it has ended. -/
structure Ended where
  status : Status
  state : State
  /-- The prompts that were shown. -/
  prompts : List Bytes
  /-- How many readings were not asked for. -/
  unread : Nat

/-- Goes through readings; when there are no more, input has ended. -/
def follow (s : Session) : List Reading → State → Ended
  | [], st =>
    let prompt := s.prompt st.running.here
    { status := st.last, state := (s.handle .ended st).2, prompts := [prompt], unread := 0 }
  | reading :: rest, st =>
    let prompt := s.prompt st.running.here
    match s.handle reading st with
    | (some status, st) => { status, state := st, prompts := [prompt], unread := rest.length }
    | (none, st) =>
      let ended := s.follow rest st
      { ended with prompts := prompt :: ended.prompts }

def run (s : Session) (readings : List Reading) (st : State) : Ended := s.follow readings (s.welcome st)

def readLine (s : Session) (st : State) : Reading × State :=
  let input := s.streams.input
  let limit := (st.running.world.available input).length + 1
  let (line, world) := LineInput.readLine (·.readByte input) limit [] st.running.world
  let reading := match line with
    | .ok (some text) => .line text
    | .ok none => .ended
    | .error e => .failed ("read /dev/stdin: " ++ e.message)
  (reading, onWorld (fun _ => world) st)

def readAndRun (s : Session) : Nat → State → Status × State
  | 0, st => (st.last, st)
  | n + 1, st =>
    let (reading, st) := s.readLine st
    match s.handle reading st with
    | (some status, st) => (status, st)
    | (none, st) => s.readAndRun n st

def endsWithin (s : Session) : Nat → State → Bool
  | 0, _ => false
  | n + 1, st =>
    let (reading, st) := s.readLine st
    match s.handle reading st with
    | (some _, _) => true
    | (none, st) => s.endsWithin n st

theorem readAndRun_of_endsWithin (s : Session) {n m : Nat} {st : State} (h : s.endsWithin n st = true)
    (hle : n ≤ m) : s.readAndRun m st = s.readAndRun n st := by
  induction n generalizing m st with
  | zero => cases h
  | succ n ih =>
    obtain ⟨m, rfl⟩ : ∃ k, m = k + 1 := ⟨m - 1, by omega⟩
    rw [endsWithin] at h
    rw [readAndRun, readAndRun]
    dsimp only at h ⊢
    split
    · rfl
    · next st' he =>
      rw [he] at h
      exact ih h (Nat.le_of_succ_le_succ hle)

/-- Runs a session on the lines of the standard input, at most so many. Commands take their input
from there too. -/
def runInput (s : Session) (lines : Nat) (st : State) : Status × State :=
  s.readAndRun lines (s.welcome st)

end Session

end CommandShell
