import CommandShell.World

/-! Programs as the shell sees them: they read their standard input, write to their standard output
and error, work on files, and end. -/
namespace CommandShell

inductive Outcome where
  | exited (code : UInt8)
  | killed
  deriving DecidableEq, Repr

/-- The open files that are a command's standard input, output and error. -/
structure Streams where
  input : Nat
  output : Nat
  error : Nat
  deriving DecidableEq, Repr

/-- What a program does. Later steps depend on what it has seen before. -/
inductive Program where
  | exit (code : UInt8)
  | die
  /-- Reads as much of the standard input as `amount` asks for. -/
  | read (amount : Bytes → Nat) (next : Bytes → Program)
  /-- Copies the standard input to the standard output, block by block. -/
  | copy (next : Program)
  | print (text : Bytes) (next : Program)
  | complain (text : Bytes) (next : Program)
  | readFile (path : Bytes) (next : Option Bytes → Program)
  | remove (path : Bytes) (next : Bool → Program)
  | makeDirectory (path : Bytes) (next : Bool → Program)

/-- What a program is started with; its working directory is known by its place. -/
structure Invocation where
  argv : List Bytes
  env : List Bytes
  dir : Place
  deriving DecidableEq, Repr

abbrev Programs := Invocation → Program

def Program.blockSize : Nat := 32768

namespace World

/-- Copies what can be read from one open file to another. A writer who is stopped has taken the
block that did not fit. -/
def copy (w : World) (source target : Nat) : Bool × World :=
  let s := w.available source
  match w.room target with
  | none => (w.consume source s.length).write target s
  | some room =>
    if s.length ≤ room then (w.consume source s.length).write target s
    else
      let blocks := room / Program.blockSize + 1
      (w.consume source (min s.length (blocks * Program.blockSize))).write target s

end World

namespace Program

def change (w : World) (f : Disk → Except PathError Disk) : Bool × World :=
  match f w.disk with
  | .ok disk => (true, { w with disk })
  | .error _ => (false, w)

def run (streams : Streams) (dir : Place) : Program → World → Outcome × World
  | exit code, w => (.exited code, w)
  | die, w => (.killed, w)
  | read amount next, w =>
    let (s, w) := w.read streams.input amount
    (next s).run streams dir w
  | copy next, w =>
    match w.copy streams.input streams.output with
    | (true, w) => next.run streams dir w
    | (false, w) => (.killed, w)
  | print text next, w =>
    match w.write streams.output text with
    | (true, w) => next.run streams dir w
    | (false, w) => (.killed, w)
  | complain text next, w =>
    match w.write streams.error text with
    | (true, w) => next.run streams dir w
    | (false, w) => (.killed, w)
  | readFile path next, w => (next (w.disk.readFile dir path).toOption).run streams dir w
  | remove path next, w =>
    let (done, w) := change w fun d => d.remove dir path
    (next done).run streams dir w
  | makeDirectory path next, w =>
    let (done, w) := change w fun d => d.makeDirectory 0o755 dir path
    (next done).run streams dir w

end Program

end CommandShell
