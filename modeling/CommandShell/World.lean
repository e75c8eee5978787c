import CommandShell.Disk
import CommandShell.Event

/-! The world that commands run in: a disk, open files, pipes between commands, the events that were
recorded, the shell's own log, and the history of what was opened, closed and run. -/
namespace CommandShell

inductive Source where
  | disk (stream : Disk.Stream)
  | pipe (number : Nat)
  deriving DecidableEq, Repr

/-- An open file. Everyone who uses it shares the place that has been reached. -/
structure OpenFile where
  source : Source
  offset : Nat := 0
  append : Bool := false
  deriving DecidableEq, Repr

/-- Bytes on their way from one command to another. If `room` is a number, then so many more bytes
can be written before the writer is stopped, because nobody will read them. -/
structure Pipe where
  waiting : Bytes := []
  room : Option Nat := none
  deriving DecidableEq, Repr

/-- What the history of a world tells: open files and commands, known by their numbers. -/
inductive Happening where
  | opened (handle : Nat)
  | closed (handle : Nat)
  | began (command : Nat)
  | ended (command : Nat)
  deriving DecidableEq, Repr

/-- Open files are known by numbers that are never used twice. `outages` says which of the next
requests for an open file or a pipe the system will refuse. -/
structure World where
  disk : Disk := {}
  files : List (Nat × OpenFile) := []
  pipes : List (Nat × Pipe) := []
  fresh : Nat := 0
  outages : List Bool := []
  started : Nat := 0
  clock : Int := 0
  events : List Event := []
  log : Bytes := []
  history : List Happening := []
  deriving DecidableEq, Repr

namespace World

def tell (w : World) (e : Happening) : World := { w with history := w.history ++ [e] }

def file? (w : World) (h : Nat) : Option OpenFile := (w.files.find? (·.1 == h)).map Prod.snd

def pipe? (w : World) (n : Nat) : Option Pipe := (w.pipes.find? (·.1 == n)).map Prod.snd

def seek (w : World) (h offset : Nat) : World :=
  let move (entry : Nat × OpenFile) :=
    if entry.1 == h then (entry.1, { entry.2 with offset }) else entry
  { w with files := w.files.map move }

def setPipe (w : World) (n : Nat) (p : Pipe) : World :=
  { w with pipes := w.pipes.map fun entry => if entry.1 == n then (n, p) else entry }

/-- Whether the next request is refused, and the world after it. -/
def request (w : World) : Bool × World :=
  (w.outages.headD false, { w with outages := w.outages.tail })

/-- Gives a number to an open file. -/
def add (w : World) (f : OpenFile) : Nat × World :=
  (w.fresh, { w with files := (w.fresh, f) :: w.files, fresh := w.fresh + 1 }.tell (.opened w.fresh))

def close (w : World) (h : Nat) : World :=
  { w with files := w.files.filter (·.1 != h) }.tell (.closed h)

def begin (w : World) : World :=
  { w with started := w.started + 1 }.tell (.began (w.started + 1))

def openPath (w : World) (access : Disk.Access) (cwd : Place) (path : Bytes) :
    Except PathError Nat × World :=
  let (refused, w) := w.request
  if refused then (.error .tooManyFiles, w)
  else match w.disk.openPath access cwd path with
    | .error e => (.error e, w)
    | .ok (stream, disk) =>
      let append := access matches .extend _
      let (h, w) := { w with disk }.add { source := .disk stream, append }
      (.ok h, w)

/-- The two ends of a new pipe: one to read from and one to write to. -/
structure PipeEnds where
  number : Nat
  read : Nat
  write : Nat
  deriving DecidableEq, Repr

/-- Makes a pipe whose writers may leave `room` bytes that are not read. -/
def openPipe (w : World) (room : Option Nat) : Option PipeEnds × World :=
  let (refused, w) := w.request
  if refused then (none, w)
  else
    let n := w.fresh
    let w := { w with pipes := (n, { room }) :: w.pipes, fresh := n + 1 }
    let (r, w) := w.add { source := .pipe n }
    let (s, w) := w.add { source := .pipe n }
    (some ⟨n, r, s⟩, w)

/-- Lifts the bound on what may be written to a pipe, once nobody writes to it any more. -/
def unbind (w : World) (n : Nat) : World :=
  let free (entry : Nat × Pipe) :=
    if entry.1 == n then (n, { entry.2 with room := none }) else entry
  { w with pipes := w.pipes.map free }

def dropPipe (w : World) (n : Nat) : World := { w with pipes := w.pipes.filter (·.1 != n) }

/-- The bytes that can be read from an open file now. -/
def available (w : World) (h : Nat) : Bytes :=
  match w.file? h with
  | some { source := .disk (.content id), offset, .. } => (w.disk.content id).drop offset
  | some { source := .pipe n, .. } => ((w.pipe? n).getD {}).waiting
  | _ => []

/-- Takes bytes that were available. -/
def consume (w : World) (h n : Nat) : World :=
  match w.file? h with
  | some f =>
    match f.source with
    | .disk (.content _) => w.seek h (f.offset + n)
    | .disk _ => w
    | .pipe m =>
      match w.pipe? m with
      | some p => w.setPipe m { p with waiting := p.waiting.drop n }
      | none => w
  | none => w

/-- Reads as many bytes as `amount` asks for when it sees what is available. -/
def read (w : World) (h : Nat) (amount : Bytes → Nat) : Bytes × World :=
  let s := w.available h
  let n := min (amount s) s.length
  (s.take n, w.consume h n)

/-- Reads one byte, if there is one. A directory cannot be read. -/
def readByte (w : World) (h : Nat) : Except PathError (Option UInt8) × World :=
  match w.file? h with
  | some { source := .disk .directory, .. } => (.error .isDirectory, w)
  | _ =>
    let (s, w) := w.read h fun _ => 1
    (.ok s.head?, w)

/-- A text put over another from a place on; a gap is filled with zeros. -/
def overwrite (old : Bytes) (offset : Nat) (s : Bytes) : Bytes :=
  old.take offset ++ List.replicate (offset - old.length) 0 ++ s ++ old.drop (offset + s.length)

/-- How many bytes can still be written; nothing if there is no bound. -/
def room (w : World) (h : Nat) : Option Nat :=
  match w.file? h with
  | some { source := .pipe n, .. } => ((w.pipe? n).getD {}).room
  | _ => none

/-- Writes to an open file. The answer is false if the writer has to be stopped because the pipe has
no reader any more. -/
def write (w : World) (h : Nat) (s : Bytes) : Bool × World :=
  if s.isEmpty then (true, w)
  else match w.file? h with
  | some f =>
    match f.source with
    | .disk (.content id) =>
      let old := w.disk.content id
      let start := if f.append then old.length else f.offset
      let w := { w with disk := w.disk.setContent id (overwrite old start s) }
      (true, w.seek h (start + s.length))
    | .disk _ => (true, w)
    | .pipe n =>
      match w.pipe? n with
      | none => (true, w)
      | some p =>
        match p.room with
        | none => (true, w.setPipe n { p with waiting := p.waiting ++ s })
        | some room =>
          if s.length ≤ room then
            (true, w.setPipe n { waiting := p.waiting ++ s, room := some (room - s.length) })
          else (false, w.setPipe n { waiting := p.waiting ++ s.take room, room := some 0 })
  | none => (true, w)

/-- Writes and does not care whether anybody reads. -/
def print (w : World) (h : Nat) (s : Bytes) : World := (w.write h s).2

def note (w : World) (line : Bytes) : World := { w with log := w.log ++ line ++ "\n" }

end World

end CommandShell
