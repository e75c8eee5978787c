import CommandShell.Disk
import CommandShell.Environment

/-! The working directory and the environment that commands start with. A fork gets a copy. -/
namespace CommandShell

structure Surroundings where
  dir : Bytes
  env : Environment
  deriving DecidableEq, Repr

namespace Surroundings

/-- What a shell starts with. Its directory is seen from the one that the system has it work in, which
is its own if it is given none. -/
def start (workingDir dir : Bytes) (env : Environment) : Surroundings :=
  { dir := Path.absolute workingDir dir, env }

/-- A copy that changes independently. -/
def fork (s : Surroundings) : Surroundings := { s with env := s.env.fork }

inductive Failure where
  | noHome
  | unreadable (path : Bytes) (e : PathError)
  | notDirectory (path : Bytes)
  deriving DecidableEq, Repr

def Failure.message : Failure → Bytes
  | noHome => "HOME not set"
  | unreadable path e => "stat " ++ path ++ ": " ++ e.message
  | notDirectory path => path ++ ": not a directory"

/-- Moves to a directory and remembers it in the environment. -/
def enter (disk : Disk) (s : Surroundings) (target : Bytes) : Except Failure Surroundings :=
  let path := Path.resolve s.dir target
  match disk.stat [] path with
  | .error e => .error (.unreadable path e)
  | .ok (_, item) =>
    if item.isDirectory then
      let dir := Path.clean path
      .ok { dir, env := s.env.set "PWD" dir }
    else .error (.notDirectory path)

def enterHome (disk : Disk) (s : Surroundings) : Except Failure Surroundings :=
  let home := s.env.get "HOME"
  if home.isEmpty then .error .noHome else s.enter disk home

end Surroundings

end CommandShell
