import CommandShell.Bytes.Quoted

/-! What a command reports when it ends, what groups make of it, and the commands the shell runs
itself. -/
namespace CommandShell

/-- Zero is success and everything else a failure. -/
abbrev Status := Int

namespace Status

def success : Status := 0

/-- No well-defined exit code: a command killed by a signal, or a failed builtin. -/
def unknown : Status := -1

def execFailed : Status := 1

def redirectFailed : Status := 255

def badLine : Status := 2

/-- What a parent process sees: the low byte. -/
def exitCode (s : Status) : Status := s % 256

def succeeded (s : Status) : Bool := s == success

end Status

/-- The status a group reports: always success, or that of its last command. Other numbers act like
the former. -/
inductive Policy where
  | discard
  | propagate
  | other (number : Int)
  deriving DecidableEq, Repr

namespace Policy

def ofInt : Int → Policy
  | 0 => discard
  | 1 => propagate
  | n => other n

def toInt : Policy → Int
  | discard => 0
  | propagate => 1
  | other n => n

def name : Policy → Bytes
  | discard => "discard"
  | propagate => "propagate"
  | other n => "policy(" ++ Bytes.ofInt n ++ ")"

/-- The policy with a name; an empty name stands for the default. -/
def ofName? (s : Bytes) : Option Policy :=
  if s.isEmpty || s == "discard" then some discard
  else if s == "propagate" then some propagate
  else none

def unknownName (s : Bytes) : Bytes := "unknown subshell status policy: " ++ Bytes.quoted s

end Policy

inductive Builtin where
  | cd
  deriving DecidableEq, Repr

namespace Builtin

def named : List (Bytes × Builtin) := [("cd", cd)]

def ofName? (s : Bytes) : Option Builtin := (named.find? (·.1 == s)).map Prod.snd

def names : List Bytes := Bytes.sort (named.map Prod.fst)

/-- Programs have number zero. -/
def number : Option Builtin → Int
  | none => 0
  | some cd => 1

/-- The name of the builtin with a number; other numbers are shown as they are. -/
def title (n : Int) : Bytes :=
  match named.find? fun entry => number (some entry.2) == n with
  | some (name, _) => name
  | none => "builtin(" ++ Bytes.ofInt n ++ ")"

end Builtin

end CommandShell
