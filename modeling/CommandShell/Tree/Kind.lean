import CommandShell.Bytes.Quoted

/-! The kinds of command tree: simple commands, the four ways of joining two, and groups. -/
namespace CommandShell

/-- Six kinds have names; a tree built by hand may carry another number. -/
inductive Kind where
  | plain
  | sequence
  | and
  | or
  | pipe
  | subshell
  | unknown (number : Int)
  deriving DecidableEq, Repr

namespace Kind

def named : List (Kind × Bytes) :=
  [(plain, "plain"), (sequence, "sequence"), (and, "and"), (or, "or"), (pipe, "pipe"),
   (subshell, "subshell")]

def ofInt : Int → Kind
  | 0 => plain
  | 1 => sequence
  | 2 => and
  | 3 => or
  | 4 => pipe
  | 5 => subshell
  | n => unknown n

def toInt : Kind → Int
  | plain => 0
  | sequence => 1
  | and => 2
  | or => 3
  | pipe => 4
  | subshell => 5
  | unknown n => n

def name : Kind → Bytes
  | plain => "plain"
  | sequence => "sequence"
  | and => "and"
  | or => "or"
  | pipe => "pipe"
  | subshell => "subshell"
  | unknown n => "kind(" ++ Bytes.ofInt n ++ ")"

/-- The kind with a name; numbers have none. -/
def ofName? (s : Bytes) : Option Kind := (named.find? fun entry => entry.2 == s).map Prod.fst

def unknownName (s : Bytes) : Bytes := "unknown node kind: " ++ Bytes.quoted s

end Kind

end CommandShell
