import CommandShell.Tree.Kind

/-! Command trees. A tree may be absent, as the missing operand of a malformed tree is, and a node
of any kind can carry words, redirections and operands, sensible or not. -/
namespace CommandShell

/-- Redirection targets; an empty target is unset. -/
structure Redirections where
  input : Bytes := []
  output : Bytes := []
  append : Bytes := []
  error : Bytes := []
  deriving DecidableEq, Repr

namespace Redirections

def none : Redirections := {}

def any (r : Redirections) : Bool :=
  !(r.input.isEmpty && r.output.isEmpty && r.append.isEmpty && r.error.isEmpty)

end Redirections

inductive Tree where
  | absent
  | node (kind : Kind) (argv : List Bytes) (files : Redirections) (left right : Tree)
  deriving DecidableEq, Repr, Inhabited

namespace Tree

def isAbsent : Tree → Bool
  | absent => true
  | node .. => false

def plain (argv : List Bytes) (files : Redirections := .none) : Tree :=
  node .plain argv files absent absent

def binary (kind : Kind) (left right : Tree) : Tree := node kind [] .none left right

def sequence (left right : Tree) : Tree := binary .sequence left right

def and (left right : Tree) : Tree := binary .and left right

def or (left right : Tree) : Tree := binary .or left right

def pipe (left right : Tree) : Tree := binary .pipe left right

def subshell (inner : Tree) (files : Redirections := .none) : Tree :=
  node .subshell [] files inner absent

def redirections : Tree → Redirections
  | absent => .none
  | node _ _ files _ _ => files

def hasRedirects (t : Tree) : Bool := t.redirections.any

def withRedirections (change : Redirections → Redirections) : Tree → Tree
  | absent => absent
  | node kind argv files left right => node kind argv (change files) left right

end Tree

end CommandShell
