import CommandShell.Bytes.Quoted
import CommandShell.Tree
import CommandShell.Words

/-! Aliases: names that stand for other words at the start of a simple command. -/
namespace CommandShell

inductive CommandError where
  | split (e : Words.SplitError)
  | empty
  deriving DecidableEq, Repr

def CommandError.message : CommandError → Bytes
  | .split e => e.message
  | .empty => "empty command"

/-- A simple command from its words; operators are ordinary words here. -/
def Tree.simple (line : Bytes) : Except CommandError (List Bytes) :=
  match Words.split line with
  | .error e => .error (.split e)
  | .ok [] => .error .empty
  | .ok argv => .ok argv

structure Aliases where
  entries : List (Bytes × List Bytes) := []
  deriving DecidableEq, Repr

namespace Aliases

structure BadDefinition where
  name : Bytes
  reason : CommandError
  deriving DecidableEq, Repr

def BadDefinition.message (e : BadDefinition) : Bytes :=
  "alias " ++ Bytes.quoted e.name ++ ": " ++ e.reason.message

def parse : List (Bytes × Bytes) → Except BadDefinition Aliases
  | [] => .ok {}
  | (name, definition) :: rest =>
    match Tree.simple definition with
    | .error reason => .error ⟨name, reason⟩
    | .ok words => (parse rest).map fun more => ⟨(name, words) :: more.entries⟩

def find? (table : Aliases) (name : Bytes) : Option (List Bytes) :=
  (table.entries.find? (·.1 == name)).map Prod.snd

def replaceFirst (table : Aliases) : List Bytes → List Bytes
  | [] => []
  | name :: args =>
    match table.find? name with
    | some words => words ++ args
    | none => name :: args

/-- Replaces the first word of every simple command that is an alias; the replacement is not looked
up again. -/
def expand (table : Aliases) : Tree → Tree
  | .absent => .absent
  | .node .plain argv files left right => .node .plain (table.replaceFirst argv) files left right
  | .node kind argv files left right =>
    .node kind argv files (table.expand left) (table.expand right)

/-- Trees that expansion hands back without looking inside. -/
def ignores (table : Aliases) : Tree → Bool
  | .absent => true
  | .node kind argv _ _ _ => table.entries.isEmpty || (kind == .plain && argv.isEmpty)

end Aliases

end CommandShell
