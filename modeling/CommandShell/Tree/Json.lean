import CommandShell.Json.Decode
import CommandShell.Json.Reader
import CommandShell.Tree

/-! Trees as JSON objects. Empty fields are left out, and a tree read back from its JSON is the
same tree. -/
namespace CommandShell.Tree

def toJson : Tree → Json
  | absent => .null
  | node kind argv files left right =>
    .object (("kind", .string kind.name) ::
      (Json.fieldIf (!argv.isEmpty) "argv" (.strings argv) ++
      Json.optional "input" files.input ++ Json.optional "output" files.output ++
      Json.optional "append" files.append ++ Json.optional "error" files.error ++
      Json.fieldIf (!left.isAbsent) "left" left.toJson ++
      Json.fieldIf (!right.isAbsent) "right" right.toJson))

inductive JsonError where
  | malformed
  | wrongType
  | unknownKind (name : Bytes)
  deriving DecidableEq, Repr

inductive Field where
  | kind
  | argv
  | input
  | output
  | append
  | error
  | left
  | right

def fields : List (Bytes × Field) :=
  [("kind", .kind), ("argv", .argv), ("input", .input), ("output", .output),
   ("append", .append), ("error", .error), ("left", .left), ("right", .right)]

/-- A kind is given by its name; null stands for an empty name. -/
def readKind : Json.Into JsonError Kind := fun v old => do
  let name ← match v with
    | .string s => pure (some s)
    | .null => pure (some [])
    | _ => do
      Json.complain .wrongType
      pure none
  match name with
  | none => return old
  | some s =>
    match Kind.ofName? s with
    | some kind => return kind
    | none => do
      Json.complain (.unknownKind s)
      return old

def wrong (_ : Json) : JsonError := .wrongType

def readText := Json.text wrong

mutual

/-- Reads a value into a tree: null removes it and an object changes the fields it mentions. -/
def readInto : Json → Tree → Json.Decode JsonError Tree
  | .null, _ => return absent
  | .object entries, absent => readFields entries (plain [])
  | .object entries, tree => readFields entries tree
  | _, tree => do
    Json.complain .wrongType
    return tree

def readFields : List (Bytes × Json) → Tree → Json.Decode JsonError Tree
  | [], tree => return tree
  | entry :: rest, tree => do readFields rest (← readField entry tree)

def readField : Bytes × Json → Tree → Json.Decode JsonError Tree
  | _, absent => return absent
  | (name, v), node kind argv files left right => do
    match Json.findField? fields name with
    | none => return node kind argv files left right
    | some .kind => return node (← readKind v kind) argv files left right
    | some .argv =>
      let words ← Json.texts wrong wrong v (some argv)
      return node kind (words.getD []) files left right
    | some .input =>
      return node kind argv { files with input := ← readText v files.input } left right
    | some .output =>
      return node kind argv { files with output := ← readText v files.output } left right
    | some .append =>
      return node kind argv { files with append := ← readText v files.append } left right
    | some .error =>
      return node kind argv { files with error := ← readText v files.error } left right
    | some .left => return node kind argv files (← readInto v left) right
    | some .right => return node kind argv files left (← readInto v right)

end

def ofJson (s : Bytes) : Except JsonError Tree :=
  match Json.read? s with
  | none => .error .malformed
  | some v => (readInto v absent).result

end CommandShell.Tree
