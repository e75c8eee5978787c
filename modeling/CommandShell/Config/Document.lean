import CommandShell.Bytes.Quoted
import CommandShell.Config
import CommandShell.Config.DefaultText
import CommandShell.Json.Decode
import CommandShell.Number.Shortest
import CommandShell.Yaml.Value

/-! Configuration files. A document is first seen as JSON, where numbers and truth values that stand
for a text become that text, and then read field by field in the order of the names. -/
namespace CommandShell.Config

inductive DocumentError where
  /-- It has no meaning as data. -/
  | malformed
  /-- A setting has a value of another type. -/
  | wrongType
  | unknownField (name : Bytes)
  deriving DecidableEq, Repr

def DocumentError.message : DocumentError → Bytes
  | malformed => "error converting YAML to JSON"
  | wrongType => "error unmarshaling JSON"
  | unknownField name =>
    "error unmarshaling JSON: while decoding JSON: json: unknown field " ++ Bytes.quoted name

inductive Slot where
  | settings
  | definitions
  | text
  | other

private def slots : List (Bytes × Slot) := [
  ("name", .text), ("prompt", .text), ("color_prompt", .other), ("banner", .other),
  ("history_file", .text), ("event_log", .text), ("subshell_status", .text),
  ("aliases", .definitions)]

private def Slot.entry (slot : Slot) (key : Bytes) : Slot :=
  match slot with
  | settings => (Json.findField? slots key).getD other
  | definitions => text
  | _ => other

private def scalarText? : Yaml.Value → Option Bytes
  | .bool b => some (Bytes.ofBool b)
  | .int n => some (Bytes.ofInt n)
  | .float x => some x.shortText
  | _ => none

/-- The text of a key. Whole numbers beyond 64 bits with a sign, nulls and collections have none. -/
private def keyText? : Yaml.Value → Option Bytes
  | .text s => some s
  | .bool b => some (Bytes.ofBool b)
  | .int n =>
    if -0x8000000000000000 ≤ n ∧ n < 0x8000000000000000 then some (Bytes.ofInt n) else none
  | .float x =>
    let s := x.shortText
    some (if s == "+Inf" then ".inf" else if s == "-Inf" then "-.inf"
      else if s == "NaN" then ".nan" else s)
  | _ => none

private def scalarJson? : Yaml.Value → Option Json
  | .null => some .null
  | .bool b => some (.bool b)
  | .int n => some (.int n)
  | .float (.finite negative m e) => some (.number (Number.Real.finite negative m e).shortText)
  | .text s => some (.string (Utf8.scrub s))
  | _ => none

mutual

/-- A value as JSON. There is none for the numbers that are not finite, unless they become text. -/
private def toJson? (slot : Slot) : Yaml.Value → Option Json
  | .list items => (toItems? items).map .array
  | .map entries => do
    let fields ← toFields? slot entries
    let sorted := fields.mergeSort fun a b => Bytes.le a.1 b.1
    return .object (sorted.map fun (key, v) => (Utf8.scrub key, v))
  | v =>
    match slot, scalarText? v with
    | .text, some s => some (.string s)
    | _, _ => scalarJson? v

private def toItems? : List Yaml.Value → Option (List Json)
  | [] => some []
  | v :: rest => do
    let first ← toJson? .other v
    let others ← toItems? rest
    return first :: others

private def toFields? (slot : Slot) : List (Yaml.Value × Yaml.Value) → Option (List (Bytes × Json))
  | [] => some []
  | entry :: rest => do
    let first ← toField? slot entry
    let others ← toFields? slot rest
    return first :: others

private def toField? (slot : Slot) : Yaml.Value × Yaml.Value → Option (Bytes × Json)
  | (key, v) => do
    let name ← keyText? key
    let v ← toJson? (slot.entry name) v
    return (name, v)

end

private def wrong (_ : Json) : DocumentError := .wrongType

/-- Definitions are added to those that exist; null removes all. -/
private def readDefinitions : Json.Into DocumentError (Option (List (Bytes × Bytes)))
  | .object entries, old => do
    let defined ← entries.foldlM (fun defs (name, v) => do
      return define name (← Json.text wrong v []) defs) (old.getD [])
    return some defined
  | .null, _ => return none
  | _, old => do
    Json.complain .wrongType
    return old

private def fields : List (Bytes × Json.Into DocumentError Config) := [
  ("name", fun v c => do return { c with name := ← Json.text wrong v c.name }),
  ("prompt", fun v c => do return { c with prompt := ← Json.text wrong v c.prompt }),
  ("color_prompt", fun v c => do
    return { c with colorPrompt := ← Json.truth wrong v c.colorPrompt }),
  ("banner", fun v c => do return { c with banner := ← Json.truth wrong v c.banner }),
  ("history_file", fun v c => do
    return { c with historyFile := ← Json.text wrong v c.historyFile }),
  ("event_log", fun v c => do return { c with eventLog := ← Json.text wrong v c.eventLog }),
  ("subshell_status", fun v c => do
    return { c with subshellStatus := ← Json.text wrong v c.subshellStatus }),
  ("aliases", fun v c => do return { c with aliases := ← readDefinitions v c.aliases })]

/-- Changes the settings that a value mentions. A strict reading refuses names that are no
setting. -/
def merge (strict : Bool) (v : Json) (c : Config) : Except DocumentError Config :=
  let unknown (name : Bytes) : Json.Decode DocumentError Unit :=
    if strict then Json.complain (.unknownField name) else return ()
  (Json.record fields unknown wrong v c).result

/-- Reads the first document of a file; settings it does not mention are empty. -/
def ofBytes (s : Bytes) : Except DocumentError Config :=
  match (Yaml.Value.ofBytes s).bind (toJson? .settings) with
  | none => .error .malformed
  | some v => merge true v {}

def builtIn : Config := (ofBytes defaultText).toOption.getD {}

end CommandShell.Config
