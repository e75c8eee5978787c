import CommandShell.Yaml.Node
import CommandShell.Yaml.Resolution

/-! The data of a YAML document. Two equal keys in one mapping are refused, and so is a key that is
a collection. -/
namespace CommandShell.Yaml

inductive Value where
  | null
  | bool (b : Bool)
  | int (n : Int)
  | float (x : Number.Real)
  | text (s : Bytes)
  | list (items : List Value)
  | map (entries : List (Value × Value))
  deriving Repr, Inhabited

namespace Value

def sameKey : Value → Value → Bool
  | null, null => true
  | bool a, bool b => a == b
  | int a, int b => a == b
  | float a, float b => a.same b
  | text a, text b => a == b
  | _, _ => false

private def isCollection : Value → Bool
  | list _ | map _ => true
  | _ => false

private def insertEntry (entries : List (Value × Value)) (key value : Value) :
    Option (List (Value × Value)) :=
  if isCollection key || entries.any (sameKey ·.1 key) then none
  else some (entries ++ [(key, value)])

private def ofMeaning (s : Bytes) : Meaning → Value
  | .null => null
  | .bool b => bool b
  | .int n => int n
  | .float x => float x
  | .time | .text => text s

private def standardTag (name : Bytes) : Bytes := "tag:yaml.org,2002:" ++ name

private def base64Digit (b : UInt8) : Option Nat :=
  if Bytes.isUpper b then some (b.toNat - 65)
  else if Bytes.isLower b then some (b.toNat - 71)
  else if Bytes.isDigit b then some (b.toNat + 4)
  else if b = 43 then some 62
  else if b = 47 then some 63
  else none

/-- Bytes written in groups of four digits, the last one filled up with equals signs. -/
private def base64 : Bytes → Option Bytes
  | [] => some []
  | [a, b, 61, 61] => do
    let n := (← base64Digit a) * 64 + (← base64Digit b)
    return [(n / 16).toUInt8]
  | [a, b, c, 61] => do
    let n := ((← base64Digit a) * 64 + (← base64Digit b)) * 64 + (← base64Digit c)
    return [(n / 1024).toUInt8, (n / 4).toUInt8]
  | a :: b :: c :: d :: s => do
    let n := (((← base64Digit a) * 64 + (← base64Digit b)) * 64 + (← base64Digit c)) * 64 +
      (← base64Digit d)
    return [(n / 65536).toUInt8, (n / 256).toUInt8, n.toUInt8] ++ (← base64 s)
  | _ => none

/-- A scalar with a tag must be what the tag says; tags of other kinds leave it as text. -/
private def ofTagged (tag s : Bytes) : Option Value :=
  let m := meaning s
  if tag == standardTag "str" then some (text s)
  else if tag == standardTag "binary" then
    (base64 (s.filter fun b => b != 10 && b != 13)).map text
  else if tag == standardTag "null" then if m == .null then some null else none
  else if tag == standardTag "timestamp" then if m == .time then some (text s) else none
  else if tag == standardTag "bool" then
    match m with
    | .bool b => some (bool b)
    | _ => none
  else if tag == standardTag "int" then
    match m with
    | .int n => some (int n)
    | _ => none
  else if tag == standardTag "float" then
    match m with
    | .float x => some (float x)
    | .int n =>
      if n < 0x8000000000000000 then
        (Number.nearest Number.double (n < 0) n.natAbs 1).map float
      else none
    | _ => none
  else some (text s)

private def ofScalar (tag : Bytes) (plain : Bool) (s : Bytes) : Option Value :=
  if tag.isEmpty then some (if plain then ofMeaning s (meaning s) else text s)
  else ofTagged tag s

private def isMerge : Node → Bool
  | .scalar tag plain s => s == "<<" && (plain || tag == standardTag "merge")
  | _ => false

mutual

def ofNode? : Node → Option Value
  | .scalar tag plain s => ofScalar tag plain s
  | .reference target => ofNode? target
  | .sequence items => (ofItems items).map list
  | .mapping entries => (addEntries [] entries).map map

private def ofItems : List Node → Option (List Value)
  | [] => some []
  | item :: rest => do
    let first ← ofNode? item
    let others ← ofItems rest
    return first :: others

/-- Adds entries in order; a merge key adds those of another mapping. -/
private def addEntries (done : List (Value × Value)) :
    List (Node × Node) → Option (List (Value × Value))
  | [] => some done
  | entry :: rest => do addEntries (← addEntry done entry) rest

private def addEntry (done : List (Value × Value)) :
    Node × Node → Option (List (Value × Value))
  | (key, value) =>
    if isMerge key then addMerge done value
    else do
      let k ← ofNode? key
      let v ← ofNode? value
      insertEntry done k v

/-- What a merge key may have: a mapping, an alias of one, or a list of those, the first of which
counts most. -/
private def addMerge (done : List (Value × Value)) : Node → Option (List (Value × Value))
  | .sequence items => addMappings done items
  | .mapping entries => addEntries done entries
  | .reference target => addAliased done target
  | .scalar .. => none

private def addMappings (done : List (Value × Value)) :
    List Node → Option (List (Value × Value))
  | [] => some done
  | item :: rest => do
    let later ← addMappings done rest
    match item with
    | .mapping entries => addEntries later entries
    | .reference target => addAliased later target
    | _ => none

private def addAliased (done : List (Value × Value)) : Node → Option (List (Value × Value))
  | .mapping entries => addEntries done entries
  | _ => none

end

/-- The data of the first document, null if there is none. -/
def ofBytes (s : Bytes) : Option Value :=
  match Node.ofBytes s with
  | none => none
  | some none => some null
  | some (some node) => ofNode? node

end Value

end CommandShell.Yaml
