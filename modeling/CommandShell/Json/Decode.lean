import CommandShell.Json

/-! Decoding values into records. A record is decoded into one that exists already, so fields that
are not mentioned keep their value; decoding goes on after an error and reports the first. -/
namespace CommandShell.Json

/-- A computation that remembers the first complaint. -/
abbrev Decode (ε : Type) := StateM (Option ε)

def complain {ε : Type} (e : ε) : Decode ε Unit := modify fun first => first.or (some e)

/-- Letters count as equal in both cases, as do the two other characters that are cases of an ASCII
letter. -/
private def foldCase (c : Char) : Char :=
  if c = '\u017F' then 's' else if c = '\u212A' then 'k' else c.toLower

private def foldName (name : Bytes) : List Char := (Utf8.chars name).map foldCase

/-- The entry with a name: the one spelled so, or else the first that differs in case only. -/
def findField? {β : Type} (fields : List (Bytes × β)) (name : Bytes) : Option β :=
  ((fields.find? (·.1 == name)).or
    (fields.find? fun field => foldName field.1 == foldName name)).map Prod.snd

/-- Reads a value into a record or other data that exists already. -/
abbrev Into (ε α : Type) := Json → α → Decode ε α

/-- A text; null changes nothing. `wrong` says what to complain about a value that does not fit. -/
def text {ε : Type} (wrong : Json → ε) : Into ε Bytes
  | .string s, _ => return s
  | .null, old => return old
  | v, old => do
    complain (wrong v)
    return old

def truth {ε : Type} (wrong : Json → ε) : Into ε Bool
  | .bool b, _ => return b
  | .null, old => return old
  | v, old => do
    complain (wrong v)
    return old

/-- A whole number written without fraction and exponent, if it lies between two bounds. -/
def toInt? (low high : Int) (s : Bytes) : Option Int := do
  let n : Int ← match s with
    | 45 :: digits => (Bytes.toNat? digits).map fun n => -(n : Int)
    | digits => (Bytes.toNat? digits).map fun n => (n : Int)
  if low ≤ n ∧ n ≤ high then some n else none

def integer {ε : Type} (wrong : Json → ε) : Into ε Int
  | .number s, old =>
    match toInt? (-0x8000000000000000) 0x7fffffffffffffff s with
    | some n => return n
    | none => do
      complain (wrong (.number s))
      return old
  | .null, old => return old
  | v, old => do
    complain (wrong v)
    return old

/-- A list of texts, each read into the one at its place before; null makes the list absent. -/
def texts {ε : Type} (wrong wrongItem : Json → ε) : Into ε (Option (List Bytes))
  | .array items, old => do return some (← go items (old.getD []))
  | .null, _ => return none
  | v, old => do
    complain (wrong v)
    return old
where
  go : List Json → List Bytes → Decode ε (List Bytes)
    | [], _ => return []
    | v :: rest, old => do
      let first ← text wrongItem v (old.headD [])
      return first :: (← go rest old.tail)

/-- A record, field by field in the order of the text; `unknown` deals with other names. -/
def record {ε α : Type} (fields : List (Bytes × Into ε α)) (unknown : Bytes → Decode ε Unit)
    (wrong : Json → ε) : Into ε α
  | .object entries, old =>
    entries.foldlM (fun a (name, v) => do
      match findField? fields name with
      | some read => read v a
      | none =>
        unknown name
        return a) old
  | .null, old => return old
  | v, old => do
    complain (wrong v)
    return old

/-- A record that may be absent: null removes it and an object is read into it. -/
def pointer {ε α : Type} (empty : α) (read : Into ε α) : Into ε (Option α)
  | .null, _ => return none
  | v, old => do return some (← read v (old.getD empty))

def Decode.result {ε α : Type} (d : Decode ε α) : Except ε α :=
  match d.run none with
  | (a, none) => .ok a
  | (_, some e) => .error e

end CommandShell.Json
