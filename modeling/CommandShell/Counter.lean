import CommandShell.Json.Decode
import CommandShell.Json.Reader

/-! Counting texts and tuples of texts. A counter is kept in the order of its keys, so counting the
same things in another order gives the same counter. -/
namespace CommandShell

/-- How often each text was seen, in the order of the texts. -/
structure Counter where
  counts : List (Bytes × Nat) := []
  deriving DecidableEq, Repr

namespace Counter

private def add (key : Bytes) : List (Bytes × Nat) → List (Bytes × Nat)
  | [] => [(key, 1)]
  | (k, n) :: rest =>
    if k = key then (k, n + 1) :: rest
    else if Bytes.le key k then (key, 1) :: (k, n) :: rest
    else (k, n) :: add key rest

def increment (c : Counter) (key : Bytes) : Counter := ⟨add key c.counts⟩

def get (c : Counter) (key : Bytes) : Nat :=
  ((c.counts.find? (·.1 == key)).map Prod.snd).getD 0

def total (c : Counter) : Nat := c.counts.foldr (fun entry n => entry.2 + n) 0

/-- A counter that nothing was added to is null. -/
def toJson (c : Counter) : Json :=
  if c.counts.isEmpty then .null else .object (c.counts.map fun (k, n) => (k, .nat n))

end Counter

/-- How often each row of values was seen; every column has a name. Rows are told apart, and ordered,
by their JSON text. -/
structure TableCounter where
  columns : List Bytes
  rows : Counter := {}
  deriving DecidableEq, Repr

namespace TableCounter

def rowText (row : List Bytes) : Bytes := (Json.strings row).write true

def ofRowText (text : Bytes) : List Bytes :=
  match Json.read? text with
  | none => []
  | some v => ((Json.texts (fun _ => ()) (fun _ => ()) v none).run none).1.getD []

/-- Counts a row, which must have a value for every column. -/
def increment? (c : TableCounter) (row : List Bytes) : Option TableCounter :=
  if row.length = c.columns.length then some { c with rows := c.rows.increment (rowText row) }
  else none

def get (c : TableCounter) (row : List Bytes) : Nat := c.rows.get (rowText row)

def total (c : TableCounter) : Nat := c.rows.total

/-- The values of a row by column name; of columns with one name the last counts. -/
def rowJson (columns row : List Bytes) : Json :=
  let cells := columns.zip row
  let names := Bytes.sort columns.eraseDups
  .object (names.map fun name =>
    (name, .string (((cells.reverse.find? (·.1 == name)).map Prod.snd).getD [])))

/-- Rows with their counts, the most frequent first. -/
def toJson (c : TableCounter) : Json :=
  .array ((c.rows.counts.mergeSort fun a b => a.2 ≥ b.2).map fun (text, n) =>
    .object [("count", .nat n), ("event", rowJson c.columns (ofRowText text))])

end TableCounter

end CommandShell
