import CommandShell.Number.Binary
import CommandShell.Yaml.Timestamp

/-! What a scalar without quotes stands for: null, a truth value, a number, a time or its text. -/
namespace CommandShell.Yaml

inductive Meaning where
  | null
  | bool (b : Bool)
  | int (n : Int)
  | float (x : Number.Real)
  | time
  | text
  deriving DecidableEq, Repr

private def words : List (Bytes × Meaning) :=
  (["y", "Y", "yes", "Yes", "YES", "true", "True", "TRUE", "on", "On", "ON"].map
    fun (w : String) => ((w : Bytes), Meaning.bool true)) ++
  (["n", "N", "no", "No", "NO", "false", "False", "FALSE", "off", "Off", "OFF"].map
    fun (w : String) => ((w : Bytes), Meaning.bool false)) ++
  (["", "~", "null", "Null", "NULL"].map fun (w : String) => ((w : Bytes), Meaning.null)) ++
  ([".nan", ".NaN", ".NAN"].map fun (w : String) => ((w : Bytes), Meaning.float .nan)) ++
  ([".inf", ".Inf", ".INF", "+.inf", "+.Inf", "+.INF"].map
    fun (w : String) => ((w : Bytes), Meaning.float (.infinite false))) ++
  (["-.inf", "-.Inf", "-.INF"].map
    fun (w : String) => ((w : Bytes), Meaning.float (.infinite true)))

private def digitValue (b : UInt8) : Nat :=
  if Bytes.isDigit b then b.toNat - 48
  else if Bytes.isLower b then b.toNat - 87
  else if Bytes.isUpper b then b.toNat - 55
  else 99

private def inBase (base : Nat) (s : Bytes) : Option Nat :=
  if !s.isEmpty && s.all (digitValue · < base) then
    some (s.foldl (fun n b => base * n + digitValue b) 0)
  else none

/-- Digits whose base is shown by how they start. -/
private def magnitude : Bytes → Option Nat
  | 48 :: b :: s =>
    if b = 120 || b = 88 then inBase 16 s
    else if b = 98 || b = 66 then inBase 2 s
    else if b = 111 || b = 79 then inBase 8 s
    else inBase 8 (b :: s)
  | s => inBase 10 s

/-- A whole number that fits into 64 bits, with or without a sign. In base two the sign may also stand
behind the mark of the base. -/
private def integer? (s : Bytes) : Option Int :=
  match s with
  | 45 :: digits => do
    let n ← magnitude digits
    if n ≤ 0x8000000000000000 then some (-(n : Int)) else none
  | 43 :: digits => do
    let n ← magnitude digits
    if n < 0x8000000000000000 then some (n : Int) else none
  | 48 :: 98 :: 45 :: digits => do
    let n ← inBase 2 digits
    if n ≤ 0x8000000000000000 then some (-(n : Int)) else none
  | 48 :: 98 :: 43 :: digits => do
    let n ← inBase 2 digits
    if n < 0x8000000000000000 then some (n : Int) else none
  | digits => do
    let n ← magnitude digits
    if n < 0x10000000000000000 then some (n : Int) else none

private def exponent? : Bytes → Option Int
  | [] => some 0
  | e :: s =>
    if e = 101 || e = 69 then
      match s with
      | 45 :: digits => (Bytes.toNat? digits).map fun n => -(n : Int)
      | 43 :: digits => (Bytes.toNat? digits).map fun n => (n : Int)
      | digits => (Bytes.toNat? digits).map fun n => (n : Int)
    else none

/-- Decimal digits with a point and an exponent; a point alone is no number. -/
private def unsignedFloat? (negative : Bool) (s : Bytes) : Option Number.Real := do
  let whole := s.takeWhile Bytes.isDigit
  let (fraction, rest) := match s.dropWhile Bytes.isDigit with
    | 46 :: t => (t.takeWhile Bytes.isDigit, t.dropWhile Bytes.isDigit)
    | t => ([], t)
  if whole.isEmpty && fraction.isEmpty then none
  let e ← exponent? rest
  let digits ← Bytes.toNat? (whole ++ fraction)
  Number.ofDecimal Number.double negative digits (e - fraction.length)

private def float? (s : Bytes) : Option Number.Real :=
  match s with
  | 45 :: t => unsignedFloat? true t
  | 43 :: t => unsignedFloat? false t
  | t => unsignedFloat? false t

/-- Underscores between digits are left out; elsewhere they are no part of a number. -/
private def dropSeparators (afterDigit : Bool) : Bytes → Option Bytes
  | [] => some []
  | 95 :: b :: s =>
    if afterDigit && Bytes.isDigit b then dropSeparators afterDigit (b :: s) else none
  | b :: s => if b = 95 then none else (dropSeparators (Bytes.isDigit b) s).map (b :: ·)

/-- What a text stands for. Only the first character decides what is tried. -/
def meaning (s : Bytes) : Meaning :=
  match words.find? (·.1 == s) with
  | some (_, m) => m
  | none =>
    match s with
    | [] => .null
    | b :: _ =>
      if b = 46 then
        match (dropSeparators false s).bind float? with
        | some x => .float x
        | none => .text
      else if Bytes.isDigit b || b = 43 || b = 45 then
        if Timestamp.matches? s then .time
        else
          let digits := s.filter (· != 95)
          match integer? digits with
          | some n => .int n
          | none =>
            match float? digits with
            | some x => .float x
            | none => .text
      else .text

/-- Whole numbers written in base sixty: digits, then groups behind colons. -/
def isBaseSixty (s : Bytes) : Bool :=
  let s := match s with
    | 43 :: t | 45 :: t => t
    | t => t
  match s with
  | [] => false
  | b :: _ =>
    let rest := s.dropWhile fun c => Bytes.isDigit c || c == 95
    Bytes.isDigit b && groups rest.length false rest
where
  /-- At least one group of one or two digits below sixty, then perhaps a fraction. -/
  groups : Nat → Bool → Bytes → Bool
    | 0, seen, s => seen && s.isEmpty
    | n + 1, seen, s =>
      match s with
      | 58 :: a :: b :: t =>
        if Bytes.isDigit a && a < 54 && Bytes.isDigit b then groups n true t
        else Bytes.isDigit a && groups n true (b :: t)
      | [58, a] => Bytes.isDigit a
      | 46 :: t => seen && t.all fun c => Bytes.isDigit c || c == 95
      | s => seen && s.isEmpty

end CommandShell.Yaml
