import CommandShell.Grammar.Word

/-! Arithmetic expressions, for their faults and for what may be assigned to. -/
namespace CommandShell.Grammar

open Reading

/-- Left-associative operators, loosest first. -/
private def binaryLevels : List (List String) :=
  [["||"], ["&&"], ["|"], ["^"], ["&"], ["==", "!="], ["<", ">", "<=", ">="], ["<<", ">>"],
   ["+", "-"], ["*", "/", "%"]]

private def assignments : List String :=
  ["=", "+=", "-=", "*=", "/=", "%=", "&=", "|=", "^=", "<<=", ">>="]

private def operatorIn (ops : List String) : Reading (Option String) := do
  match (← get).token with
  | .op text => return if ops.contains text then some text else none
  | _ => return none

private def needsExpression (place : Position) (op : Bytes) : Option Operand → Reading Unit
  | some _ => pure ()
  | none => mustFollow place op "an expression"

private def followsExpression (op : Bytes) : Option Operand → Reading Unit
  | some _ => pure ()
  | none => fail (op ++ " must follow an expression")

namespace Solver

variable (r : Solver)

private def nextOperand : Reading Unit := do
  r.next
  r.skipNewline

private def index : Reading Unit := do
  let place := (← get).place
  r.next
  if ← at? "*" then setValue .litWord "*"
  needsExpression place "[" (← r.solve .expression)
  if !(← r.takeOp "]") then arithmeticUnmatched place "[" "]"

private def afterValue (x : Operand) : Reading (Option Operand) := do
  r.skipNewline
  match ← operatorIn ["++", "--"] with
  | none => return some x
  | some op =>
    if x ≠ .name then fail (op ++ " must follow a name")
    r.nextOperand
    return some .other

private def value : Reading (Option Operand) := do
  let s ← get
  match s.token with
  | .op "++" | .op "--" =>
    r.nextOperand
    if (← get).token ≠ .litWord then mustFollow s.place s.token.text "a literal"
    discard (r.solve .unary)
    return some .other
  | .op "(" =>
    r.nextOperand
    needsExpression s.place "(" (← r.solve .expression)
    r.matched s.place "(" ")"
    r.afterValue .other
  | .op "[" => fail "[ must follow a name"
  | .op ":" => fail "ternary operator missing ? before :"
  | .litWord =>
    r.next
    if ← at? "[" then
      r.index
      r.afterValue .name
    else r.afterValue (if Bytes.isName s.value then .name else .other)
  | _ =>
    match ← r.word with
    | none => return none
    | some [.lit raw] => r.afterValue (if Bytes.isName raw then .name else .other)
    | some _ => r.afterValue .other

def unary : Reading (Option Operand) := do
  r.skipNewline
  let s ← get
  match ← operatorIn ["!", "~", "+", "-"] with
  | some op =>
    r.nextOperand
    needsExpression s.place op (← r.solve .unary)
    return some .other
  | none => r.value

private def power (fuel : Nat) : Reading (Option Operand) := do
  let x ← r.unary
  match fuel with
  | 0 => exhausted
  | n + 1 =>
    let s ← get
    if ← at? "**" then
      followsExpression "**" x
      r.nextOperand
      needsExpression s.place "**" (← power n)
      return some .other
    else return x

private def chain (ops : List String) (operand : Reading (Option Operand)) :
    Reading (Option Operand) := do
  go (2 * (← get).size + 8) (← operand)
where
  go : Nat → Option Operand → Reading (Option Operand)
    | 0, _ => exhausted
    | n + 1, x => do
      let s ← get
      match ← operatorIn ops with
      | none => return x
      | some op =>
        followsExpression op x
        r.nextOperand
        needsExpression s.place op (← operand)
        go n (some .other)

private def binary : List (List String) → Reading (Option Operand)
  | [] => do r.power (2 * (← get).size + 8)
  | ops :: tighter => r.chain ops (binary tighter)

private def ternary (fuel : Nat) : Reading (Option Operand) := do
  let x ← r.binary binaryLevels
  match fuel with
  | 0 => exhausted
  | n + 1 =>
    let quest := (← get).place
    if ← at? "?" then
      followsExpression "?" x
      r.nextOperand
      if ← at? ":" then mustFollow quest "?" "an expression"
      needsExpression quest "?" (← r.solve .expression)
      if !(← at? ":") then failAt quest "ternary operator missing : after ?"
      let colon := (← get).place
      r.nextOperand
      needsExpression colon ":" (← ternary n)
      return some .other
    else return x

private def assignment (fuel : Nat) : Reading (Option Operand) := do
  let x ← r.ternary (2 * (← get).size + 8)
  match fuel with
  | 0 => exhausted
  | n + 1 =>
    let s ← get
    match ← operatorIn assignments with
    | none => return x
    | some op =>
      if x ≠ some .name then fail (op ++ " must follow a name")
      r.nextOperand
      needsExpression s.place op (← assignment n)
      return some .other

/-- A whole expression; commas join assignments. -/
def expression : Reading (Option Operand) := do
  r.chain [","] (r.assignment (2 * (← get).size + 8))

end Solver

end CommandShell.Grammar
