import CommandShell.Grammar.Arithmetic
import CommandShell.Grammar.Statement

/-! The fault of a line: what is wrong with it as shell text, or the first thing in it this shell
does not run. -/
namespace CommandShell.Grammar

open Reading

private def answer {α : Type} (r : Solver) : Goal α → Reading α
  | .token => readToken (r.solve .token) (r.solve .heredocs)
  | .heredocs => r.heredocs
  | .parts => r.parts
  | .unary => r.unary
  | .expression => r.expression
  | .statements stops => r.statements stops
  | .statement ends operand => r.statement ends operand

/-- Answers goals that nest no deeper than the given depth. -/
private def solveWithin {α : Type} : Nat → Goal α → Reading α
  | 0, _ => exhausted
  | n + 1, goal => answer ⟨solveWithin n⟩ goal

private def wholeLine (r : Solver) : Reading (Option Fault) := do
  discard advance
  r.next
  let list ← r.solve (.statements [])
  r.solve .heredocs
  return list.fault

/-- The first fault of a line, errors of form before features that are missing. -/
def fault? (line : Bytes) : Option Fault :=
  let depth := 8 * line.length + 100
  match (wholeLine ⟨solveWithin depth⟩).run (.start line) with
  | .ok (fault, _) => fault
  | .error fault => some fault

end CommandShell.Grammar
