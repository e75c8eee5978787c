import CommandShell.Tree

/-! Which trees can be executed, and the first reason why another cannot. -/
namespace CommandShell

namespace Tree

inductive Defect where
  | absent
  | noArguments
  | operands
  | redirected (kind : Kind)
  | missingOperand (kind : Kind)
  | emptyGroup
  | rightOperand
  | unknownKind (kind : Kind)
  deriving DecidableEq, Repr

def Defect.message : Defect → Bytes
  | .absent => "nil node"
  | .noArguments => "plain command has no arguments"
  | .operands => "plain command has operands"
  | .redirected kind => kind.name ++ " node carries redirections"
  | .missingOperand kind => kind.name ++ " node is missing an operand"
  | .emptyGroup => "subshell is empty"
  | .rightOperand => "subshell has a right operand"
  | .unknownKind kind => "unknown node kind: " ++ kind.name

/-- The first defect in the order of a left-to-right walk; a node is looked at before its
operands. -/
def defect? : Tree → Option Defect
  | absent => some .absent
  | node .plain argv _ left right =>
    if argv.isEmpty then some .noArguments
    else if !left.isAbsent || !right.isAbsent then some .operands
    else none
  | node .subshell _ _ left right =>
    if left.isAbsent then some .emptyGroup
    else if !right.isAbsent then some .rightOperand
    else left.defect?
  | node (.unknown n) _ _ _ _ => some (.unknownKind (.unknown n))
  | node kind _ files left right =>
    if files.any then some (.redirected kind)
    else if left.isAbsent || right.isAbsent then some (.missingOperand kind)
    else left.defect?.or right.defect?

def isValid (t : Tree) : Bool := t.defect?.isNone

end Tree

end CommandShell
