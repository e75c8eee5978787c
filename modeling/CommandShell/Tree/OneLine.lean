import CommandShell.Tree

/-! Trees on one line, such as Pipe(Plain[echo hi], Plain[cat]). -/
namespace CommandShell

namespace Tree

def needsQuotes (b : UInt8) : Bool := (" \t\n\"'\\[]()" : Bytes).contains b

/-- A word as it stands, or quoted when it is empty or could be mistaken for structure. -/
def showWord (w : Bytes) : Bytes :=
  if w.isEmpty || w.any needsQuotes then Bytes.quoted w else w

def showTarget (op target : Bytes) : Bytes :=
  if target.isEmpty then [] else " " ++ op ++ showWord target

def showRedirections (r : Redirections) : Bytes :=
  showTarget "<" r.input ++ showTarget ">" r.output ++ showTarget ">>" r.append ++
    showTarget "2>" r.error

def title : Kind → Bytes
  | .sequence => "Sequence"
  | .and => "And"
  | .or => "Or"
  | .pipe => "Pipe"
  | kind => kind.name

def oneLine : Tree → Bytes
  | absent => "<nil>"
  | node .plain argv files _ _ =>
    "Plain[" ++ Bytes.join " " (argv.map showWord) ++ showRedirections files ++ "]"
  | node .subshell _ files left _ =>
    "SubShell(" ++ left.oneLine ++ showRedirections files ++ ")"
  | node (.unknown n) _ _ _ _ => "Unknown<" ++ (Kind.unknown n).name ++ ">"
  | node kind _ _ left right =>
    title kind ++ "(" ++ left.oneLine ++ ", " ++ right.oneLine ++ ")"

end Tree

end CommandShell
