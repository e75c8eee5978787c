import CommandShell.Grammar.Diagnosis
import CommandShell.Line.Lexeme
import CommandShell.Tree

/-! The accepted language: lexemes drive a machine that builds the command tree. Its state is what
has been read of the innermost group and of the groups around it. -/
namespace CommandShell.Line

inductive Slot where
  | argument
  | input
  | output
  | append
  | error
  deriving DecidableEq, Repr

/-- What a stage is made of: words so far, or a finished group. -/
inductive Base where
  | words (argv : List Bytes)
  | group (inner : Tree)
  deriving DecidableEq, Repr

/-- What was read last in a stage: a complete item, the number of a redirection, a redirection
operator, or a word that may still grow. -/
inductive Focus where
  | rest
  | number (n : Bytes)
  | target (slot : Slot)
  | word (slot : Slot) (text : Bytes)
  deriving DecidableEq, Repr

inductive Stage where
  | idle
  | reading (base : Base) (files : Redirections) (focus : Focus)
  deriving DecidableEq, Repr

/-- One list of statements in progress: those finished, an operand waiting for the other side of
its operator, the pipeline stages already joined, and the stage being read. -/
structure Level where
  done : Tree := .absent
  chain : Option (Kind × Tree) := none
  stages : Option Tree := none
  stage : Stage := .idle
  deriving DecidableEq, Repr

/-- The innermost list, and the lists whose groups are still open. -/
structure State where
  level : Level := {}
  outer : List Level := []
  deriving DecidableEq, Repr

/-- Words with a meaning of their own at the start of a command. -/
def isReserved (raw : Bytes) : Bool :=
  ([ "!", "\x7b", "\x7d", "if", "then", "elif", "fi", "while", "until", "do", "done", "for",
     "case", "esac"] : List Bytes).contains raw

/-- A name and an equals sign in front make a variable assignment. -/
def isAssignment (raw : Bytes) : Bool :=
  raw.contains 61 && Bytes.isName (raw.takeWhile (· != 61))

def setTarget (files : Redirections) : Slot → Bytes → Redirections
  | .argument, _ => files
  | .input, s => { files with input := s }
  | .output, s => { files with output := s }
  | .append, s => { files with append := s }
  | .error, s => { files with error := s }

/-- Puts a finished word in its place; a redirection needs a target that is not empty, and a group
takes no words. -/
def settle (base : Base) (files : Redirections) : Focus → Option (Base × Redirections)
  | .rest => some (base, files)
  | .number _ => none
  | .target _ => none
  | .word .argument text =>
    match base with
    | .words argv => some (.words (argv ++ [text]), files)
    | .group _ => none
  | .word slot text => if text.isEmpty then none else some (base, setTarget files slot text)

/-- The slot of a redirection operator with its number, if it has one. -/
def redirectionSlot : Operator → Option Bytes → Option Slot
  | .less, none => some .input
  | .less, some n => if n = ("0" : Bytes) then some .input else none
  | .great, none => some .output
  | .great, some n =>
    if n = ("1" : Bytes) then some .output else if n = ("2" : Bytes) then some .error else none
  | .dgreat, none => some .append
  | .dgreat, some n => if n = ("1" : Bytes) then some .append else none
  | _, _ => none

def Stage.tree? : Stage → Option Tree
  | .idle => none
  | .reading base files focus =>
    match settle base files focus with
    | some (.words (w :: ws), files) => some (.plain (w :: ws) files)
    | some (.group inner, files) => some (.subshell inner files)
    | _ => none

def joinStages (stages : Option Tree) (t : Tree) : Tree :=
  match stages with
  | none => t
  | some l => .pipe l t

def joinChain (chain : Option (Kind × Tree)) (t : Tree) : Tree :=
  match chain with
  | none => t
  | some (kind, l) => .binary kind l t

def joinDone (done t : Tree) : Tree := if done.isAbsent then t else .sequence done t

def Level.endStatement (lv : Level) : Option Level :=
  lv.stage.tree?.map fun t =>
    { done := joinDone lv.done (joinChain lv.chain (joinStages lv.stages t)) }

/-- The statements of a list that has ended; an operator must not wait for its right side. -/
def Level.tree? (lv : Level) : Option Tree :=
  match lv.stage with
  | .idle => if lv.chain.isNone && lv.stages.isNone then some lv.done else none
  | _ => lv.endStatement.map (·.done)

/-- A new item of a command behind the words in `base`. -/
def startItem (base : Base) (files : Redirections) : Lexeme → Option Stage
  | .bare raw .number => some (.reading base files (.number raw))
  | .bare raw ending =>
    match base with
    | .group _ => none
    | .words argv =>
      if argv.isEmpty && isAssignment raw then none
      else if ending = .word then
        some (.reading (.words (argv ++ [unescape false raw])) files .rest)
      else some (.reading base files (.word .argument (unescape false raw)))
  | .part value =>
    match base with
    | .group _ => none
    | .words _ => some (.reading base files (.word .argument value))
  | _ => none

/-- What a lexeme contributes to a word it is part of. -/
def Lexeme.value : Lexeme → Bytes
  | .bare raw _ => unescape false raw
  | .part value => value
  | _ => []

def Stage.word (spaced : Bool) (x : Lexeme) : Stage → Option Stage
  | .idle =>
    match x with
    | .bare raw .word => if isReserved raw then none else startItem (.words []) .none x
    | _ => startItem (.words []) .none x
  | .reading base files focus =>
    match focus with
    | .number _ => none
    | .target slot => some (.reading base files (.word slot x.value))
    | .word slot text =>
      if !spaced then some (.reading base files (.word slot (text ++ x.value)))
      else (settle base files focus).bind fun (base, files) => startItem base files x
    | .rest => startItem base files x

def Stage.redirect (op : Operator) : Stage → Option Stage
  | .idle => (redirectionSlot op none).map fun slot => .reading (.words []) .none (.target slot)
  | .reading base files (.number n) =>
    (redirectionSlot op (some n)).map fun slot => .reading base files (.target slot)
  | .reading base files focus =>
    (settle base files focus).bind fun (base, files) =>
      (redirectionSlot op none).map fun slot => .reading base files (.target slot)

def State.step (st : State) (x : Spaced) : Option State :=
  let lv := st.level
  match x.lexeme with
  | .newline => if lv.stage = .idle then some st else lv.endStatement.map ({ st with level := · })
  | .operator .semicolon => lv.endStatement.map ({ st with level := · })
  | .operator .pipe =>
    lv.stage.tree?.map fun t =>
      { st with level := { lv with stages := some (joinStages lv.stages t), stage := .idle } }
  | .operator .andIf =>
    lv.stage.tree?.map fun t =>
      { st with level := { done := lv.done,
                           chain := some (.and, joinChain lv.chain (joinStages lv.stages t)) } }
  | .operator .orIf =>
    lv.stage.tree?.map fun t =>
      { st with level := { done := lv.done,
                           chain := some (.or, joinChain lv.chain (joinStages lv.stages t)) } }
  | .operator .open =>
    if lv.stage = .idle then some { level := {}, outer := lv :: st.outer } else none
  | .operator .close =>
    match st.outer, lv.tree? with
    | up :: outer, some inner =>
      if inner.isAbsent then none
      else some { level := { up with stage := .reading (.group inner) .none .rest }, outer }
    | _, _ => none
  | .operator op => (lv.stage.redirect op).map fun stage => { st with level := { lv with stage } }
  | word => (lv.stage.word x.spaced word).map fun stage => { st with level := { lv with stage } }

def State.run : State → List Spaced → Option State
  | st, [] => some st
  | st, x :: xs => (st.step x).bind (·.run xs)

/-- The tree once the line has ended; every group must be closed. -/
def State.tree? (st : State) : Option Tree :=
  if st.outer.isEmpty then st.level.tree? else none

/-- The tree of a line of the accepted language, absent for a line without commands. -/
def read? (line : Bytes) : Option Tree := do
  let xs ← lexemes line
  let st ← State.run {} xs
  st.tree?

/-- A line of the accepted language gives its tree; any other gives the fault found by reading it
as full shell text. -/
def parse (line : Bytes) : Except Grammar.Fault Tree :=
  match read? line with
  | some tree => .ok tree
  | none =>
    .error ((Grammar.fault? line).getD (.malformed ⟨0, 0⟩ "unreadable line"))

end CommandShell.Line
