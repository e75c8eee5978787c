import CommandShell.Program

/-! A collection of small programs. The name a program was called by selects it. -/
namespace CommandShell.Program

private def joined (args : List Bytes) : Bytes := Bytes.join " " args ++ "\n"

private def all (s : Bytes) : Nat := s.length

private def oneLine (s : Bytes) : Nat :=
  let line := s.takeWhile (· != 10)
  if line.length < s.length then line.length + 1 else line.length

private def dropNewline (line : Bytes) : Bytes :=
  if Bytes.endsWith line "\n" then line.dropLast else line

private def number (args : List Bytes) : Int :=
  match args with
  | (45 :: digits) :: _ => -((Bytes.toNat? digits).getD 0)
  | (43 :: digits) :: _ => (Bytes.toNat? digits).getD 0
  | digits :: _ => (Bytes.toNat? digits).getD 0
  | [] => 0

/-- Shows files one after the other and goes on after one that cannot be read. -/
private def showFiles (code : UInt8) : List Bytes → Program
  | [] => exit code
  | path :: rest =>
    readFile path fun
      | some data => print data (showFiles code rest)
      | none => complain ("cat: " ++ path ++ ": failed\n") (showFiles 1 rest)

private def eachPath (name : Bytes) (action : Bytes → (Bool → Program) → Program) (code : UInt8) :
    List Bytes → Program
  | [] => exit code
  | path :: rest =>
    action path fun
      | true => eachPath name action code rest
      | false => complain (name ++ ": " ++ path ++ ": failed\n") (eachPath name action 1 rest)

private def sortLines (s : Bytes) : Bytes :=
  (Bytes.sort ((Bytes.lines s).map dropNewline)).flatMap (· ++ [10])

private def showEnvironment (env args : List Bytes) : Program :=
  let lines := (·.flatMap (· ++ [10]))
  match args with
  | [] => print (lines env) (exit 0)
  | name :: _ =>
    let shown := env.filter (Bytes.startsWith · (name ++ "="))
    print (lines shown) (exit (if shown.isEmpty then 1 else 0))

private def filter (f : Bytes → Bytes) : Program := read all fun s => print (f s) (exit 0)

private def counts (s : Bytes) : Bytes :=
  Bytes.ofNat s.length ++ " " ++ Bytes.ofNat (s.count 10) ++ "\n"

private def showFirstLine : Program :=
  read oneLine fun s => if s.isEmpty then exit 1 else print (dropNewline s ++ "\n") (exit 0)

/-- The programs by name, given how they are called and their arguments. -/
private def table : List (Bytes × (Invocation → List Bytes → Program)) := [
  ("true", fun _ _ => exit 0),
  ("false", fun _ _ => exit 1),
  ("echo", fun _ args => print (joined args) (exit 0)),
  ("err", fun _ args => complain (joined args) (exit 0)),
  ("both", fun _ args => print ("o:" ++ joined args) (complain ("e:" ++ joined args) (exit 0))),
  ("cat", fun _ args => if args.isEmpty then copy (exit 0) else showFiles 0 args),
  ("args", fun i _ => print (i.argv.flatMap fun a => "[" ++ a ++ "]\n") (exit 0)),
  ("env", fun i args => showEnvironment i.env args),
  ("pwd", fun i _ => print (Place.path i.dir ++ "\n") (exit 0)),
  ("exit", fun _ args => exit (number args % 256).toNat.toUInt8),
  ("die", fun _ _ => die),
  ("sort", fun _ _ => filter sortLines),
  ("upper", fun _ _ => filter (·.map Bytes.toUpper)),
  ("count", fun _ _ => filter counts),
  ("line", fun _ _ => showFirstLine),
  ("gen", fun _ args => print (List.replicate (number args).toNat 120) (exit 0)),
  ("rm", fun _ args => eachPath "rm" remove 0 args),
  ("mkdir", fun _ args => eachPath "mkdir" makeDirectory 0 args)]

def names : List Bytes := table.map Prod.fst

/-- What the program that is called by the first word does; other names do nothing and fail. -/
def collection : Programs := fun i =>
  let name := Path.base (i.argv.headD [])
  match table.find? (·.1 == name) with
  | some (_, program) => program i i.argv.tail
  | none => exit 127

end CommandShell.Program
