import CommandShell.Surroundings

/-! The builtin that changes the working directory. -/
namespace CommandShell.ChangeDirectory

def truth? (s : Bytes) : Option Bool :=
  let word := s.map Bytes.toLower
  if (["", "1", "true", "on", "t"] : List Bytes).contains word then some true
  else if (["0", "false", "off", "f"] : List Bytes).contains word then some false
  else none

/-- What a word that starts with two dashes says about help; nothing if it is no option. -/
def longOption? (name : Bytes) : Option Bool :=
  let (name, value) := (Bytes.cut 61 name).getD (name, [])
  if name == "help" || name == "h" then truth? value else none

/-- Goes through the options: whether help is asked for, and the words after them. There is no
result if a word is no option. -/
def options (help : Bool) : List Bytes → Option (Bool × List Bytes)
  | [] => some (help, [])
  | word :: rest =>
    match word with
    | [45, 45] => some (help, rest)
    | 45 :: 45 :: name => (longOption? name).bind fun b => options b rest
    | [45] => some (help, word :: rest)
    | 45 :: letters => if letters.all (· == 104) then options true rest else none
    | _ => some (help, word :: rest)

inductive Request where
  | help
  | home
  | to (dir : Bytes)
  deriving DecidableEq, Repr

/-- Words that cannot be understood as options make the first word a directory. -/
def request (args : List Bytes) : Request :=
  match options false args with
  | some (true, _) => .help
  | some (false, dir :: _) => .to dir
  | some (false, []) => .home
  | none => .to (args.headD [])

def helpText : Bytes :=
  "usage: cd [dir]\n" ++
  "Change the shell working directory, $HOME if dir is omitted.\n\n" ++
  "Flags:\n" ++
  " -h, --help  show help and exit\n"

/-- What is to be printed, and the surroundings afterwards. -/
def run (disk : Disk) (old : Surroundings) (args : List Bytes) :
    Except Surroundings.Failure (Bytes × Surroundings) :=
  match request args with
  | .help => .ok (helpText, old)
  | .to dir => (old.enter disk dir).map fun moved => ([], moved)
  | .home => (old.enterHome disk).map fun moved => ([], moved)

end CommandShell.ChangeDirectory
