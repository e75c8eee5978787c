import CommandShell.Disk
import CommandShell.Environment

/-! Finding the program that a word names. -/
namespace CommandShell.Search

inductive Failure where
  /-- No directory of the search path has it. -/
  | notFound
  | unreadable (path : Bytes) (e : PathError)
  | denied
  deriving DecidableEq, Repr

def Failure.message : Failure → Bytes
  | notFound => "executable file not found in $PATH"
  | unreadable path e => "stat " ++ path ++ ": " ++ e.message
  | denied => PathError.denied.message

def check (disk : Disk) (path : Bytes) : Except Failure Unit :=
  match disk.stat [] path with
  | .error e => .error (.unreadable path e)
  | .ok (_, item) => if item.isExecutable then .ok () else .error .denied

/-- The directories of a search path, in order. An empty text has none, and an empty element is the
working directory. -/
def elements (path : Bytes) : List Bytes :=
  if path.isEmpty then []
  else (Bytes.splitOn 58 path).map fun dir => if dir.isEmpty then "." else dir

/-- The path of a name in one directory of the search path. -/
def candidate (dir name element : Bytes) : Bytes := Path.resolve dir (Path.join [element, name])

/-- The first place of the search path where a name can be run. A name with a slash is a path
itself. -/
def lookup (disk : Disk) (env : Environment) (dir name : Bytes) : Except Failure Bytes :=
  if name.contains 47 then
    let path := Path.resolve dir name
    (check disk path).map fun _ => path
  else
    let candidates := (elements (env.get "PATH")).map (candidate dir name)
    match candidates.find? fun path => (check disk path).isOk with
    | some path => .ok path
    | none => .error .notFound

end CommandShell.Search
