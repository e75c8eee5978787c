import CommandShell.Program

/-! Starting programs: a file is run itself if it is a program, or else by the interpreter that its
first line names. -/
namespace CommandShell.Launch

inductive Failure where
  | chdir (dir : Bytes) (e : PathError)
  | exec (path : Bytes) (e : PathError)
  deriving DecidableEq, Repr

def Failure.message : Failure → Bytes
  | chdir dir e => "chdir " ++ dir ++ ": " ++ e.message
  | exec path e => "fork/exec " ++ path ++ ": " ++ e.message

inductive Shortage where
  | processes
  | memory
  deriving DecidableEq, Repr

def Shortage.message : Shortage → Bytes
  | processes => "resource temporarily unavailable"
  | memory => "cannot allocate memory"

/-- What a file starts with that is a program itself. -/
def imageMark : Bytes := "\x7fELF"

private def isBlank (b : UInt8) : Bool := b == 32 || b == 9

/-- How much of a file counts as its first line. -/
private def headSize : Nat := 256

private def dropTrailingBlanks (s : Bytes) : Bytes := (s.reverse.dropWhile isBlank).reverse

/-- The interpreter that the first line names, and one argument. The line must not be cut off within
the name. -/
def interpreter? (data : Bytes) : Option (Bytes × List Bytes) :=
  let head := data.take headSize
  let line := (head.drop 2).takeWhile (· != 10)
  let ended := head.contains 10
  let line := if ended then dropTrailingBlanks line else line
  let line := line.dropWhile isBlank
  let name := line.takeWhile fun b => !isBlank b && b != 0
  let rest := line.drop name.length
  let cut := !ended && rest.isEmpty && headSize ≤ data.length
  if name.isEmpty || cut then none
  else
    let argument := (rest.dropWhile isBlank).takeWhile (· != 0)
    some (name, if argument.isEmpty then [] else [argument])

/-- How many interpreters may follow one another. -/
def interpreterLimit : Nat := 6

/-- The words that a file is finally run with. -/
def resolve (disk : Disk) (dir : Place) : Nat → Bytes → List Bytes → Except PathError (List Bytes)
  | 0, _, _ => .error .tooManyLinks
  | n + 1, path, argv =>
    match disk.stat dir path with
    | .error e => .error e
    | .ok (_, .file mode id) =>
      let data := disk.content id
      if !(Item.file mode id).isRunnable then .error .denied
      else if Bytes.startsWith data imageMark then .ok argv
      else if Bytes.startsWith data "#!" then
        match interpreter? data with
        | some (name, argument) =>
          resolve disk dir n name (name :: (argument ++ path :: argv.tail))
        | none => .error .badFormat
      else .error .badFormat
    | .ok _ => .error .denied

/-- The environment of a process has one entry for each name, the last one. -/
def lastOfEach : List Bytes → List Bytes
  | [] => []
  | entry :: rest =>
    let name := entry.takeWhile (· != 61)
    let later := lastOfEach rest
    if later.any fun other => other.takeWhile (· != 61) == name then later else entry :: later

/-- Checks everything that is needed to start a program and gives it the words it is run with. -/
def prepare (disk : Disk) (dir path : Bytes) (argv env : List Bytes) :
    Except Failure Invocation :=
  match disk.stat [] dir with
  | .error e => .error (.chdir dir e)
  | .ok (place, item) =>
    if (argv ++ env).any (·.contains 0) then .error (.exec path .invalid)
    else if !item.isDirectory then .error (.exec path .notDirectory)
    else match resolve disk place interpreterLimit path argv with
      | .error e => .error (.exec path e)
      | .ok argv => .ok { argv, env := lastOfEach env, dir := place }

end CommandShell.Launch
