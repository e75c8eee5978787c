import CommandShell.Disk
import CommandShell.Storage

/-! A disk as the storage of configurations, with paths seen from a directory. -/
namespace CommandShell.Disk

def failure (action path : Bytes) (e : PathError) : StorageFailure :=
  { missing := e == .missing, message := action ++ " " ++ path ++ ": " ++ e.message }

/-- The part of a path in front of its last name and the slash before that; nothing if the name
stands alone or right below the root. -/
def above? (path : Bytes) : Option Bytes :=
  let named := (path.reverse.dropWhile (· == 47)).dropWhile (· != 47)
  if named.length > 1 then some named.tail.reverse else none

/-- Makes a directory and those above it that do not exist. -/
def makeDirectories (cwd : Place) :
    Nat → Bytes → Disk → Except StorageFailure Disk
  | 0, path, _ => .error (failure "mkdir" path .missing)
  | n + 1, path, d =>
    match d.stat cwd path with
    | .ok (_, item) =>
      if item.isDirectory then .ok d else .error (failure "mkdir" path .notDirectory)
    | .error _ => do
      let d ← match above? path with
        | some parent => makeDirectories cwd n parent d
        | none => .ok d
      match d.makeDirectory 0o700 cwd path with
      | .ok d => .ok d
      | .error e =>
        match d.find false cwd path with
        | .ok (.item _ (.directory _)) => .ok d
        | _ => .error (failure "mkdir" path e)

/-- What can be read from a path that can be opened; a directory gives nothing. -/
def readOpen (d : Disk) (cwd : Place) (path : Bytes) : Except StorageFailure Bytes :=
  match d.openPath .read cwd path with
  | .error e => .error (failure "open" path e)
  | .ok (.content id, _) => .ok (d.content id)
  | .ok _ => .ok []

def readFileAt (d : Disk) (cwd : Place) (path : Bytes) : Except StorageFailure Bytes :=
  match d.stat cwd path, d.readFile cwd path with
  | .error e, _ => .error (failure "open" path e)
  | _, .error e => .error (failure "read" path e)
  | _, .ok data => .ok data

def update (d : Disk) (access : Access) (change : Bytes → Bytes) (cwd : Place) (path : Bytes) :
    Except StorageFailure Disk :=
  match d.openPath access cwd path with
  | .error e => .error (failure "open" path e)
  | .ok (.content id, d) => .ok (d.setContent id (change (d.content id)))
  | .ok (_, d) => .ok d

def storage (cwd : Place) : Storage Disk where
  makeDirectories path d := makeDirectories cwd (path.length + 1) path d
  contains path d :=
    match d.stat cwd path with
    | .ok _ => .ok true
    | .error .missing => .ok false
    | .error e => .error (failure "stat" path e)
  read path d := d.readFileAt cwd path
  write path data d := d.update (.replace 0o600) (fun _ => data) cwd path
  append path data d := d.update (.extend 0o600) (· ++ data) cwd path

end CommandShell.Disk
