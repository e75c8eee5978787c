import CommandShell.Path

/-! A file system: directories, files, symbolic links and one device that holds nothing. Names are
kept by their place, which has no links and no detours, and what files hold is kept apart from their
names, so that a file in use outlives its name. -/
namespace CommandShell

inductive PathError where
  | missing
  | notDirectory
  | isDirectory
  | denied
  | tooManyLinks
  | nameTooLong
  | invalid
  | alreadyExists
  | notEmpty
  | tooManyFiles
  | badFormat
  deriving DecidableEq, Repr

def PathError.message : PathError → Bytes
  | missing => "no such file or directory"
  | notDirectory => "not a directory"
  | isDirectory => "is a directory"
  | denied => "permission denied"
  | tooManyLinks => "too many levels of symbolic links"
  | nameTooLong => "file name too long"
  | invalid => "invalid argument"
  | alreadyExists => "file exists"
  | notEmpty => "directory not empty"
  | tooManyFiles => "too many open files"
  | badFormat => "exec format error"

/-- The names that lead from the root to something. -/
abbrev Place := List Bytes

/-- What a name stands for. The content of a file is known by its number. -/
inductive Item where
  | directory (mode : Nat)
  | file (mode content : Nat)
  | link (target : Bytes)
  | null
  deriving DecidableEq, Repr

def Item.isDirectory : Item → Bool
  | directory _ => true
  | _ => false

/-- Whether somebody may run it; directories and links cannot be run. -/
def Item.isExecutable : Item → Bool
  | file mode _ => mode &&& 0o111 != 0
  | _ => false

def Item.isRunnable : Item → Bool
  | file mode _ => mode &&& 0o100 != 0
  | _ => false

structure Disk where
  items : List (Place × Item) := [([], .directory 0o755)]
  contents : List Bytes := []
  deriving DecidableEq, Repr

def Place.path (place : Place) : Bytes := "/" ++ Bytes.join "/" place

namespace Disk

def item? (d : Disk) (place : Place) : Option Item := (d.items.find? (·.1 == place)).map Prod.snd

def erase (d : Disk) (place : Place) : Disk := { d with items := d.items.filter (·.1 != place) }

def put (d : Disk) (place : Place) (item : Item) : Disk :=
  { d.erase place with items := (place, item) :: (d.erase place).items }

def content (d : Disk) (id : Nat) : Bytes := d.contents.getD id []

def setContent (d : Disk) (id : Nat) (data : Bytes) : Disk :=
  { d with contents := d.contents.set id data }

/-- Adds a content that no name has, with its number. -/
def addContent (d : Disk) (data : Bytes) : Nat × Disk :=
  (d.contents.length, { d with contents := d.contents ++ [data] })

def putFile (d : Disk) (place : Place) (mode : Nat) (data : Bytes) : Disk :=
  let (id, d) := d.addContent data
  d.put place (.file mode id)

/-- What is below a place, by paths that start there, in the order of the paths. -/
def below (d : Disk) (place : Place) : List (Bytes × Item) :=
  let inside := d.items.filter fun (p, _) => place.isPrefixOf p && p.length > place.length
  let named := inside.map fun (p, item) => (Bytes.join "/" (p.drop place.length), item)
  named.mergeSort fun a b => Bytes.le a.1 b.1

/-- Where a path leads: to something, or to a name that is free in a directory that exists. -/
inductive Found where
  | item (place : Place) (item : Item)
  | free (place : Place)
  deriving DecidableEq, Repr

def nameLimit : Nat := 255

def pathLimit : Nat := 4095

def linkLimit : Nat := 40

/-- Goes through the parts of a path one by one. Every part, an empty one included, needs a directory
to start from. A link at the very end is gone through only if `follow` says so. -/
def walk (d : Disk) (follow : Bool) (links : Nat) (here : Place) (parts : List Bytes) :
    Except PathError Found :=
  match parts, d.item? here with
  | _, none => .error .missing
  | [], some item => .ok (.item here item)
  | part :: rest, some (.directory _) =>
    if part.isEmpty || part == "." then d.walk follow links here rest
    else if part == ".." then d.walk follow links here.dropLast rest
    else if part.length > nameLimit then .error .nameTooLong
    else
      let next := here ++ [part]
      match d.item? next with
      | none => if rest.all (·.isEmpty) then .ok (.free next) else .error .missing
      | some (.link target) =>
        if rest.isEmpty && !follow then .ok (.item next (.link target))
        else match links with
          | 0 => .error .tooManyLinks
          | links + 1 =>
            d.walk follow links (if Path.isAbsolute target then [] else here)
              (Bytes.splitOn 47 target ++ rest)
      | some _ => d.walk follow links next rest
  | _ :: _, some _ => .error .notDirectory
termination_by (links, parts.length)

def find (d : Disk) (follow : Bool) (cwd : Place) (path : Bytes) : Except PathError Found :=
  if path.contains 0 then .error .invalid
  else if path.isEmpty then .error .missing
  else if path.length > pathLimit then .error .nameTooLong
  else d.walk follow linkLimit (if Path.isAbsolute path then [] else cwd) (Bytes.splitOn 47 path)

def stat (d : Disk) (cwd : Place) (path : Bytes) : Except PathError (Place × Item) :=
  match d.find true cwd path with
  | .error e => .error e
  | .ok (.item place item) => .ok (place, item)
  | .ok (.free _) => .error .missing

def readFile (d : Disk) (cwd : Place) (path : Bytes) : Except PathError Bytes :=
  match d.stat cwd path with
  | .error e => .error e
  | .ok (_, .file _ id) => .ok (d.content id)
  | .ok (_, .null) => .ok []
  | .ok _ => .error .isDirectory

/-- A path without its last name, and that name; slashes at the end do not count. -/
def splitLast (path : Bytes) : List Bytes × Bytes :=
  let parts := (Bytes.splitOn 47 path).reverse.dropWhile (·.isEmpty)
  (parts.tail.reverse, parts.headD [])

/-- The directory that the last name of a path is in, and that name. -/
def parent (d : Disk) (cwd : Place) (path : Bytes) : Except PathError (Place × Bytes) :=
  match d.find true cwd path with
  | .error .invalid => .error .invalid
  | .error .nameTooLong => .error .nameTooLong
  | _ =>
    let (parts, name) := splitLast path
    match d.walk true linkLimit (if Path.isAbsolute path then [] else cwd) (parts ++ [[]]) with
    | .error e => .error e
    | .ok (.item place _) => .ok (place, name)
    | .ok (.free _) => .error .missing

def makeDirectory (d : Disk) (mode : Nat) (cwd : Place) (path : Bytes) : Except PathError Disk :=
  match d.find false cwd path with
  | .error e => .error e
  | .ok (.free place) => .ok (d.put place (.directory mode))
  | .ok (.item ..) => .error .alreadyExists

/-- Removes a file, a link or an empty directory by its name. -/
def remove (d : Disk) (cwd : Place) (path : Bytes) : Except PathError Disk :=
  match d.parent cwd path with
  | .error e => .error e
  | .ok (dir, name) =>
    if name.isEmpty || name == "." || name == ".." then .error .invalid
    else
      let place := dir ++ [name]
      match d.item? place with
      | none => .error .missing
      | some (.directory _) =>
        if (d.below place).isEmpty then .ok (d.erase place) else .error .notEmpty
      | some _ => if Bytes.endsWith path "/" then .error .notDirectory else .ok (d.erase place)

/-- What a file is opened for. Writing makes a file that does not exist. -/
inductive Access where
  | read
  /-- Writing from the start; what the file held is dropped. -/
  | replace (mode : Nat)
  /-- Writing at the end. -/
  | extend (mode : Nat)
  deriving DecidableEq, Repr

inductive Stream where
  | content (id : Nat)
  | directory
  | null
  deriving DecidableEq, Repr

def openItem (d : Disk) (access : Access) : Item → Except PathError (Stream × Disk)
  | .directory _ => if access matches .read then .ok (.directory, d) else .error .isDirectory
  | .file _ id =>
    .ok (.content id, if access matches .replace _ then d.setContent id [] else d)
  | .null => .ok (.null, d)
  | .link _ => .error .tooManyLinks

def openNew (d : Disk) (mode : Nat) (place : Place) : Stream × Disk :=
  (.content d.contents.length, d.putFile place mode [])

/-- Opens what a path leads to. A path that ends in a slash names a directory, and only reading can
open one. -/
def openPath (d : Disk) (access : Access) (cwd : Place) (path : Bytes) :
    Except PathError (Stream × Disk) :=
  let write (mode : Nat) :=
    if Bytes.endsWith path "/" then
      match d.parent cwd path with
      | .error e => .error e
      | .ok _ => .error .isDirectory
    else match d.find true cwd path with
      | .error e => .error e
      | .ok (.item _ item) => d.openItem access item
      | .ok (.free place) => .ok (d.openNew mode place)
  match access with
  | .read =>
    match d.stat cwd path with
    | .error e => .error e
    | .ok (_, item) => d.openItem .read item
  | .replace mode => write mode
  | .extend mode => write mode

end Disk

end CommandShell
