import CommandShell.Path

/-! What the configuration needs of a file system, and a file system that is only a table of
paths. -/
namespace CommandShell

/-- Why an operation on files failed; `missing` says that a file does not exist. -/
structure StorageFailure where
  missing : Bool := false
  message : Bytes
  deriving DecidableEq, Repr

/-- Operations on files with paths as they are given. New files are for their owner only, and so are
new directories. -/
structure Storage (σ : Type) where
  makeDirectories : Bytes → σ → Except StorageFailure σ
  contains : Bytes → σ → Except StorageFailure Bool
  read : Bytes → σ → Except StorageFailure Bytes
  write : Bytes → Bytes → σ → Except StorageFailure σ
  append : Bytes → Bytes → σ → Except StorageFailure σ

/-- A file or directory of a table. A file becomes a directory when something is put below it. -/
structure TableFile where
  directory : Bool
  data : Bytes := []
  deriving DecidableEq, Repr

structure FileTable where
  entries : List (Bytes × TableFile) := []
  deriving DecidableEq, Repr

namespace FileTable

def key (path : Bytes) : Bytes := Path.join ["/", path]

def find? (t : FileTable) (path : Bytes) : Option TableFile :=
  (t.entries.find? (·.1 == key path)).map Prod.snd

def put (t : FileTable) (path : Bytes) (file : TableFile) : FileTable :=
  ⟨(key path, file) :: t.entries.filter (·.1 != key path)⟩

def above (path : Bytes) : List Bytes :=
  let parts := (Bytes.splitOn 47 (key path)).filter (!·.isEmpty)
  (List.range (parts.length - 1)).map fun n => "/" ++ Bytes.join "/" (parts.take (n + 1))

def makeAbove (t : FileTable) (path : Bytes) : FileTable :=
  (above path).foldl (fun t dir =>
    t.put dir { data := ((t.find? dir).map TableFile.data).getD [], directory := true }) t

def makeDirectories (t : FileTable) (path : Bytes) : FileTable :=
  if (t.find? path).isSome || key path == "/" then t
  else (t.makeAbove path).put path { directory := true }

/-- Replaces what a file holds; one that does not exist is made. -/
def write (t : FileTable) (path data : Bytes) : FileTable :=
  match t.find? path with
  | some file => t.put path { file with data }
  | none => (t.makeAbove path).put path { directory := false, data }

def read? (t : FileTable) (path : Bytes) : Option Bytes := (t.find? path).map TableFile.data

/-- All files in the order of their paths, with a directory before what it holds. -/
def listing (t : FileTable) : List (Bytes × TableFile) :=
  t.entries.mergeSort fun a b => Bytes.le (a.1.map order) (b.1.map order)
where
  order (b : UInt8) : UInt8 := if b = 47 then 0 else b

def storage : Storage FileTable where
  makeDirectories path t := .ok (t.makeDirectories path)
  contains path t := .ok (t.find? path).isSome
  read path t :=
    match t.read? path with
    | some data => .ok data
    | none =>
      .error { missing := true, message := "open " ++ Path.clean path ++ ": file does not exist" }
  write path data t := .ok (t.write path data)
  append path data t := .ok (t.write path ((t.read? path).getD [] ++ data))

end FileTable

end CommandShell
