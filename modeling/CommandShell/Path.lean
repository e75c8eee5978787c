import CommandShell.Bytes

/-! Paths as text, with a slash between their components. -/
namespace CommandShell.Path

def isAbsolute (p : Bytes) : Bool := Bytes.startsWith p "/"

/-- The components kept so far, last first; a parent reference removes the last one, stays at the
front of a relative path and means nothing at the root. -/
def place (rooted : Bool) (kept : List Bytes) (part : Bytes) : List Bytes :=
  if part.isEmpty || part == "." then kept
  else if part == ".." then
    match kept with
    | [] => if rooted then [] else [part]
    | last :: rest => if last == ".." then part :: kept else rest
  else part :: kept

/-- The shortest path with the same meaning, by text alone. -/
def clean (p : Bytes) : Bytes :=
  let rooted := isAbsolute p
  let kept := ((Bytes.splitOn 47 p).foldl (place rooted) []).reverse
  if rooted then "/" ++ Bytes.join "/" kept
  else if kept.isEmpty then "."
  else Bytes.join "/" kept

/-- Joins parts, skipping empty ones. -/
def join (parts : List Bytes) : Bytes :=
  match parts.filter (!·.isEmpty) with
  | [] => []
  | parts => clean (Bytes.join "/" parts)

/-- A path seen from a directory. An absolute path stays as it is. -/
def resolve (dir p : Bytes) : Bytes := if isAbsolute p then p else join [dir, p]

/-- The absolute clean path that a path means in a directory. -/
def absolute (dir p : Bytes) : Bytes := if isAbsolute p then clean p else join [dir, p]

def dropTrailingSlashes (p : Bytes) : Bytes :=
  (p.reverse.dropWhile (· == 47)).reverse

def base (p : Bytes) : Bytes :=
  if p.isEmpty then "."
  else
    let p := dropTrailingSlashes p
    if p.isEmpty then "/" else (p.reverse.takeWhile (· != 47)).reverse

def directory (p : Bytes) : Bytes := clean (p.reverse.dropWhile (· != 47)).reverse

end CommandShell.Path
