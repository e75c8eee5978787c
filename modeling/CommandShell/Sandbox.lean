import CommandShell.Launch
import CommandShell.Program.Collection

/-! A closed world to run commands in: a disk with a working directory, the collection of programs in
a directory below it, and three nameless files for the standard streams. -/
namespace CommandShell.Sandbox

def disk (base : Place) : Disk :=
  let dirs := (List.range base.length).map fun n => base.take (n + 1)
  let bin := base ++ [("bin" : Bytes)]
  let d : Disk := ({} : Disk).put ["dev"] (.directory 0o755)
  let d := d.put ["dev", "null"] .null
  let d := (dirs ++ [bin]).foldl (fun d dir => d.put dir (.directory 0o755)) d
  Program.names.foldl (fun d name => d.putFile (bin ++ [name]) 0o755 Launch.imageMark) d

/-- The standard streams of a world made by `start`. -/
def streams : Streams := { input := 0, output := 1, error := 2 }

/-- Opens a nameless file with a text. -/
def addStream (w : World) (data : Bytes) : World :=
  let (id, disk) := w.disk.addContent data
  ({ w with disk }.add { source := .disk (.content id) }).2

/-- Opens the standard streams, with a text to read. -/
def start (d : Disk) (input : Bytes) : World :=
  [input, [], []].foldl addStream { disk := d }

/-- What was written to a stream that has not been closed. -/
def contents (w : World) (handle : Nat) : Bytes :=
  match w.file? handle with
  | some { source := .disk (.content id), .. } => w.disk.content id
  | _ => []

end CommandShell.Sandbox
