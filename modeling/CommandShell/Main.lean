import CommandShell.CommandLine
import CommandShell.Sandbox

/-! The program: one run of the command line in a closed world, which is gone when the run has ended. -/
namespace CommandShell.Main

def settings : List String :=
  ["NAME", "PROMPT", "COLOR_PROMPT", "BANNER", "HISTORY_FILE", "EVENT_LOG", "SUBSHELL_STATUS",
    "ALIASES"].map ("MYSHELL_" ++ ·)

def environment : IO Environment :=
  settings.foldlM (fun env name => do
    return match ← IO.getEnv name with
      | some value => env.set name value
      | none => env) (Environment.ofListing ["HOME=/home", "PATH=/bin"])

partial def readAll (stream : IO.FS.Stream) (before : ByteArray) : IO Bytes := do
  let block ← stream.read 4096
  if block.isEmpty then return before.data.toList else readAll stream (before ++ block)

def print (stream : IO.FS.Stream) (text : Bytes) : IO Unit := do
  stream.write ⟨text.toArray⟩
  stream.flush

def readsInput (args : List Bytes) : Bool :=
  match CommandLine.parse args with
  | .ok call => call.command == .shell && call.options.command.isNone && !call.wantsHelp
  | .error _ => false

def host (env : Environment) (lines : Nat) : CommandLine.Host :=
  { env, dir := "/", place := [], streams := Sandbox.streams, programs := Program.collection,
    session := "session", lines }

end CommandShell.Main

open CommandShell in
def main (args : List String) : IO UInt32 := do
  let args := args.map Bytes.ofString
  let input ← if Main.readsInput args then Main.readAll (← IO.getStdin) .empty else pure []
  let world := Sandbox.start (Sandbox.disk []) input
  let stdout ← IO.getStdout
  let stderr ← IO.getStderr
  -- every line takes a byte, and nothing is added to the input
  match (Main.host (← Main.environment) (input.length + 1)).run args world with
  | .error e =>
    Main.print stderr ("Error: " ++ e.message ++ "\n")
    return 1
  | .ok result =>
    Main.print stdout (result.output ++ Sandbox.contents result.world Sandbox.streams.output)
    Main.print stderr (result.notices ++ Sandbox.contents result.world Sandbox.streams.error)
    Main.print stderr result.world.log
    for e in result.error do
      Main.print stderr ("Error: " ++ e ++ "\n")
    return (Status.exitCode result.exit).toNat.toUInt32
