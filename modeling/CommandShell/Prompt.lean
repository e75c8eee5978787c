import CommandShell.Bytes

/-! Prompt templates. -/
namespace CommandShell.Prompt

/-- What a template can refer to; `color` paints the user, the host and the directory. -/
structure Facts where
  name : Bytes := []
  user : Bytes := []
  host : Bytes := []
  dir : Bytes := []
  home : Bytes := []
  root : Bool := false
  color : Bool := false

private def paint (facts : Facts) (code text : Bytes) : Bytes :=
  if facts.color then "\x1b[" ++ code ++ ";1m" ++ text ++ "\x1b[0m" else text

/-- A directory below home starts with a tilde. -/
def shortenHome (dir home : Bytes) : Bytes :=
  let home := if Bytes.endsWith home "/" then home.dropLast else home
  if home.isEmpty then dir
  else if dir == home then "~"
  else if Bytes.startsWith dir (home ++ "/") then "~" ++ dir.drop home.length
  else dir

/-- What a letter behind a backslash stands for; other letters stay as they are. -/
def escape (facts : Facts) (b : UInt8) : Bytes :=
  if b = 115 then facts.name
  else if b = 117 then paint facts "32" facts.user
  else if b = 104 then paint facts "32" (facts.host.takeWhile (· != 46))
  else if b = 119 then paint facts "34" (shortenHome facts.dir facts.home)
  else if b = 36 then if facts.root then "#" else "$"
  else if b = 92 then "\\"
  else [92, b]

def expand (facts : Facts) : Bytes → Bytes
  | [] => []
  | [b] => [b]
  | b :: c :: s =>
    if b = 92 then escape facts c ++ expand facts s else b :: expand facts (c :: s)

end CommandShell.Prompt
