import CommandShell.Bytes.Quoted
import CommandShell.Config.Variables

/-! The arguments of the command line: which command they call, its flags and what is left. Flags
and other arguments may be mixed, two dashes end the flags, and the last value of a flag counts. -/
namespace CommandShell.CommandLine

inductive Command where
  | shell
  | create
  | tree
  | builtins
  | logs
  | report
  deriving DecidableEq, Repr

def Command.path : Command → Bytes
  | shell => "myshell"
  | create => "myshell init"
  | tree => "myshell tree"
  | builtins => "myshell builtins"
  | logs => "myshell logs"
  | report => "myshell logs report"

private def Command.children : Command → List (Bytes × Command)
  | shell => [("init", create), ("tree", tree), ("builtins", builtins), ("logs", logs),
      ("log", logs), ("events", logs)]
  | logs => [("report", report)]
  | _ => []

structure Options where
  config : Bytes := []
  command : Option Bytes := none
  oneLine : Bool := false
  help : Bool := false
  deriving DecidableEq, Repr

inductive ArgumentError where
  | badFlag (word : Bytes)
  | unknownFlag (name : Bytes)
  | unknownLetter (letter : UInt8) (letters : Bytes)
  | noValue (word : Bytes)
  | noLetterValue (letter : UInt8) (letters : Bytes)
  | badTruth (flag value : Bytes)
  | unknownCommand (name : Bytes) (command : Command)
  | wrongCount (expected received : Nat)
  | tooMany (limit received : Nat)
  deriving DecidableEq, Repr

private def letterText (letter : UInt8) : Bytes := Bytes.quotedChar (Char.ofNat letter.toNat)

def ArgumentError.message : ArgumentError → Bytes
  | badFlag word => "bad flag syntax: " ++ word
  | unknownFlag name => "unknown flag: --" ++ name
  | unknownLetter letter letters =>
    "unknown shorthand flag: " ++ letterText letter ++ " in -" ++ letters
  | noValue word => "flag needs an argument: " ++ word
  | noLetterValue letter letters =>
    "flag needs an argument: " ++ letterText letter ++ " in -" ++ letters
  | badTruth flag value =>
    "invalid argument " ++ Bytes.quoted value ++ " for " ++ Bytes.quoted flag ++
      " flag: strconv.ParseBool: parsing " ++ Bytes.quoted value ++ ": invalid syntax"
  | unknownCommand name command =>
    "unknown command " ++ Bytes.quoted name ++ " for " ++ Bytes.quoted command.path
  | wrongCount expected received =>
    "accepts " ++ Bytes.ofNat expected ++ " arg(s), received " ++ Bytes.ofNat received
  | tooMany limit received =>
    "accepts at most " ++ Bytes.ofNat limit ++ " arg(s), received " ++ Bytes.ofNat received

/-- What a flag does: some take a value and others say yes or no, where no value means yes. -/
inductive Flag where
  | text (set : Bytes → Options → Options)
  | truth (title : Bytes) (set : Bool → Options → Options)

private def Flag.isTruth : Flag → Bool
  | truth .. => true
  | text _ => false

private def Flag.apply (value : Bytes) (o : Options) : Flag → Except ArgumentError Options
  | text set => .ok (set value o)
  | truth title set =>
    match Config.truth? value with
    | some b => .ok (set b o)
    | none => .error (.badTruth title value)

private def configFlag : Bytes × Flag := ("config", .text fun value o => { o with config := value })

private def commandFlag : Flag := .text fun value o => { o with command := some value }

private def helpFlag : Flag := .truth "-h, --help" fun value o => { o with help := value }

private def oneLineFlag : Flag := .truth "--oneline" fun value o => { o with oneLine := value }

private def flags : Command → List (Bytes × Flag)
  | .shell => [configFlag, ("command", commandFlag)]
  | .tree => [configFlag, ("oneline", oneLineFlag)]
  | _ => [configFlag]

private def letters : Command → List (UInt8 × Flag)
  | .shell => [(99, commandFlag)]
  | _ => []

private def flag? (c : Command) (name : Bytes) : Option Flag :=
  (flags c).lookup name

private def letter? (c : Command) (letter : UInt8) : Option Flag :=
  (letters c).lookup letter

/-- Whether a word is a flag whose value is the next word. Flags that nobody knows are taken for
such. -/
private def takesNext (c : Command) (word : Bytes) : Bool :=
  match word with
  | 45 :: 45 :: name =>
    !name.contains 61 && !((flag? c name).map Flag.isTruth).getD false
  | [45, letter] => letter != 61 && !((letter? c letter).map Flag.isTruth).getD false
  | _ => false

/-- The first word that is neither a flag nor the value of one. -/
private def firstWord (c : Command) : List Bytes → Option Bytes
  | [] => none
  | word :: rest =>
    if word == "--" then none
    else if takesNext c word then
      match rest with
      | _ :: next :: more => firstWord c (next :: more)
      | _ => none
    else if word.isEmpty || Bytes.startsWith word "-" then firstWord c rest
    else some word

/-- Goes from a command to those below it as long as the first word names one. -/
private def descend : Nat → Command → List Bytes → Command × List Bytes
  | 0, c, args => (c, args)
  | n + 1, c, args =>
    match (firstWord c args).bind fun name => c.children.lookup name |>.map (name, ·) with
    | some (name, child) => descend n child (args.erase name)
    | none => (c, args)

def find (args : List Bytes) : Command × List Bytes := descend 2 .shell args

/-- Reads letters that follow one dash. The value of a flag is the rest of the word or the next
word. -/
private def readLetters (c : Command) (o : Options) (rest : List Bytes) :
    Bytes → Except ArgumentError (Options × List Bytes)
  | [] => .ok (o, rest)
  | letter :: more =>
    let word := letter :: more
    let found := if letter = 104 then some helpFlag else letter? c letter
    match found with
    | none =>
      if Bytes.startsWith word "test." then .ok (o, rest)
      else .error (.unknownLetter letter word)
    | some flag =>
      match more with
      | 61 :: b :: value => (flag.apply (b :: value) o).map fun o => (o, rest)
      | _ =>
        if flag.isTruth then
          match flag.apply "true" o with
          | .ok o => readLetters c o rest more
          | .error e => .error e
        else match more, rest with
          | _ :: _, _ => (flag.apply more o).map fun o => (o, rest)
          | [], value :: rest => (flag.apply value o).map fun o => (o, rest)
          | [], [] => .error (.noLetterValue letter word)

private def readLong (c : Command) (o : Options) (word : Bytes) (rest : List Bytes) :
    Except ArgumentError (Options × List Bytes) :=
  let text := word.drop 2
  if Bytes.startsWith text "-" || Bytes.startsWith text "=" then .error (.badFlag word)
  else
    let name := text.takeWhile (· != 61)
    let found := if name == "help" then some helpFlag else flag? c name
    match found, Bytes.cut 61 text with
    | none, _ => .error (.unknownFlag name)
    | some flag, some (_, value) => (flag.apply value o).map fun o => (o, rest)
    | some flag, none =>
      if flag.isTruth then (flag.apply "true" o).map fun o => (o, rest)
      else match rest with
        | value :: rest => (flag.apply value o).map fun o => (o, rest)
        | [] => .error (.noValue word)

/-- Reads the arguments of a command one after the other, at most so many: the flags, and the words
that are none. -/
private def readAll (c : Command) (o : Options) :
    Nat → List Bytes → Except ArgumentError (Options × List Bytes)
  | 0, args => .ok (o, args)
  | _, [] => .ok (o, [])
  | n + 1, word :: rest =>
    if word == "--" then .ok (o, rest)
    else if word.length < 2 || !Bytes.startsWith word "-" then
      (readAll c o n rest).map fun (o, words) => (o, word :: words)
    else
      let read := if Bytes.startsWith word "--" then readLong c o word rest
        else readLetters c o rest (word.drop 1)
      match read with
      | .ok (o, rest) => readAll c o n rest
      | .error e => .error e

private def check (c : Command) (words : List Bytes) : Except ArgumentError Unit :=
  let n := words.length
  match c, words with
  | .shell, name :: _ => .error (.unknownCommand name c)
  | .builtins, name :: _ => .error (.unknownCommand name c)
  | .create, _ :: _ => .error (.wrongCount 0 n)
  | .tree, _ => if n = 1 then .ok () else .error (.wrongCount 1 n)
  | .report, _ => if n ≤ 1 then .ok () else .error (.tooMany 1 n)
  | _, _ => .ok ()

structure Call where
  command : Command
  options : Options
  words : List Bytes
  deriving DecidableEq, Repr

/-- Whether only help is wanted: that was asked for, or the command does nothing itself. -/
def Call.wantsHelp (c : Call) : Bool := c.options.help || c.command == .logs

def parse (args : List Bytes) : Except ArgumentError Call := do
  let (command, own) := find args
  let (options, words) ← readAll command {} own.length own
  let call : Call := { command, options, words }
  if !call.wantsHelp then check command words
  return call

end CommandShell.CommandLine
