import CommandShell.Bytes.Quoted

/-! Why a line is refused, and where. -/
namespace CommandShell.Grammar

/-- A place in a line, both numbers from one. Zero stands for a number too large to keep. -/
structure Position where
  line : Nat
  column : Nat
  deriving DecidableEq, Repr

namespace Position

def ofCounts (line column : Nat) : Position :=
  ⟨if line > 262143 then 0 else line, if column > 16383 then 0 else column⟩

def right (p : Position) (n : Nat) : Position := ⟨p.line, p.column + n⟩

private def showPart (n : Nat) : Bytes := if n = 0 then "?" else Bytes.ofNat n

def text (p : Position) : Bytes := showPart p.line ++ ":" ++ showPart p.column

end Position

/-- Text that is no shell command, a feature of other shells, or shell syntax this shell does not
run. -/
inductive Fault where
  | malformed (place : Position) (text : Bytes)
  | foreign (place : Position) (feature : Bytes) (shells : List Bytes)
  | unsupported (place : Position) (what : Bytes)
  deriving DecidableEq, Repr

def Fault.message : Fault → Bytes
  | malformed place text => place.text ++ ": " ++ text
  | foreign place feature shells =>
    place.text ++ ": " ++ feature ++ (if feature.getLast? = some 115 then " are a " else " is a ") ++
      Bytes.join "/" shells ++ " feature"
  | unsupported place what =>
    Bytes.ofNat place.line ++ ":" ++ Bytes.ofNat place.column ++ ": " ++ what ++ " not supported"

end CommandShell.Grammar
