import CommandShell.Bytes.Utf8

/-! JSON values and their compact text. Numbers keep the text they were written with, and the
fields of an object keep their order. -/
namespace CommandShell

inductive Json where
  | null
  | bool (b : Bool)
  | number (text : Bytes)
  | string (text : Bytes)
  | array (items : List Json)
  | object (fields : List (Bytes × Json))
  deriving Repr, Inhabited

namespace Json

def int (n : Int) : Json := .number (Bytes.ofInt n)

def nat (n : Nat) : Json := .number (Bytes.ofNat n)

def strings (texts : List Bytes) : Json := .array (texts.map .string)

def fieldIf (shown : Bool) (name : Bytes) (v : Json) : List (Bytes × Json) :=
  if shown then [(name, v)] else []

def optional (name : Bytes) (text : Bytes) : List (Bytes × Json) :=
  fieldIf (!text.isEmpty) name (.string text)

def escaped (n : Nat) : Bytes := "\\u" ++ Bytes.padded 4 (Bytes.digits 16 n false)

/-- How one rune of a string is written. Angle brackets and the and sign are escaped if the text may
end up inside a web page; the two line separators always are. -/
def writeRune (markup : Bool) : Rune → Bytes
  | .bad _ => "\\ufffd"
  | .char c =>
    if c = '"' then "\\\""
    else if c = '\\' then "\\\\"
    else if c = '\n' then "\\n"
    else if c = '\r' then "\\r"
    else if c = '\t' then "\\t"
    else if c = '\x08' then "\\b"
    else if c = '\x0C' then "\\f"
    else if c.toNat < 0x20 then escaped c.toNat
    else if markup && (c = '<' || c = '>' || c = '&') then escaped c.toNat
    else if c = '\u2028' || c = '\u2029' then escaped c.toNat
    else Bytes.ofChar c

def writeString (markup : Bool) (s : Bytes) : Bytes :=
  "\"" ++ (Utf8.runes s).flatMap (writeRune markup) ++ "\""

mutual

def write (markup : Bool) : Json → Bytes
  | .null => "null"
  | .bool b => Bytes.ofBool b
  | .number text => text
  | .string s => writeString markup s
  | .array items => "[" ++ writeItems markup items ++ "]"
  | .object fields => "\x7b" ++ writeFields markup fields ++ "\x7d"

def writeItems (markup : Bool) : List Json → Bytes
  | [] => []
  | [v] => write markup v
  | v :: rest => write markup v ++ "," ++ writeItems markup rest

def writeFields (markup : Bool) : List (Bytes × Json) → Bytes
  | [] => []
  | [field] => writeField markup field
  | field :: rest => writeField markup field ++ "," ++ writeFields markup rest

def writeField (markup : Bool) : Bytes × Json → Bytes
  | (name, v) => writeString markup name ++ ":" ++ write markup v

end

end Json

end CommandShell
