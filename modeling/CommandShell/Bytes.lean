/-! Text as a shell sees it: a list of bytes, usually UTF-8 and never assumed to be.
Fixed texts are written as strings and stand for their encoding. -/
namespace CommandShell

abbrev Bytes := List UInt8

namespace Bytes

def ofString (s : String) : Bytes := s.toUTF8.data.toList

instance : Coe String Bytes := ⟨ofString⟩

def ofChar (c : Char) : Bytes := String.utf8EncodeChar c

def ofNat (n : Nat) : Bytes := n.repr

/-- A minus sign comes before a negative number and nothing before another. -/
def ofInt : Int → Bytes
  | .ofNat n => ofNat n
  | .negSucc n => "-" ++ ofNat (n + 1)

def ofBool (b : Bool) : Bytes := if b then "true" else "false"

/-- Bytewise order; a text comes before its extensions. -/
def le : Bytes → Bytes → Bool
  | [], _ => true
  | _ :: _, [] => false
  | a :: s, b :: t => if a < b then true else if b < a then false else le s t

def sort (texts : List Bytes) : List Bytes := texts.mergeSort le

/-- The parts between the separators: one more than there are separators. -/
def splitOn (sep : UInt8) (s : Bytes) : List Bytes :=
  s.foldr (fun b parts =>
    if b = sep then [] :: parts
    else match parts with
      | part :: rest => (b :: part) :: rest
      | [] => [[b]]) [[]]

/-- Cuts at the first separator, which belongs to neither part. -/
def cut (sep : UInt8) (s : Bytes) : Option (Bytes × Bytes) :=
  match s.dropWhile (· != sep) with
  | [] => none
  | _ :: after => some (s.takeWhile (· != sep), after)

def join (sep : Bytes) : List Bytes → Bytes
  | [] => []
  | [s] => s
  | s :: rest => s ++ sep ++ join sep rest

def startsWith (s start : Bytes) : Bool := start.isPrefixOf s

def endsWith (s ending : Bytes) : Bool := ending.isSuffixOf s

/-- The lines of a text with their newlines; a last line may have none. -/
def lines (s : Bytes) : List Bytes :=
  s.foldr (fun b rest =>
    if b = 10 then [b] :: rest
    else match rest with
      | line :: others => (b :: line) :: others
      | [] => [[b]]) []

def isLower (b : UInt8) : Bool := 97 ≤ b && b ≤ 122

def isUpper (b : UInt8) : Bool := 65 ≤ b && b ≤ 90

def isLetter (b : UInt8) : Bool := isLower b || isUpper b

def isDigit (b : UInt8) : Bool := 48 ≤ b && b ≤ 57

def toUpper (b : UInt8) : UInt8 := if isLower b then b - 32 else b

def toLower (b : UInt8) : UInt8 := if isUpper b then b + 32 else b

/-- A letter or underscore, then letters, digits and underscores. -/
def isName : Bytes → Bool
  | [] => false
  | b :: s => (isLetter b || b == 95) && s.all fun c => isLetter c || isDigit c || c == 95

def toNat? (s : Bytes) : Option Nat :=
  if !s.isEmpty && s.all isDigit then some (s.foldl (fun n d => 10 * n + (d.toNat - 48)) 0)
  else none

def digits (base n : Nat) (upper : Bool) : Bytes :=
  (Nat.toDigits base n).map fun c => if upper then toUpper c.toNat.toUInt8 else c.toNat.toUInt8

def padded (width : Nat) (s : Bytes) : Bytes := List.replicate (width - s.length) 48 ++ s

end Bytes

end CommandShell
