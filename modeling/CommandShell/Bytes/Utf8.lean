import CommandShell.Bytes

/-! UTF-8 with its errors kept: a text falls into characters and the single bytes that start no
well-formed encoding. -/
namespace CommandShell

/-- A character of a text, or a byte that is not part of one. -/
inductive Rune where
  | char (c : Char)
  | bad (b : UInt8)
  deriving DecidableEq, Repr

namespace Rune

/-- A stray byte shows as the replacement character. -/
def toChar : Rune → Char
  | .char c => c
  | .bad _ => '\uFFFD'

def toBytes : Rune → Bytes
  | .char c => Bytes.ofChar c
  | .bad b => [b]

end Rune

namespace Utf8

def continues (lo hi b : UInt8) : Bool := lo ≤ b && b ≤ hi

def build (lead : Nat) (tail : List UInt8) : Rune :=
  .char (Char.ofNat (tail.foldl (fun n b => 64 * n + (b.toNat - 128)) lead))

/-- The rune that starts with a byte, and how many of the following bytes belong to it. -/
def first (a : UInt8) (s : Bytes) : Rune × Nat :=
  if a < 0x80 then (.char (Char.ofNat a.toNat), 0)
  else if continues 0xC2 0xDF a then
    match s with
    | b :: _ => if continues 0x80 0xBF b then (build (a.toNat - 0xC0) [b], 1) else (.bad a, 0)
    | _ => (.bad a, 0)
  else if continues 0xE0 0xEF a then
    let lo := if a = 0xE0 then 0xA0 else 0x80
    let hi := if a = 0xED then 0x9F else 0xBF
    match s with
    | b :: c :: _ =>
      if continues lo hi b && continues 0x80 0xBF c then (build (a.toNat - 0xE0) [b, c], 2)
      else (.bad a, 0)
    | _ => (.bad a, 0)
  else if continues 0xF0 0xF4 a then
    let lo := if a = 0xF0 then 0x90 else 0x80
    let hi := if a = 0xF4 then 0x8F else 0xBF
    match s with
    | b :: c :: d :: _ =>
      if continues lo hi b && continues 0x80 0xBF c && continues 0x80 0xBF d then
        (build (a.toNat - 0xF0) [b, c, d], 3)
      else (.bad a, 0)
    | _ => (.bad a, 0)
  else (.bad a, 0)

def runes : Bytes → List Rune
  | [] => []
  | a :: s => (first a s).1 :: runes (s.drop (first a s).2)
termination_by s => s.length
decreasing_by simp only [List.length_cons, List.length_drop]; omega

def chars (s : Bytes) : List Char := (runes s).map Rune.toChar

def encode (cs : List Char) : Bytes := cs.flatMap Bytes.ofChar

def isValid (s : Bytes) : Bool :=
  (runes s).all fun
    | .char _ => true
    | .bad _ => false

/-- The text before the first stray byte. -/
def validPart (s : Bytes) : Bytes :=
  ((runes s).takeWhile fun
    | .char _ => true
    | .bad _ => false).flatMap Rune.toBytes

/-- The text with every stray byte replaced. -/
def scrub (s : Bytes) : Bytes := encode (chars s)

end Utf8

end CommandShell
