import CommandShell.Bytes.Utf8

/-! The characters of a YAML text, and the classes of characters its syntax is made of. -/
namespace CommandShell.Yaml

def isBlank (c : Char) : Bool := c == ' ' || c == '\t'

def isBreak (c : Char) : Bool :=
  c == '\n' || c == '\r' || c == '\x85' || c == '\u2028' || c == '\u2029'

/-- Letters, digits, underscore and hyphen: what names of anchors and handles are made of. -/
def isNameChar (c : Char) : Bool := c.isAlphanum || c == '_' || c == '-'

/-- Characters a text may hold. Controls other than tab and line breaks are refused. -/
def isAllowed (c : Char) : Bool :=
  c == '\t' || c == '\n' || c == '\r' || (' ' ≤ c && c ≤ '~') || c == '\x85' ||
    ('\xA0' ≤ c && c ≤ '\uFFFD') || c.toNat ≥ 0x10000

/-- The characters that can be read, and whether the text ends behind them rather than going on with
something unreadable. -/
structure Source where
  chars : List Char
  complete : Bool

/-- A character with the number of bytes it takes, or an unreadable spot. -/
abbrev CodeUnit := Option Char × Nat

def utf8Units (s : Bytes) : List CodeUnit :=
  (Utf8.runes s).map fun
    | .char c => (if isAllowed c then some c else none, (Bytes.ofChar c).length)
    | .bad _ => (none, 1)

private def pair (big : Bool) (a b : UInt8) : Nat :=
  if big then a.toNat * 256 + b.toNat else b.toNat * 256 + a.toNat

private def utf16Units (big : Bool) : Bytes → List CodeUnit
  | [] => []
  | [_] => [(none, 1)]
  | a :: b :: s =>
    let n := pair big a b
    if 0xD800 ≤ n && n < 0xDC00 then
      match s with
      | c :: d :: t =>
        let m := pair big c d
        if 0xDC00 ≤ m && m < 0xE000 then
          (some (Char.ofNat (0x10000 + (n - 0xD800) * 0x400 + (m - 0xDC00))), 4) ::
            utf16Units big t
        else [(none, 2)]
      | _ => [(none, 2)]
    else if 0xDC00 ≤ n && n < 0xE000 then [(none, 2)]
    else (if isAllowed (Char.ofNat n) then some (Char.ofNat n) else none, 2) :: utf16Units big s

/-- Text is taken in blocks of this many bytes, and nothing of a block with an unreadable spot. -/
private def blockSize : Nat := 512

/-- Readable characters with the offset behind each, up to the first unreadable spot, and the offset
of that. -/
def readable (offset : Nat) : List CodeUnit → List (Char × Nat) × Option Nat
  | [] => ([], none)
  | (none, _) :: _ => ([], some offset)
  | (some c, width) :: rest =>
    let (chars, bad) := readable (offset + width) rest
    ((c, offset + width) :: chars, bad)

/-- A byte order mark in front tells the encoding. -/
def Source.ofBytes (s : Bytes) : Source :=
  let (units, start) := match s with
    | 0xFF :: 0xFE :: t => (utf16Units false t, 2)
    | 0xFE :: 0xFF :: t => (utf16Units true t, 2)
    | 0xEF :: 0xBB :: 0xBF :: t => (utf8Units t, 3)
    | t => (utf8Units t, 0)
  match readable start units with
  | (chars, none) => ⟨chars.map Prod.fst, true⟩
  | (chars, some bad) =>
    let limit := bad / blockSize * blockSize
    ⟨(chars.takeWhile (·.2 ≤ limit)).map Prod.fst, false⟩

end CommandShell.Yaml
