import CommandShell.Bytes.Utf8
import CommandShell.Unicode.Printable

/-! Texts between double quotes on one line: what cannot be shown is written as a backslash escape,
so the quoted form of every text is printable. -/
namespace CommandShell.Bytes

def hex (width n : Nat) : Bytes := padded width (digits 16 n false)

def quoteRune : Rune → Bytes
  | .bad b => "\\x" ++ hex 2 b.toNat
  | .char c =>
    if c = '"' then "\\\""
    else if c = '\\' then "\\\\"
    else if Unicode.isPrintable c then ofChar c
    else match c.toNat with
      | 7 => "\\a"
      | 8 => "\\b"
      | 9 => "\\t"
      | 10 => "\\n"
      | 11 => "\\v"
      | 12 => "\\f"
      | 13 => "\\r"
      | n =>
        if n < 0x20 || n = 0x7F then "\\x" ++ hex 2 n
        else if n < 0x10000 then "\\u" ++ hex 4 n
        else "\\U" ++ hex 8 n

def quoted (s : Bytes) : Bytes := "\"" ++ (Utf8.runes s).flatMap quoteRune ++ "\""

def quotedChar (c : Char) : Bytes :=
  let body : Bytes :=
    if c = '\'' then "\\'" else if c = '"' then "\"" else quoteRune (.char c)
  "'" ++ body ++ "'"

end CommandShell.Bytes
