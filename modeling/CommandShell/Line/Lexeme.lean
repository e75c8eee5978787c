import CommandShell.Bytes.Utf8

/-! The lexical layer of the accepted language: a line becomes marks, marks become lexemes.
Scanning gives up at anything that would need an expansion. -/
namespace CommandShell.Line

def escapable (b : UInt8) : Bool := ("$`\"\\" : Bytes).contains b

/-- A backslash disappears and keeps the byte after it, a backslash and a newline both disappear,
and a backslash at the very end stays. Inside double quotes a backslash also stays before a byte
that needs no escape. -/
def unescape (quoted : Bool) : Bytes → Bytes
  | [] => []
  | [b] => [b]
  | b :: c :: s =>
    if b = 92 then
      if c = 10 then unescape quoted s
      else if !quoted || escapable c then c :: unescape quoted s
      else b :: unescape quoted (c :: s)
    else b :: unescape quoted (c :: s)

/-- A byte of the line, or an escaped line break, which joins two lines into one. Two control
characters have a meaning of their own: U+0080 closes the line and U+0081 joins lines too. What is
no UTF-8 is marked and read no further. -/
inductive Mark where
  | byte (b : UInt8)
  | joint
  | closer
  | joiner
  | bad
  deriving DecidableEq, Repr

/-- NUL bytes vanish, and a carriage return before a newline does. A backslash right after a
backslash joins nothing. -/
def marks (afterBackslash : Bool) : Bytes → List Mark
  | [] => []
  | 0 :: s => marks afterBackslash s
  | 13 :: 10 :: s => marks afterBackslash (10 :: s)
  | 92 :: 10 :: s =>
    if afterBackslash then .byte 92 :: marks true (10 :: s) else .joint :: marks false s
  | 92 :: 13 :: 10 :: s =>
    if afterBackslash then .byte 92 :: marks true (13 :: 10 :: s) else .joint :: marks false s
  | 0xC2 :: 0x80 :: s => .closer :: marks false s
  | 0xC2 :: 0x81 :: s => .joiner :: marks false s
  | b :: s => .byte b :: marks (b == 92) s

/-- What stopped a bare text: the end of the word, the start of a quoted part, or a redirection
operator right behind digits or a name in braces. -/
inductive Ending where
  | word
  | part
  | number
  deriving DecidableEq, Repr

inductive Operator where
  | semicolon
  | andIf
  | orIf
  | pipe
  | open
  | close
  | less
  | great
  | dgreat
  deriving DecidableEq, Repr

inductive Lexeme where
  | newline
  | operator (op : Operator)
  | bare (raw : Bytes) (ending : Ending)
  | part (value : Bytes)
  deriving DecidableEq, Repr

/-- A lexeme, and whether white space stood before it. -/
structure Spaced where
  spaced : Bool
  lexeme : Lexeme
  deriving DecidableEq, Repr

def isBlank (b : UInt8) : Bool := b == 32 || b == 9 || b == 13

/-- Bytes that begin an expansion when they follow a dollar sign. -/
def startsExpansion (b : UInt8) : Bool :=
  Bytes.isLetter b || Bytes.isDigit b || ("_\x7b(@*#?$!-" : Bytes).contains b

def expands : List Mark → Bool
  | .byte b :: _ => startsExpansion b
  | _ => false

/-- A quoted text that begins with U+0081 does not hold it. -/
def behindQuote : List Mark → List Mark
  | .joiner :: rest => .joint :: rest
  | ms => ms

def scanSingle : List Mark → Option (Bytes × List Mark)
  | [] | .closer :: _ | .bad :: _ => none
  | .byte b :: rest =>
    if b = 39 then some ([], rest) else (scanSingle rest).map fun (s, r) => (b :: s, r)
  | .joint :: rest => (scanSingle rest).map fun (s, r) => (92 :: 10 :: s, r)
  | .joiner :: rest => (scanSingle rest).map fun (s, r) => (0xC2 :: 0x81 :: 92 :: 10 :: s, r)

/-- Raw text up to the closing double quote, and what follows it. `inText` holds behind a character
that is neither a dollar sign nor a joint: only there U+0081 belongs to the text. -/
def scanDouble (inText : Bool) : List Mark → Option (Bytes × List Mark)
  | [] | .closer :: _ | .bad :: _ => none
  | .joint :: rest => scanDouble false rest
  | .joiner :: rest =>
    (scanDouble false rest).map fun (s, r) => (if inText then 0xC2 :: 0x81 :: s else s, r)
  | .byte 92 :: .byte c :: rest => (scanDouble true rest).map fun (s, r) => (92 :: c :: s, r)
  | .byte 92 :: .closer :: rest =>
    (scanDouble true rest).map fun (s, r) => (92 :: 0xC2 :: 0x80 :: s, r)
  | .byte 92 :: .joiner :: rest =>
    (scanDouble true rest).map fun (s, r) => (92 :: 0xC2 :: 0x81 :: s, r)
  | .byte b :: rest =>
    if b = 34 then some ([], rest)
    else if b = 96 || (b = 36 && expands rest) then none
    else (scanDouble (b != 36) rest).map fun (s, r) => (b :: s, r)

/-- Digits, or a name in braces: what may number a redirection. -/
def isNumber (raw : Bytes) : Bool :=
  (!raw.isEmpty && raw.all Bytes.isDigit) ||
  match raw with
  | 123 :: s => s.getLast? == some 125 && Bytes.isName s.dropLast
  | _ => false

/-- One of the bytes of operators: and sign, bar, semicolon, parentheses, angle brackets. -/
def isOperatorStart (b : UInt8) : Bool :=
  b == 38 || b == 124 || b == 59 || b == 40 || b == 41 || b == 60 || b == 62

def endsWord (b : UInt8) : Bool :=
  isBlank b || b == 10 || (isOperatorStart b && b != 60 && b != 62)

/-- A maximal bare text, whether a word end, a part or a redirection stopped it, and the rest from
there. -/
def scanBare : List Mark → Bytes × Ending × List Mark
  | [] => ([], .word, [])
  | .bad :: rest => ([], .word, .bad :: rest)
  | .closer :: _ => ([0xC2, 0x80], .word, [])
  | .joint :: rest => scanBare rest
  | .joiner :: rest =>
    let (raw, ending, after) := scanBare rest
    (0xC2 :: 0x81 :: raw, ending, after)
  | .byte 92 :: .byte c :: rest =>
    let (raw, ending, after) := scanBare rest
    (92 :: c :: raw, ending, after)
  | .byte 92 :: .closer :: rest =>
    let (raw, ending, after) := scanBare rest
    (92 :: 0xC2 :: 0x80 :: raw, ending, after)
  | .byte 92 :: .joiner :: rest =>
    let (raw, ending, after) := scanBare rest
    (92 :: 0xC2 :: 0x81 :: raw, ending, after)
  | .byte b :: rest =>
    if endsWord b then ([], .word, .byte b :: rest)
    else if b = 60 || b = 62 then ([], .number, .byte b :: rest)
    else if b = 34 || b = 39 || b = 36 || b = 96 then ([], .part, .byte b :: rest)
    else
      let (raw, ending, after) := scanBare rest
      (b :: raw, ending, after)

/-- A redirection operator ends a word unless the text can number it. -/
def bareEnding (raw : Bytes) : Ending → Ending
  | .number => if isNumber raw then .number else .word
  | ending => ending

/-- The rest of a line after a comment: what ends it, its newline or an escaped line break, stays. -/
def skipComment : List Mark → List Mark
  | .byte b :: rest => if b = 10 then .byte b :: rest else skipComment rest
  | ms => ms

/-- The operator at the front, longest match first, and what follows. -/
def scanOperator : List Mark → Option (Operator × List Mark)
  | .byte 59 :: .byte 59 :: _ => none
  | .byte 59 :: rest => some (.semicolon, rest)
  | .byte 38 :: .byte 38 :: rest => some (.andIf, rest)
  | .byte 124 :: .byte 124 :: rest => some (.orIf, rest)
  | .byte 124 :: rest => some (.pipe, rest)
  | .byte 40 :: rest => some (.open, rest)
  | .byte 41 :: rest => some (.close, rest)
  | .byte 60 :: .byte b :: rest =>
    if b = 60 || b = 62 || b = 38 then none else some (.less, .byte b :: rest)
  | .byte 60 :: rest => some (.less, rest)
  | .byte 62 :: .byte 62 :: rest => some (.dgreat, rest)
  | .byte 62 :: .byte b :: rest =>
    if b = 38 || b = 124 then none else some (.great, .byte b :: rest)
  | .byte 62 :: rest => some (.great, rest)
  | _ => none

theorem behindQuote_length (ms : List Mark) : (behindQuote ms).length = ms.length := by
  fun_cases behindQuote ms <;> rfl

theorem scanSingle_length {ms : List Mark} {s : Bytes} {rest : List Mark}
    (h : scanSingle ms = some (s, rest)) : rest.length < ms.length := by
  fun_induction scanSingle ms generalizing s rest <;> grind [Option.map_eq_some_iff]

theorem scanDouble_length {inText : Bool} {ms : List Mark} {s : Bytes} {rest : List Mark}
    (h : scanDouble inText ms = some (s, rest)) : rest.length < ms.length := by
  fun_induction scanDouble inText ms generalizing s rest <;> grind [Option.map_eq_some_iff]

theorem scanBare_length (ms : List Mark) : (scanBare ms).2.2.length ≤ ms.length := by
  fun_induction scanBare ms <;> grind

/-- A bare text that starts with a byte of its own takes at least that byte. -/
theorem scanBare_length_lt {b : UInt8} (rest : List Mark) (blank : ¬ isBlank b = true)
    (newline : ¬ b = 10) (op : ¬ isOperatorStart b = true) (single : ¬ b = 39)
    (double : ¬ b = 34) (back : ¬ b = 96) (dollar : ¬ b = 36) :
    (scanBare (.byte b :: rest)).2.2.length < rest.length + 1 := by
  have he : endsWord b = false := by simp_all [endsWord]
  have hr : ¬ (b = 60 ∨ b = 62) := by
    rintro (rfl | rfl) <;> exact op (by decide)
  unfold scanBare
  split <;> grind [scanBare_length]

theorem skipComment_length (ms : List Mark) : (skipComment ms).length ≤ ms.length := by
  fun_induction skipComment ms <;> grind

theorem scanOperator_length {ms : List Mark} {op : Operator} {rest : List Mark}
    (h : scanOperator ms = some (op, rest)) : rest.length < ms.length := by
  fun_cases scanOperator ms <;> grind [scanOperator]

/-- The lexemes of a line. `wordBefore` holds right after a bare word or a quoted text, where a
number sign without white space before it continues the word and starts no comment. White space
before a comment does not count for the lexeme after it. -/
def scan (wordBefore spaced : Bool) (ms : List Mark) : Option (List Spaced) :=
  match ms with
  | [] | .closer :: _ => some []
  | .bad :: _ => none
  | .joint :: rest | .joiner :: rest => scan wordBefore spaced rest
  | .byte b :: rest =>
    if isBlank b then scan wordBefore true rest
    else if b = 10 then (scan false false rest).map (⟨spaced, .newline⟩ :: ·)
    else if b = 35 && (spaced || !wordBefore) then scan wordBefore false (skipComment rest)
    else if b = 39 then
      match _h : scanSingle (behindQuote rest) with
      | none => none
      | some (text, after) => (scan true false after).map (⟨spaced, .part text⟩ :: ·)
    else if b = 34 then
      match _h : scanDouble false rest with
      | none => none
      | some (raw, after) =>
        (scan true false after).map (⟨spaced, .part (unescape true raw)⟩ :: ·)
    else if b = 96 then none
    else if b = 36 then
      if expands rest then none else (scan false false rest).map (⟨spaced, .part [36]⟩ :: ·)
    else if isOperatorStart b then
      match _h : scanOperator (.byte b :: rest) with
      | none => none
      | some (op, after) => (scan false false after).map (⟨spaced, .operator op⟩ :: ·)
    else
      match _h : scanBare (.byte b :: rest) with
      | (raw, ending, after) =>
        (scan (bareEnding raw ending == .word) false after).map
          (⟨spaced, .bare raw (bareEnding raw ending)⟩ :: ·)
termination_by ms.length
decreasing_by
  all_goals simp only [List.length_cons]
  all_goals try exact Nat.lt_succ_self _
  · exact Nat.lt_succ_of_le (skipComment_length rest)
  · exact Nat.lt_succ_of_lt (behindQuote_length rest ▸ scanSingle_length _h)
  · exact Nat.lt_succ_of_lt (scanDouble_length _h)
  · exact scanOperator_length _h
  · have hlt := scanBare_length_lt rest ‹_› ‹_› ‹_› ‹_› ‹_› ‹_› ‹_›
    rwa [_h] at hlt

/-- The lexemes of a whole line, if it is UTF-8 and needs no expansion. -/
def lexemes (line : Bytes) : Option (List Spaced) :=
  scan false false <|
    if Utf8.isValid line then marks false line else marks false (Utf8.validPart line) ++ [.bad]

end CommandShell.Line
