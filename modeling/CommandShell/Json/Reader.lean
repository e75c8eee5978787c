import CommandShell.Bytes.Quoted
import CommandShell.Json

/-! Reading JSON one byte at a time. The reader's state is the stack of containers that are still
open and what may come next, so the state after a prefix says whether a value is complete. -/
namespace CommandShell.Json

/-- An open container with what it holds so far, last first; an object also has the name of the
field being read. -/
inductive Frame where
  | array (items : List Json)
  | object (fields : List (Bytes × Json)) (name : Bytes)
  deriving Repr

/-- How far an escape inside a string has got. -/
inductive Escape where
  | none
  | backslash
  | hex (left : Nat)
  deriving DecidableEq, Repr

inductive Digits where
  | sign
  | zero
  | whole
  | point
  | fraction
  | mark
  | markSign
  | exponent
  deriving DecidableEq, Repr

/-- What may come next. Texts in progress are kept reversed. -/
inductive Expected where
  | value
  | firstItem
  | name
  | firstName
  | colon
  | separator
  | text (isName : Bool) (raw : Bytes) (escape : Escape)
  | word (left : Bytes) (value : Json)
  | number (raw : Bytes) (digits : Digits)
  deriving Repr

structure Reader where
  stack : List Frame
  expected : Expected
  deriving Repr

/-- Why a text holds no value: it ends too early, a byte does not fit, or containers are nested too
deep. -/
inductive ReadError where
  | ended
  | unexpected (b : UInt8) (situation : Bytes)
  | tooDeep
  deriving DecidableEq, Repr

def ReadError.message : ReadError → Bytes
  | ended => "unexpected EOF"
  | unexpected b situation =>
    "invalid character " ++ Bytes.quotedChar (Char.ofNat b.toNat) ++ " " ++ situation
  | tooDeep => "exceeded max depth"

/-- The result of one byte: the value may be complete with it, or may have been complete before
it. -/
inductive Step where
  | more (r : Reader)
  | done (v : Json)
  | before (v : Json)
  | bad (e : ReadError)
  deriving Repr

def isSpace (b : UInt8) : Bool := b == 32 || b == 9 || b == 10 || b == 13

/-- Containers nested deeper than this are refused. -/
def maxDepth : Nat := 10000

def hexValue (b : UInt8) : Option Nat :=
  if Bytes.isDigit b then some (b.toNat - 48)
  else if 97 ≤ b && b ≤ 102 then some (b.toNat - 87)
  else if 65 ≤ b && b ≤ 70 then some (b.toNat - 55)
  else none

def hex4 (a b c d : UInt8) : Option Nat := do
  let a ← hexValue a
  let b ← hexValue b
  let c ← hexValue c
  let d ← hexValue d
  return ((a * 16 + b) * 16 + c) * 16 + d

def ofCode (n : Nat) : Bytes :=
  Bytes.ofChar (if 0xD800 ≤ n && n < 0xE000 then '\uFFFD' else Char.ofNat n)

def simpleEscape (b : UInt8) : UInt8 :=
  if b = 98 then 8 else if b = 102 then 12 else if b = 110 then 10
  else if b = 114 then 13 else if b = 116 then 9 else b

/-- The text between the quotes with its escapes resolved. A pair of surrogates is one character and
a surrogate by itself is a replacement character. -/
def unquote : Bytes → Bytes
  | [] => []
  | 92 :: 117 :: a :: b :: c :: d :: 92 :: 117 :: e :: f :: g :: h :: s =>
    match hex4 a b c d, hex4 e f g h with
    | some hi, some lo =>
      if 0xD800 ≤ hi && hi < 0xDC00 && 0xDC00 ≤ lo && lo < 0xE000 then
        ofCode (0x10000 + (hi - 0xD800) * 0x400 + (lo - 0xDC00)) ++ unquote s
      else ofCode hi ++ unquote (92 :: 117 :: e :: f :: g :: h :: s)
    | _, _ => []
  | 92 :: 117 :: a :: b :: c :: d :: s =>
    match hex4 a b c d with
    | some n => ofCode n ++ unquote s
    | none => []
  | 92 :: b :: s => simpleEscape b :: unquote s
  | b :: s => b :: unquote s

/-- The text of a string literal; stray bytes are replaced. -/
def textOf (raw : Bytes) : Bytes := Utf8.scrub (unquote raw.reverse)

/-- A value is complete: it goes into the innermost container, or it is the whole. -/
def accept (v : Json) : List Frame → Step
  | [] => .done v
  | .array items :: stack => .more ⟨.array (v :: items) :: stack, .separator⟩
  | .object fields name :: stack => .more ⟨.object ((name, v) :: fields) [] :: stack, .separator⟩

def refuse (b : UInt8) (situation : Bytes) : Step := .bad (.unexpected b situation)

def close (b : UInt8) : List Frame → Step
  | .array items :: stack => accept (.array items.reverse) stack
  | .object fields _ :: stack => accept (.object fields.reverse) stack
  | [] => refuse b "after top-level value"

def openFrame (stack : List Frame) (frame : Frame) (expected : Expected) : Step :=
  if stack.length < maxDepth then .more ⟨frame :: stack, expected⟩ else .bad .tooDeep

def beginValue (stack : List Frame) (b : UInt8) : Step :=
  if isSpace b then .more ⟨stack, .value⟩
  else if b = 123 then openFrame stack (.object [] []) .firstName
  else if b = 91 then openFrame stack (.array []) .firstItem
  else if b = 34 then .more ⟨stack, .text false [] .none⟩
  else if b = 45 then .more ⟨stack, .number [b] .sign⟩
  else if b = 48 then .more ⟨stack, .number [b] .zero⟩
  else if Bytes.isDigit b then .more ⟨stack, .number [b] .whole⟩
  else if b = 116 then .more ⟨stack, .word "rue" (.bool true)⟩
  else if b = 102 then .more ⟨stack, .word "alse" (.bool false)⟩
  else if b = 110 then .more ⟨stack, .word "ull" .null⟩
  else refuse b "looking for beginning of value"

def beginName (stack : List Frame) (again : Expected) (b : UInt8) : Step :=
  if isSpace b then .more ⟨stack, again⟩
  else if b = 34 then .more ⟨stack, .text true [] .none⟩
  else refuse b "looking for beginning of object key string"

/-- A byte between a complete value and what follows it in its container. -/
def separate (stack : List Frame) (b : UInt8) : Step :=
  if isSpace b then .more ⟨stack, .separator⟩
  else match stack with
    | .array _ :: _ =>
      if b = 44 then .more ⟨stack, .value⟩ else if b = 93 then close b stack
      else refuse b "after array element"
    | .object .. :: _ =>
      if b = 44 then .more ⟨stack, .name⟩ else if b = 125 then close b stack
      else refuse b "after object key:value pair"
    | [] => refuse b "after top-level value"

def setName (name : Bytes) : List Frame → List Frame
  | .object fields _ :: stack => .object fields name :: stack
  | stack => stack

def stepText (stack : List Frame) (isName : Bool) (raw : Bytes) (b : UInt8) :
    Escape → Step
  | .none =>
    if b = 34 then
      if isName then .more ⟨setName (textOf raw) stack, .colon⟩
      else accept (.string (textOf raw)) stack
    else if b = 92 then .more ⟨stack, .text isName (b :: raw) .backslash⟩
    else if b < 32 then refuse b "in string literal"
    else .more ⟨stack, .text isName (b :: raw) .none⟩
  | .backslash =>
    if b = 117 then .more ⟨stack, .text isName (b :: raw) (.hex 4)⟩
    else if ("bfnrt\\/\"" : Bytes).contains b then .more ⟨stack, .text isName (b :: raw) .none⟩
    else refuse b "in string escape code"
  | .hex left =>
    if (hexValue b).isSome then
      .more ⟨stack, .text isName (b :: raw) (if left ≤ 1 then .none else .hex (left - 1))⟩
    else refuse b "in \\u hexadecimal character escape"

def nextDigits (b : UInt8) : Digits → Option Digits
  | .sign => if b = 48 then some .zero else if Bytes.isDigit b then some .whole else none
  | .zero => tail
  | .whole => if Bytes.isDigit b then some .whole else tail
  | .point => if Bytes.isDigit b then some .fraction else none
  | .fraction =>
    if Bytes.isDigit b then some .fraction else if b = 101 || b = 69 then some .mark else none
  | .mark =>
    if b = 43 || b = 45 then some .markSign else if Bytes.isDigit b then some .exponent else none
  | .markSign => if Bytes.isDigit b then some .exponent else none
  | .exponent => if Bytes.isDigit b then some .exponent else none
where
  tail : Option Digits :=
    if b = 46 then some .point else if b = 101 || b = 69 then some .mark else none

def Digits.complete : Digits → Bool
  | .zero | .whole | .fraction | .exponent => true
  | _ => false

def Digits.situation : Digits → Bytes
  | .point => "after decimal point in numeric literal"
  | .mark | .markSign => "in exponent of numeric literal"
  | _ => "in numeric literal"

/-- Where a word breaks off: which word it is and the letter that should have come. -/
def wordSituation (expected : UInt8) (v : Json) : Bytes :=
  "in literal " ++ v.write false ++ " (expecting " ++
    Bytes.quotedChar (Char.ofNat expected.toNat) ++ ")"

def endNumber (stack : List Frame) (raw : Bytes) (b : UInt8) : Step :=
  match accept (.number raw.reverse) stack with
  | .more r => separate r.stack b
  | .done v => .before v
  | other => other

def Reader.step (r : Reader) (b : UInt8) : Step :=
  match r.expected with
  | .value => beginValue r.stack b
  | .firstItem =>
    if isSpace b then .more r else if b = 93 then close b r.stack else beginValue r.stack b
  | .name => beginName r.stack .name b
  | .firstName => if b = 125 then close b r.stack else beginName r.stack .firstName b
  | .colon =>
    if isSpace b then .more r else if b = 58 then .more ⟨r.stack, .value⟩
    else refuse b "after object key"
  | .separator => separate r.stack b
  | .text isName raw escape => stepText r.stack isName raw b escape
  | .word left v =>
    match left with
    | [c] => if b = c then accept v r.stack else refuse b (wordSituation c v)
    | c :: left => if b = c then .more ⟨r.stack, .word left v⟩ else refuse b (wordSituation c v)
    | [] => accept v r.stack
  | .number raw digits =>
    match nextDigits b digits with
    | some digits => .more ⟨r.stack, .number (b :: raw) digits⟩
    | none => if digits.complete then endNumber r.stack raw b else refuse b digits.situation

/-- A number is complete when the text ends behind it. -/
def Reader.finish (r : Reader) : Option Json :=
  match r.stack, r.expected with
  | [], .number raw digits => if digits.complete then some (.number raw.reverse) else none
  | _, _ => none

/-- Reads one value; gives it with the text behind it. -/
def Reader.run (r : Reader) : Bytes → Except ReadError (Json × Bytes)
  | [] =>
    match r.finish with
    | some v => .ok (v, [])
    | none => .error .ended
  | b :: s =>
    match r.step b with
    | .more r => r.run s
    | .done v => .ok (v, s)
    | .before v => .ok (v, b :: s)
    | .bad e => .error e

def Reader.start : Reader := ⟨[], .value⟩

def readFirst (s : Bytes) : Except ReadError (Json × Bytes) := Reader.start.run s

def read? (s : Bytes) : Option Json :=
  match readFirst s with
  | .ok (v, rest) => if rest.all isSpace then some v else none
  | .error _ => none

end CommandShell.Json
