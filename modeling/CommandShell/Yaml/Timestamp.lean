import CommandShell.Bytes

/-! Recognising dates and times. -/
namespace CommandShell.Yaml.Timestamp

private def short : Bytes → Option (Nat × Bytes)
  | a :: b :: s =>
    if !Bytes.isDigit a then none
    else if Bytes.isDigit b then some ((a.toNat - 48) * 10 + (b.toNat - 48), s)
    else some (a.toNat - 48, b :: s)
  | [a] => if Bytes.isDigit a then some (a.toNat - 48, []) else none
  | [] => none

private def two : Bytes → Option (Nat × Bytes)
  | a :: b :: s =>
    if Bytes.isDigit a && Bytes.isDigit b then some ((a.toNat - 48) * 10 + (b.toNat - 48), s)
    else none
  | _ => none

private def expect (b : UInt8) : Bytes → Option Bytes
  | [] => none
  | c :: s => if c = b then some s else none

private def isLeap (year : Nat) : Bool :=
  year % 4 = 0 && (year % 100 ≠ 0 || year % 400 = 0)

private def daysIn (year month : Nat) : Nat :=
  if month = 2 then if isLeap year then 29 else 28
  else if [4, 6, 9, 11].contains month then 30
  else 31

private def date (s : Bytes) : Option Bytes := do
  let year ← Bytes.toNat? (s.take 4)
  if (s.take 4).length ≠ 4 then none
  let (month, s) ← short (← expect 45 (s.drop 4))
  let (day, s) ← short (← expect 45 s)
  if 1 ≤ month && month ≤ 12 && 1 ≤ day && day ≤ daysIn year month then some s else none

private def fraction (s : Bytes) : Bytes :=
  match s with
  | a :: b :: t => if (a = 46 || a = 44) && Bytes.isDigit b then t.dropWhile Bytes.isDigit else s
  | _ => s

private def time (s : Bytes) : Option Bytes := do
  let (hour, s) ← short s
  let (minute, s) ← short (← expect 58 s)
  let (second, s) ← short (← expect 58 s)
  if hour < 24 && minute < 60 && second < 60 then some (fraction s) else none

private def zone : Bytes → Option Bytes
  | [] => none
  | b :: s =>
    if b = 90 then some s
    else if b = 43 || b = 45 then do
      let (hour, s) ← two s
      let (minute, s) ← two (← expect 58 s)
      if hour ≤ 24 && minute ≤ 60 then some s else none
    else none

private def ended (s : Option Bytes) : Bool := s == some []

/-- A date, or a date and a time; behind the letter T a time zone has to follow. -/
def matches? (s : Bytes) : Bool :=
  match date s with
  | none => false
  | some [] => true
  | some (b :: rest) =>
    if b = 84 || b = 116 then ended ((time rest).bind zone)
    else b = 32 && ended (time rest)

end CommandShell.Yaml.Timestamp
