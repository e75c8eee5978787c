import CommandShell.Unicode.Category

/-! The order of keys in written mappings: letters behind other characters, and runs of digits by
their number. -/
namespace CommandShell.Yaml

private def word (n : Int) : Int := Int.bmod n 0x10000000000000000

/-- The digits at the front as a number of 64 bits behind a first digit, and how many there are. -/
private def digitRun (first : Int) (cs : List Char) : Int × Nat :=
  let run := cs.takeWhile Unicode.isDigit
  (run.foldl (fun n c => word (n * 10 + ((c.toNat : Int) - 48))) first, run.length)

/-- Whether the digits just before hold one that is not zero; `before` is reversed. -/
private def insideNumber (before : List Char) : Bool :=
  (before.takeWhile Unicode.isDigit).any (· != '0')

private def lessFrom (before : List Char) : List Char → List Char → Bool
  | [], [] => false
  | [], _ :: _ => true
  | _ :: _, [] => false
  | a :: s, b :: t =>
    if a = b then lessFrom (a :: before) s t
    else
      let al := Unicode.isLetter a
      let bl := Unicode.isLetter b
      if al && bl then a < b
      else if al || bl then bl
      else
        let first := if (a = '0' || b = '0') && insideNumber before then 1 else 0
        let (an, ai) := digitRun first (a :: s)
        let (bn, bi) := digitRun first (b :: t)
        if an ≠ bn then an < bn
        else if ai ≠ bi then ai < bi
        else a < b

def keyLess (a b : Bytes) : Bool := lessFrom [] (Utf8.chars a) (Utf8.chars b)

end CommandShell.Yaml
