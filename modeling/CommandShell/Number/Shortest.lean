import CommandShell.Number.Binary

/-! The shortest decimal that reads back as the same number, and its text. -/
namespace CommandShell.Number

structure Decimal where
  digits : Nat
  exponent : Int
  deriving DecidableEq, Repr

private def fractionLe (a b c d : Nat) : Bool := a * d ≤ c * b

/-- Four times a number and the ends of the interval that rounds to it, over a common
denominator. -/
private def interval (f : Format) (m : Nat) (e : Int) : Nat × Nat × Nat × Nat :=
  let up := Nat.pow 2 e.toNat
  let den := 4 * Nat.pow 2 (-e).toNat
  let low := if m = Nat.pow 2 (f.bits - 1) && e > f.least then 4 * m - 1 else 4 * m - 2
  (low * up, 4 * m * up, (4 * m + 2) * up, den)

private def inside (closed : Bool) (low high den a b : Nat) : Bool :=
  if closed then fractionLe low den a b && fractionLe a b high den
  else !fractionLe a b low den && !fractionLe high den a b

/-- The two neighbours of a fraction on the grid of a power of ten, with that power as a
fraction. -/
private def neighbours (num den : Nat) (k : Int) : Nat × Nat × Nat :=
  let up := Nat.pow 10 k.toNat
  let down := Nat.pow 10 (-k).toNat
  (num * down / (den * up), up, down)

private def distance (num den digits up down : Nat) : Nat :=
  let a := num * down
  let b := digits * up * den
  if a ≥ b then a - b else b - a

/-- The nearest neighbour on a grid that reads back, if one does. -/
private def onGrid (closed : Bool) (low num high den : Nat) (k : Int) : Option Decimal :=
  let (q, up, down) := neighbours num den k
  let fits d := inside closed low high den (d * up) down
  let away d := distance num den d up down
  match fits q, fits (q + 1) with
  | true, true => if away q ≤ away (q + 1) then some ⟨q, k⟩ else some ⟨q + 1, k⟩
  | true, false => some ⟨q, k⟩
  | false, true => some ⟨q + 1, k⟩
  | false, false => none

private def search (closed : Bool) (low num high den : Nat) : Nat → Int → Decimal
  | 0, k => ⟨0, k⟩
  | n + 1, k => (onGrid closed low num high den k).getD (search closed low num high den n (k - 1))

private def trimZeros : Nat → Nat → Int → Decimal
  | 0, d, k => ⟨d, k⟩
  | n + 1, d, k => if d ≠ 0 && d % 10 = 0 then trimZeros n (d / 10) (k + 1) else ⟨d, k⟩

/-- The shortest decimal that rounds to a mantissa and exponent of a format. -/
def shortest (f : Format) (m : Nat) (e : Int) : Decimal :=
  if m = 0 then ⟨0, 0⟩
  else
    let (low, num, high, den) := interval f m e
    let top : Int := (Nat.repr (num / den)).length + 1
    let found := search (m % 2 == 0) low num high den 800 top
    trimZeros 800 found.digits found.exponent

/-- Numbers from a ten thousandth up to a million are written in full and others with an exponent of
at least two digits. -/
def Decimal.text (negative : Bool) (d : Decimal) : Bytes :=
  let digits := Bytes.ofNat d.digits
  let point : Int := digits.length + d.exponent
  let body : Bytes :=
    if d.digits = 0 then "0"
    else if point - 1 < -4 || point > 6 then
      let fraction : Bytes := if digits.length > 1 then "." ++ digits.drop 1 else []
      let power := point - 1
      digits.take 1 ++ fraction ++ "e" ++ (if power < 0 then "-" else "+") ++
        Bytes.padded 2 (Bytes.ofNat power.natAbs)
    else if point ≤ 0 then ("0." : Bytes) ++ List.replicate (-point).toNat 48 ++ digits
    else if digits.length ≤ point then
      digits ++ List.replicate (point.toNat - digits.length) 48
    else digits.take point.toNat ++ "." ++ digits.drop point.toNat
  if negative then "-" ++ body else body

def Real.shortText (x : Real) : Bytes :=
  match x.round single with
  | .nan => "NaN"
  | .infinite negative => if negative then "-Inf" else "+Inf"
  | .finite negative m e => (shortest single m e).text negative

end CommandShell.Number
