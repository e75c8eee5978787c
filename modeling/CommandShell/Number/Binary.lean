import CommandShell.Bytes

/-! Binary floating-point numbers as exact fractions: reading a decimal rounds to the nearest number
of a format, and ties go to the even one. -/
namespace CommandShell.Number

/-- A format: how many bits a mantissa has, and the least and greatest exponents of two. -/
structure Format where
  bits : Nat
  least : Int
  greatest : Int

def double : Format := ⟨53, -1074, 971⟩

def single : Format := ⟨24, -149, 104⟩

inductive Real where
  | nan
  | infinite (negative : Bool)
  | finite (negative : Bool) (mantissa : Nat) (exponent : Int)
  deriving DecidableEq, Repr

/-- Equality of values: both zeros are equal, and no number equals what is not a number. -/
def Real.same : Real → Real → Bool
  | .nan, _ => false
  | .finite _ 0 _, .finite _ 0 _ => true
  | x, y => x == y

private def pow2 (e : Int) : Nat := Nat.pow 2 e.toNat

/-- A fraction divided by a power of two, to the nearest whole number. -/
private def scaled (num den : Nat) (e : Int) : Nat :=
  let n := num * pow2 (-e)
  let d := den * pow2 e
  let q := n / d
  let r := n % d
  if 2 * r > d || (2 * r == d && q % 2 == 1) then q + 1 else q

private def log2 (num den : Nat) : Int := (Nat.log2 num : Int) - (Nat.log2 den : Int)

/-- The nearest number of a format to a fraction; none if it is too large. -/
def nearest (f : Format) (negative : Bool) (num den : Nat) : Option Real :=
  if num = 0 then some (.finite negative 0 f.least)
  else
    let guess := log2 num den - (f.bits : Int)
    let start := max guess f.least
    let e := if scaled num den start ≥ Nat.pow 2 f.bits then start + 1 else start
    let m := scaled num den e
    let (m, e) := if m = Nat.pow 2 f.bits then (Nat.pow 2 (f.bits - 1), e + 1) else (m, e)
    if e > f.greatest then none else some (.finite negative m e)

/-- Rounds a number to another format; what is too large becomes infinite. -/
def Real.round (f : Format) : Real → Real
  | .finite negative m e => (nearest f negative (m * pow2 e) (pow2 (-e))).getD (.infinite negative)
  | x => x

/-- The nearest number to digits times a power of ten. Exponents far outside the format are decided
without computing the power. -/
def ofDecimal (f : Format) (negative : Bool) (digits : Nat) (exponent : Int) : Option Real :=
  let size := (Nat.repr digits).length + exponent
  if digits = 0 || size < -400 then some (.finite negative 0 f.least)
  else if size > 400 then none
  else if exponent ≥ 0 then nearest f negative (digits * Nat.pow 10 exponent.toNat) 1
  else nearest f negative digits (Nat.pow 10 (-exponent).toNat)

end CommandShell.Number
