/-! # Decimals

A `Decimal` is a number written with digits and, perhaps, a point: its digits read as one whole number,
and how many of them stand behind the point.  Every number a script can write or print has this form.

* `Decimal.nearest num den` is the double-precision number nearest to the ratio `num / den` of two whole
  numbers, the even one of two that are equally near, and `Decimal.toFloat` is the number that a decimal
  denotes in this way.
* `Decimal.shortest` is the decimal with which a number is printed.
* `Decimal.text` is the spelling of a decimal, and `Decimal.ofDigits` reads the digits of one.
-/

namespace SmallScript

/-- The number `digits / 10 ^ places`. -/
structure Decimal where
  digits : Nat
  places : Nat
  deriving DecidableEq, Repr, Inhabited

namespace Decimal

/-! ## The nearest number

A number is a whole significand below `2 ^ 53` times a power of two, and that power is at least
`2 ^ (-1074)`; so the ratio is first measured, which fixes the power, and then rounded to a whole number
of it.  The encoding of a number puts the power above the significand, in such a way that the numbers
are ordered like their encodings.  A significand that is rounded up to `2 ^ 53` therefore needs no care,
and whatever is too large ends at the encoding of infinity. -/

/-- The whole number nearest to a ratio, the even one of two that are equally near. -/
def roundRatio (num den : Nat) : Nat :=
  let whole := num / den
  let twice := 2 * (num % den)
  if den < twice ∨ (den = twice ∧ whole % 2 = 1) then whole + 1 else whole

/-- The ratio `num / den` in units of `2 ^ (unit - 1074)`, as a ratio of whole numbers. -/
def inUnits (num den unit : Nat) : Nat × Nat :=
  if unit ≤ 1074 then (num * Nat.pow 2 (1074 - unit), den) else (num, den * Nat.pow 2 (unit - 1074))

/-- The least `unit` for which `num / den` is less than `2 ^ 53` units. -/
def unitOf (num den : Nat) : Nat :=
  let guess := num.log2 + 1074 - (den.log2 + 53)
  let ratio := inUnits num den guess
  if ratio.1 < ratio.2 * Nat.pow 2 53 then guess else guess + 1

def infinityBits : Nat := 0x7FF * Nat.pow 2 52

def nearest (num den : Nat) : Float :=
  let unit := unitOf num den
  let ratio := inUnits num den unit
  Float.ofBits (min (unit * Nat.pow 2 52 + roundRatio ratio.1 ratio.2) infinityBits).toUInt64

/-- The number nearest to `digits * 10 ^ exponent`.  Powers of ten that are out of reach for every number
    are not computed. -/
def scaled (digits : Nat) (exponent : Int) : Float :=
  if digits = 0 ∨ exponent < -(400 + (digits.log2 : Int)) then 0.0
  else if 400 < exponent then 1.0 / 0.0
  else if exponent < 0 then nearest digits (Nat.pow 10 exponent.natAbs)
  else nearest (digits * Nat.pow 10 exponent.natAbs) 1

def toFloat (d : Decimal) : Float :=
  scaled d.digits (-(d.places : Int))

/-! ## Digits -/

def digitValue (c : Char) : Nat :=
  c.toNat - '0'.toNat

def natOfDigits (digits : List Char) : Nat :=
  digits.foldl (fun n c => 10 * n + digitValue c) 0

/-- The decimal with these digits before and behind the point. -/
def ofDigits (whole fraction : List Char) : Decimal :=
  ⟨natOfDigits (whole ++ fraction), fraction.length⟩

/-- How many digits are written for a decimal, zeros in front left out. -/
def size (d : Decimal) : Nat :=
  (Nat.toDigits 10 d.digits).length

/-- The digits of a decimal, with zeros in front as far as a digit before the point needs them. -/
def padded (d : Decimal) : List Char :=
  let written := Nat.toDigits 10 d.digits
  List.replicate (d.places + 1 - written.length) '0' ++ written

/-- No point is written without digits behind it. -/
def text (d : Decimal) : String :=
  let whole := String.ofList (d.padded.take (d.padded.length - d.places))
  if d.places = 0 then whole
  else whole ++ "." ++ String.ofList (d.padded.drop (d.padded.length - d.places))

/-! ## The shortest decimal of a number

A number is printed with the fewest digits that still read back as that number; of two such decimals the
nearer one is taken, and the larger one if both are equally near.

The search starts from the exact decimal of the number.  Cut to its first `n` digits it leaves two
neighbours of the number on the grid of `n`-digit decimals, and if any decimal of that grid reads back,
so does one of the two.  The exact decimal itself reads back, so the search always has an answer. -/

/-- Leaves out the zeros at the end of `digits` that stand behind the point. -/
def trimmed (digits : Nat) : Nat → Decimal
  | 0 => ⟨digits, 0⟩
  | places + 1 =>
    if digits % 10 = 0 then trimmed (digits / 10) places else ⟨digits, places + 1⟩

/-- The decimal equal to the magnitude of a finite number, which is a whole `significand` times
    `2 ^ (scale - 1075)`.  The encoding holds the scale above 52 bits of the significand, whose 53rd
    bit is set unless the scale is least. -/
def exact (x : Float) : Decimal :=
  let bits := x.toBits.toNat
  let fraction := bits % Nat.pow 2 52
  let exponent := bits / Nat.pow 2 52 % Nat.pow 2 11
  let significand := if exponent = 0 then fraction else Nat.pow 2 52 + fraction
  let scale := max exponent 1
  if 1075 ≤ scale then ⟨significand * Nat.pow 2 (scale - 1075), 0⟩
  else ⟨significand * Nat.pow 5 (1075 - scale), 1075 - scale⟩

/-- The decimal whose leading digits are `head`, on the grid that lacks the last `dropped` digits
    of `d`. -/
def onGrid (d : Decimal) (dropped head : Nat) : Decimal :=
  if dropped ≤ d.places then trimmed head (d.places - dropped)
  else ⟨head * Nat.pow 10 (dropped - d.places), 0⟩

/-- The neighbour of `d` without its last `dropped` digits that reads back as `x`, if there is one. -/
def neighbour? (d : Decimal) (x : Float) (dropped : Nat) : Option Decimal :=
  let unit := Nat.pow 10 dropped
  let below := d.onGrid dropped (d.digits / unit)
  let above := d.onGrid dropped (d.digits / unit + 1)
  if below.toFloat = x then
    if above.toFloat = x ∧ unit ≤ 2 * (d.digits % unit) then some above else some below
  else if above.toFloat = x then some above
  else none

def shortest (x : Float) : Decimal :=
  let d := exact x
  let size := d.size
  ((List.range size).findSome? fun i => d.neighbour? x.abs (size - (i + 1))).getD d

end Decimal

end SmallScript
