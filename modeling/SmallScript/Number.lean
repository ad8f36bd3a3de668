import SmallScript.Decimal

/-! # Numbers as text

The numbers of the language are double-precision floats.

* `Number.text` writes one: positionally, with the fewest digits that read back, and the words `inf`,
  `-inf` and `NaN` for what has no digits.  Zero keeps its sign.
* `Number.read?` reads one: an optional sign, then digits with an optional point and an optional
  power of ten, or one of the words `inf`, `infinity` and `nan` in any case.
-/

namespace SmallScript.Number

/-! ## Writing -/

/-- The sign bit: set for negative numbers and for negative zero. -/
def isNegative (x : Float) : Bool :=
  decide (Nat.pow 2 63 ≤ x.toBits.toNat)

def text (x : Float) : String :=
  if x.isNaN then "NaN"
  else
    let magnitude := if x.isInf then "inf" else (Decimal.shortest x).text
    if isNegative x then "-" ++ magnitude else magnitude

/-! ## Reading -/

/-- Splits off a sign; says whether it is a minus. -/
def signed : List Char → Bool × List Char
  | '-' :: rest => (true, rest)
  | '+' :: rest => (false, rest)
  | text => (false, text)

/-- The numbers that are spelled as a word. -/
def ofWord? (text : List Char) : Option Float :=
  let word := String.ofList (text.map Char.toLower)
  if word = "inf" ∨ word = "infinity" then some (1.0 / 0.0)
  else if word = "nan" then some (0.0 / 0.0)
  else none

/-- The size of a power of ten.  Once it is far out of reach for every number, further digits do not
    count. -/
def powerOfDigits (digits : List Char) : Nat :=
  digits.foldl (fun n c => if n < Nat.pow 2 16 then 10 * n + Decimal.digitValue c else n) 0

/-- A power of ten: digits with an optional sign, nothing else. -/
def exponent? (text : List Char) : Option Int :=
  let (negative, digits) := signed text
  if digits.isEmpty || digits.any (!·.isDigit) then none
  else
    let n := powerOfDigits digits
    some (if negative then -(n : Int) else n)

/-- The power of ten behind the digits; without an `e`, none at all. -/
def power? : List Char → Option Int
  | [] => some 0
  | c :: rest => if c = 'e' ∨ c = 'E' then exponent? rest else none

/-- A number without a sign that is spelled with digits. -/
def ofDigits? (text : List Char) : Option Float :=
  let whole := text.takeWhile Char.isDigit
  let afterWhole := text.dropWhile Char.isDigit
  let (fraction, rest) :=
    match afterWhole with
    | '.' :: behind => (behind.takeWhile Char.isDigit, behind.dropWhile Char.isDigit)
    | _ => ([], afterWhole)
  if whole.isEmpty && fraction.isEmpty then none
  else do
    let power ← power? rest
    let d := Decimal.ofDigits whole fraction
    return Decimal.scaled d.digits (power - d.places)

def read? (text : List Char) : Option Float := do
  let (negative, body) := signed text
  let magnitude ← ofWord? body <|> ofDigits? body
  return if negative then -magnitude else magnitude

end SmallScript.Number
