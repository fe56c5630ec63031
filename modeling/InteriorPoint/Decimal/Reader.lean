/-!
# Reading numbers

Two grammars for numbers in text.

* `readWhole?`: an optional plus sign and at least one digit, below a bound.
* `readFloat?`: an optional sign; then `inf`, `infinity` or `nan` in any case, or digits with at
  most one point, at least one digit in total, and an optional exponent, which is the letter `e`
  in either case, an optional sign and at least one digit. The number is rounded to the nearest
  double; one that is too large is infinite and one that is too small is zero.

Neither admits blanks, separators or digits outside ASCII.
-/

namespace InteriorPoint

namespace Decimal

/-- The value of a list of digits. -/
def digitsValue (ds : List Char) : Nat := ds.foldl (fun v c => 10 * v + (c.toNat - '0'.toNat)) 0

/-- The digits at the start of a text, and the rest. -/
def takeDigits (cs : List Char) : List Char × List Char :=
  (cs.takeWhile Char.isDigit, cs.dropWhile Char.isDigit)

/-- An optional sign at the start of a text: whether it is a minus, and the rest. -/
def takeSign : List Char → Bool × List Char
  | '-' :: cs => (true, cs)
  | '+' :: cs => (false, cs)
  | cs => (false, cs)

/-- **A whole number below a bound.** -/
def readWhole? (bound : Nat) (text : String) : Option Nat :=
  let cs := match text.toList with
    | '+' :: cs => cs
    | cs => cs
  let (digits, rest) := takeDigits cs
  let value := digitsValue digits
  if digits ≠ [] ∧ rest = [] ∧ value < bound then some value else none

/-- An exponent of ten, which takes up the rest of the text; zero if nothing is left. -/
def readExponent? : List Char → Option Int
  | [] => some 0
  | c :: cs =>
    if c = 'e' ∨ c = 'E' then
      let (negative, cs) := takeSign cs
      let (digits, rest) := takeDigits cs
      if digits ≠ [] ∧ rest = [] then
        some (if negative then -(digitsValue digits : Int) else digitsValue digits)
      else none
    else none

/-- The double nearest to `coefficient·10^exponent`. Exponents far outside the range of doubles are
answered before any power is taken. -/
def nearest (coefficient : Nat) (exponent : Int) : Float :=
  if coefficient = 0 then 0.0
  else
    let size : Int := exponent + (toString coefficient).length
    if 400 < size then 1.0 / 0.0
    else if size < -400 then 0.0
    else Float.ofScientific coefficient (exponent < 0) exponent.natAbs

/-- A magnitude: a word, or digits with an optional point and exponent. -/
def readMagnitude? (cs : List Char) : Option Float :=
  let word := String.ofList (cs.map Char.toLower)
  if word = "inf" ∨ word = "infinity" then some (1.0 / 0.0)
  else if word = "nan" then some (0.0 / 0.0)
  else
    let (whole, rest) := takeDigits cs
    let (fraction, rest) := match rest with
      | '.' :: rest => takeDigits rest
      | rest => ([], rest)
    if whole = [] ∧ fraction = [] then none
    else
      (readExponent? rest).map fun e =>
        nearest (digitsValue (whole ++ fraction)) (e - fraction.length)

/-- **A number.** -/
def readFloat? (text : String) : Option Float :=
  let (negative, cs) := takeSign text.toList
  (readMagnitude? cs).map fun x => if negative then -x else x

end Decimal

end InteriorPoint
