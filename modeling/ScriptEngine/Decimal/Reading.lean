import ScriptEngine.Decimal.Double
import ScriptEngine.Text.Basic

/-! Reading decimal numerals.

`readInt?` reads a signed whole number in ASCII digits. `readDouble?` reads a
decimal with an optional fraction and exponent, or the name of infinity or of the
number that is none, and gives the double nearest to what was read. -/
namespace ScriptEngine.Decimal

/-- An ASCII digit. -/
def isDigit (c : Char) : Bool := '0' ≤ c && c ≤ '9'

/-- The number that ASCII digits stand for. -/
def digitsValue (digits : List Char) : Nat :=
  digits.foldl (fun n c => 10 * n + (c.toNat - '0'.toNat)) 0

/-- Takes a sign off the front; `true` is the minus. -/
def splitSign : List Char → Bool × List Char
  | '+' :: rest => (false, rest)
  | '-' :: rest => (true, rest)
  | s => (false, s)

/-- A whole number: an optional sign and one or more ASCII digits. -/
def readInt? (s : List Char) : Option Int :=
  let (negative, digits) := splitSign s
  if digits.isEmpty || !digits.all isDigit then none
  else
    let n : Int := digitsValue digits
    some (if negative then -n else n)

def readIntWithin? (low high : Int) (s : List Char) : Option Int :=
  (readInt? s).filter fun n => low ≤ n && n ≤ high

/-- The exponent part of a numeral: nothing, or `e` and a whole number. -/
def readExponent? : List Char → Option Int
  | [] => some 0
  | c :: rest => if c = 'e' || c = 'E' then readInt? rest else none

/-- The double nearest to `digits * 10 ^ power`. -/
def scale (negative : Bool) (digits : Nat) (power : Int) : Float :=
  let size : Int := (Nat.toDigits 10 digits).length
  if digits = 0 || power + size < -400 then nearest negative 0 1
  else if 400 < power + size then nearest negative (Nat.pow 10 400) 1
  else nearest negative (digits * Nat.pow 10 power.toNat) (Nat.pow 10 (-power).toNat)

/-- An unsigned decimal: digits with an optional point, at least one digit, an optional exponent. -/
def readUnsigned? (negative : Bool) (s : List Char) : Option Float :=
  let whole := s.takeWhile isDigit
  let afterWhole := s.dropWhile isDigit
  let (part, afterPart) :=
    match afterWhole with
    | '.' :: rest => (rest.takeWhile isDigit, rest.dropWhile isDigit)
    | rest => ([], rest)
  if whole.isEmpty && part.isEmpty then none
  else
    (readExponent? afterPart).map fun e =>
      scale negative (digitsValue (whole ++ part)) (e - part.length)

/-- The double nearest to the number that a text names. -/
def readDouble? (s : String) : Option Float :=
  let (negative, body) := splitSign s.toList
  let name := String.ofList (Text.asciiLower body)
  if name = "nan" then some (Float.ofBits 0x7ff8000000000000)
  else if name = "inf" || name = "infinity" then
    some (Float.ofBits (if negative then 0xfff0000000000000 else 0x7ff0000000000000))
  else readUnsigned? negative body

end ScriptEngine.Decimal
