import ScriptEngine.Decimal.Double

/-! The text of a number that a script shows: at most two decimals.

A number is rounded to the nearest hundredth, taken exactly and with a tie going to
the even hundredth, and written with two decimals. Zeros at the end of that text, and
the point if nothing follows it, are left out, and so is the sign of zero. -/
namespace ScriptEngine.Decimal

/-- The hundredths nearest to `mantissa * 2 ^ exponent`. -/
def hundredths (mantissa : Nat) (exponent : Int) : Nat :=
  roundHalfEven (mantissa * 100 * Nat.pow 2 exponent.toNat) (Nat.pow 2 (-exponent).toNat)

def decimals (count : Nat) : List Char :=
  [Nat.digitChar (count / 10 % 10), Nat.digitChar (count % 10)]

/-- A number of hundredths with a sign and two decimals; zero may have a sign as well. -/
def fixed (negative : Bool) (count : Nat) : List Char :=
  (if negative then ['-'] else []) ++ Nat.toDigits 10 (count / 100) ++ '.' :: decimals count

/-- A text without the repetitions of a character at its end. -/
def withoutEnd (c : Char) (text : List Char) : List Char :=
  (text.reverse.dropWhile fun d => d == c).reverse

/-- A text with decimals made as short as it can be. -/
def shortened (text : List Char) : List Char :=
  let trimmed := withoutEnd '.' (withoutEnd '0' text)
  if trimmed = ['-', '0'] then ['0'] else trimmed

/-- The text of a double with at most two decimals. -/
def showNumber (x : Float) : String :=
  match Double.ofFloat x with
  | .nan => "NaN"
  | .infinite negative => if negative then "-inf" else "inf"
  | .finite negative mantissa exponent =>
    String.ofList (shortened (fixed negative (hundredths mantissa exponent)))

end ScriptEngine.Decimal
