/-! Double-precision numbers as exact fractions.

`Double.ofFloat` takes a double apart: a finite one is a signed
`mantissa * 2 ^ exponent`, with no rounding. `nearest` goes the other way: it is
the double nearest to a fraction, ties to the even mantissa. Both that and the text of a
double round quotients by `roundHalfEven`. -/
namespace ScriptEngine.Decimal

/-- The integer nearest to a quotient, a tie going to the even neighbour. -/
def roundHalfEven (num den : Nat) : Nat :=
  let below := num / den
  let twice := 2 * (num % den)
  if twice < den then below
  else if den < twice then below + 1
  else if below % 2 = 0 then below
  else below + 1

example : roundHalfEven 5 2 = 2 ∧ roundHalfEven 7 2 = 4 ∧ roundHalfEven 8 3 = 3 := by decide

/-- A double taken apart. -/
inductive Double where
  | nan
  | infinite (negative : Bool)
  /-- The number `mantissa * 2 ^ exponent`, negated if `negative`. -/
  | finite (negative : Bool) (mantissa : Nat) (exponent : Int)
  deriving DecidableEq

/-- The parts of a double, read from its 64 bits. -/
def Double.ofFloat (x : Float) : Double :=
  let bits := x.toBits.toNat
  let negative := bits / Nat.pow 2 63 == 1
  let exponent : Nat := bits / Nat.pow 2 52 % Nat.pow 2 11
  let fraction := bits % Nat.pow 2 52
  if exponent = 2047 then
    if fraction = 0 then .infinite negative else .nan
  else if exponent = 0 then .finite negative fraction (-1074)
  else .finite negative (fraction + Nat.pow 2 52) ((exponent : Int) - 1075)

/-- The power of two below which a double nearest to `num / den` has no bits. -/
def lastBit (num den : Nat) : Int :=
  let guess : Int := (num.log2 : Int) - den.log2
  let below : Bool :=
    if guess < 0 then num * Nat.pow 2 (-guess).toNat < den else num < den * Nat.pow 2 guess.toNat
  max ((if below then guess - 1 else guess) - 52) (-1074)

/-- The double nearest to `num / den`, for a positive `den`. -/
def nearest (negative : Bool) (num den : Nat) : Float :=
  let sign : Nat := if negative then Nat.pow 2 63 else 0
  if num = 0 then Float.ofBits (UInt64.ofNat sign)
  else
    let last := lastBit num den
    let mantissa :=
      if last < 0 then roundHalfEven (num * Nat.pow 2 (-last).toNat) den
      else roundHalfEven num (den * Nat.pow 2 last.toNat)
    let magnitude :=
      if mantissa < Nat.pow 2 52 then mantissa
      else (last + 1075).toNat * Nat.pow 2 52 + (mantissa - Nat.pow 2 52)
    Float.ofBits (UInt64.ofNat (sign + min magnitude (2047 * Nat.pow 2 52)))

end ScriptEngine.Decimal
