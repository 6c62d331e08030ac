import ScriptEngine.Decimal.Double

/-! The shortest decimal text of a double.

The digits are the fewest that name the double among all doubles, and of the
texts with that many digits the one nearest to it. Digits are looked for on the
decimal grids of one, two, three … digits; on each grid only the two neighbours of
the number can lie in the interval of the reals that round to it. -/
namespace ScriptEngine.Decimal

/-- The fraction `value / unit` with the ends of the interval around it, over the same unit. -/
structure Interval where
  value : Nat
  low : Nat
  high : Nat
  unit : Nat
  /-- Whether the ends themselves round to the value. -/
  closed : Bool

/-- The reals that round to `mantissa * 2 ^ exponent`. -/
def Interval.ofDouble (mantissa : Nat) (exponent : Int) : Interval :=
  let scale := Nat.pow 2 exponent.toNat
  let narrow := mantissa = Nat.pow 2 52 ∧ exponent ≠ -1074
  { value := 4 * mantissa * scale
    low := (if narrow then 4 * mantissa - 1 else 4 * mantissa - 2) * scale
    high := (4 * mantissa + 2) * scale
    unit := 4 * Nat.pow 2 (-exponent).toNat
    closed := mantissa % 2 = 0 }

def Interval.stretch (i : Interval) (power : Int) : Interval :=
  let up := Nat.pow 10 power.toNat
  { i with
    value := i.value * up
    low := i.low * up
    high := i.high * up
    unit := i.unit * Nat.pow 10 (-power).toNat }

def Interval.holds (i : Interval) (n : Nat) : Bool :=
  let at' := n * i.unit
  if i.closed then i.low ≤ at' && at' ≤ i.high else i.low < at' && at' < i.high

/-- The whole number in the interval that is nearest to its value, a tie going up. -/
def Interval.nearest? (i : Interval) : Option Nat :=
  let below := i.value / i.unit
  let upper := i.unit ≤ 2 * (i.value % i.unit)
  match i.holds below, i.holds (below + 1) with
  | true, true => some (if upper then below + 1 else below)
  | true, false => some below
  | false, true => some (below + 1)
  | false, false => none

/-- The exponent of the leading decimal digit of `num / den`, both positive. -/
def leadingExponent (num den : Nat) : Int :=
  if den ≤ num then ((Nat.toDigits 10 (num / den)).length : Int) - 1
  else
    let power := (Nat.toDigits 10 (den / num)).length - 1
    if den ≤ num * Nat.pow 10 power then -(power : Int) else -(power : Int) - 1

/-- Tries grids of more and more digits, `fuel` of them; the answer is `digits * 10 ^ exponent`. -/
def searchGrids (i : Interval) (leading : Int) : Nat → Nat → Nat × Int
  | 0, count => (i.value / i.unit, leading + 1 - count)
  | fuel + 1, count =>
    let last := leading + 1 - count
    match (i.stretch (-last)).nearest? with
    | some digits => (digits, last)
    | none => searchGrids i leading fuel (count + 1)

/-- Moves trailing zeros of the digits into the exponent, `fuel` of them at most. -/
def dropZeros : Nat → Nat × Int → Nat × Int
  | 0, d => d
  | fuel + 1, (digits, exponent) =>
    if digits % 10 = 0 then dropZeros fuel (digits / 10, exponent + 1) else (digits, exponent)

/-- The shortest digits of a positive double, and the power of ten they are multiplied with. -/
def shortestDigits (mantissa : Nat) (exponent : Int) : Nat × Int :=
  let i := Interval.ofDouble mantissa exponent
  dropZeros 20 (searchGrids i (leadingExponent i.value i.unit) 17 1)

/-- Digits in positional notation, with at least one digit on either side of the point. -/
def positional (digits : List Char) (leading : Int) : List Char :=
  if leading < 0 then
    '0' :: '.' :: List.replicate (-leading - 1).toNat '0' ++ digits
  else
    let whole := leading.toNat + 1
    let front := digits.take whole ++ List.replicate (whole - digits.length) '0'
    let back := digits.drop whole
    front ++ '.' :: (if back.isEmpty then ['0'] else back)

/-- Digits in scientific notation: one digit, the others after a point, the exponent. -/
def scientific (digits : List Char) (leading : Int) : List Char :=
  let back := digits.drop 1
  digits.take 1 ++ (if back.isEmpty then [] else '.' :: back) ++ 'e' :: (toString leading).toList

/-- The shortest text of a double: positional from `10 ^ -4` up to below `10 ^ 16`, otherwise
scientific. -/
def shortest (x : Float) : String :=
  match Double.ofFloat x with
  | .nan => "NaN"
  | .infinite negative => if negative then "-inf" else "inf"
  | .finite negative mantissa exponent =>
    let sign := if negative then ['-'] else []
    if mantissa = 0 then String.ofList (sign ++ ['0', '.', '0'])
    else
      let (number, power) := shortestDigits mantissa exponent
      let digits := Nat.toDigits 10 number
      let leading := power + digits.length - 1
      let text :=
        if -4 ≤ leading ∧ leading < 16 then positional digits leading else scientific digits leading
      String.ofList (sign ++ text)

end ScriptEngine.Decimal
