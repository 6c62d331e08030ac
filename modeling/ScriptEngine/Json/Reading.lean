import ScriptEngine.Decimal.Reading
import ScriptEngine.Json.Basic

/-! Reading JSON.

A reader takes what it reads off the front of a text and hands on what follows. Gaps
may stand around every value and every mark, and a number keeps its text. What was
printed, in either layout, is read back; a text that goes on after its value, breaks
off within it or holds a bare control character in a string is refused. -/
namespace ScriptEngine.Json

/-! ### Strings -/

def hexValue? (c : Char) : Option Nat :=
  if '0' ≤ c && c ≤ '9' then some (c.toNat - '0'.toNat)
  else if 'a' ≤ c && c ≤ 'f' then some (c.toNat - 'a'.toNat + 10)
  else if 'A' ≤ c && c ≤ 'F' then some (c.toNat - 'A'.toNat + 10)
  else none

/-- The number that four hexadecimal digits stand for. -/
def unit? : List Char → Option (Nat × List Char)
  | a :: b :: c :: d :: rest => do
    let high := 16 * (← hexValue? a) + (← hexValue? b)
    let low := 16 * (← hexValue? c) + (← hexValue? d)
    return (256 * high + low, rest)
  | _ => none

/-- The character that a pair of surrogates stands for, given the first one. -/
def paired? (first : Nat) : List Char → Option (Char × List Char)
  | '\\' :: 'u' :: s => do
    let (second, rest) ← unit? s
    if 0xDC00 ≤ second && second < 0xE000 then
      return (Char.ofNat (0x10000 + 0x400 * (first - 0xD800) + (second - 0xDC00)), rest)
    else
      none
  | _ => none

/-- A character written by its number; no surrogate stands alone. -/
def numbered? (s : List Char) : Option (Char × List Char) := do
  let (n, rest) ← unit? s
  if n < 0xD800 || 0xE000 ≤ n then return (Char.ofNat n, rest)
  else if n < 0xDC00 then paired? n rest
  else none

/-- The character that is written after a backslash. -/
def escaped? : List Char → Option (Char × List Char)
  | '"' :: rest => some ('"', rest)
  | '\\' :: rest => some ('\\', rest)
  | '/' :: rest => some ('/', rest)
  | 'b' :: rest => some ('\x08', rest)
  | 'f' :: rest => some ('\x0c', rest)
  | 'n' :: rest => some ('\n', rest)
  | 'r' :: rest => some ('\r', rest)
  | 't' :: rest => some ('\t', rest)
  | 'u' :: rest => numbered? rest
  | _ => none

/-- One character of a string. -/
def character? : List Char → Option (Char × List Char)
  | [] => none
  | c :: rest =>
    if c = '\\' then escaped? rest
    else if c.toNat < 0x20 then none
    else some (c, rest)

/-- The characters of a string up to its closing quote, at most `fuel` of them. -/
def characters? : Nat → List Char → Option (List Char × List Char)
  | 0, s => if s.head? = some '"' then some ([], s.tail) else none
  | fuel + 1, s =>
    if s.head? = some '"' then some ([], s.tail)
    else do
      let (c, rest) ← character? s
      let (cs, rest) ← characters? fuel rest
      return (c :: cs, rest)

/-- What follows the opening quote of a string. -/
def stringTail? (s : List Char) : Option (String × List Char) := do
  let (cs, rest) ← characters? s.length s
  return (String.ofList cs, rest)

/-! ### Numbers and words -/

/-- One or more digits. -/
def digits? (s : List Char) : Option (List Char × List Char) :=
  let digits := s.takeWhile Decimal.isDigit
  if digits.isEmpty then none else some (digits, s.dropWhile Decimal.isDigit)

/-- The whole part of a number, which has no needless zero in front. -/
def whole? (s : List Char) : Option (List Char × List Char) :=
  (digits? s).filter fun read => read.1.head? != some '0' || read.1.length == 1

/-- The fraction of a number, if it has one. -/
def fraction? : List Char → Option (List Char × List Char)
  | '.' :: s => do
    let (digits, rest) ← digits? s
    return ('.' :: digits, rest)
  | s => some ([], s)

/-- The exponent of a number, if it has one. -/
def exponent? : List Char → Option (List Char × List Char)
  | [] => some ([], [])
  | e :: s =>
    if e = 'e' || e = 'E' then do
      let sign := s.takeWhile fun c => c = '+' || c = '-'
      let (digits, rest) ← digits? (s.drop sign.length)
      if sign.length ≤ 1 then return (e :: sign ++ digits, rest) else none
    else some ([], e :: s)

/-- A number, kept as its text. -/
def numeral? (s : List Char) : Option (Json × List Char) := do
  let sign := if s.head? = some '-' then ['-'] else []
  let (whole, rest) ← whole? (s.drop sign.length)
  let (fraction, rest) ← fraction? rest
  let (exponent, rest) ← exponent? rest
  return (.number (String.ofList (sign ++ whole ++ fraction ++ exponent)), rest)

/-- A word or a number. -/
def plain? : List Char → Option (Json × List Char)
  | 'n' :: 'u' :: 'l' :: 'l' :: rest => some (.null, rest)
  | 't' :: 'r' :: 'u' :: 'e' :: rest => some (.bool true, rest)
  | 'f' :: 'a' :: 'l' :: 's' :: 'e' :: rest => some (.bool false, rest)
  | s => numeral? s

/-! ### Values -/

/-- A character that may stand between values and marks. -/
def isGap (c : Char) : Bool := c = ' ' || c = '\n' || c = '\r' || c = '\t'

/-- A text without the gap at its front. -/
def skip (s : List Char) : List Char := s.dropWhile isGap

/-- The name of a member, with the colon after it. -/
def nameTag? : List Char → Option (String × List Char)
  | '"' :: s => do
    let (name, rest) ← stringTail? s
    match skip rest with
    | ':' :: rest => return (name, rest)
    | _ => none
  | _ => none

mutual
def value? : Nat → List Char → Option (Json × List Char)
  | 0, _ => none
  | fuel + 1, s =>
    match skip s with
    | '"' :: rest => do
      let (text, rest) ← stringTail? rest
      return (.string text, rest)
    | '[' :: rest =>
      match skip rest with
      | ']' :: rest => some (.array [], rest)
      | rest => do
        let (items, rest) ← items? fuel rest
        return (.array items, rest)
    | '\x7b' :: rest =>
      match skip rest with
      | '\x7d' :: rest => some (.object [], rest)
      | rest => do
        let (members, rest) ← members? fuel rest
        return (.object members, rest)
    | rest => plain? rest
/-- The items of an array that has some. -/
def items? : Nat → List Char → Option (List Json × List Char)
  | 0, _ => none
  | fuel + 1, s => do
    let (item, rest) ← value? fuel s
    match skip rest with
    | ',' :: rest => do
      let (items, rest) ← items? fuel rest
      return (item :: items, rest)
    | ']' :: rest => return ([item], rest)
    | _ => none
/-- The members of an object that has some. -/
def members? : Nat → List Char → Option (List (String × Json) × List Char)
  | 0, _ => none
  | fuel + 1, s => do
    let (name, rest) ← nameTag? (skip s)
    let (value, rest) ← value? fuel rest
    match skip rest with
    | ',' :: rest => do
      let (members, rest) ← members? fuel rest
      return ((name, value) :: members, rest)
    | '\x7d' :: rest => return ([(name, value)], rest)
    | _ => none
end

/-- The value that a text holds. Every step into a value uses up a character of the text, so the
text's length is fuel enough. -/
def read? (text : String) : Option Json :=
  let s := text.toList
  match value? (s.length + 1) s with
  | none => none
  | some (j, rest) => if (skip rest).isEmpty then some j else none

end ScriptEngine.Json
