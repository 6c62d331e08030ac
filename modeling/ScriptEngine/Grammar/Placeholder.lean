import ScriptEngine.Decimal.Reading
import ScriptEngine.Error
import ScriptEngine.Text.Basic
import ScriptEngine.Text.CharacterSet

/-! Placeholders of patterns.

A pattern marks the places of its arguments by `%...%`; the rest of a pattern is the
matcher's business. Between the percent signs stand flags, the names of the types that
fit, with a slash between them, and perhaps the state of the event after an `@`. -/
namespace ScriptEngine

/-- The place of one argument. -/
structure Placeholder where
  /-- The names of the types that fit. -/
  names : List String
  /-- The argument may be left out. -/
  optional : Bool
  /-- Only a literal fits. -/
  literalOnly : Bool
  /-- No literal fits. -/
  noLiteral : Bool
  /-- The state of the event asked for. -/
  time : Option Time

namespace Placeholder

/-- A character that sets a flag. -/
def isFlag (c : Char) : Bool := c = '-' || c = '*' || c = '~'

/-- A text cut before its `@` and number at the end, if it ends so. The digits may be of any
script. -/
def cutTime? (body : List Char) : Option (List Char × List Char) :=
  let back := body.reverse
  let digits := (back.takeWhile Text.isDecimalDigit).reverse
  if digits.isEmpty then none
  else
    match back.dropWhile Text.isDecimalDigit with
    | '-' :: '@' :: rest => some (rest.reverse, '-' :: digits)
    | '@' :: rest => some (rest.reverse, digits)
    | _ => none

/-- The state of the event that a text ends in, and the text without it. -/
def readTime (raw : String) (body : List Char) : Outcome (Option Time × List Char) :=
  match cutTime? body with
  | none => .ok (none, body)
  | some (rest, number) =>
    match (Decimal.readInt? number).bind Time.ofInt? with
    | none => refuse (.badTime raw)
    | some time => .ok (some time, rest)

/-- Reads what stands between two percent signs. -/
def read (raw : String) : Outcome Placeholder := do
  let (time, body) ← readTime raw (Text.trim raw.toList)
  let flags := body.takeWhile isFlag
  let names := (Text.fields '/' (body.dropWhile isFlag)).map Text.trim
  if flags.contains '*' && flags.contains '~' then
    refuse (.literalAndNoLiteral raw)
  else if names.any (·.isEmpty) then
    refuse (.emptyTypeName raw)
  else
    return {
      names := names.map String.ofList
      optional := flags.contains '-'
      literalOnly := flags.contains '*'
      noLiteral := flags.contains '~'
      time := time }

/-- What stands between percent signs, given the parts after the first sign. Two signs with nothing
between them mark no place, and a sign without a partner is plain text. -/
def bodies : List (List Char) → List (List Char)
  | [] => []
  | [_] => []
  | body :: text :: rest =>
    if body.isEmpty then bodies (text :: rest) else body :: bodies rest

/-- The placeholders of a pattern, in order; the first that cannot be read is the error. -/
def ofPattern (pattern : String) : Outcome (List Placeholder) :=
  (bodies (Text.fields '%' pattern.toList).tail).mapM fun body => read (String.ofList body)

end Placeholder

end ScriptEngine
