import ScriptEngine.Text.Hidden

/-! Quoted texts, as values are shown to a script's author.

A quoted text stands between double quotes. A double quote and a backslash are
written after a backslash; tab, line feed, carriage return and the null character
have a letter of their own; a hidden character is written by its number; every
other character stands for itself. -/
namespace ScriptEngine.Text

/-- The number of a character in hexadecimal, between braces. -/
def numbered (c : Char) : List Char :=
  ['\\', 'u', '\x7b'] ++ Nat.toDigits 16 c.toNat ++ ['\x7d']

/-- How one character stands inside a quoted text. -/
def escape (c : Char) : List Char :=
  if c = '\x00' then ['\\', '0']
  else if c = '\t' then ['\\', 't']
  else if c = '\n' then ['\\', 'n']
  else if c = '\r' then ['\\', 'r']
  else if c = '"' then ['\\', '"']
  else if c = '\\' then ['\\', '\\']
  else if isHidden c then numbered c
  else [c]

/-- A text between double quotes, with its characters escaped. -/
def quoted (s : String) : String :=
  String.ofList ('"' :: s.toList.flatMap escape ++ ['"'])

example : quoted "a\"b" = "\"a\\\"b\"" := by decide +kernel

end ScriptEngine.Text
