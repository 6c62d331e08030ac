import ScriptEngine.Text.CharacterSet

/-! Letter case, trimming and cutting.

Only the letters `A` to `Z` and `a` to `z` have a case here; every other
character is its own lower case. `trim` takes white space off both ends of a text and
nothing else, and `fields` cuts a text at a separator. -/
namespace ScriptEngine.Text

def asciiLower (s : List Char) : List Char := s.map Char.toLower

/-- Equality up to the case of ASCII letters. -/
def eqIgnoringCase (a b : String) : Bool := asciiLower a.toList == asciiLower b.toList

def trimFront (s : List Char) : List Char := s.dropWhile isBlank

def trimBack (s : List Char) : List Char := (s.reverse.dropWhile isBlank).reverse

/-- Takes blanks off both ends. -/
def trim (s : List Char) : List Char := trimBack (trimFront s)

/-- The parts between separators: one more than there are separators. -/
def fields (separator : Char) : List Char → List (List Char)
  | [] => [[]]
  | c :: rest =>
    if c = separator then [] :: fields separator rest
    else
      match fields separator rest with
      | [] => [[c]]
      | first :: others => (c :: first) :: others

end ScriptEngine.Text
