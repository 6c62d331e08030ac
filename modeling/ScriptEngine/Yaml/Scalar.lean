import ScriptEngine.Yaml.Cutter

/-! Scalars of YAML.

A scalar is plain, in quotes, or a block of lines of its own. Inside a plain or quoted
scalar, lines are joined by a space and each further line end counts; a block keeps its
lines, or joins them as well if it is folded. Fuel is at least the length of the text
that is left. -/
namespace ScriptEngine.Yaml

/-! ### White space inside a scalar -/

/-- White space met inside a scalar: spaces, or else the first line end and the others. -/
structure Gap where
  spaces : List Char
  broken : Bool
  first : List Char
  others : List Char

def Gap.none : Gap := ⟨[], false, [], []⟩

/-- What white space counts as: lines are joined by a space, and each further line end counts. -/
def Gap.fold (g : Gap) : List Char :=
  if g.broken then
    if g.first = ['\n'] then (if g.others.isEmpty then [' '] else g.others)
    else g.first ++ g.others
  else g.spaces

/-- Passes over white space inside a scalar; a tab may not stand where indentation is asked for. -/
def passGap (indent : Int) : Nat → Gap → Cut Gap
  | 0, g => pure g
  | fuel + 1, g => do
    let c ← get
    match c.rest with
    | [] => return g
    | x :: _ =>
      if isSpace x then
        if g.broken ∧ (c.column : Int) < indent ∧ x = '\t' then failure
        pass 1
        passGap indent fuel (if g.broken then g else { g with spaces := g.spaces ++ [x] })
      else if isBreak x then
        let b ← passBreak
        passGap indent fuel
          (if g.broken then { g with others := g.others ++ b } else ⟨[], true, b, []⟩)
      else
        return g

/-! ### Plain scalars -/

/-- A comma or a bracket. -/
def isFlowMark (c : Char) : Bool :=
  c = ',' || c = '[' || c = ']' || c = '\x7b' || c = '\x7d'

/-- Whether a plain scalar ends before a text. -/
def endsPlain (flow : Nat) : List Char → Bool
  | [] => true
  | ':' :: rest => atGap rest
  | c :: _ => 0 < flow && isFlowMark c

/-- The visible characters of a plain scalar that a text begins with. Between brackets a colon must
not stand right before a bracket, a comma or a question mark. -/
def plainRun? (flow : Nat) : List Char → Option (List Char)
  | [] => some []
  | c :: rest =>
    if atGap (c :: rest) || endsPlain flow (c :: rest) then some []
    else if c = ':' && 0 < flow && rest.head?.any fun d => isFlowMark d || d = '?' then none
    else (plainRun? flow rest).map (c :: ·)

/-- A plain scalar, line after line, its last character first; `gap` is the white space met last. -/
def plainScalar (indent : Int) : Nat → List Char → Gap → Cut (List Char × Gap)
  | 0, text, gap => pure (text, gap)
  | fuel + 1, text, gap => do
    let c ← get
    if (← atDocumentMark) || c.rest.head? = some '#' then return (text, gap)
    let piece ← plainRun? c.flow c.rest
    pass piece.length
    let text := if piece.isEmpty then text else piece.reverse ++ gap.fold.reverse ++ text
    let gap := if piece.isEmpty then gap else Gap.none
    let rest ← ahead
    if rest.isEmpty || !atGap rest then return (text, gap)
    let gap ← passGap indent fuel gap
    let c ← get
    if c.flow = 0 ∧ (c.column : Int) < indent then return (text, gap)
    plainScalar indent fuel text gap

/-- Whether a plain scalar can begin with a text. -/
def beginsPlain (flow : Nat) : List Char → Bool
  | [] => false
  | '-' :: rest => !(rest.head?.any isSpace)
  | '?' :: rest => flow = 0 && !atGap rest
  | ':' :: rest => flow = 0 && !atGap rest
  | c :: rest =>
    !atGap (c :: rest) && !(",[]\x7b\x7d#&*!|>'\"%@\x60".toList.contains c)

def cutPlain (fuel : Nat) : Cut Unit := do
  noteKey
  allowKey false
  let (text, gap) ← plainScalar ((← get).indent + 1) fuel [] Gap.none
  if gap.broken then allowKey true
  emit (.scalar .plain (String.ofList text.reverse))

/-! ### Quoted scalars -/

/-- The character that a letter after a backslash stands for. -/
def escaped? : Char → Option Char
  | '0' => some '\x00'
  | 'a' => some '\x07'
  | 'b' => some '\x08'
  | 't' => some '\t'
  | '\t' => some '\t'
  | 'n' => some '\n'
  | 'v' => some '\x0b'
  | 'f' => some '\x0c'
  | 'r' => some '\r'
  | 'e' => some '\x1b'
  | ' ' => some ' '
  | '"' => some '"'
  | '/' => some '/'
  | '\\' => some '\\'
  | 'N' => some '\x85'
  | '_' => some '\xa0'
  | 'L' => some '\u2028'
  | 'P' => some '\u2029'
  | _ => none

/-- How many hexadecimal digits follow a letter after a backslash. -/
def escapeWidth : Char → Nat
  | 'x' => 2
  | 'u' => 4
  | 'U' => 8
  | _ => 0

/-- Passes over a backslash and what belongs to it. -/
def passEscape (letter : Char) (rest : List Char) : Cut Char := do
  match escaped? letter with
  | some c =>
    pass 2
    return c
  | none =>
    let width := escapeWidth letter
    let digits := rest.take width
    if width = 0 ∨ digits.length < width then failure
    let n ← hexValue? digits
    if ¬ n.isValidChar then failure
    pass (2 + width)
    return Char.ofNat n

/-- Passes over the visible characters of a quoted scalar, and adds them to those found before, the
latest first; the answer also says whether an escaped line end was met. -/
def passQuoted (quote : Char) : Nat → List Char → Cut (List Char × Bool)
  | 0, found => pure (found, false)
  | fuel + 1, found => do
    let text ← ahead
    match text with
    | [] => return (found, false)
    | c :: rest =>
      if atGap text then return (found, false)
      if c = quote then
        if quote = '\'' ∧ rest.head? = some '\'' then
          pass 2
          passQuoted quote fuel (c :: found)
        else
          return (found, false)
      else if quote = '"' ∧ c = '\\' then
        match rest with
        | [] => failure
        | letter :: after =>
          if isBreak letter then
            pass 1
            let _ ← passBreak
            return (found, true)
          else
            let e ← passEscape letter after
            passQuoted quote fuel (e :: found)
      else
        pass 1
        passQuoted quote fuel (c :: found)

/-- The inside of a quoted scalar, line after line, its last character first. -/
def quotedScalar (quote : Char) : Nat → List Char → Cut (List Char)
  | 0, _ => failure
  | fuel + 1, text => do
    if ← atDocumentMark then failure
    if (← ahead).isEmpty then failure
    let (text, joined) ← passQuoted quote (fuel + 1) text
    if (← ahead).head? = some quote then
      pass 1
      return text
    let gap ← passGap (-1) (fuel + 1) ⟨[], joined, [], []⟩
    quotedScalar quote fuel (gap.fold.reverse ++ text)

def cutQuoted (quote : Char) (fuel : Nat) : Cut Unit := do
  noteKey
  allowKey false
  pass 1
  let text ← quotedScalar quote fuel []
  emit (.scalar .quoted (String.ofList text.reverse))

/-! ### Block scalars -/

/-- Passes over empty lines before a line of a block scalar, finding out its indentation if it is
not known (zero); gives the indentation and the line ends. -/
def passIndent (outer : Int) (known : Nat) : Nat → Nat → List Char → Cut (Nat × List Char)
  | 0, _, breaks => pure (known, breaks)
  | fuel + 1, deepest, breaks => do
    let c ← get
    let room := if known = 0 then c.rest else c.rest.take (known - c.column)
    pass (room.takeWhile (· = ' ')).length
    let c ← get
    let deepest := max deepest c.column
    if (known = 0 ∨ c.column < known) ∧ c.rest.head? = some '\t' then failure
    if c.rest.head?.any isBreak then
      let b ← passBreak
      passIndent outer known fuel deepest (breaks ++ b)
    else
      let found := if known = 0 then max (max deepest (outer + 1).toNat) 1 else known
      return (found, breaks)

/-- The lines of a block scalar, the last character first: `first` is the line end before the next
line, `breaks` the empty lines after it, and `spaced` says whether the last line began with a
space. -/
def blockLines (folded : Bool) (outer : Int) (indent : Nat) :
    Nat → List Char → List Char → List Char → Bool → Cut (List Char × List Char × List Char)
  | 0, text, first, breaks, _ => pure (text, first, breaks)
  | fuel + 1, text, first, breaks, spaced => do
    let c ← get
    if c.column ≠ indent ∨ c.rest.isEmpty then return (text, first, breaks)
    let spacedNow := c.rest.head?.any isSpace
    let joint :=
      if folded && first == ['\n'] && !spaced && !spacedNow then
        (if breaks.isEmpty then [' '] else [])
      else first
    let line ← passWhile fun x => !isBreak x
    let ended ← passBreak
    let (_, after) ← passIndent outer indent (fuel + 1) 0 []
    let text := line.reverse ++ breaks.reverse ++ joint.reverse ++ text
    blockLines folded outer indent fuel text ended after spacedNow

/-- What becomes of the line ends after a block scalar. -/
inductive Chomping where
  | strip
  | clip
  | keep

/-- The chomping that the next character asks for. -/
def chomping : Cut Chomping := do
  match (← ahead).head? with
  | some '+' =>
    pass 1
    return .keep
  | some '-' =>
    pass 1
    return .strip
  | _ => return .clip

/-- The indentation that the next character asks for; zero if none. -/
def increment : Cut Nat := do
  match (← ahead).head? with
  | some d =>
    if '0' ≤ d ∧ d ≤ '9' then
      if d = '0' then failure
      pass 1
      return d.toNat - '0'.toNat
    else return 0
  | none => return 0

/-- The chomping and the indentation that the head of a block scalar asks for, in either order. -/
def blockHead : Cut (Chomping × Nat) := do
  match (← ahead).head? with
  | some '+' => return (← chomping, ← increment)
  | some '-' => return (← chomping, ← increment)
  | _ =>
    let n ← increment
    if n = 0 then return (.clip, 0)
    return (← chomping, n)

def blockScalar (folded : Bool) (fuel : Nat) : Cut (List Char) := do
  pass 1
  let (chomping, increment) ← blockHead
  let _ ← passWhile isSpace
  passComment
  if !atLineEnd (← ahead) then failure
  let _ ← passBreak
  let c ← get
  let known := if increment = 0 then 0 else (max c.indent 0).toNat + increment
  let (indent, breaks) ← passIndent c.indent known fuel 0 []
  let (text, first, breaks) ← blockLines folded c.indent indent fuel [] [] breaks false
  match chomping with
  | .strip => return text.reverse
  | .clip => return text.reverse ++ first
  | .keep => return text.reverse ++ first ++ breaks

def cutBlock (folded : Bool) (fuel : Nat) : Cut Unit := do
  dropKey
  allowKey true
  let text ← blockScalar folded fuel
  emit (.scalar (if folded then .folded else .literal) (String.ofList text))

end ScriptEngine.Yaml
